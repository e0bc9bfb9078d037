import AccessPath.Eval.Introspector
import AccessPath.Registry.Basic

/-!
# Introspection by registration

A registry answers an evaluation's questions. Objects answer by the registration of their host type,
records by their own fields. Every value answers `to_string` and `equals`, unless its class has
registered the name; every other question that no registration answers is an error.

The zero value of a registered value type is made from its layout, field by field. For a value type that
contains itself there is no end to that: a program that makes zero values so does not return. Here a
layout is used once, so that the recursion ends; what `zeroByLayout` then answers for such a type has no
meaning. Results that rest on the zero values of structs are for layouts that do not contain themselves,
where it makes no difference that a layout is left out inside of itself.
-/

namespace AccessPath

/-- A call is made with the number of arguments that the method takes. -/
def checkArity (typeName method : String) (arity count : Nat) : Except EvalError Unit :=
  if arity = count then .ok () else .error (.wrongArity typeName method arity count)

/-- The methods that every value answers. -/
def invokeBuiltin (receiver : Value) (method : MethodSig) (args : List Value) :
    Except EvalError Value :=
  match method.name, args with
  | "to_string", [] => .ok (.string receiver.render)
  | "to_string", args => .error (.wrongArity receiver.typeName "to_string" 0 args.length)
  | "equals", [arg] => .ok (.bool (arg.eqv receiver))
  | "equals", args => .error (.wrongArity receiver.typeName "equals" 1 args.length)
  | name, _ => .error (.methodNotFound receiver.typeName name)

/-- The layouts of all value types but one. -/
def layoutsBut (name : String) (layouts : Table String FieldLayout) : Table String FieldLayout :=
  layouts.filter fun l => l.1 ≠ name

theorem length_layoutsBut_lt {name : String} {layouts : Table String FieldLayout}
    {fields : FieldLayout} (h : layouts.lookup name = some fields) :
    (layoutsBut name layouts).length < layouts.length := by
  obtain ⟨before, after, hl, -⟩ := List.lookup_eq_some_iff.mp h
  rw [layoutsBut, List.length_filter_lt_length_iff_exists]
  exact ⟨(name, fields), by simp [hl], by simp⟩

/-- The zero value of a type under given layouts, if no layout contains itself. -/
def zeroByLayout (layouts : Table String FieldLayout) (ty : Ty) : Except EvalError Value :=
  match ty with
  | .struct name =>
    match _h : layouts.lookup name with
    | none => .error (.unregisteredType name)
    | some fields => do
      let values ← fields.mapM fun field => do
        return (field.1, ← zeroByLayout (layoutsBut name layouts) field.2)
      return .record name values
  | ty => zeroBuiltin ty
termination_by layouts.length
decreasing_by exact length_layoutsBut_lt (by assumption)

/-- A host procedure is only given objects of the type it was registered for. -/
def checkHost (host : HostType) (typeName : String) (object : ObjectRef) : Except EvalError Unit :=
  if object.host = host then .ok () else .error (.wrongHost typeName)

/-- Reads a member of an object with a getter. -/
def Getter.apply {σ : Type} (g : Getter σ) (object : ObjectRef) : Action σ Value := fun s =>
  match checkHost g.host g.typeName object with
  | .error e => (.error e, s)
  | .ok () =>
    let (v, s) := g.read object s
    (.ok v, s)

/-- Invokes a method of an object, known by its class's name. -/
def Method.apply {σ : Type} (m : Method σ) (className name : String) (object : ObjectRef)
    (args : List Value) : Action σ Value := fun s =>
  match checkArity className name m.arity args.length with
  | .error e => (.error e, s)
  | .ok () =>
    match checkHost m.host m.typeName object with
    | .error e => (.error e, s)
    | .ok () => m.body object args s

namespace Registry

variable {σ : Type}

/-- What is registered for an object's host type. -/
def classOf (r : Registry σ) (object : ObjectRef) : Except EvalError (HostClass σ) :=
  match r.classes.lookup object.host with
  | some known => .ok known
  | none => .error (.unregisteredType object.host.name)

/-- Reads a member. -/
def readMember (r : Registry σ) (target : Value) (member : MemberSig) : Action σ Value :=
  match target with
  | .object object =>
    match r.classOf object with
    | .error e => Action.ofExcept (.error e)
    | .ok known =>
      match known.getters.lookup member.name with
      | some getter => getter.apply object
      | none => Action.ofExcept (.error (.memberNotFound known.name member.name))
  | .record typeName fields =>
    match fields.lookup member.name with
    | some v => Action.ofExcept (.ok v)
    | none => Action.ofExcept (.error (.memberNotFound typeName member.name))
  | v => Action.ofExcept (.error (.memberNotFound v.typeName member.name))

/-- Invokes a method. -/
def invoke (r : Registry σ) (receiver : Value) (method : MethodSig) (args : List Value) :
    Action σ Value :=
  match receiver with
  | .object object =>
    match r.classOf object with
    | .error e => Action.ofExcept (.error e)
    | .ok known =>
      match known.methods.lookup method.name with
      | some m => m.apply known.name method.name object args
      | none => Action.ofExcept (invokeBuiltin receiver method args)
  | receiver => Action.ofExcept (invokeBuiltin receiver method args)

/-- The introspector that answers from a registry. -/
def introspector (r : Registry σ) : Introspector σ where
  readMember := r.readMember
  invoke := r.invoke
  invokeExtension method receiver :=
    match r.extensions.lookup method.name with
    | some extension => extension.alone method receiver
    | none => Action.ofExcept (.error (.extensionNotFound method.name))
  invokeExtensionWith method receiver :=
    match r.extensions.lookup method.name with
    | some extension => extension.withLambda method receiver
    | none => Script.fail (.extensionNotFound method.name)
  zeroValue := zeroByLayout r.layouts

end Registry

end AccessPath
