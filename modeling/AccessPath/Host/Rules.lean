import AccessPath.Host.Store
import AccessPath.Registry.Basic

/-!
# Rules of scripted hosts

The members, methods, extensions and lambdas of a scripted host are described by rules: what they
answer, and what they change in the store. A rule carries nothing but data, so a whole host can be
read from a description of it.
-/

namespace AccessPath.Host

/-- What a member answers. -/
inductive MemberRule where
  | field (name : String)
  | const (v : Value)
  deriving Repr

def MemberRule.read : MemberRule → ObjectRef → Store → Value × Store
  | .field name, ref, s => (s.field ref name, s)
  | .const v, _, s => (v, s)

/-- What a method does. -/
inductive MethodRule where
  | get (field : String)
  /-- Stores the first argument and answers the value before. -/
  | set (field : String)
  | const (v : Value)
  | arg (index : Nat)
  /-- Answers a label followed by the texts of the arguments. -/
  | format (label : String)
  /-- Counts and answers the count. -/
  | tick
  | fail (e : EvalError)
  deriving Repr

def MethodRule.body : MethodRule → ObjectRef → List Value → Action Store Value
  | .get field, ref, _, s => (.ok (s.field ref field), s)
  | .set field, ref, args, s => (.ok (s.field ref field), s.setField ref field (args.head?.getD .absent))
  | .const v, _, _, s => (.ok v, s)
  | .arg index, _, args, s => (.ok (args[index]?.getD .absent), s)
  | .format label, _, args, s => (.ok (.string (label ++ "|".intercalate (args.map Value.render))), s)
  | .tick, ref, _, s =>
    let s := s.tick ref
    (.ok (.long (s.object ref).ticks), s)
  | .fail e, _, _, s => (.error e, s)

/-- What an extension does. -/
inductive ExtensionRule where
  | receiver
  | const (v : Value)
  /-- Feeds the receiver through the lambda so many times; absent without a lambda. -/
  | apply (times : Nat)
  /-- Answers how the extension was called. -/
  | describe
  | fail (e : EvalError)
  deriving Repr

namespace ExtensionRule

/-- A value fed through the lambda again and again. -/
def feed : Nat → Value → Script Store Value
  | 0, v => return v
  | n + 1, v => do feed n (← Script.ask v)

/-- How an extension was called. -/
def description (method : MethodSig) (receiver : Value) (lambda : String) : String :=
  method.name ++ "[" ++ "; ".intercalate (method.params.map Ty.render) ++ "]:" ++
    method.result.render ++ " " ++ receiver.typeName ++ " " ++ lambda

def extension : ExtensionRule → Extension Store
  | .receiver => ⟨fun _ receiver => Action.ofExcept (.ok receiver), fun _ receiver => pure receiver⟩
  | .const v => ⟨fun _ _ => Action.ofExcept (.ok v), fun _ _ => pure v⟩
  | .apply times => ⟨fun _ _ => Action.ofExcept (.ok .absent), fun _ receiver => feed times receiver⟩
  | .describe =>
    ⟨fun method receiver => Action.ofExcept (.ok (.string (description method receiver "-"))),
      fun method receiver => pure (.string (description method receiver "lambda"))⟩
  | .fail e => ⟨fun _ _ => Action.ofExcept (.error e), fun _ _ => Script.fail e⟩

end ExtensionRule

/-- What a scripted lambda answers. -/
inductive LambdaRule where
  | identity
  | isEven
  | double
  | display
  | const (v : Value)
  | equals (v : Value)
  | fail (e : EvalError)
  /-- Answers with the store's next answer at each call. -/
  | script
  deriving Repr

namespace LambdaRule

/-- The answer to a call. -/
def answer : LambdaRule → Value → Action Store Value
  | .identity, v, s => (.ok v, s)
  | .isEven, .int n, s => (.ok (.bool (n % 2 = 0)), s)
  | .isEven, v, s => (.error (.typeMismatch v.typeName), s)
  | .double, .int n, s => (.ok (.int (2 * n)), s)
  | .double, v, s => (.error (.typeMismatch v.typeName), s)
  | .display, v, s => (.ok (.string v.render), s)
  | .const c, _, s => (.ok c, s)
  | .equals c, v, s => (.ok (.bool (v.eqv c)), s)
  | .fail e, _, s => (.error e, s)
  | .script, _, s =>
    match s.answers with
    | [] => (.error (.invocation "script exhausted"), s)
    | a :: rest => (.ok a, { s with answers := rest })

/-- A scripted lambda as a run: it notes what it is called on, and answers. -/
def lambda (rule : LambdaRule) (item : Value) : Run Store Value :=
  Run.ofAction fun s => rule.answer item { s with heard := s.heard ++ [item] }

end LambdaRule

/-- The registration of a host type by rules. -/
def classRegistration (host : HostType) (name : String) (members : List (String × MemberRule))
    (methods : List (String × Nat × MethodRule)) : Registration Store :=
  .hostClass host name (members.map fun m => (m.1, m.2.read))
    (methods.map fun m => (m.1, m.2.1, m.2.2.body))

end AccessPath.Host
