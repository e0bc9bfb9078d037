import AccessPath.Host.Rules
import AccessPath.Proofs.Registrations

/-!
# Dispatch by host type

After any sequence of registrations an object answers by the entries for its own host type, and by nothing else
(`Registry.MadeBy.dispatch`): its class goes by the first display name, a member is read by the getter that was
registered last for it, and a method is the one that was registered last under its name, or else one of those
that every value has. Entries for other host types do not count, not even under the same names.

Each getter and method is kept in the class of the host type that it was registered for, so the check of the
object's type, which is made before a getter or a method runs, always passes. Where there is no answer nothing
that was registered has run: the host is as before, and the answer does not depend on what getters and methods
do.
-/

namespace AccessPath

variable {σ : Type}

open Registration

theorem Getter.apply_of_host {g : Getter σ} {o : ObjectRef} (h : g.host = o.host) (s : σ) :
    g.apply o s = (.ok (g.read o s).1, (g.read o s).2) := by
  simp only [Getter.apply, checkHost, h, if_true]

theorem Method.apply_of_host {m : Method σ} {o : ObjectRef} (h : m.host = o.host) (className name : String)
    (args : List Value) (s : σ) :
    m.apply className name o args s =
      if args.length = m.arity then m.body o args s
      else (.error (.wrongArity className name m.arity args.length), s) := by
  by_cases harity : m.arity = args.length
  · simp only [Method.apply, checkArity, checkHost, h, harity, if_true]
  · simp only [Method.apply, checkArity, if_neg harity, if_neg (Ne.symm harity)]

/-- The methods that an object has without any being registered, and no others. -/
theorem invokeBuiltin_object (o : ObjectRef) (f : MethodSig) (args : List Value) :
    (f.name = "to_string" → invokeBuiltin (.object o) f args =
      if args.length = 0 then .ok (.string o.host.name)
      else .error (.wrongArity o.host.name "to_string" 0 args.length)) ∧
    (f.name = "equals" →
      (∀ arg, args = [arg] → invokeBuiltin (.object o) f args = .ok (.bool (arg.eqv (.object o)))) ∧
      (args.length ≠ 1 →
        invokeBuiltin (.object o) f args = .error (.wrongArity o.host.name "equals" 1 args.length))) ∧
    (f.name ≠ "to_string" → f.name ≠ "equals" →
      invokeBuiltin (.object o) f args = .error (.methodNotFound o.host.name f.name)) := by
  refine ⟨fun hname => ?_, fun hname => ⟨?_, fun hlength => ?_⟩, fun hstring hequals => ?_⟩
  · cases args with
    | nil => simp only [invokeBuiltin, hname]; rfl
    | cons arg args => simp only [invokeBuiltin, hname]; rfl
  · rintro arg rfl
    simp only [invokeBuiltin, hname]
  · simp only [invokeBuiltin, hname]
    match args, hlength with
    | [], _ => rfl
    | _ :: _ :: _, _ => rfl
  · unfold invokeBuiltin
    split <;> simp_all [Value.typeName]

theorem invokeBuiltin_ne_wrongHost (v : Value) (f : MethodSig) (args : List Value) (text : String) :
    invokeBuiltin v f args ≠ .error (.wrongHost text) := by
  intro h
  unfold invokeBuiltin at h
  split at h <;> cases h

namespace ClassEntry

/-- An entry without what its getters and methods do. -/
def outline (e : ClassEntry σ) : String × Table String Unit × Table String Nat :=
  (e.name, e.members.map fun m => (m.1, ()), e.methods.map fun m => (m.1, m.2.1))

variable {entries entries' : List (ClassEntry σ)}

/-- Entries of the same outlines have the same first name, know the same members, and methods of the same
arities. -/
theorem same_of_outlines (h : entries.map outline = entries'.map outline) (name : String) :
    entries.head?.map ClassEntry.name = entries'.head?.map ClassEntry.name ∧
    ((allMembers entries).last? name).map (fun _ => ()) =
      ((allMembers entries').last? name).map (fun _ => ()) ∧
    ((allMethods entries).last? name).map Prod.fst = ((allMethods entries').last? name).map Prod.fst := by
  have hhead : ∀ es : List (ClassEntry σ),
      es.head?.map ClassEntry.name = (es.map outline).head?.map Prod.fst := by
    intro es
    cases es <;> rfl
  have hmembers : ∀ es : List (ClassEntry σ), ((allMembers es).last? name).map (fun _ => ()) =
      Table.last? ((es.map outline).flatMap (·.2.1)) name := by
    intro es
    rw [← Table.last?_map, allMembers, List.map_flatMap, List.flatMap_map]
    rfl
  have hmethods : ∀ es : List (ClassEntry σ), ((allMethods es).last? name).map Prod.fst =
      Table.last? ((es.map outline).flatMap (·.2.2)) name := by
    intro es
    rw [← Table.last?_map, allMethods, List.map_flatMap, List.flatMap_map]
    rfl
  rw [hhead, hhead, hmembers, hmembers, hmethods, hmethods, h]
  exact ⟨rfl, rfl, rfl⟩

end ClassEntry

namespace Registry

variable {r r' : Registry σ} {rs rs' : List (Registration σ)}

theorem Reflects.readMember_object (h : r.Reflects rs) (o : ObjectRef) (m : MemberSig) (s : σ) :
    r.readMember (.object o) m s =
      match (entriesFor o.host rs).head?, (ClassEntry.allMembers (entriesFor o.host rs)).last? m.name with
      | none, _ => (.error (.unregisteredType o.host.name), s)
      | some first, none => (.error (.memberNotFound first.name m.name), s)
      | some _, some read => (.ok (read o s).1, (read o s).2) := by
  simp only [readMember, classOf, h.classes, HostClass.ofEntries?]
  cases (entriesFor o.host rs).head? with
  | none => rfl
  | some first =>
    simp only [Option.map_some, HostClass.getters_lookup]
    cases (ClassEntry.allMembers (entriesFor o.host rs)).last? m.name with
    | none => rfl
    | some read => exact Getter.apply_of_host rfl s

theorem Reflects.invoke_object (h : r.Reflects rs) (o : ObjectRef) (f : MethodSig) (args : List Value) (s : σ) :
    r.invoke (.object o) f args s =
      match (entriesFor o.host rs).head?, (ClassEntry.allMethods (entriesFor o.host rs)).last? f.name with
      | none, _ => (.error (.unregisteredType o.host.name), s)
      | some first, some (arity, body) =>
        if args.length = arity then body o args s
        else (.error (.wrongArity first.name f.name arity args.length), s)
      | some _, none => (invokeBuiltin (.object o) f args, s) := by
  simp only [invoke, classOf, h.classes, HostClass.ofEntries?]
  cases (entriesFor o.host rs).head? with
  | none => rfl
  | some first =>
    simp only [Option.map_some, HostClass.methods_lookup]
    cases (ClassEntry.allMethods (entriesFor o.host rs)).last? f.name with
    | none => rfl
    | some m => exact Method.apply_of_host rfl first.name f.name args s

/-- No getter is handed an object of another type than its own. -/
theorem Reflects.readMember_ne_wrongHost (h : r.Reflects rs) (o : ObjectRef) (m : MemberSig) (s : σ)
    (text : String) : (r.readMember (.object o) m s).1 ≠ .error (.wrongHost text) := by
  rw [h.readMember_object]
  split <;> exact nofun

/-- Nor is a method: where a call ends with the error that says so, the method itself has made it. -/
theorem Reflects.body_of_invoke_wrongHost (h : r.Reflects rs) (o : ObjectRef) (f : MethodSig)
    (args : List Value) (s : σ) (text : String)
    (herror : (r.invoke (.object o) f args s).1 = .error (.wrongHost text)) :
    ∃ body, (ClassEntry.allMethods (entriesFor o.host rs)).last? f.name = some (args.length, body) ∧
      (body o args s).1 = .error (.wrongHost text) := by
  rw [h.invoke_object] at herror
  split at herror
  · cases herror
  · next arity body _ hbody =>
    split at herror
    · next harity =>
      rw [harity]
      exact ⟨body, hbody, herror⟩
    · cases herror
  · exact absurd herror (invokeBuiltin_ne_wrongHost _ f args text)

/-- What getters do does not matter to an error in reading a member. -/
theorem Reflects.readMember_of_outlines (h : r.Reflects rs) (h' : r'.Reflects rs') {o : ObjectRef}
    (houtlines : (entriesFor o.host rs').map ClassEntry.outline =
      (entriesFor o.host rs).map ClassEntry.outline) {m : MemberSig} {s : σ} {e : EvalError}
    (herror : (r.readMember (.object o) m s).1 = .error e) :
    r'.readMember (.object o) m s = (.error e, s) := by
  obtain ⟨hhead, hmembers, -⟩ := ClassEntry.same_of_outlines houtlines m.name
  rw [h.readMember_object] at herror
  rw [h'.readMember_object]
  generalize (entriesFor o.host rs).head? = first at *
  generalize (entriesFor o.host rs').head? = first' at *
  generalize (ClassEntry.allMembers (entriesFor o.host rs)).last? m.name = read at *
  generalize (ClassEntry.allMembers (entriesFor o.host rs')).last? m.name = read' at *
  cases first <;> cases first' <;> cases read <;> cases read' <;> simp_all

/-- What methods do does not matter to a call that none of them is made for. -/
theorem Reflects.invoke_of_outlines (h : r.Reflects rs) (h' : r'.Reflects rs') {o : ObjectRef}
    (houtlines : (entriesFor o.host rs').map ClassEntry.outline =
      (entriesFor o.host rs).map ClassEntry.outline) {f : MethodSig} {args : List Value}
    (hunfit : ∀ body, (ClassEntry.allMethods (entriesFor o.host rs)).last? f.name ≠ some (args.length, body))
    (s : σ) : r'.invoke (.object o) f args s = ((r.invoke (.object o) f args s).1, s) := by
  obtain ⟨hhead, -, hmethods⟩ := ClassEntry.same_of_outlines houtlines f.name
  rw [h.invoke_object, h'.invoke_object]
  generalize (entriesFor o.host rs).head? = first at *
  generalize (entriesFor o.host rs').head? = first' at *
  generalize (ClassEntry.allMethods (entriesFor o.host rs)).last? f.name = method at *
  generalize (ClassEntry.allMethods (entriesFor o.host rs')).last? f.name = method' at *
  have harity : ∀ m, method = some m → args.length ≠ m.1 := by
    intro m hm hlength
    exact hunfit m.2 (by rw [hm, hlength])
  cases first <;> cases first' <;> cases method <;> cases method' <;> simp_all

/-- Whatever was registered, in whichever order, an object answers by the entries for its host type.

If there are none, its type is unregistered. Otherwise its class goes by the first display name; a member is what
the getter says that was registered for it last, and is not found if there is none; a method is the one that was
registered last under its name, if it is given as many arguments as that one takes, and if there is none, one of
the methods of every value. No getter or method is given an object of another type than the one it was registered
for. Entries for other host types make no difference. In an error case, and where a method of every value answers,
the host is left as it is and nothing depends on what the registered getters and methods do: none has run. -/
theorem MadeBy.dispatch (h : r.MadeBy rs) (o : ObjectRef) (s : σ) :
    let entries := entriesFor o.host rs
    (∀ m : MemberSig, r.readMember (.object o) m s =
      match entries.head?, (ClassEntry.allMembers entries).last? m.name with
      | none, _ => (.error (.unregisteredType o.host.name), s)
      | some first, none => (.error (.memberNotFound first.name m.name), s)
      | some _, some read => (.ok (read o s).1, (read o s).2)) ∧
    (∀ (f : MethodSig) (args : List Value), r.invoke (.object o) f args s =
      match entries.head?, (ClassEntry.allMethods entries).last? f.name with
      | none, _ => (.error (.unregisteredType o.host.name), s)
      | some first, some (arity, body) =>
        if args.length = arity then body o args s
        else (.error (.wrongArity first.name f.name arity args.length), s)
      | some _, none => (invokeBuiltin (.object o) f args, s)) ∧
    (∀ (f : MethodSig) (args : List Value),
      (f.name = "to_string" → invokeBuiltin (.object o) f args =
        if args.length = 0 then .ok (.string o.host.name)
        else .error (.wrongArity o.host.name "to_string" 0 args.length)) ∧
      (f.name = "equals" →
        (∀ arg, args = [arg] → invokeBuiltin (.object o) f args = .ok (.bool (arg.eqv (.object o)))) ∧
        (args.length ≠ 1 →
          invokeBuiltin (.object o) f args = .error (.wrongArity o.host.name "equals" 1 args.length))) ∧
      (f.name ≠ "to_string" → f.name ≠ "equals" →
        invokeBuiltin (.object o) f args = .error (.methodNotFound o.host.name f.name))) ∧
    ((∀ m text, (r.readMember (.object o) m s).1 ≠ .error (.wrongHost text)) ∧
      ∀ (f : MethodSig) (args : List Value) (text : String),
        (r.invoke (.object o) f args s).1 = .error (.wrongHost text) →
        ∃ body, (ClassEntry.allMethods entries).last? f.name = some (args.length, body) ∧
          (body o args s).1 = .error (.wrongHost text)) ∧
    (∀ (r' : Registry σ) (rs' : List (Registration σ)), r'.MadeBy rs' → entriesFor o.host rs' = entries →
      (∀ m, r'.readMember (.object o) m s = r.readMember (.object o) m s) ∧
      ∀ f args, r'.invoke (.object o) f args s = r.invoke (.object o) f args s) ∧
    ∀ (r' : Registry σ) (rs' : List (Registration σ)), r'.MadeBy rs' →
      (entriesFor o.host rs').map ClassEntry.outline = entries.map ClassEntry.outline →
      (∀ m e, (r.readMember (.object o) m s).1 = .error e → r'.readMember (.object o) m s = (.error e, s)) ∧
      ∀ (f : MethodSig) (args : List Value),
        (∀ body, (ClassEntry.allMethods entries).last? f.name ≠ some (args.length, body)) →
        r'.invoke (.object o) f args s = ((r.invoke (.object o) f args s).1, s) := by
  intro entries
  have hr := h.reflects
  refine ⟨fun m => hr.readMember_object o m s, fun f args => hr.invoke_object o f args s,
    invokeBuiltin_object o, ⟨fun m => hr.readMember_ne_wrongHost o m s,
      fun f args => hr.body_of_invoke_wrongHost o f args s⟩, ?_, ?_⟩
  · intro r' rs' h' hentries
    have hr' := h'.reflects
    refine ⟨fun m => ?_, fun f args => ?_⟩
    · rw [hr.readMember_object, hr'.readMember_object, hentries]
    · rw [hr.invoke_object, hr'.invoke_object, hentries]
  · intro r' rs' h' houtlines
    exact ⟨fun m e => hr.readMember_of_outlines h'.reflects houtlines,
      fun f args hunfit => hr.invoke_of_outlines h'.reflects houtlines hunfit s⟩

/-- Two types of orders that share their names, one of them registered twice; and a type of stocks whose name
another type goes by. -/
theorem dispatch_orders :
    let order : HostType := ⟨0, "Order"⟩
    let oldOrder : HostType := ⟨1, "Order"⟩
    let stock : HostType := ⟨2, "Stock"⟩
    let rs : List (Registration Host.Store) :=
      [Host.classRegistration order "Sale" [("total", .const (.int 1)), ("note", .field "note")] [],
       .valueType "Stock" [("total", .int)],
       Host.classRegistration oldOrder "Sale" [("total", .const (.int 9)), ("age", .field "age")] [],
       Host.classRegistration order "Stock" [("total", .const (.int 2))] [("tick", 0, .tick)]]
    let r := Registry.withSequences.registerAll rs
    let o : ObjectRef := ⟨0, order⟩
    let s : Host.Store := ⟨[⟨[], 0⟩], [], []⟩
    r.MadeBy rs ∧
      (r.readMember (.object o) ⟨"total", .int⟩ s).1 = .ok (.int 2) ∧
      (r.readMember (.object o) ⟨"age", .int⟩ s).1 = .error (.memberNotFound "Sale" "age") ∧
      (r.readMember (.object ⟨0, stock⟩) ⟨"total", .int⟩ s).1 = .error (.unregisteredType "Stock") ∧
      (r.invoke (.object o) ⟨"tick", [], .long⟩ [] s).1 = .ok (.long 1) ∧
      r.invoke (.object o) ⟨"tick", [], .long⟩ [.int 1] s = (.error (.wrongArity "Sale" "tick" 0 1), s) ∧
      r.invoke (.object o) ⟨"to_string", [], .string⟩ [] s = (.ok (.string "Order"), s) := by
  intro order oldOrder stock rs r o s
  have hr : r.MadeBy rs := .fromSequences
  obtain ⟨hread, hinvoke, hbuiltin, -⟩ := hr.dispatch o s
  obtain ⟨hreadStock, -⟩ := hr.dispatch ⟨0, stock⟩ s
  have htext := (hbuiltin ⟨"to_string", [], .string⟩ []).1 rfl
  refine ⟨hr, ?_, ?_, ?_, ?_, ?_, ?_⟩
  · rw [hread]
    rfl
  · rw [hread]
    rfl
  · rw [hreadStock]
    rfl
  · rw [hinvoke]
    rfl
  · rw [hinvoke]
    rfl
  · rw [hinvoke]
    show (invokeBuiltin _ _ _, s) = _
    rw [htext]
    rfl

end Registry

end AccessPath
