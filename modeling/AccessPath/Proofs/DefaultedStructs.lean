import AccessPath.Proofs.Fallback
import AccessPath.Proofs.Locality
import AccessPath.Proofs.ZeroValues

/-!
# Members of a defaulted struct

A struct that takes the place of a missing one has the fields of its layout, and all of them are zero values. So
the fields that the layouts declare can be read off it, off the struct in one of its fields, and so on: such a
chain of members never fails, whatever types the path declares for them, and ends with the zero value of the type
that the layouts give to the last field (`Registry.MadeBy.evaluate_defaulted_fields`).

What is read so is no default. A field of a string or set type is absent in a zero value, while a string or a set
of a missing parent would be answered by an empty one.
-/

namespace AccessPath

variable {σ : Type}

/-- From field to field, these names lead from the one type to the other. Of several fields of a name the first
counts. -/
inductive Layouts.Leads (layout : Layouts) : Ty → List String → Ty → Prop
  | here (ty : Ty) : Leads layout ty [] ty
  | field {name label : String} {fields : FieldLayout} {inner ty : Ty} {labels : List String}
      (h : layout name = some fields) (first : fields.lookup label = some inner)
      (rest : Leads layout inner labels ty) : Leads layout (.struct name) (label :: labels) ty

variable {table : Table String FieldLayout} {name label : String} {fields : FieldLayout} {ty inner : Ty}

/-- Under the first label of its name, the zero of a field is found among those of all fields. -/
theorem lookup_zeroFields {values : List (String × Value)} (h : zeroFields table fields = .ok values)
    (hfield : fields.lookup label = some ty) :
    ∃ v, zeroByLayout table ty = .ok v ∧ values.lookup label = some v := by
  induction fields generalizing values with
  | nil => cases hfield
  | cons field rest ih =>
    obtain ⟨other, otherTy⟩ := field
    rw [zeroFields_cons] at h
    cases hfirst : zeroByLayout table otherTy with
    | error e => rw [hfirst] at h; cases h
    | ok v =>
      cases hrest : zeroFields table rest with
      | error e => rw [hfirst, hrest] at h; cases h
      | ok restValues =>
        rw [hfirst, hrest] at h
        cases h
        rw [List.lookup_cons] at hfield ⊢
        cases hlabel : label == other with
        | true =>
          simp only [hlabel, Option.some.injEq] at hfield
          exact ⟨v, hfield ▸ hfirst, rfl⟩
        | false =>
          simp only [hlabel] at hfield
          exact ih hrest hfield

namespace Registry

variable {r : Registry σ}

/-- A field that the layout of a struct declares can be read off the zero value of that struct, which is present,
and is the zero value of the type that it has there. -/
theorem readMember_zero (hacyclic : (layoutsOf r.layouts).Acyclic) {v : Value}
    (hzero : zeroByLayout r.layouts (.struct name) = .ok v) (hfields : r.layouts.lookup name = some fields)
    {m : MemberSig} (hfield : fields.lookup m.name = some inner) :
    v.isAbsent = false ∧ ∃ w, zeroByLayout r.layouts inner = .ok w ∧ ∀ s, r.readMember v m s = (.ok w, s) := by
  rw [zeroByLayout_of_some hacyclic hfields] at hzero
  cases hvalues : zeroFields r.layouts fields with
  | error e => rw [hvalues] at hzero; cases hzero
  | ok values =>
    rw [hvalues] at hzero
    cases hzero
    obtain ⟨w, hw, hlookup⟩ := lookup_zeroFields hvalues hfield
    refine ⟨rfl, w, hw, fun s => ?_⟩
    simp only [readMember, hlookup]
    rfl

/-- The default for a type is its zero value, unless it is a string or a set. -/
theorem default_eq_zeroValue (r : Registry σ) (hstring : ty ≠ .string) (hset : ∀ element, ty ≠ .set element) :
    r.introspector.default ty = r.introspector.zeroValue ty := by
  have hzero : r.introspector.zeroValue = zeroByLayout r.layouts := rfl
  cases ty with
  | string => exact absurd rfl hstring
  | set element => exact absurd rfl (hset element)
  | bool | int | long | double | struct name => rfl
  | _ => simp [Introspector.default, Ty.isValueType, hzero, zeroByLayout, zeroBuiltin]

end Registry

namespace Path

variable {r : Registry σ}

/-- In the place of what would be had of an absent parent stands the default for the declared type. -/
theorem evalAt_onto_of_absent {c : Scene σ} {bs : Bindings} {d : Nat} {s : σ} {l : Link} {q : Path}
    {parent : Resolved} {v : Value} (hparent : (q.evalAt c bs (d + 1) s).result = .ok parent)
    (habsent : parent.value = .absent) (hdefault : c.introspector.default l.ty = .ok v) :
    (l.onto q).evalAt c bs d s = ⟨.ok (.substituted v), (q.evalAt c bs (d + 1) s).host,
      .visited l.kindName d :: ((q.evalAt c bs (d + 1) s).trace ++ c.substitution l.site l.ty)⟩ := by
  have hdepth : d + 1 ≤ c.settings.maxDepth := depth_le_of_ok hparent
  rw [evalAt_onto_of_le (by omega), Run.bind_of_ok hparent, Link.answer_of_absent _ _ _ _ habsent,
    Scene.substitute_apply, hdefault]
  rfl

/-- From a zero value, members are read along declared fields, one zero value after the other. -/
theorem ascend_declared_fields (hacyclic : (layoutsOf r.layouts).Acyclic) (settings : Settings) (root : Value)
    (bs : Bindings) (d : Nat) (s : σ) {ms : List MemberSig}
    (hleads : (layoutsOf r.layouts).Leads ty (ms.map MemberSig.name) inner) {v : Value}
    (hzero : zeroByLayout r.layouts ty = .ok v) :
    ∃ w, zeroByLayout r.layouts inner = .ok w ∧
      let o := ascend ⟨r.introspector, settings, root⟩ bs d (ms.map Link.member) (.read v) s
      o.result = .ok (.read w) ∧ o.host = s := by
  induction ms generalizing ty v with
  | nil =>
    cases hleads
    exact ⟨v, hzero, rfl, rfl⟩
  | cons m ms ih =>
    cases hleads with
    | field hfields first rest =>
      obtain ⟨hpresent, w, hw, hread⟩ := Registry.readMember_zero hacyclic hzero hfields first
      obtain ⟨last, hlast, hresult, hhost⟩ := ih rest hw
      have hanswer : (Link.member m).answer ⟨r.introspector, settings, root⟩ bs
          (d + (ms.map Link.member).length) (.read v) s =
          ⟨.ok (.read w), s, [.asked (.readMember v m)]⟩ := by
        have haction : r.introspector.readMember v m s = (.ok w, s) := hread s
        rw [Link.answer_of_present _ _ _ _ (by exact hpresent)]
        simp only [Link.proceed, Scene.readMember, Run.emit_bind_apply, Run.bind_pure_apply, Run.ofAction,
          Resolved.value, haction]
        rfl
      refine ⟨last, hlast, ?_⟩
      rw [List.map_cons, ascend, Run.bind_of_ok (by rw [hanswer]), hanswer]
      exact ⟨hresult, hhost⟩

/-- What is fetched as absent is absent wherever there is room for it within the limit. -/
theorem absentAt_of_fetch {i : Introspector σ} {target : Path} {d : Nat} {s : σ}
    (h : (target.fetch i settings root s).result = .ok .absent) (hd : d + target.height ≤ settings.maxDepth) :
    target.AbsentAt ⟨i, settings, root⟩ [] d s := by
  have hlocal : Run.Agree .endings (Comparison.endings : Comparison σ).SameAnswer
      (target.evalAt ⟨i, settings, root⟩ [] 0) (target.evalAt ⟨i, settings, root⟩ [] d) :=
    evalAt_local (fun _ _ => rfl) (i.agree_self fun _ => trivial)
      (i.scriptsAgree_self (fun _ => trivial) fun _ _ he => he) (fun _ _ => rfl) (by simp only; omega) hd
  have hresult := (hlocal s trivial).result
  rw [fetch_result_evalAt] at h
  cases hroot : (target.evalAt ⟨i, settings, root⟩ [] 0 s).result with
  | error e => rw [hroot] at h; cases h
  | ok a =>
    cases hdeep : (target.evalAt ⟨i, settings, root⟩ [] d s).result with
    | error e => rw [hroot, hdeep] at hresult; exact hresult.elim
    | ok b =>
      rw [hroot, hdeep] at hresult
      rw [hroot] at h
      exact ⟨b, hdeep, hresult.1 ▸ Except.ok.inj h⟩

end Path

namespace Registry

open AccessPath.Path Registration

variable {r : Registry σ} {rs : List (Registration σ)}

/-- Reading declared fields off a defaulted struct never fails. Where the parent of a member of a struct type is
absent, and nothing unregistered is reached from that type, any chain of members whose names follow the layouts
from the struct on is answered by the zero value of the type that the last field has there. The types that the
path declares for these members do not matter; the answer does not count as a default, and the host is as the
absent parent has left it. The answer is the default for its type all the same, except that a string or a set is
absent. The parent is evaluated deepest of all, so the limit has room for the chain if it has room for that. -/
theorem MadeBy.evaluate_defaulted_fields (hr : r.MadeBy rs) (hacyclic : Layouts.Acyclic (lastLayout? rs))
    (hcomplete : Layouts.Complete (lastLayout? rs) (.struct name)) (ms : List MemberSig) (hsome : ms ≠ [])
    (hleads : Layouts.Leads (lastLayout? rs) (.struct name) (ms.map MemberSig.name) ty) (site : String)
    (target : Path) (settings : Settings) (root : Value) (s : σ)
    (habsent : target.AbsentAt ⟨r.introspector, settings, root⟩ [] (ms.length + 1) s) :
    let c : Scene σ := ⟨r.introspector, settings, root⟩
    let p := (memberAccess target ⟨site, .struct name⟩).chain (ms.map Link.member)
    let o := p.evaluate r.introspector settings root s
    ∃ v, r.introspector.zeroValue ty = .ok v ∧
      o.result = .ok ⟨v, p.declaredType, false⟩ ∧
      o.host = (target.evalAt c [] (ms.length + 1) s).host ∧
      (ty ≠ .string → (∀ element, ty ≠ .set element) → r.introspector.default ty = .ok v) ∧
      ((ty = .string ∨ ∃ element, ty = .set element) → v = .absent) := by
  intro c p o
  have hlayouts : lastLayout? rs = layoutsOf r.layouts := (funext hr.reflects.layouts).symm
  rw [hlayouts] at hacyclic hcomplete hleads
  obtain ⟨record, hrecord, -⟩ := zeroByLayout_ok hacyclic hcomplete
  obtain ⟨a, hparent, ha⟩ := habsent
  let left := (target.evalAt c [] (ms.length + 1) s).host
  obtain ⟨v, hv, hresult, hhost⟩ := ascend_declared_fields hacyclic settings root [] 0 left hleads hrecord
  -- the struct itself: its parent is absent, so it is the default for its declared type
  have hdefault : c.introspector.default (Link.member ⟨site, .struct name⟩).ty = .ok record := hrecord
  have hstruct : (memberAccess target ⟨site, .struct name⟩).evalAt c [] (0 + (ms.map Link.member).length) s =
      ⟨.ok (.substituted record), left, .visited "member access" ms.length ::
        ((target.evalAt c [] (ms.length + 1) s).trace ++ c.substitution site (.struct name))⟩ := by
    rw [List.length_map, Nat.zero_add]
    exact evalAt_onto_of_absent hparent ha hdefault
  have hchain : (p.evalAt c [] 0 s).result = .ok (.read v) ∧ (p.evalAt c [] 0 s).host = left := by
    obtain ⟨m, rest, rfl⟩ := List.exists_cons_of_ne_nil hsome
    have hup : ascend c [] 0 (.member m :: rest.map .member) (.substituted record) =
        ascend c [] 0 (.member m :: rest.map .member) (.read record) := ascend_cons_congr c [] 0 _ _ rfl
    rw [List.map_cons] at hresult hhost
    simp only [p]
    rw [evalAt_chain_of_ok hstruct rfl, List.map_cons, hup]
    exact ⟨hresult, hhost⟩
  refine ⟨v, hv, ?_, ?_, fun hstring hset => ?_, fun hty => ?_⟩
  · simp only [o]
    rw [evaluate_result, hchain.1]
    rfl
  · simp only [o]
    rw [evaluate_host]
    exact hchain.2
  · rw [← hv]
    exact r.default_eq_zeroValue hstring hset
  · have hzero : (layoutsOf r.layouts).Zero ty v := zero_of_zeroByLayout hacyclic hv
    rw [hzero.absent_iff]
    obtain rfl | ⟨element, rfl⟩ := hty <;> rfl

/-- The price of a missing order: its cents, in the first of two fields of one name, and its currency. -/
theorem evaluate_defaulted_price :
    let rs : List (Registration Unit) :=
      [.valueType "Money" [("cents", .long), ("currency", .string), ("cents", .string)],
       .valueType "Order" [("note", .string), ("price", .struct "Money")]]
    let r := Registry.withSequences.registerAll rs
    let order : Path := parameter "batch" (.reference "Batch")
    let price (label : String) (declared : Ty) : Path :=
      ((order.member "first" (.struct "Order")).member "price" (.list .any)).member label declared
    let evaluated (p : Path) := (p.evaluate r.introspector ⟨3⟩ .absent ()).result
    r.MadeBy rs ∧ Layouts.Acyclic (lastLayout? rs) ∧ Layouts.Complete (lastLayout? rs) (.struct "Order") ∧
      Layouts.Leads (lastLayout? rs) (.struct "Order") ["price", "cents"] .long ∧
      Layouts.Leads (lastLayout? rs) (.struct "Order") ["price", "currency"] .string ∧
      order.AbsentAt ⟨r.introspector, ⟨3⟩, .absent⟩ [] 3 () ∧
      evaluated (price "cents" .bool) = .ok ⟨.long 0, .bool, false⟩ ∧
      evaluated (price "currency" .string) = .ok ⟨.absent, .string, false⟩ := by
  intro rs r order price evaluated
  have hr : r.MadeBy rs := .fromSequences
  have htable : (layoutsOf r.layouts).Acyclic :=
    acyclic_of_rank (fun name => if name = "Order" then 1 else 0) (by decide)
  have hlayouts : layoutsOf r.layouts = lastLayout? rs := funext hr.reflects.layouts
  have hmoney : lastLayout? rs "Money" =
      some [("cents", .long), ("currency", .string), ("cents", .string)] := rfl
  have horder : lastLayout? rs "Order" = some [("note", .string), ("price", .struct "Money")] := rfl
  have hacyclic : Layouts.Acyclic (lastLayout? rs) := hlayouts ▸ htable
  have hmoneyComplete : Layouts.Complete (lastLayout? rs) (.struct "Money") :=
    Layouts.complete_struct hmoney (by simp [Layouts.complete_of_not_struct])
  have hcomplete : Layouts.Complete (lastLayout? rs) (.struct "Order") :=
    Layouts.complete_struct horder (by simp [Layouts.complete_of_not_struct, hmoneyComplete])
  have hcents : Layouts.Leads (lastLayout? rs) (.struct "Order") ["price", "cents"] .long :=
    .field horder rfl (.field hmoney rfl (.here _))
  have hcurrency : Layouts.Leads (lastLayout? rs) (.struct "Order") ["price", "currency"] .string :=
    .field horder rfl (.field hmoney rfl (.here _))
  have habsent : order.AbsentAt ⟨r.introspector, ⟨3⟩, .absent⟩ [] 3 () := absentAt_of_fetch rfl (by decide)
  obtain ⟨v, hv, hresult, -⟩ := hr.evaluate_defaulted_fields hacyclic hcomplete
    [⟨"price", .list .any⟩, ⟨"cents", .bool⟩] (by simp) hcents "first" order ⟨3⟩ .absent () habsent
  obtain ⟨w, -, hresult', -, -, hempty⟩ := hr.evaluate_defaulted_fields hacyclic hcomplete
    [⟨"price", .list .any⟩, ⟨"currency", .string⟩] (by simp) hcurrency "first" order ⟨3⟩ .absent () habsent
  have hlong : v = .long 0 := by
    have hzero : zeroByLayout r.layouts .long = .ok v := hv
    rw [zeroByLayout_of_not_struct _ (by simp)] at hzero
    cases hzero
    rfl
  subst hlong
  rw [hempty (.inl rfl)] at hresult'
  exact ⟨hr, hacyclic, hcomplete, hcents, hcurrency, habsent, hresult, hresult'⟩

end Registry

end AccessPath
