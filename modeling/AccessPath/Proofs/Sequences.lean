import AccessPath.Proofs.Agreement
import AccessPath.Registry.Introspect

/-!
# What sequence extensions do with errors

The scripts of the standard extensions are plain (`Sequence.extensions_plain`): they do nothing but call
their lambda, they end with the error of a call that fails and make no call after it, and no error of
their own blames the path. So such a script agrees with itself under every comparison, whichever errors
pass for the same (`Script.Plain.agree`).

Other extensions need not hand errors on. One that answers with the text of its lambda's error
(`Extension.attempt`) makes a value of what the error quotes.
-/

namespace AccessPath

variable {σ α β : Type} {k : Comparison σ}

namespace Script

/-- The script does not touch the host, ends at once with the error of a call that fails, and makes no
usage error of its own. -/
def Plain : Script σ α → Prop
  | .done r => NoUsageError r
  | .call _ resume => (∀ e, resume (.error e) = .done (.error e)) ∧ ∀ v, (resume (.ok v)).Plain
  | .access _ _ => False

theorem Plain.pure (a : α) : (pure a : Script σ α).Plain := IfError.ok a

theorem Plain.ask (item : Value) : (ask item : Script σ Value).Plain :=
  ⟨fun _ => rfl, fun v => IfError.ok v⟩

theorem Plain.fail {e : EvalError} (h : e.isUsageError = false) : (fail e : Script σ α).Plain :=
  IfError.error h

theorem Plain.bind {x : Script σ α} {f : α → Script σ β} (hx : x.Plain) (hf : ∀ a, (f a).Plain) :
    (x >>= f).Plain := by
  show (x.bind f).Plain
  induction x with
  | done r =>
    cases r with
    | ok a => exact hf a
    | error e => exact IfError.error (hx e rfl)
  | call item resume ih =>
    refine ⟨fun e => ?_, fun v => ih (.ok v) (hx.2 v)⟩
    show (resume (.error e)).bind f = _
    rw [hx.1 e]
    rfl
  | access next resume ih => exact hx.elim

theorem agree_done (r : Except EvalError α) : (Script.done r).Agree k (.done r) :=
  k.sameResult_refl (fun _ => rfl) r

theorem Plain.agree {x : Script σ α} (hx : x.Plain) : x.Agree k x := by
  induction x with
  | done r => exact agree_done r
  | call item resume ih =>
    refine ⟨rfl, fun r r' h => ?_⟩
    cases r with
    | ok v =>
      obtain rfl := (h.ok_iff v).mp rfl
      exact ih (.ok v) (hx.2 v)
    | error e =>
      obtain ⟨e', rfl, he⟩ := h.exists_error rfl
      rw [hx.1, hx.1]
      exact he
  | access next resume ih => exact hx.elim

end Script

/-- The scripts of an extension take errors for the same that pass for the same. -/
def Extension.PassesErrors (k : Comparison σ) (x : Extension σ) : Prop :=
  ∀ m v, (x.withLambda m v).Agree k (x.withLambda m v)

/-- The extension answers what its lambda answers to the receiver, or else the text of the lambda's error. -/
def Extension.attempt : Extension σ where
  alone _ receiver := Action.ofExcept (.ok receiver)
  withLambda _ receiver := .call receiver fun
    | .ok v => .done (.ok v)
    | .error e => .done (.ok (.string e.message))

/-- The extension never touches the host, hands the error of its lambda on at once, and makes no usage
error of its own. -/
structure Extension.Plain (x : Extension σ) : Prop where
  alone : ∀ m v s, (x.alone m v s).2 = s
  aloneError : ∀ m v s, NoUsageError (x.alone m v s).1
  withLambda : ∀ m v, (x.withLambda m v).Plain

namespace Sequence

theorem items_error (m : MethodSig) (v : Value) :
    NoUsageError (items m v) := by
  intro e he
  cases v <;> cases he <;> rfl

theorem test_plain (item : Value) : (test item : Script σ Bool).Plain := by
  refine (Script.Plain.ask item).bind fun v => ?_
  cases v with
  | bool b => exact .pure b
  | _ => exact .fail rfl

theorem filter_plain (items : List Value) : (filter items : Script σ (List Value)).Plain := by
  induction items with
  | nil => exact .pure []
  | cons item rest ih => exact (test_plain item).bind fun _ => ih.bind fun _ => .pure _

theorem anyMatch_plain (items : List Value) : (anyMatch items : Script σ Bool).Plain := by
  induction items with
  | nil => exact .pure false
  | cons item rest ih =>
    refine (test_plain item).bind fun b => ?_
    cases b with
    | false => exact ih
    | true => exact .pure true

theorem answers_plain (items : List Value) : (answers items : Script σ (List Value)).Plain := by
  induction items with
  | nil => exact .pure []
  | cons item rest ih => exact (Script.Plain.ask item).bind fun _ => ih.bind fun _ => .pure _

/-- What is made of the items with a lambda is plain, if it is so for any items. -/
theorem items_bind_plain (m : MethodSig) (v : Value) {f : List Value → Script σ α}
    (hf : ∀ items, (f items).Plain) : (Script.done (items m v) >>= f).Plain :=
  Script.Plain.bind (x := .done (items m v)) (items_error m v) hf

theorem items_bind_error (m : MethodSig) (v : Value) {f : List Value → Except EvalError α}
    (hf : ∀ items, NoUsageError (f items)) :
    NoUsageError ((items m v).bind f) := by
  have hitems := items_error m v
  cases h : items m v with
  | ok vs => exact hf vs
  | error e => exact .error (hitems e h)

theorem ofMatches_plain {f : List Value → Except EvalError Value}
    (hf : ∀ items, NoUsageError (f items)) :
    (ofMatches f : Extension σ).Plain where
  alone _ _ _ := rfl
  aloneError m v _ := items_bind_error m v hf
  withLambda m v := items_bind_plain m v fun items => (filter_plain items).bind fun kept => hf kept

theorem ofItems_plain (f : MethodSig → List Value → Value) : (ofItems f : Extension σ).Plain where
  alone _ _ _ := rfl
  aloneError m v _ := items_bind_error m v fun items => .ok (f m items)
  withLambda _ _ := .fail rfl

theorem ofLambda_plain {f : List Value → Script σ Value} (hf : ∀ items, (f items).Plain) :
    (ofLambda f).Plain where
  alone _ _ _ := rfl
  aloneError _ _ _ := .error rfl
  withLambda m v := items_bind_plain m v hf

theorem any_plain : (any : Extension σ).Plain where
  alone _ _ _ := rfl
  aloneError m v _ := items_bind_error m v fun items => .ok (Value.bool !items.isEmpty)
  withLambda m v := items_bind_plain m v fun items => (anyMatch_plain items).bind fun _ => .pure _

theorem extensions_plain : ∀ x : String × Extension σ, x ∈ extensions → x.2.Plain := by
  have hcount : ∀ items, NoUsageError (countOf items) := by
    intro items e he
    unfold countOf at he
    split at he <;> cases he
    rfl
  have hsingle : ∀ items, NoUsageError (singleOf items) := by
    intro items e he
    unfold singleOf at he
    split at he <;> cases he <;> rfl
  have hfirst : ∀ items, NoUsageError (firstOf items) := by
    intro items e he
    cases items <;> cases he
    rfl
  have hwhere : ∀ items, (do return .list (← filter items) : Script σ Value).Plain :=
    fun items => (filter_plain items).bind fun _ => .pure _
  have hselect : ∀ items, (do return .list (← answers items) : Script σ Value).Plain :=
    fun items => (answers_plain items).bind fun _ => .pure _
  simp only [extensions, List.forall_mem_cons]
  exact ⟨ofItems_plain _, ofItems_plain _, ofMatches_plain hcount, any_plain, ofMatches_plain hsingle,
    ofMatches_plain hfirst, ofLambda_plain hwhere, ofLambda_plain hselect,
    fun _ h => absurd h List.not_mem_nil⟩

theorem extensions_passErrors (x : String × Extension σ) (hx : x ∈ extensions) :
    x.2.PassesErrors k :=
  fun m v => ((extensions_plain x hx).withLambda m v).agree

end Sequence

theorem Table.mem_of_lookup {α : Type} {t : Table String α} {name : String} {a : α}
    (h : t.lookup name = some a) : (name, a) ∈ t := by
  obtain ⟨before, after, ht, -⟩ := List.lookup_eq_some_iff.mp h
  simp [ht]

namespace Registry

/-- An extension is called alone as it is registered, or is not known. -/
theorem invokeExtension_cases (r : Registry σ) (m : MethodSig) (v : Value) :
    r.introspector.invokeExtension m v = Action.ofExcept (.error (.extensionNotFound m.name)) ∨
      ∃ x, r.extensions.lookup m.name = some x ∧ r.introspector.invokeExtension m v = x.alone m v := by
  simp only [introspector]
  cases hx : r.extensions.lookup m.name with
  | none => exact .inl rfl
  | some x => exact .inr ⟨x, rfl, rfl⟩

/-- An extension is called with a lambda as it is registered, or is not known. -/
theorem invokeExtensionWith_cases (r : Registry σ) (m : MethodSig) (v : Value) :
    r.introspector.invokeExtensionWith m v = Script.fail (.extensionNotFound m.name) ∨
      ∃ x, r.extensions.lookup m.name = some x ∧
        r.introspector.invokeExtensionWith m v = x.withLambda m v := by
  simp only [introspector]
  cases hx : r.extensions.lookup m.name with
  | none => exact .inl rfl
  | some x => exact .inr ⟨x, rfl, rfl⟩

/-- A registry hands errors on if all its extensions do. -/
theorem invokeExtensionWith_agree {r : Registry σ}
    (h : ∀ x ∈ r.extensions, x.2.PassesErrors k) (m : MethodSig) (v : Value) :
    (r.introspector.invokeExtensionWith m v).Agree k (r.introspector.invokeExtensionWith m v) := by
  obtain hcall | ⟨x, hx, hcall⟩ := r.invokeExtensionWith_cases m v
  · rw [hcall]
    exact Script.agree_done _
  · rw [hcall]
    exact h (m.name, x) (Table.mem_of_lookup hx) m v

end Registry

end AccessPath
