import AccessPath.Proofs.Nodes
import AccessPath.Proofs.Sequences

/-!
# Introspectors that change nothing

An introspector that leaves the host as it is, whatever it is asked, answers alike on both sides of any
comparison that lets any host be met, also from one host alone.
-/

namespace AccessPath

variable {σ α : Type}

/-- The comparison, for runs from one host that they leave as it is. -/
def Comparison.onHost (k : Comparison σ) (s : σ) : Comparison σ := { k with hosts := (· = s) }

/-- Carried out on this host, the script leaves it as it is, whatever the lambda answers. -/
def Script.LeavesHost (s : σ) : Script σ α → Prop
  | .done _ => True
  | .call _ resume => ∀ r, (resume r).LeavesHost s
  | .access next resume => next s = s ∧ (resume s).LeavesHost s

namespace Script

variable {k : Comparison σ} {s : σ}

theorem Plain.leavesHost {x : Script σ α} (hx : x.Plain) (s : σ) : x.LeavesHost s := by
  induction x with
  | done r => trivial
  | call item resume ih =>
    intro r
    cases r with
    | ok v => exact ih (.ok v) (hx.2 v)
    | error e =>
      rw [hx.1 e]
      trivial
  | access next resume ih => exact hx.elim

theorem LeavesHost.agree (hhosts : ∀ t, k.hosts t) {x y : Script σ α} (hx : x.LeavesHost s)
    (h : x.Agree k y) : x.Agree (k.onHost s) y := by
  induction x generalizing y with
  | done r =>
    cases y with
    | done r' => exact h
    | _ => exact h.elim
  | call item resume ih =>
    cases y with
    | call item' resume' => exact ⟨h.1, fun r r' hr => ih r (hx r) (h.2 r r' hr)⟩
    | _ => exact h.elim
  | access next resume ih =>
    cases y with
    | access next' resume' =>
      rintro t rfl
      obtain ⟨hnext, -, hresume⟩ := h t (hhosts t)
      exact ⟨hnext, hx.1, ih t hx.2 hresume⟩
    | _ => exact h.elim

end Script

/-- Whatever is read or called leaves the host as it is. -/
structure Introspector.ChangesNothing (i : Introspector σ) : Prop where
  readMember : ∀ v m s, (i.readMember v m s).2 = s
  invoke : ∀ v m args s, (i.invoke v m args s).2 = s
  invokeExtension : ∀ m v s, (i.invokeExtension m v s).2 = s
  invokeExtensionWith : ∀ m v s, (i.invokeExtensionWith m v).LeavesHost s

namespace Introspector

variable {i : Introspector σ}

theorem ChangesNothing.agree (hi : i.ChangesNothing) (k : Comparison σ) (s : σ) :
    i.Agree (k.onHost s) i := by
  have hactions : ∀ a : Action σ Value, (∀ t, (a t).2 = t) → a.Agree (k.onHost s) a := by
    rintro a ha t rfl
    exact ⟨rfl, ha t, Comparison.sameResult_refl _ (fun _ => rfl) _⟩
  exact ⟨fun v m _ => hactions _ (hi.readMember v m), fun v m args _ => hactions _ (hi.invoke v m args),
    fun m v _ => hactions _ (hi.invokeExtension m v), fun _ => rfl⟩

theorem ChangesNothing.scriptsAgree (hi : i.ChangesNothing) {k : Comparison σ}
    (hhosts : ∀ t, k.hosts t) (h : i.ScriptsAgree k i) (s : σ) : i.ScriptsAgree (k.onHost s) i :=
  fun m v hv => (hi.invokeExtensionWith m v s).agree hhosts (h m v hv)

end Introspector

/-- Alone or with a lambda, the extension leaves the host as it is. -/
structure Extension.ChangesNothing (x : Extension σ) : Prop where
  alone : ∀ m v s, (x.alone m v s).2 = s
  withLambda : ∀ m v s, (x.withLambda m v).LeavesHost s

theorem Sequence.extensions_changeNothing :
    ∀ x : String × Extension σ, x ∈ extensions → x.2.ChangesNothing :=
  fun x hx =>
    ⟨(extensions_plain x hx).alone, fun m v s => ((extensions_plain x hx).withLambda m v).leavesHost s⟩

theorem Extension.attempt_changesNothing : (attempt : Extension σ).ChangesNothing where
  alone _ _ _ := rfl
  withLambda _ _ _ r := by cases r <;> trivial

/-- Without host types, nothing but the extensions can change the host. -/
theorem Registry.changesNothing {r : Registry σ} (hclasses : r.classes = [])
    (hextensions : ∀ x ∈ r.extensions, x.2.ChangesNothing) : r.introspector.ChangesNothing := by
  have hclassOf : ∀ object, r.classOf object = .error (.unregisteredType object.host.name) := by
    intro object
    simp [classOf, hclasses]
  have hlookup : ∀ name x, r.extensions.lookup name = some x → x.ChangesNothing :=
    fun name x hx => hextensions (name, x) (Table.mem_of_lookup hx)
  refine ⟨fun v m s => ?_, fun v m args s => ?_, fun m v s => ?_, fun m v s => ?_⟩
  · simp only [introspector]
    cases v with
    | object o => simp [readMember, hclassOf, Action.ofExcept]
    | record n fields => cases hm : fields.lookup m.name <;> simp [readMember, hm, Action.ofExcept]
    | _ => rfl
  · simp only [introspector]
    cases v with
    | object o => simp [invoke, hclassOf, Action.ofExcept]
    | _ => rfl
  · obtain hcall | ⟨x, hx, hcall⟩ := r.invokeExtension_cases m v
    · rw [hcall]
      rfl
    · rw [hcall]
      exact (hlookup m.name x hx).alone m v s
  · obtain hcall | ⟨x, hx, hcall⟩ := r.invokeExtensionWith_cases m v
    · rw [hcall]
      trivial
    · rw [hcall]
      exact (hlookup m.name x hx).withLambda m v s

end AccessPath
