import Mathlib.Data.List.Forall2
import Mathlib.Logic.Relation
import AccessPath.Proofs.Defaults
import AccessPath.Proofs.Registrations

/-!
# Zero values by layout

The default policy of a registry answers every type, except a struct from which an unregistered one is reached
through struct-typed fields; then it names the first such one in depth-first order of fields
(`Registry.MadeBy.default_exact`). The default of a struct is made after its layout: each field of a value type
has a zero value of its type, and every other field is absent, strings and sets among them, although these have
present defaults of their own.

All of this is for layouts that do not hold themselves (`Layouts.Acyclic`). Zero values are made with the layout
of a struct left out inside of it; where no layout holds itself that makes no difference
(`zeroByLayout_of_some`). Holding is then well-founded (`Layouts.Acyclic.wellFounded`), and the inductions on
what a struct reaches are on that.
-/

namespace AccessPath

/-- The name of a struct type. -/
def Ty.structName? : Ty → Option String
  | .struct name => some name
  | _ => none

theorem Ty.struct_or_other (ty : Ty) : (∃ name, ty = .struct name) ∨ ∀ name, ty ≠ .struct name :=
  (em _).imp_right not_exists.mp

/-- The layouts of value types. -/
abbrev Layouts := String → Option FieldLayout

namespace Layouts

variable (layout : Layouts)

/-- One value type has a field of the other. -/
def Holds (outer inner : String) : Prop :=
  ∃ fields label, layout outer = some fields ∧ (label, .struct inner) ∈ fields

/-- From one value type the other is reached through struct-typed fields. -/
abbrev Reaches : String → String → Prop := Relation.ReflTransGen layout.Holds

/-- No value type holds itself, directly or indirectly. -/
def Acyclic : Prop := ∀ name, ¬ Relation.TransGen layout.Holds name name

/-- Whatever is reached from the type is registered. -/
def Complete (ty : Ty) : Prop :=
  ∀ name inner, ty = .struct name → layout.Reaches name inner → layout inner ≠ none

/-- The unregistered value type that comes first below another one, in depth-first order of fields. -/
inductive FirstMissing : String → String → Prop
  | here {name : String} (h : layout name = none) : FirstMissing name name
  | field {name label inner missing : String} {before after : FieldLayout}
      (h : layout name = some (before ++ (label, .struct inner) :: after))
      (complete : ∀ field ∈ before, layout.Complete field.2) (first : FirstMissing inner missing) :
      FirstMissing name missing

/-- The value is a zero of the type. Zeros of value types are present, down to the fields of structs, which
follow the layout; all others are absent. -/
inductive Zero : Ty → Value → Prop
  | bool : Zero .bool (.bool false)
  | int : Zero .int (.int 0)
  | long : Zero .long (.long 0)
  | double : Zero .double (.double .zero)
  | struct {name : String} {fields : FieldLayout} {values : List (String × Value)}
      (h : layout name = some fields) (labels : values.map Prod.fst = fields.map Prod.fst)
      (zeros : List.Forall₂ Zero (fields.map Prod.snd) (values.map Prod.snd)) :
      Zero (.struct name) (.record name values)
  | absent {ty : Ty} (h : ty.isValueType = false) : Zero ty .absent

variable {layout}

theorem Zero.absent_iff {ty : Ty} {v : Value} (h : layout.Zero ty v) :
    v = .absent ↔ ty.isValueType = false := by
  cases h with
  | absent hty => exact iff_of_true rfl hty
  | _ => exact iff_of_false nofun nofun

theorem complete_of_not_struct {ty : Ty} (h : ∀ name, ty ≠ .struct name) : layout.Complete ty :=
  fun name _ hty => absurd hty (h name)

/-- What comes first is reached, and is missing. -/
theorem FirstMissing.reaches {name missing : String} (h : layout.FirstMissing name missing) :
    layout.Reaches name missing ∧ layout missing = none := by
  induction h with
  | here h => exact ⟨.refl, h⟩
  | field h _ _ ih => exact ⟨.head ⟨_, _, h, List.mem_append_right _ List.mem_cons_self⟩ ih.1, ih.2⟩

end Layouts

/-- The layouts in a table. -/
def layoutsOf (table : Table String FieldLayout) : Layouts := fun name => table.lookup name

variable {table table' : Table String FieldLayout} {name : String} {fields : FieldLayout} {ty : Ty}

/-- Layouts do not hold themselves where a rank drops from each of them to its struct-typed fields. -/
theorem acyclic_of_rank (rank : String → Nat)
    (h : ∀ entry ∈ table, ∀ field ∈ entry.2, ∀ inner ∈ field.2.structName?, rank inner < rank entry.1) :
    (layoutsOf table).Acyclic := by
  have hholds : ∀ outer inner, (layoutsOf table).Holds outer inner → rank inner < rank outer := by
    rintro outer inner ⟨fields, label, hfields, hmem⟩
    obtain ⟨before, after, rfl, -⟩ := List.lookup_eq_some_iff.mp hfields
    exact h (outer, fields) (List.mem_append_right _ List.mem_cons_self) _ hmem inner rfl
  have hpath : ∀ {outer inner : String}, Relation.TransGen (layoutsOf table).Holds outer inner →
      rank inner < rank outer := by
    intro outer inner hpath
    induction hpath with
    | single hlast => exact hholds _ _ hlast
    | tail _ hlast ih => exact Nat.lt_trans (hholds _ _ hlast) ih
  exact fun name hcycle => Nat.lt_irrefl _ (hpath hcycle)

theorem lookup_layoutsBut (name other : String) (table : Table String FieldLayout) :
    (layoutsBut name table).lookup other = if other = name then none else table.lookup other := by
  induction table with
  | nil => simp [layoutsBut]
  | cons entry table ih =>
    obtain ⟨key, fields⟩ := entry
    rw [layoutsBut] at ih ⊢
    by_cases hkey : key = name
    · subst hkey
      rw [List.filter_cons_of_neg (by simp), ih, List.lookup_cons]
      split
      · rfl
      · next hother => rw [beq_eq_false_iff_ne.mpr hother]
    · rw [List.filter_cons_of_pos (by simpa using hkey), List.lookup_cons, List.lookup_cons, ih]
      split
      · next hother =>
        rw [if_neg]
        rintro rfl
        exact hkey (beq_iff_eq.mp hother).symm
      · rfl

/-- Leaving a layout out of a table leaves nothing else to be reached. -/
theorem reaches_of_layoutsBut {a b : String} (h : (layoutsOf (layoutsBut name table)).Reaches a b) :
    (layoutsOf table).Reaches a b := by
  refine Relation.ReflTransGen.mono ?_ _ _ h
  rintro outer inner ⟨fields, label, hfields, hmem⟩
  refine ⟨fields, label, ?_, hmem⟩
  rw [layoutsOf, lookup_layoutsBut] at hfields
  split at hfields
  · cases hfields
  · exact hfields

/-- Where no layout holds itself, one can go from struct to fields only so often. -/
theorem Layouts.Acyclic.wellFounded (h : (layoutsOf table).Acyclic) :
    WellFounded fun inner outer => (layoutsOf table).Holds outer inner := by
  -- the layouts of the structs gone through are left out, so the table gets shorter
  have hacc : ∀ (part : Table String FieldLayout) (name : String),
      (∀ x, (layoutsOf table).Reaches name x → part.lookup x = table.lookup x) →
      Acc (fun inner outer => (layoutsOf table).Holds outer inner) name := by
    intro part
    induction hn : part.length using Nat.strongRecOn generalizing part with
    | _ n ih =>
    intro name hpart
    refine ⟨name, fun inner hholds => ?_⟩
    obtain ⟨fields, label, hfields, hmem⟩ := hholds
    have hlookup : part.lookup name = some fields := (hpart name .refl).trans hfields
    refine ih _ (hn ▸ length_layoutsBut_lt hlookup) (layoutsBut name part) rfl inner fun x hx => ?_
    have hother : x ≠ name := by
      rintro rfl
      exact h x (.head' ⟨fields, label, hfields, hmem⟩ hx)
    rw [lookup_layoutsBut, if_neg hother]
    exact hpart x (.head ⟨fields, label, hfields, hmem⟩ hx)
  exact ⟨fun name => hacc table name fun _ _ => rfl⟩

/-- The zero values of fields, or the first error among them. -/
def zeroFields (table : Table String FieldLayout) (fields : FieldLayout) :
    Except EvalError (List (String × Value)) :=
  fields.mapM fun field => do return (field.1, ← zeroByLayout table field.2)

theorem zeroFields_cons (table : Table String FieldLayout) (label : String) (ty : Ty) (rest : FieldLayout) :
    zeroFields table ((label, ty) :: rest) = do
      let v ← zeroByLayout table ty
      let values ← zeroFields table rest
      return (label, v) :: values := by
  rw [zeroFields, List.mapM_cons]
  simp only [bind_assoc, pure_bind]
  rfl

theorem zeroFields_congr (h : ∀ field ∈ fields, zeroByLayout table field.2 = zeroByLayout table' field.2) :
    zeroFields table fields = zeroFields table' fields := by
  induction fields with
  | nil => rfl
  | cons field rest ih =>
    obtain ⟨label, ty⟩ := field
    obtain ⟨hfirst, hrest⟩ := List.forall_mem_cons.mp h
    rw [zeroFields_cons, zeroFields_cons, hfirst, ih hrest]

theorem zeroByLayout_of_none (h : table.lookup name = none) :
    zeroByLayout table (.struct name) = .error (.unregisteredType name) := by
  rw [zeroByLayout]
  split
  · rfl
  · next hsome => rw [h] at hsome; cases hsome

theorem zeroByLayout_but_of_some (h : table.lookup name = some fields) :
    zeroByLayout table (.struct name) = (zeroFields (layoutsBut name table) fields).map (.record name) := by
  rw [zeroByLayout]
  split
  · next hnone => rw [h] at hnone; cases hnone
  · next fields' hsome =>
    cases h.symm.trans hsome
    rfl

/-- The zero value of a type depends on nothing but the layouts that are reached from it. -/
theorem zeroByLayout_congr (h : ∀ name x, ty = .struct name → (layoutsOf table).Reaches name x →
    table.lookup x = table'.lookup x) : zeroByLayout table ty = zeroByLayout table' ty := by
  induction hn : table.length using Nat.strongRecOn generalizing table table' ty with
  | _ n ih =>
  rcases ty.struct_or_other with ⟨name, rfl⟩ | hother
  · have hname := h name name rfl .refl
    cases hlookup : table.lookup name with
    | none => rw [zeroByLayout_of_none hlookup, zeroByLayout_of_none (hname.symm.trans hlookup)]
    | some fields =>
      rw [zeroByLayout_but_of_some hlookup, zeroByLayout_but_of_some (hname.symm.trans hlookup)]
      refine congrArg _ (zeroFields_congr fun field hfield => ?_)
      refine ih _ (hn ▸ length_layoutsBut_lt hlookup) (fun inner x hty hx => ?_) rfl
      rw [lookup_layoutsBut, lookup_layoutsBut]
      split
      · rfl
      · exact h name x rfl (.head ⟨fields, field.1, hlookup, hty ▸ hfield⟩ (reaches_of_layoutsBut hx))
  · rw [zeroByLayout_of_not_struct _ hother, zeroByLayout_of_not_struct _ hother]

/-- If no layout holds itself, the zero value of a struct is made of those of its fields. -/
theorem zeroByLayout_of_some (hacyclic : (layoutsOf table).Acyclic) (h : table.lookup name = some fields) :
    zeroByLayout table (.struct name) = (zeroFields table fields).map (.record name) := by
  rw [zeroByLayout_but_of_some h]
  refine congrArg _ (zeroFields_congr fun field hfield => (zeroByLayout_congr fun inner x hty hx => ?_).symm)
  have hother : x ≠ name := by
    rintro rfl
    exact hacyclic x (.head' ⟨fields, field.1, h, hty ▸ hfield⟩ hx)
  rw [lookup_layoutsBut, if_neg hother]

/-- The values of the fields are zeros, with the fields' labels. -/
def Layouts.ZeroFields (layout : Layouts) (fields : FieldLayout) (values : List (String × Value)) : Prop :=
  values.map Prod.fst = fields.map Prod.fst ∧
    List.Forall₂ layout.Zero (fields.map Prod.snd) (values.map Prod.snd)

/-- Fields that have zeros have them together. -/
theorem zeroFields_ok
    (h : ∀ field ∈ fields, ∃ v, zeroByLayout table field.2 = .ok v ∧ (layoutsOf table).Zero field.2 v) :
    ∃ values, zeroFields table fields = .ok values ∧ (layoutsOf table).ZeroFields fields values := by
  induction fields with
  | nil => exact ⟨[], rfl, rfl, .nil⟩
  | cons field rest ih =>
    obtain ⟨label, ty⟩ := field
    obtain ⟨⟨v, hv, hzero⟩, hrest⟩ := List.forall_mem_cons.mp h
    obtain ⟨values, hvalues, hlabels, hzeros⟩ := ih hrest
    refine ⟨(label, v) :: values, ?_, congrArg (label :: ·) hlabels, .cons hzero hzeros⟩
    rw [zeroFields_cons, hv, hvalues]
    rfl

/-- Of several fields the first error counts. -/
theorem zeroFields_error {before after : FieldLayout} {label : String} {e : EvalError}
    (hbefore : ∀ field ∈ before, ∃ v, zeroByLayout table field.2 = .ok v)
    (h : zeroByLayout table ty = .error e) :
    zeroFields table (before ++ (label, ty) :: after) = .error e := by
  induction before with
  | nil =>
    rw [List.nil_append, zeroFields_cons, h]
    rfl
  | cons field before ih =>
    obtain ⟨other, otherTy⟩ := field
    obtain ⟨⟨v, hv⟩, hrest⟩ := List.forall_mem_cons.mp hbefore
    rw [List.cons_append, zeroFields_cons, hv, ih hrest]
    rfl

namespace Layouts

variable {layout : Layouts}

/-- Fields of a type that reaches nothing unregistered are of such types. -/
theorem Complete.field {label : String} (h : layout.Complete (.struct name))
    (hfields : layout name = some fields) (hmem : (label, ty) ∈ fields) : layout.Complete ty := by
  rintro inner x rfl hx
  exact h name x rfl (.head ⟨fields, label, hfields, hmem⟩ hx)

theorem complete_struct (hfields : layout name = some fields)
    (h : ∀ field ∈ fields, layout.Complete field.2) : layout.Complete (.struct name) := by
  rintro _ x ⟨⟩ hx
  cases hx using Relation.ReflTransGen.head_induction_on with
  | refl => simp [hfields]
  | head hholds hrest =>
    obtain ⟨fields', label, hfields', hmem⟩ := hholds
    cases hfields.symm.trans hfields'
    exact h _ hmem _ x rfl hrest

/-- Either nothing unregistered is reached from the type, or something is reached first. -/
theorem complete_or_firstMissing (hwf : WellFounded fun inner outer => layout.Holds outer inner)
    (name : String) : layout.Complete (.struct name) ∨ ∃ missing, layout.FirstMissing name missing := by
  classical
  induction name using hwf.induction with
  | _ name ih =>
  cases hfields : layout name with
  | none => exact .inr ⟨name, .here hfields⟩
  | some fields =>
    cases hfirst : fields.find? fun field => ¬ layout.Complete field.2 with
    | none =>
      refine .inl (complete_struct hfields fun field hfield => ?_)
      simpa using List.find?_eq_none.mp hfirst field hfield
    | some field =>
      obtain ⟨hincomplete, before, after, hsplit, hbefore⟩ := List.find?_eq_some_iff_append.mp hfirst
      obtain ⟨label, ty⟩ := field
      have hincomplete : ¬ layout.Complete ty := by simpa using hincomplete
      rcases ty.struct_or_other with ⟨inner, rfl⟩ | hother
      · have hmem : (label, .struct inner) ∈ fields := hsplit ▸ List.mem_append_right _ List.mem_cons_self
        obtain ⟨missing, hmissing⟩ := (ih inner ⟨fields, label, hfields, hmem⟩).resolve_left hincomplete
        exact .inr ⟨missing, .field (hfields.trans (congrArg some hsplit))
          (fun field hfield => by simpa using hbefore field hfield) hmissing⟩
      · exact absurd (complete_of_not_struct hother) hincomplete

end Layouts

theorem zero_of_not_struct (h : ∀ name, ty ≠ .struct name) :
    ∃ v, zeroByLayout table ty = .ok v ∧ (layoutsOf table).Zero ty v := by
  rw [zeroByLayout_of_not_struct _ h]
  cases ty with
  | struct name => exact absurd rfl (h name)
  | bool => exact ⟨_, rfl, .bool⟩
  | int => exact ⟨_, rfl, .int⟩
  | long => exact ⟨_, rfl, .long⟩
  | double => exact ⟨_, rfl, .double⟩
  | _ => exact ⟨_, rfl, .absent rfl⟩

section

variable (hacyclic : (layoutsOf table).Acyclic)
include hacyclic

/-- Where nothing unregistered is reached there is a zero value. -/
theorem zeroByLayout_ok (h : (layoutsOf table).Complete ty) :
    ∃ v, zeroByLayout table ty = .ok v ∧ (layoutsOf table).Zero ty v := by
  have hstruct : ∀ name, (layoutsOf table).Complete (.struct name) →
      ∃ v, zeroByLayout table (.struct name) = .ok v ∧ (layoutsOf table).Zero (.struct name) v := by
    intro name
    induction name using hacyclic.wellFounded.induction with
    | _ name ih =>
    intro hcomplete
    obtain ⟨fields, hfields⟩ := Option.ne_none_iff_exists'.mp (hcomplete name name rfl .refl)
    have hanswers : ∀ field ∈ fields,
        ∃ v, zeroByLayout table field.2 = .ok v ∧ (layoutsOf table).Zero field.2 v := by
      rintro ⟨label, ty⟩ hfield
      rcases ty.struct_or_other with ⟨inner, rfl⟩ | hother
      · exact ih inner ⟨fields, label, hfields, hfield⟩ (hcomplete.field hfields hfield)
      · exact zero_of_not_struct hother
    obtain ⟨values, hvalues, hlabels, hzeros⟩ := zeroFields_ok hanswers
    refine ⟨.record name values, ?_, .struct hfields hlabels hzeros⟩
    rw [zeroByLayout_of_some hacyclic hfields, hvalues]
    rfl
  rcases ty.struct_or_other with ⟨name, rfl⟩ | hother
  · exact hstruct name h
  · exact zero_of_not_struct hother

/-- The first unregistered type that is reached is the one that the error names. -/
theorem zeroByLayout_of_firstMissing {missing : String} (h : (layoutsOf table).FirstMissing name missing) :
    zeroByLayout table (.struct name) = .error (.unregisteredType missing) := by
  induction h with
  | here hnone => exact zeroByLayout_of_none hnone
  | @field _ _ _ _ before _ hfields hbefore _ ih =>
    have hzeros : ∀ field ∈ before, ∃ v, zeroByLayout table field.2 = .ok v := fun field hfield =>
      (zeroByLayout_ok hacyclic (hbefore field hfield)).imp fun _ h => h.1
    rw [zeroByLayout_of_some hacyclic hfields, zeroFields_error hzeros ih]
    rfl

/-- Either a zero of the type is made, or the first unregistered type that is reached is named. -/
theorem zero_or_missing (ty : Ty) :
    (∃ v, zeroByLayout table ty = .ok v ∧ (layoutsOf table).Zero ty v) ∨
      ∃ name missing, ty = .struct name ∧ (layoutsOf table).FirstMissing name missing ∧
        zeroByLayout table ty = .error (.unregisteredType missing) := by
  rcases ty.struct_or_other with ⟨name, rfl⟩ | hother
  · rcases Layouts.complete_or_firstMissing hacyclic.wellFounded name with hcomplete | ⟨missing, hmissing⟩
    · exact .inl (zeroByLayout_ok hacyclic hcomplete)
    · exact .inr ⟨name, missing, rfl, hmissing, zeroByLayout_of_firstMissing hacyclic hmissing⟩
  · exact .inl (zero_of_not_struct hother)

/-- A zero value cannot be made exactly where an unregistered type is reached. -/
theorem zeroByLayout_error_iff {e : EvalError} :
    zeroByLayout table ty = .error e ↔
      ∃ name missing, ty = .struct name ∧ (layoutsOf table).FirstMissing name missing ∧
        e = .unregisteredType missing := by
  constructor
  · intro h
    obtain ⟨v, hv, -⟩ | ⟨name, missing, hty, hmissing, herror⟩ := zero_or_missing hacyclic ty
    · cases h.symm.trans hv
    · cases h.symm.trans herror
      exact ⟨name, missing, hty, hmissing, rfl⟩
  · rintro ⟨name, missing, rfl, hmissing, rfl⟩
    exact zeroByLayout_of_firstMissing hacyclic hmissing

/-- What is made is a zero of the type. -/
theorem zero_of_zeroByLayout {v : Value} (h : zeroByLayout table ty = .ok v) : (layoutsOf table).Zero ty v := by
  obtain ⟨w, hw, hzero⟩ | ⟨_, _, _, _, herror⟩ := zero_or_missing hacyclic ty
  · cases h.symm.trans hw
    exact hzero
  · cases h.symm.trans herror

end

/-- The value is the default of the type. -/
structure Layouts.Default (layout : Layouts) (ty : Ty) (v : Value) : Prop where
  absent : v = .absent ↔ ty ≠ .string ∧ ty.isValueType = false ∧ ∀ element, ty ≠ .set element
  string : ty = .string → v = .string ""
  set : ∀ element, ty = .set element → v = .set element []
  zero : ty.isValueType = true → layout.Zero ty v
  /-- A struct has the fields of its layout. Those of value types are zeros, all others are absent. -/
  struct : ∀ name, ty = .struct name → ∃ fields values, layout name = some fields ∧ v = .record name values ∧
    values.map Prod.fst = fields.map Prod.fst ∧
    List.Forall₂ (fun fieldTy w => layout.Zero fieldTy w ∧ (w = .absent ↔ fieldTy.isValueType = false))
      (fields.map Prod.snd) (values.map Prod.snd)

/-- A zero of a value type is its default. -/
theorem Layouts.Zero.default {layout : Layouts} {v : Value} (hty : ty.isValueType = true)
    (h : layout.Zero ty v) : layout.Default ty v where
  absent := h.absent_iff.trans (iff_of_false (by simp [hty]) (by simp [hty]))
  string := by rintro rfl; cases hty
  set := by rintro element rfl; cases hty
  zero _ := h
  struct := by
    rintro name rfl
    cases h with
    | struct hfields hlabels hzeros =>
      exact ⟨_, _, hfields, rfl, hlabels, hzeros.imp fun _ _ hzero => ⟨hzero, hzero.absent_iff⟩⟩
    | absent hnot => cases hnot

namespace Registry

variable {σ : Type} {r : Registry σ}

theorem default_error_iff (hacyclic : ∀ name, ty = .struct name → (layoutsOf r.layouts).Acyclic)
    {e : EvalError} :
    r.introspector.default ty = .error e ↔
      ∃ name missing, ty = .struct name ∧ (layoutsOf r.layouts).FirstMissing name missing ∧
        e = .unregisteredType missing := by
  constructor
  · intro h
    obtain ⟨name, rfl⟩ := default_error h
    exact (zeroByLayout_error_iff (hacyclic name rfl)).mp h
  · rintro ⟨name, missing, rfl, hmissing, rfl⟩
    exact zeroByLayout_of_firstMissing (hacyclic name rfl) hmissing

theorem default_ok (hacyclic : (layoutsOf r.layouts).Acyclic) {v : Value}
    (h : r.introspector.default ty = .ok v) : (layoutsOf r.layouts).Default ty v := by
  cases hty : ty.isValueType with
  | true =>
    have hzero : r.introspector.default ty = zeroByLayout r.layouts ty := by
      cases ty <;> first | rfl | cases hty
    exact (zero_of_zeroByLayout hacyclic (hzero.symm.trans h)).default hty
  | false =>
    cases ty with
    | bool | int | long | double | struct name => cases hty
    | string =>
      cases h
      exact ⟨by simp, fun _ => rfl, nofun, nofun, nofun⟩
    | set element =>
      cases h
      exact ⟨iff_of_false nofun fun hnone => hnone.2.2 element rfl, nofun, by rintro _ ⟨⟩; rfl, nofun, nofun⟩
    | _ =>
      cases h
      exact ⟨iff_of_true rfl ⟨nofun, rfl, nofun⟩, nofun, nofun, nofun, nofun⟩

open Registration

variable {rs : List (Registration σ)}

/-- The default policy of a registry fails exactly for the structs from which an unregistered one is reached, and
names the first. All its answers are the defaults of the types by the layouts that were registered last. -/
theorem MadeBy.default_exact (h : r.MadeBy rs) (hacyclic : Layouts.Acyclic (lastLayout? rs)) (ty : Ty) :
    ((∃ e, r.introspector.default ty = .error e) ↔
      ∃ name missing, ty = .struct name ∧ Layouts.Reaches (lastLayout? rs) name missing ∧
        lastLayout? rs missing = none) ∧
    (∀ e, r.introspector.default ty = .error e ↔
      ∃ name missing, ty = .struct name ∧ Layouts.FirstMissing (lastLayout? rs) name missing ∧
        e = .unregisteredType missing) ∧
    ∀ v, r.introspector.default ty = .ok v → Layouts.Default (lastLayout? rs) ty v := by
  have hlayouts : lastLayout? rs = layoutsOf r.layouts := (funext h.reflects.layouts).symm
  rw [hlayouts] at hacyclic ⊢
  have hstruct : ∀ name, ty = .struct name → (layoutsOf r.layouts).Acyclic := fun _ _ => hacyclic
  refine ⟨⟨?_, ?_⟩, fun e => default_error_iff hstruct, fun v => default_ok hacyclic⟩
  · rintro ⟨e, he⟩
    obtain ⟨name, missing, rfl, hmissing, -⟩ := (default_error_iff hstruct).mp he
    exact ⟨name, missing, rfl, hmissing.reaches⟩
  · rintro ⟨name, missing, rfl, hreaches, hnone⟩
    rcases Layouts.complete_or_firstMissing hacyclic.wellFounded name with hcomplete | ⟨first, hfirst⟩
    · exact absurd hnone (hcomplete name missing rfl hreaches)
    · exact ⟨_, (default_error_iff hstruct).mpr ⟨name, first, rfl, hfirst, rfl⟩⟩

/-- A layout is replaced before it is asked for, and a batch of orders reaches two types that are not
registered. -/
theorem default_orders :
    let rs : List (Registration Unit) :=
      [.valueType "Money" [("cents", .int)],
       .valueType "Order" [("note", .string), ("price", .struct "Money"), ("tags", .set .string)],
       .valueType "Money" [("cents", .long), ("currency", .string)],
       .valueType "Batch" [("first", .struct "Order"), ("stamp", .struct "Stamp"), ("seal", .struct "Seal")]]
    let r := Registry.withSequences.registerAll rs
    r.MadeBy rs ∧ Layouts.Acyclic (lastLayout? rs) ∧
      Layouts.Default (lastLayout? rs) (.struct "Order") (.record "Order"
        [("note", .absent), ("price", .record "Money" [("cents", .long 0), ("currency", .absent)]),
          ("tags", .absent)]) ∧
      r.introspector.default (.struct "Batch") = .error (.unregisteredType "Stamp") := by
  intro rs r
  have hr : r.MadeBy rs := .fromSequences
  have htable : (layoutsOf r.layouts).Acyclic :=
    acyclic_of_rank (fun name => if name = "Batch" then 2 else if name = "Order" then 1 else 0) (by decide)
  have hmoney : r.layouts.lookup "Money" = some [("cents", .long), ("currency", .string)] := rfl
  have horder : r.layouts.lookup "Order" =
      some [("note", .string), ("price", .struct "Money"), ("tags", .set .string)] := rfl
  have hbatch : lastLayout? rs "Batch" =
      some ([("first", .struct "Order")] ++ ("stamp", .struct "Stamp") :: [("seal", .struct "Seal")]) := rfl
  have hlayouts : layoutsOf r.layouts = lastLayout? rs := funext hr.reflects.layouts
  have hacyclic : Layouts.Acyclic (lastLayout? rs) := hlayouts ▸ htable
  obtain ⟨-, -, hok⟩ := hr.default_exact hacyclic (.struct "Order")
  obtain ⟨-, herror, -⟩ := hr.default_exact hacyclic (.struct "Batch")
  refine ⟨hr, hacyclic, hok _ ?_, (herror _).mpr ⟨"Batch", "Stamp", rfl, .field hbatch ?_ (.here rfl), rfl⟩⟩
  · have hmoneyZero : zeroByLayout r.layouts (.struct "Money") =
        .ok (.record "Money" [("cents", .long 0), ("currency", .absent)]) := by
      rw [zeroByLayout_of_some htable hmoney, zeroFields_cons, zeroFields_cons]
      simp only [zeroByLayout]
      rfl
    have horderZero : zeroByLayout r.layouts (.struct "Order") = .ok (.record "Order"
        [("note", .absent), ("price", .record "Money" [("cents", .long 0), ("currency", .absent)]),
          ("tags", .absent)]) := by
      rw [zeroByLayout_of_some htable horder, zeroFields_cons, zeroFields_cons, zeroFields_cons, hmoneyZero]
      simp only [zeroByLayout]
      rfl
    exact horderZero
  · rw [← hlayouts]
    have hmoneyComplete : (layoutsOf r.layouts).Complete (.struct "Money") :=
      Layouts.complete_struct hmoney (by simp [Layouts.complete_of_not_struct])
    have horderComplete : (layoutsOf r.layouts).Complete (.struct "Order") :=
      Layouts.complete_struct horder (by simp [Layouts.complete_of_not_struct, hmoneyComplete])
    simpa using horderComplete

end Registry

end AccessPath
