import AccessPath.Proofs.RoundTrip

/-!
# Saving what was loaded

Whatever is read as a path can be written and read again (`Path.ofJson?_reload`). The readers take many
texts that no path is written as; whichever it was, what they make of it is written no deeper than it, so
that the limit on nesting cannot get in the way, and the doubles in it are finite (`Path.ofNode?_fits`).

A reader looks at a tree part by part, the items of an array or the values of an object (`Json.Tree.parts`),
and each part is less deep than the whole. What is known of each part that it takes is known of what it gives
(`Json.Ensures`).
-/

namespace AccessPath

namespace Json

/-! ### What a reading gives -/

/-- If the reading gives a value, that has the property. -/
def Ensures {α : Type} (reading : Option α) (P : α → Prop) : Prop := ∀ a, reading = some a → P a

namespace Ensures

variable {α β : Type} {P Q : α → Prop} {R : β → Prop} {reading : Option α}

theorem none : Ensures (none : Option α) P := by
  intro a h
  cases h

theorem of_some {a : α} (h : P a) : Ensures (some a) P := by
  intro b hb
  cases hb
  exact h

theorem mono (h : Ensures reading P) (hPQ : ∀ a, P a → Q a) : Ensures reading Q :=
  fun a ha => hPQ a (h a ha)

theorem bind {next : α → Option β} (h : Ensures reading P) (hnext : ∀ a, P a → Ensures (next a) R) :
    Ensures (reading.bind next) R := by
  intro b hb
  obtain ⟨a, ha, hb⟩ := Option.bind_eq_some_iff.1 hb
  exact hnext a (h a ha) b hb

theorem map {f : α → β} (h : Ensures reading fun a => R (f a)) : Ensures (reading.map f) R := by
  intro b hb
  obtain ⟨a, ha, rfl⟩ := Option.map_eq_some_iff.1 hb
  exact h a ha

theorem mapM {read : α → Option β} {as : List α} (h : ∀ a ∈ as, Ensures (read a) R) :
    Ensures (as.mapM read) fun bs => ∀ b ∈ bs, R b := by
  induction as with
  | nil => exact of_some (List.forall_mem_nil _)
  | cons a as ih =>
    obtain ⟨ha, has⟩ := List.forall_mem_cons.1 h
    rw [List.mapM_cons]
    exact ha.bind fun b hb => (ih has).bind fun bs hbs => of_some (List.forall_mem_cons.2 ⟨hb, hbs⟩)

/-- Nothing need be known of what is read before. -/
theorem after {next : α → Option β} (hnext : ∀ a, Ensures (next a) R) : Ensures (reading.bind next) R := by
  intro b hb
  obtain ⟨a, -, hb⟩ := Option.bind_eq_some_iff.1 hb
  exact hnext a b hb

end Ensures

/-! ### Parts -/

namespace Tree

/-- The items of an array, or the values of an object. -/
def parts : Tree → List Tree
  | .array items => items
  | .object fields => fields.map Prod.snd
  | _ => []

theorem depth_lt_of_mem_parts {t u : Tree} (h : u ∈ t.parts) : u.depth < t.depth := by
  cases t with
  | array items => exact Nat.lt_succ_of_le ((depth_array_le items _).1 (Nat.le_refl _) u h)
  | object fields =>
    obtain ⟨f, hf, rfl⟩ := List.mem_map.1 h
    exact Nat.lt_succ_of_le ((depth_object_le fields _).1 (Nat.le_refl _) f hf)
  | _ => cases h

/-- The tree takes a level, and there are `d` more below it at most. -/
theorem depth_le_of_mem_parts {t u : Tree} {d : Nat} (ht : t.depth = d + 1) (h : u ∈ t.parts) :
    u.depth ≤ d := by
  have := depth_lt_of_mem_parts h
  omega

theorem named?_parts (fields : List (Text × Tree)) :
    Ensures (named? fields) fun named => ∀ f ∈ named, f.2 ∈ (object fields).parts :=
  .mapM fun f hf => .map fun _ _ => List.mem_map.2 ⟨f, hf, rfl⟩

theorem single?_mem (fields : List (String × Tree)) (key : String) :
    Ensures (single? fields key) fun value => ∀ u ∈ value, ∃ f ∈ fields, f.2 = u := by
  unfold single?
  split
  · refine .of_some fun u hu => ?_
    cases hu
  · next f hf =>
    have hmem : f ∈ fields.filter fun g => g.1 = key := by simp [hf]
    exact .of_some fun u hu => ⟨f, (List.mem_filter.1 hmem).1, Option.some.inj hu⟩
  · exact .none

/-- The fields of a structure are parts of it. -/
theorem record?_parts (keys : List String) (t : Tree) :
    Ensures (t.record? keys) fun values => ∀ u, some u ∈ values → u ∈ t.parts := by
  cases t with
  | array items =>
    rw [record?]
    split
    · refine .of_some fun u hu => ?_
      obtain ⟨v, hv, huv⟩ := List.mem_map.1 hu
      cases huv
      exact hv
    · exact .none
  | object fields =>
    refine (named?_parts fields).bind fun named hnamed => ?_
    have hvalue : ∀ key, Ensures (single? named key) fun value =>
        ∀ u ∈ value, u ∈ (object fields).parts := by
      refine fun key => (single?_mem named key).mono fun value hvalue u hu => ?_
      obtain ⟨f, hf, rfl⟩ := hvalue u hu
      exact hnamed f hf
    exact (Ensures.mapM fun key _ => hvalue key).mono fun values h u hu => h (some u) hu u rfl
  | _ => exact .none

/-- A structure takes a level, and its fields nest within the rest. -/
theorem record?_depth_le (keys : List String) (t : Tree) :
    Ensures (t.record? keys) fun values =>
      ∃ d, t.depth = d + 1 ∧ ∀ u, some u ∈ values → u.depth ≤ d := by
  intro values hvalues
  have hparts := record?_parts keys t values hvalues
  cases t with
  | array items => exact ⟨_, rfl, fun u hu => depth_le_of_mem_parts rfl (hparts u hu)⟩
  | object fields => exact ⟨_, rfl, fun u hu => depth_le_of_mem_parts rfl (hparts u hu)⟩
  | _ => cases hvalues

theorem items?_depth_le (t : Tree) :
    Ensures t.items? fun items => ∃ d, t.depth = d + 1 ∧ ∀ u ∈ items, u.depth ≤ d := by
  cases t with
  | array items => exact .of_some ⟨_, rfl, (depth_array_le items _).1 (Nat.le_refl _)⟩
  | _ => exact .none

end Tree

end Json

open Json (Tree Source Ensures)

/-! ### Types -/

namespace Ty

/-- What the kind of a type carries is a part of the tree that the type is read from. -/
theorem tagged?_parts (source : Source) (b : Nat) (t : Tree) :
    Ensures (tagged? source b t) fun read => 0 < t.depth ∧ ∀ c ∈ read.2.1, c ∈ t.parts := by
  unfold tagged?
  split
  · next kind content =>
    refine .after fun _ => .of_some ⟨Nat.succ_pos _, fun c hc => ?_⟩
    cases hc
    exact List.mem_cons_of_mem _ List.mem_cons_self
  · next fields =>
    refine (Tree.named?_parts fields).bind fun named hnamed => ?_
    have hmem : ∀ f ∈ named.filter fun f => f.1 = "kind" ∨ f.1 = "of",
        f.2 ∈ (Tree.object fields).parts := fun f hf => hnamed f (List.mem_filter.1 hf).1
    split
    · refine .after fun _ => .of_some ⟨Nat.succ_pos _, fun c hc => ?_⟩
      cases hc
    · next hfilter =>
      rw [hfilter] at hmem
      refine .after fun _ => .of_some ⟨Nat.succ_pos _, fun c hc => ?_⟩
      cases hc
      exact hmem ("of", _) (by simp)
    · next hfilter =>
      rw [hfilter] at hmem
      refine .after fun _ => .after fun _ => .of_some ⟨Nat.succ_pos _, fun c hc => ?_⟩
      cases hc
      exact hmem ("of", _) (by simp)
    · exact .none
  · exact .none

/-- A kind that carries nothing is written with itself alone. -/
theorem toTree_of_plainKind (kind : String) :
    Ensures (ofPlainKind? kind) fun ty => ty.toTree = kindTree kind none := by
  unfold ofPlainKind?
  split <;> first | exact .of_some rfl | exact .none

/-- A type is written no deeper than the tree that it is read from. -/
theorem ofTree?_depth_le (budget : Nat) :
    ∀ source t, Ensures (ofTree? source budget t) fun ty => ty.toTree.depth ≤ t.depth := by
  induction budget using Nat.strong_induction_on with
  | _ budget ih =>
    intro source t
    cases budget with
    | zero => exact .none
    | succ b =>
      rw [ofTree?]
      refine (tagged?_parts source b t).bind ?_
      rintro ⟨kind, content, source⟩ ⟨hpos, hparts⟩
      obtain ⟨d, hd⟩ := Nat.exists_eq_succ_of_ne_zero hpos.ne'
      have hcontent : ∀ c ∈ content, c.depth ≤ d :=
        fun c hc => Tree.depth_le_of_mem_parts hd (hparts c hc)
      rw [hd]
      have hname : ∀ kind c, Ensures (Tree.toString? c) fun name =>
          (kindTree kind (some (.ofString name))).depth ≤ d + 1 :=
        fun kind c name _ => (depth_kindTree_some kind _ d).2 (Nat.zero_le d)
      have helement : ∀ kind c, c.depth ≤ d → Ensures (ofTree? source b c) fun element =>
          (kindTree kind (some element.toTree)).depth ≤ d + 1 :=
        fun kind c hc element h =>
          (depth_kindTree_some kind _ d).2 ((ih b b.lt_succ_self source c element h).trans hc)
      dsimp only
      split
      · exact .map (hname _ _)
      · exact .map (hname _ _)
      · exact .map (helement _ _ (hcontent _ rfl))
      · exact .map (helement _ _ (hcontent _ rfl))
      · exact .map (helement _ _ (hcontent _ rfl))
      · next params result =>
        obtain ⟨e, rfl, hparamTrees, hresultTree⟩ := exists_depth_function (hcontent _ rfl)
        split
        · next b =>
          have hparams : Ensures (params.mapM fun p => ofTree? source b p) fun ps =>
              ∀ p ∈ ps, p.toTree.depth ≤ e :=
            .mapM fun p hp => (ih b (by omega) source p).mono fun _ h => h.trans (hparamTrees p hp)
          refine hparams.bind fun ps hps => (ih (b + 1) (by omega) source result).bind fun r hr =>
            .of_some ((depth_kindTree_some _ _ _).2 ?_)
          rw [toTrees_eq_map, depth_function_le]
          exact ⟨hps, hr.trans hresultTree⟩
        · exact .none
      · split
        · refine (toTree_of_plainKind kind).mono fun ty hty => ?_
          rw [hty]
          exact depth_kindTree_none kind d
        · exact .none

end Ty

/-! ### Literals, members and methods -/

namespace Literal

theorem depth_toTree_le (l : Literal) : l.toTree.depth ≤ 1 := by
  cases l with
  | null => exact Nat.zero_le 1
  | double x => simp [toTree, Tree.depth_ofFields_le, depth_doubleTree]
  | _ => exact (Tree.depth_ofFields_le _ 0).2 (List.forall_mem_singleton.2 (Nat.le_refl 0))

theorem toBinary64?_isFinite (t : Tree) : Ensures t.toBinary64? fun x => x.isFinite = true := by
  cases t with
  | number n => exact fun _ h => Numeral.toBinary64?_isFinite h
  | _ => exact .none

/-- A literal is written no deeper than the tree that it is read from, and a double in it is finite. -/
theorem ofTree?_fits (source : Source) (b : Nat) (t : Tree) :
    Ensures (ofTree? source b t) fun l =>
      l.toTree.depth ≤ t.depth ∧ ∀ x ∈ l.doubles, x.isFinite = true := by
  unfold ofTree?
  split
  · next key content =>
    have hdepth : ∀ l : Literal, l.toTree.depth ≤ (Tree.object [(key, content)]).depth :=
      fun l => l.depth_toTree_le.trans (Nat.succ_le_succ (Nat.zero_le _))
    have hplain : ∀ l : Literal, l.doubles = [] →
        l.toTree.depth ≤ (Tree.object [(key, content)]).depth ∧ ∀ x ∈ l.doubles, x.isFinite = true :=
      fun l hl => ⟨hdepth l, by simp [hl]⟩
    split
    · exact .none
    · refine .after fun name => ?_
      split
      · split
        · exact .of_some (hplain .null rfl)
        · exact .none
      · exact .map fun c _ => hplain (.bool c) rfl
      · exact .map fun n _ => hplain (.int n) rfl
      · exact .map fun n _ => hplain (.long n) rfl
      · exact .map fun x hx => ⟨hdepth _, List.forall_mem_singleton.2 (toBinary64?_isFinite content x hx)⟩
      · exact .map fun s _ => hplain (.string s) rfl
      · exact .none
  · split
    · exact .of_some ⟨Nat.zero_le _, List.forall_mem_nil _⟩
    · exact .none

end Literal

/-- A member is written no deeper than the tree that it is read from. -/
theorem MemberSig.ofTree?_depth_le (source : Source) (b : Nat) (t : Tree) :
    Ensures (ofTree? source b t) fun m => m.toTree.depth ≤ t.depth := by
  unfold ofTree?
  split
  · exact .none
  · next b =>
    refine (Tree.record?_depth_le _ t).bind ?_
    rintro values ⟨d, hd, hvalues⟩
    rw [hd]
    split
    · next name tyTree =>
      have htyTree : tyTree.depth ≤ d := hvalues tyTree (by simp)
      refine .after fun n => (Ty.ofTree?_depth_le b source tyTree).bind fun ty hty => .of_some ?_
      rw [toTree, Tree.depth_ofFields_le, List.forall_mem_cons, List.forall_mem_singleton]
      exact ⟨Nat.zero_le d, hty.trans htyTree⟩
    · exact .none

/-- A method is written no deeper than the tree that it is read from. -/
theorem MethodSig.ofTree?_depth_le (source : Source) (b : Nat) (t : Tree) :
    Ensures (ofTree? source b t) fun m => m.toTree.depth ≤ t.depth := by
  unfold ofTree?
  split
  · next b =>
    refine (Tree.record?_depth_le _ t).bind ?_
    rintro values ⟨d, hd, hvalues⟩
    rw [hd]
    split
    · next name params resultTree =>
      have hparamsTree : params.depth ≤ d := hvalues params (by simp)
      have hresultTree : resultTree.depth ≤ d := hvalues resultTree (by simp)
      refine .after fun n => (Tree.items?_depth_le params).bind ?_
      rintro items ⟨e, he, hitems⟩
      have hparams : Ensures (items.mapM (Ty.ofTree? source b)) fun ps =>
          ∀ p ∈ ps, p.toTree.depth ≤ e :=
        .mapM fun p hp => (Ty.ofTree?_depth_le b source p).mono fun _ h => h.trans (hitems p hp)
      refine hparams.bind fun ps hps => (Ty.ofTree?_depth_le (b + 1) source resultTree).bind
        fun r hr => .of_some ?_
      have hpsTree : (Tree.array (ps.map Ty.toTree)).depth ≤ e + 1 := by
        rwa [Tree.depth_array_le, List.forall_mem_map]
      rw [toTree, Tree.depth_ofFields_le, List.forall_mem_cons, List.forall_mem_cons,
        List.forall_mem_singleton, Ty.toTrees_eq_map]
      exact ⟨Nat.zero_le d, hpsTree.trans (he ▸ hparamsTree), hr.trans hresultTree⟩
    · exact .none
  · exact .none

/-! ### Paths -/

namespace Path

/-- The path is written within `b` levels and its doubles are finite, which is what it takes to read it
back. -/
def Fits (p : Path) (b : Nat) : Prop := p.toTree.depth ≤ b ∧ ∀ x ∈ p.doubles, x.isFinite = true

theorem Fits.mono {p : Path} {b c : Nat} (h : p.Fits b) (hbc : b ≤ c) : p.Fits c :=
  ⟨h.1.trans hbc, h.2⟩

/-- The fields of a node are parts of the tree that it is read from. -/
theorem tagged?_parts (source : Source) (t : Tree) :
    Ensures (tagged? source t) fun read => 0 < t.depth ∧ ∀ u ∈ read.2.parts, u ∈ t.parts := by
  unfold tagged?
  split
  · exact .after fun kind => .of_some ⟨Nat.succ_pos _, fun u hu => List.mem_cons_of_mem _ hu⟩
  · next fields =>
    refine .after fun named => .after fun value => .after fun tag => .after fun kind =>
      .of_some ⟨Nat.succ_pos _, fun u hu => ?_⟩
    obtain ⟨f, hf, rfl⟩ := List.mem_map.1 hu
    exact List.mem_map_of_mem (List.mem_filter.1 hf).1
  · exact .none

/-- A node takes a level more than its fields. -/
theorem fits_node {p : Path} (kind : NodeKind) {fields : List (String × Tree)} {d : Nat}
    (hp : p.toTree = kind.node fields) (hfields : ∀ f ∈ fields, f.2.depth ≤ d)
    (hdoubles : ∀ x ∈ p.doubles, x.isFinite = true) : p.Fits (d + 1) := by
  refine ⟨?_, hdoubles⟩
  rw [hp]
  exact (NodeKind.depth_node_le kind fields d).2 hfields

theorem constant_fits {value : Literal} {ty : Ty} {d : Nat}
    (hvalue : value.toTree.depth ≤ d ∧ ∀ x ∈ value.doubles, x.isFinite = true)
    (hty : ty.toTree.depth ≤ d) : (constant value ty).Fits (d + 1) := by
  refine fits_node .constant rfl ?_ hvalue.2
  rw [List.forall_mem_cons, List.forall_mem_singleton]
  exact ⟨hvalue.1, hty⟩

theorem parameter_fits (name : String) {ty : Ty} {d : Nat} (hty : ty.toTree.depth ≤ d) :
    (parameter name ty).Fits (d + 1) := by
  refine fits_node .parameter rfl ?_ (List.forall_mem_nil _)
  rw [List.forall_mem_cons, List.forall_mem_singleton]
  exact ⟨Nat.zero_le d, hty⟩

theorem memberAccess_fits {target : Path} {member : MemberSig} {d : Nat} (htarget : target.Fits d)
    (hmember : member.toTree.depth ≤ d) : (memberAccess target member).Fits (d + 1) := by
  refine fits_node .memberAccess rfl ?_ htarget.2
  rw [List.forall_mem_cons, List.forall_mem_singleton]
  exact ⟨htarget.1, hmember⟩

theorem lambda_fits (param : String) {paramTy : Ty} {body : Path} {d : Nat}
    (hparamTy : paramTy.toTree.depth ≤ d) (hbody : body.Fits d) :
    (lambda param paramTy body).Fits (d + 1) := by
  refine fits_node .lambda rfl ?_ hbody.2
  rw [List.forall_mem_cons, List.forall_mem_cons, List.forall_mem_singleton]
  exact ⟨Nat.zero_le d, hparamTy, hbody.1⟩

/-- The arguments of a call take a level of their own. -/
theorem args_fit {args : List Path} {d : Nat} (h : ∀ a ∈ args, a.Fits d) :
    (Tree.array (toTrees args)).depth ≤ d + 1 ∧ ∀ x ∈ doublesOfAll args, x.isFinite = true := by
  rw [toTrees_eq_map, Tree.depth_array_le, List.forall_mem_map, forall_mem_doublesOfAll]
  exact ⟨fun a ha => (h a ha).1, fun a ha => (h a ha).2⟩

theorem methodCall_fits {receiver : Path} {method : MethodSig} {args : List Path} {d : Nat}
    (hreceiver : receiver.Fits (d + 1)) (hmethod : method.toTree.depth ≤ d + 1)
    (hargs : ∀ a ∈ args, a.Fits d) : (methodCall receiver method args).Fits (d + 2) := by
  obtain ⟨hargs, hdoubles⟩ := args_fit hargs
  refine fits_node .methodCall rfl ?_ (List.forall_mem_append.2 ⟨hreceiver.2, hdoubles⟩)
  rw [List.forall_mem_cons, List.forall_mem_cons, List.forall_mem_singleton]
  exact ⟨hreceiver.1, hmethod, hargs⟩

theorem extensionCall_fits {method : MethodSig} {args : List Path} {d : Nat}
    (hmethod : method.toTree.depth ≤ d + 1) (hargs : ∀ a ∈ args, a.Fits d) :
    (extensionCall method args).Fits (d + 2) := by
  obtain ⟨hargs, hdoubles⟩ := args_fit hargs
  refine fits_node .methodCall rfl ?_ hdoubles
  rw [List.forall_mem_cons, List.forall_mem_cons, List.forall_mem_singleton]
  exact ⟨Nat.zero_le _, hmethod, hargs⟩

/-- What is read as a path is written no deeper than the tree that it is read from, and its doubles are
finite. -/
theorem ofNode?_fits (budget : Nat) :
    ∀ source t, Ensures (ofNode? source budget t) fun p => p.Fits t.depth := by
  induction budget using Nat.strong_induction_on with
  | _ budget ih =>
    intro source t
    cases budget with
    | zero => exact .none
    | succ b =>
      rw [ofNode?]
      refine (tagged?_parts source t).bind ?_
      rintro ⟨kind, fields⟩ ⟨hpos, hparts⟩
      refine (Tree.record?_parts kind.keys fields).bind fun values hvalues => ?_
      -- what is written of a field nests within the levels that are left below the node that was read
      obtain ⟨d, hd⟩ := Nat.exists_eq_add_one_of_ne_zero hpos.ne'
      have hfields : ∀ u, some u ∈ values → u.depth ≤ d :=
        fun u hu => Tree.depth_le_of_mem_parts hd (hparts u (hvalues u hu))
      have hty : ∀ u, some u ∈ values → Ensures (Ty.ofTree? .copy b u) fun ty => ty.toTree.depth ≤ d :=
        fun u hu => (Ty.ofTree?_depth_le b .copy u).mono fun _ h => h.trans (hfields u hu)
      have hpath : ∀ c < b + 1, ∀ u, some u ∈ values → Ensures (ofNode? .copy c u) (·.Fits d) :=
        fun c hc u hu => (ih c hc .copy u).mono fun _ h => h.mono (hfields u hu)
      rw [hd]
      split
      · next value ty =>
        exact (Literal.ofTree?_fits .copy b value).bind fun l hl => (hty ty (by simp)).bind fun _ hty =>
          .of_some (constant_fits ⟨hl.1.trans (hfields value (by simp)), hl.2⟩ hty)
      · next name ty =>
        exact .after fun n => (hty ty (by simp)).bind fun _ hty => .of_some (parameter_fits n hty)
      · next target member =>
        have hmember := hfields member (by simp)
        exact (hpath b b.lt_succ_self target (by simp)).bind fun _ htarget =>
          (MemberSig.ofTree?_depth_le .copy b member).bind fun _ hm =>
            .of_some (memberAccess_fits htarget (hm.trans hmember))
      · next receiver method args =>
        refine (MethodSig.ofTree?_depth_le .copy b method).bind fun m hm => ?_
        have hmethod := hm.trans (hfields method (by simp))
        split
        · exact .none
        · next b =>
          refine (Tree.items?_depth_le args).bind ?_
          rintro items ⟨e, he, hitems⟩
          -- the arguments stand in an array, so that a level is left for it
          have hargsTree : e + 1 ≤ d := he ▸ hfields args (by simp)
          obtain ⟨d, rfl⟩ : ∃ c, d = c + 1 := ⟨d - 1, by omega⟩
          have hargs : Ensures (items.mapM fun arg => ofNode? .copy b arg) fun ps => ∀ p ∈ ps, p.Fits d :=
            .mapM fun u hu => (ih b (by omega) .copy u).mono fun p hp =>
              hp.mono ((hitems u hu).trans (Nat.le_of_succ_le_succ hargsTree))
          refine hargs.bind fun ps hps => ?_
          split
          · exact .of_some (extensionCall_fits hmethod hps)
          · exact .of_some (extensionCall_fits hmethod hps)
          · next receiver _ =>
            exact (hpath (b + 1) (by omega) receiver (by simp)).bind fun _ hreceiver =>
              .of_some (methodCall_fits hreceiver hmethod hps)
      · next param paramTy body =>
        exact .after fun n => (hty paramTy (by simp)).bind fun _ hparamTy =>
          (hpath b b.lt_succ_self body (by simp)).bind fun _ hbody =>
            .of_some (lambda_fits n hparamTy hbody)
      · exact .none

/-- Whatever loads can be saved and loaded again. The text that is written of it is the JSON text of a tree
no deeper than the one that was read, with finite doubles only; it is read as the same path, and saving that
gives the same text. -/
theorem ofJson?_reload {text : String} {p : Path} (hload : ofJson? text = some p)
    (hread : ∀ x ∈ p.doubles, x.isFinite = true →
      (Literal.doubleLayout.numeral x).toBinary64? = some x) :
    (∃ t, Tree.parse? text = some t ∧ p.toTree.depth ≤ t.depth ∧ t.depth ≤ Json.nestingLimit) ∧
      (∀ x ∈ p.doubles, x.isFinite = true) ∧
      Tree.parse? p.toJson = some p.toTree ∧
      ofJson? p.toJson = some p ∧ ∀ q, ofJson? p.toJson = some q → q.toJson = p.toJson := by
  obtain ⟨t, ht, hload⟩ := Option.bind_eq_some_iff.1 hload
  rw [ofTree?] at hload
  split at hload
  · next hstrict =>
    have hlimit : t.depth ≤ Json.nestingLimit := ((Tree.isStrict_iff t _).1 hstrict).1
    obtain ⟨hdepth, hfinite⟩ := ofNode?_fits Json.nestingLimit .stream t p hload
    have hreload : ofJson? p.toJson = some p :=
      (p.yields_toJson hread p).2 ⟨⟨hdepth.trans hlimit, hfinite⟩, rfl⟩
    refine ⟨⟨t, ht, hdepth, hlimit⟩, hfinite, p.parse?_toJson, hreload, fun q hq => ?_⟩
    cases hreload.symm.trans hq
    rfl
  · cases hload

/-- A text that no path is written as: arrays for the nodes and the member, the one inside with the number of
its kind and an integer for its double, and a type with a key that no type has. -/
theorem ofJson?_reload_numbered :
    let text := "[\"member_access\", [0, \x7b\"double\": 2\x7d, [\"any\", null]], " ++
      "[\"m\", \x7b\"x\": [[]], \"kind\": \"int\"\x7d]]"
    let saved := "\x7b\"node\":\"member_access\",\"target\":\x7b\"node\":\"constant\"," ++
      "\"value\":\x7b\"double\":2.0\x7d,\"ty\":\x7b\"kind\":\"any\"\x7d\x7d," ++
      "\"member\":\x7b\"name\":\"m\",\"ty\":\x7b\"kind\":\"int\"\x7d\x7d\x7d"
    ∃ p : Path, ofJson? text = some p ∧ p.doubles = [⟨0x4000000000000000⟩] ∧ p.toJson = saved ∧
      ofJson? saved = some p := by
  intro text saved
  have hload : (ofJson? text).map (fun p => (p.doubles, p.toJson)) =
      some ([⟨0x4000000000000000⟩], saved) := by decide +kernel
  obtain ⟨p, hp, heq⟩ := Option.map_eq_some_iff.1 hload
  obtain ⟨hdoubles, hsaved⟩ := Prod.mk.inj heq
  have hread : ∀ x ∈ p.doubles, x.isFinite = true →
      (Literal.doubleLayout.numeral x).toBinary64? = some x := by
    rw [hdoubles, List.forall_mem_singleton]
    exact fun _ => by decide +kernel
  obtain ⟨-, -, -, hreload, -⟩ := ofJson?_reload hp hread
  exact ⟨p, hp, hdoubles, hsaved, hsaved ▸ hreload⟩

end Path

end AccessPath
