import OpGraph.Proofs.Pointwise
import OpGraph.Desc
import OpGraph.Op.Elementwise
import Mathlib.Data.List.GetD

/-!
# More and less precise descriptions

A description refines another one if it keeps everything that the other one knows: an unknown type,
rank or length may have become known, and nothing known has changed.

Two descriptions that combine still combine after both have lost some of what they know, and what they
combine to has then lost some of what it knows (`Lenient`).  So it is for each way to combine
descriptions: `Dim.lenient_merge`, `Dim.lenient_broadcast`, `PartialShape.lenient_merge`,
`PartialShape.lenient_broadcast`, `ElementType.lenient_merge`.
-/

namespace OpGraph

/-- The dimension keeps the length of another one, if that is known. -/
def Dim.Refines (d' d : Dim) : Prop := d = dynamic ∨ d' = d

/-- The type is another one, if that is known. -/
def ElementType.Refines (t' t : ElementType) : Prop := t = dynamic ∨ t' = t

/-- The shape keeps the rank and the lengths of another one, as far as they are known. -/
def PartialShape.Refines : PartialShape → PartialShape → Prop
  | _, unranked => True
  | unranked, ranked _ => False
  | ranked ds', ranked ds => List.Forall₂ Dim.Refines ds' ds

/-- The description keeps what another one knows. -/
def Desc.Refines (d' d : Desc) : Prop :=
  d'.elementType.Refines d.elementType ∧ d'.shape.Refines d.shape

/-- A combination that succeeds also succeeds from what knows less, and then knows less. -/
def Lenient {α : Type} (R : α → α → Prop) (f : α → α → Option α) : Prop :=
  ∀ {a' a b' b c' : α}, R a' a → R b' b → f a' b' = some c' → ∃ c, f a b = some c ∧ R c' c

/-- What knows less combines to what knows less. -/
theorem Lenient.relates {α : Type} {R : α → α → Prop} {f : α → α → Option α} (hf : Lenient R f)
    {a' a b' b c' c : α} (ha : R a' a) (hb : R b' b) (hc' : f a' b' = some c')
    (hc : f a b = some c) : R c' c := by
  obtain ⟨d, hd, hr⟩ := hf ha hb hc'
  exact Option.some.inj (hd.symm.trans hc) ▸ hr

/-! ### Dimensions -/

namespace Dim

theorem Refines.refl (d : Dim) : d.Refines d := Or.inr rfl

theorem refines_dynamic (d : Dim) : d.Refines dynamic := Or.inl rfl

theorem Refines.trans {a b c : Dim} (hab : a.Refines b) (hbc : b.Refines c) : a.Refines c := by
  rcases hbc with rfl | rfl
  · exact refines_dynamic a
  · exact hab

/-- Only a known length refines a known length. -/
theorem Refines.eq_static {d : Dim} {n : Nat} (h : d.Refines (static n)) : d = static n := by
  rcases h with h | h
  · cases h
  · exact h

/-- What two dimensions merge to keeps what the first one knows. -/
theorem refines_of_merge {a b c : Dim} (h : a.merge b = some c) : c.Refines a := by
  cases a with
  | dynamic => exact refines_dynamic c
  | static m =>
    cases b with
    | dynamic => exact Or.inr (Option.some.inj h).symm
    | static n =>
      obtain ⟨-, hc⟩ := Option.ite_none_right_eq_some.1 h
      exact Or.inr (Option.some.inj hc).symm

theorem lenient_merge : Lenient Refines merge := by
  intro a' a b' b c' ha hb h
  rcases ha with rfl | rfl
  · exact ⟨b, rfl, (refines_of_merge (merge_comm .. ▸ h)).trans hb⟩
  · rcases hb with rfl | rfl
    · exact ⟨a', merge_dynamic_right a', refines_of_merge h⟩
    · exact ⟨c', h, Refines.refl c'⟩

/-- A length other than one is the length of the result. -/
theorem eq_of_broadcast_static {a c : Dim} {n : Nat} (hn : n ≠ 1)
    (h : a.broadcast (static n) = some c) : c = static n := by
  have hone : static n ≠ static 1 := fun he => hn (static.inj he)
  unfold broadcast at h
  rw [if_neg hone] at h
  split at h
  next => exact (Option.some.inj h).symm
  next => exact (refines_of_merge (merge_comm .. ▸ h)).eq_static

/-- Beside an axis of unknown length the other one counts, unless it is repeated. -/
theorem exists_broadcast_dynamic {a' b' b c' : Dim} (hb : b'.Refines b)
    (h : a'.broadcast b' = some c') : ∃ c, dynamic.broadcast b = some c ∧ c'.Refines c := by
  cases b with
  | dynamic => exact ⟨dynamic, rfl, refines_dynamic c'⟩
  | static n =>
    by_cases hn : n = 1
    · exact ⟨dynamic, by rw [hn, broadcast_one_right], refines_dynamic c'⟩
    · rw [hb.eq_static] at h
      refine ⟨static n, ?_, Or.inr (eq_of_broadcast_static hn h)⟩
      simp [broadcast, hn]

theorem lenient_broadcast : Lenient Refines broadcast := by
  intro a' a b' b c' ha hb h
  rcases ha with rfl | rfl
  · exact exists_broadcast_dynamic hb h
  · rcases hb with rfl | rfl
    · rw [broadcast_comm] at h ⊢
      exact exists_broadcast_dynamic (Refines.refl a') h
    · exact ⟨c', h, Refines.refl c'⟩

theorem refines_add {a' a b' b : Dim} (ha : a'.Refines a) (hb : b'.Refines b) :
    (a' + b').Refines (a + b) := by
  rcases ha with rfl | rfl
  · exact refines_dynamic _
  · rcases hb with rfl | rfl
    · rw [add_dynamic]
      exact refines_dynamic _
    · exact Refines.refl _

end Dim

/-! ### Element types -/

theorem ElementType.Refines.refl (t : ElementType) : t.Refines t := Or.inr rfl

/-- Only a known type refines it. -/
theorem ElementType.Refines.eq_boolean {t : ElementType} (h : t.Refines boolean) : t = boolean := by
  rcases h with h | h
  · cases h
  · exact h

theorem ElementType.lenient_merge : Lenient Refines merge := by
  intro a' a b' b c' ha hb h
  unfold merge at h ⊢
  unfold Refines at *
  grind

/-! ### Ranks -/

/-- Of several descriptions that know one rank, fewer know that one or none. -/
theorem exists_rank_of_imp {Known' Known : Nat → Prop} {r' : Option Nat}
    (h' : ∀ k, r' = some k ↔ Known' k) (himp : ∀ k, Known k → Known' k) :
    ∃ r, (∀ k, r = some k ↔ Known k) ∧ ∀ k, r = some k → r' = some k := by
  have hr' : ∀ k, Known k → r' = some k := fun k hk => (h' k).2 (himp k hk)
  by_cases hex : ∃ k, Known k
  · obtain ⟨k, hk⟩ := hex
    have hiff : ∀ j, some k = some j ↔ Known j := by
      intro j
      constructor
      · intro hj
        exact Option.some.inj hj ▸ hk
      · intro hj
        exact (hr' k hk).symm.trans (hr' j hj)
    exact ⟨some k, hiff, fun j hj => hr' j ((hiff j).1 hj)⟩
  · refine ⟨none, fun k => ⟨fun hk => ?_, fun hk => absurd ⟨k, hk⟩ hex⟩, fun k hk => ?_⟩
    · cases hk
    · cases hk

/-! ### Shapes -/

namespace PartialShape

theorem refines_unranked (s : PartialShape) : s.Refines unranked := by
  cases s <;> trivial

theorem Refines.refl (s : PartialShape) : s.Refines s := by
  cases s with
  | unranked => trivial
  | ranked dims => exact List.forall₂_same.2 fun d _ => Dim.Refines.refl d

/-- Only a shape of the same rank refines a shape of known rank. -/
theorem Refines.exists_ranked {s : PartialShape} {dims : List Dim} (h : s.Refines (ranked dims)) :
    ∃ dims', s = ranked dims' ∧ List.Forall₂ Dim.Refines dims' dims := by
  cases s with
  | unranked => exact h.elim
  | ranked dims' => exact ⟨dims', rfl, h⟩

theorem Refines.trans {a b c : PartialShape} (hab : a.Refines b) (hbc : b.Refines c) :
    a.Refines c := by
  cases c with
  | unranked => exact refines_unranked a
  | ranked cs =>
    obtain ⟨bs, rfl, hbs⟩ := hbc.exists_ranked
    obtain ⟨as, rfl, has⟩ := hab.exists_ranked
    exact forall₂_trans has hbs Dim.Refines.trans

theorem Refines.rank?_eq {s' s : PartialShape} (h : s'.Refines s) {r : Nat}
    (hr : s.rank? = some r) : s'.rank? = some r := by
  cases s with
  | unranked => cases hr
  | ranked dims =>
    obtain ⟨dims', rfl, hdims⟩ := h.exists_ranked
    rw [← hr, rank?, rank?, hdims.length_eq]

/-- The length of an axis is not known better where the rank is not. -/
theorem Refines.dim?_getD {s' s : PartialShape} (h : s'.Refines s) (axis : Nat) :
    ((s'.dim? axis).getD .dynamic).Refines ((s.dim? axis).getD .dynamic) := by
  cases s with
  | unranked => exact Dim.refines_dynamic _
  | ranked dims =>
    obtain ⟨dims', rfl, hdims⟩ := h.exists_ranked
    show Dim.Refines (dims'[axis]?.getD .dynamic) (dims[axis]?.getD .dynamic)
    cases hd : dims[axis]? with
    | none => exact Dim.refines_dynamic _
    | some d =>
      obtain ⟨d', hd', hdd⟩ := forall₂_getElem?_right hdims hd
      rw [hd']
      exact hdd

theorem Refines.dimsOfRank_getD {s' s : PartialShape} (h : s'.Refines s) (rank axis : Nat) :
    ((s'.dimsOfRank rank).getD axis .dynamic).Refines ((s.dimsOfRank rank).getD axis .dynamic) := by
  rw [List.getD_eq_getElem?_getD, List.getD_eq_getElem?_getD]
  cases s with
  | unranked =>
    rw [dimsOfRank.eq_def unranked, List.getElem?_getD_replicate_default_eq]
    exact Dim.refines_dynamic _
  | ranked dims =>
    obtain ⟨dims', rfl, -⟩ := h.exists_ranked
    exact h.dim?_getD axis

theorem lenient_zipDims {f : Dim → Dim → Option Dim} (hf : Lenient Dim.Refines f)
    {as' as bs' bs cs' : List Dim} (ha : List.Forall₂ Dim.Refines as' as)
    (hb : List.Forall₂ Dim.Refines bs' bs) (h : zipDims f as' bs' = some cs') :
    ∃ cs, zipDims f as bs = some cs ∧ List.Forall₂ Dim.Refines cs' cs := by
  induction ha generalizing bs' bs cs' with
  | nil =>
    cases hb with
    | nil =>
      obtain rfl := Option.some.inj h
      exact ⟨[], rfl, .nil⟩
    | cons _ _ => cases h
  | cons ha _ ih =>
    cases hb with
    | nil => cases h
    | cons hb hbs =>
      rw [zipDims] at h
      obtain ⟨c', hc', h⟩ := Option.bind_eq_some_iff.1 h
      obtain ⟨cs', hcs', h⟩ := Option.bind_eq_some_iff.1 h
      obtain rfl := Option.some.inj h
      obtain ⟨c, hc, hcc⟩ := hf ha hb hc'
      obtain ⟨cs, hcs, hccs⟩ := ih hbs hcs'
      exact ⟨c :: cs, by rw [zipDims, hc, hcs]; rfl, .cons hcc hccs⟩

theorem refines_of_zipDims {as bs cs : List Dim} (h : zipDims Dim.merge as bs = some cs) :
    List.Forall₂ Dim.Refines cs as := by
  induction as generalizing bs cs with
  | nil =>
    cases bs with
    | nil =>
      obtain rfl := Option.some.inj h
      exact .nil
    | cons b bs => cases h
  | cons a as ih =>
    cases bs with
    | nil => cases h
    | cons b bs =>
      rw [zipDims] at h
      obtain ⟨c, hc, h⟩ := Option.bind_eq_some_iff.1 h
      obtain ⟨cs, hcs, h⟩ := Option.bind_eq_some_iff.1 h
      obtain rfl := Option.some.inj h
      exact .cons (Dim.refines_of_merge hc) (ih hcs)

/-- What two shapes merge to keeps what the first one knows. -/
theorem refines_of_merge {a b c : PartialShape} (h : a.merge b = some c) : c.Refines a := by
  cases a with
  | unranked => exact refines_unranked c
  | ranked as =>
    cases b with
    | unranked => exact Option.some.inj h ▸ Refines.refl _
    | ranked bs =>
      obtain ⟨cs, hcs, rfl⟩ := Option.map_eq_some_iff.1 h
      exact refines_of_zipDims hcs

theorem lenient_merge : Lenient Refines merge := by
  intro a' a b' b c' ha hb h
  cases a with
  | unranked => exact ⟨b, rfl, (refines_of_merge (merge_comm .. ▸ h)).trans hb⟩
  | ranked as =>
    cases b with
    | unranked => exact ⟨ranked as, rfl, (refines_of_merge h).trans ha⟩
    | ranked bs =>
      obtain ⟨as', rfl, has⟩ := ha.exists_ranked
      obtain ⟨bs', rfl, hbs⟩ := hb.exists_ranked
      obtain ⟨cs', hcs', rfl⟩ := Option.map_eq_some_iff.1 h
      obtain ⟨cs, hcs, hccs⟩ := lenient_zipDims Dim.lenient_merge has hbs hcs'
      exact ⟨ranked cs, by rw [merge, hcs]; rfl, hccs⟩

theorem refines_padTo {as' as : List Dim} (h : List.Forall₂ Dim.Refines as' as) (rank : Nat) :
    List.Forall₂ Dim.Refines (padTo rank as') (padTo rank as) := by
  unfold padTo
  rw [h.length_eq]
  exact List.rel_append (List.forall₂_same.2 fun d _ => Dim.Refines.refl d) h

theorem lenient_broadcast : Lenient Refines broadcast := by
  intro a' a b' b c' ha hb h
  cases a with
  | unranked => exact ⟨unranked, rfl, refines_unranked c'⟩
  | ranked as =>
    cases b with
    | unranked => exact ⟨unranked, rfl, refines_unranked c'⟩
    | ranked bs =>
      obtain ⟨as', rfl, has⟩ := ha.exists_ranked
      obtain ⟨bs', rfl, hbs⟩ := hb.exists_ranked
      obtain ⟨cs', hcs', rfl⟩ := Option.map_eq_some_iff.1 h
      obtain ⟨cs, hcs, hccs⟩ := lenient_zipDims Dim.lenient_broadcast (refines_padTo has _)
        (refines_padTo hbs _) hcs'
      refine ⟨ranked cs, ?_, hccs⟩
      rw [has.length_eq, hbs.length_eq] at hcs
      rw [broadcast, hcs]
      rfl

end PartialShape

/-- Whatever the rule of broadcasting. -/
theorem Broadcast.lenient_shape? (rule : Broadcast) : Lenient PartialShape.Refines rule.shape? := by
  cases rule with
  | none => exact PartialShape.lenient_merge
  | numpy => exact PartialShape.lenient_broadcast

end OpGraph
