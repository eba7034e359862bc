import OpGraph.Proofs.Shape.Exactness

/-!
# Merging of descriptions is exact intersection

Two descriptions of one shape are merged, and what they merge to admits the shapes that both of them
admit and no others.  They do not merge exactly when there is no such shape
(`PartialShape.admits_merge_iff`, `PartialShape.exists_merge_iff`).

A description is determined by the shapes that it admits (`PartialShape.admits_injective`).  So are then the
results of merging: a failure admits nothing, and everything else admits something
(`PartialShape.eq_of_allows`).  Whatever the order and the grouping in which descriptions are merged, the
result admits the shapes that all of them admit (`Grouping.allows_merged?`), so it is always the same
(`PartialShape.merge_exact`).
-/

namespace OpGraph

/-! ### Dimensions -/

/-- A dimension is determined by the lengths that it admits. -/
theorem Dim.admits_injective {a b : Dim} (h : ∀ n, a.Admits n ↔ b.Admits n) : a = b := by
  cases a with
  | dynamic =>
    cases b with
    | dynamic => rfl
    | static n => exact absurd ((h (n + 1)).1 trivial) (Nat.succ_ne_self n).symm
  | static m =>
    cases b with
    | dynamic => exact absurd ((h (m + 1)).2 trivial) (Nat.succ_ne_self m).symm
    | static n => exact congrArg static ((h n).2 rfl)

namespace PartialShape

/-! ### Shapes -/

theorem admits_ranked_injective {as bs : List Dim}
    (h : ∀ s, (ranked as).Admits s ↔ (ranked bs).Admits s) : as = bs := by
  induction as generalizing bs with
  | nil => cases (h []).1 .nil with | nil => rfl
  | cons a as ih =>
    obtain ⟨n, hn⟩ := a.exists_admits
    obtain ⟨s, hs⟩ := (ranked as).exists_admits
    cases (h (n :: s)).1 (.cons hn hs) with
    | @cons b _ bs _ hbn hbs =>
      -- one of head and tail is kept, the other one varies
      have hhead : a = b := by
        refine Dim.admits_injective fun k => ⟨fun hk => ?_, fun hk => ?_⟩
        · exact (List.forall₂_cons.1 ((h (k :: s)).1 (.cons hk hs))).1
        · exact (List.forall₂_cons.1 ((h (k :: s)).2 (.cons hk hbs))).1
      have htail : as = bs := by
        refine ih fun r => ⟨fun hr => ?_, fun hr => ?_⟩
        · exact (List.forall₂_cons.1 ((h (n :: r)).1 (.cons hn hr))).2
        · exact (List.forall₂_cons.1 ((h (n :: r)).2 (.cons hbn hr))).2
      rw [hhead, htail]

theorem not_admits_longer (dims : List Dim) :
    ¬ (ranked dims).Admits (List.replicate (dims.length + 1) 0) := by
  intro h
  have hlength := List.Forall₂.length_eq h
  rw [List.length_replicate] at hlength
  omega

/-- **A description is determined by the shapes that it admits.** -/
theorem admits_injective {p q : PartialShape} (h : ∀ s, p.Admits s ↔ q.Admits s) : p = q := by
  cases p with
  | unranked =>
    cases q with
    | unranked => rfl
    | ranked bs => exact absurd ((h _).1 trivial) (not_admits_longer bs)
  | ranked as =>
    cases q with
    | unranked => exact absurd ((h _).2 trivial) (not_admits_longer as)
    | ranked bs => exact congrArg ranked (admits_ranked_injective h)

/-! ### Merging -/

/-- **The merged description admits exactly what both descriptions admit.** -/
theorem admits_merge_iff {a b c : PartialShape} (h : a.merge b = some c) {s : Shape} :
    c.Admits s ↔ a.Admits s ∧ b.Admits s := by
  refine ⟨fun hs => ?_, fun hs => admits_merge h hs.1 hs.2⟩
  have hca := refines_of_merge h
  have hcb := refines_of_merge (merge_comm a b ▸ h)
  rw [← refines_ofShape_iff] at hs
  exact ⟨refines_ofShape_iff.1 (hs.trans hca), refines_ofShape_iff.1 (hs.trans hcb)⟩

/-- **Descriptions merge if and only if some shape is admitted by both.** -/
theorem exists_merge_iff {a b : PartialShape} :
    (∃ c, a.merge b = some c) ↔ ∃ s, a.Admits s ∧ b.Admits s := by
  constructor
  · rintro ⟨c, hc⟩
    obtain ⟨s, hs⟩ := c.exists_admits
    exact ⟨s, (admits_merge_iff hc).1 hs⟩
  · rintro ⟨s, ha, hb⟩
    have hs : merge (ofShape s) (ofShape s) = some (ofShape s) := merge_ofShape_eq_some.2 ⟨rfl, rfl⟩
    obtain ⟨c, hc, -⟩ := lenient_merge (refines_ofShape_iff.2 ha) (refines_ofShape_iff.2 hb) hs
    exact ⟨c, hc⟩

/-- The shape is admitted by a result of merging; a failure admits none. -/
def Allows (r : Option PartialShape) (s : Shape) : Prop := ∃ c, r = some c ∧ c.Admits s

@[simp] theorem allows_some {p : PartialShape} {s : Shape} : Allows (some p) s ↔ p.Admits s := by
  simp [Allows]

theorem allows_merge {a b : PartialShape} {s : Shape} :
    Allows (a.merge b) s ↔ a.Admits s ∧ b.Admits s := by
  constructor
  · rintro ⟨c, hc, hs⟩
    exact (admits_merge_iff hc).1 hs
  · intro hs
    obtain ⟨c, hc⟩ := exists_merge_iff.2 ⟨s, hs⟩
    exact ⟨c, hc, (admits_merge_iff hc).2 hs⟩

/-- **A result of merging is determined by the shapes that it admits.** -/
theorem eq_of_allows {r r' : Option PartialShape} (h : ∀ s, Allows r s ↔ Allows r' s) : r = r' := by
  cases r with
  | none =>
    cases r' with
    | none => rfl
    | some q =>
      obtain ⟨s, hs⟩ := q.exists_admits
      obtain ⟨_, hnone, -⟩ := (h s).2 (allows_some.2 hs)
      cases hnone
  | some p =>
    cases r' with
    | none =>
      obtain ⟨s, hs⟩ := p.exists_admits
      obtain ⟨_, hnone, -⟩ := (h s).1 (allows_some.2 hs)
      cases hnone
    | some q => exact congrArg some (admits_injective fun s => by simpa using h s)

/-! ### Many descriptions -/

/-- Merging one description after the other admits what all of them admit. -/
theorem allows_foldlM {p : PartialShape} {ps : List PartialShape} {s : Shape} :
    Allows (ps.foldlM merge p) s ↔ ∀ q ∈ p :: ps, q.Admits s := by
  induction ps generalizing p with
  | nil => simp
  | cons q ps ih =>
    rw [List.foldlM_cons]
    have hmerge := allows_merge (a := p) (b := q) (s := s)
    cases hm : p.merge q with
    | none => simp_all [Allows]
    | some c =>
      rw [hm, allows_some] at hmerge
      rw [Option.bind_eq_bind, Option.bind_some, ih]
      simp only [List.forall_mem_cons, hmerge, and_assoc]

end PartialShape

/-- Descriptions in some order, with brackets around every two that are merged. -/
inductive Grouping where
  | single (p : PartialShape)
  | pair (left right : Grouping)

namespace Grouping

open PartialShape

/-- The descriptions in their order. -/
def parts : Grouping → List PartialShape
  | single p => [p]
  | pair l r => l.parts ++ r.parts

/-- What the descriptions merge to as the brackets say. -/
def merged? : Grouping → Option PartialShape
  | single p => some p
  | pair l r => do
    let a ← l.merged?
    let b ← r.merged?
    a.merge b

/-- **Whatever the brackets, the result admits what all descriptions admit.** -/
theorem allows_merged? {g : Grouping} {s : Shape} :
    Allows g.merged? s ↔ ∀ p ∈ g.parts, p.Admits s := by
  induction g with
  | single p => simp [merged?, parts]
  | pair l r ihl ihr =>
    rw [parts, List.forall_mem_append, ← ihl, ← ihr, merged?]
    cases l.merged? with
    | none => simp [Allows]
    | some a =>
      cases r.merged? with
      | none => simp [Allows]
      | some b =>
        rw [allows_some, allows_some]
        exact allows_merge

end Grouping

/-- **Merging is exact intersection.**  Two descriptions do not merge if and only if no shape is admitted by
both, and otherwise the result admits exactly the shapes that both admit.  So descriptions merge to the same
result, or none, in every order and with any brackets as they do one after the other. -/
theorem PartialShape.merge_exact :
    (∀ a b : PartialShape, (a.merge b = none ↔ ∀ s, ¬ (a.Admits s ∧ b.Admits s)) ∧
      ∀ c, a.merge b = some c → ∀ s, c.Admits s ↔ a.Admits s ∧ b.Admits s) ∧
    ∀ (p : PartialShape) (ps : List PartialShape) (g : Grouping),
      g.parts.Perm (p :: ps) → g.merged? = ps.foldlM merge p := by
  refine ⟨fun a b => ⟨?_, fun c hc s => admits_merge_iff hc⟩, fun p ps g hg => ?_⟩
  · rw [← not_exists, ← exists_merge_iff, Option.eq_none_iff_forall_ne_some, not_exists]
  · refine eq_of_allows fun s => ?_
    rw [Grouping.allows_merged?, allows_foldlM]
    exact forall_congr' fun q => imp_congr_left hg.mem_iff

/-- A rank, a first length and a last length, put together in two ways. -/
theorem PartialShape.merge_exact_threeParts :
    let rank : PartialShape := ranked [.dynamic, .dynamic]
    let first : PartialShape := ranked [.static 2, .dynamic]
    let last : PartialShape := ranked [.dynamic, .static 3]
    let g : Grouping := .pair (.single last) (.pair (.single first) (.single rank))
    g.parts.Perm [rank, first, last] ∧ [first, last].foldlM merge rank = some (.ofShape [2, 3]) ∧
      g.merged? = [first, last].foldlM merge rank := by
  intro rank first last g
  have hperm : g.parts.Perm [rank, first, last] := List.reverse_perm [rank, first, last]
  exact ⟨hperm, rfl, merge_exact.2 rank [first, last] g hperm⟩

end OpGraph
