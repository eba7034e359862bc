import OpGraph.Proofs.Shape.Stretch

/-!
# Broadcasting of descriptions is exact

A description of a shape stands for the shapes that it admits.  `PartialShape.broadcast` finds no result
exactly when no two shapes that the descriptions admit can be combined, and otherwise it describes every
combination.  If both ranks are known, it describes nothing else (`PartialShape.broadcast_exact`).

A shape is admitted if its own description refines the given one (`PartialShape.refines_ofShape_iff`), so
what can be combined can also be combined from the less precise descriptions
(`PartialShape.lenient_broadcast`).  The other half is read off one axis: a dimension that is not known
stands for every length, in particular for the one of the other operand, so the combined dimension admits
exactly the lengths that two admitted lengths combine to (`Dim.admits_broadcast_iff`).  Lengths chosen axis
by axis make up shapes of the two operands.
-/

namespace OpGraph

/-! ### Dimensions -/

namespace Dim

theorem exists_admits (d : Dim) : ∃ n, d.Admits n := by
  cases d with
  | dynamic => exact ⟨1, trivial⟩
  | static n => exact ⟨n, rfl⟩

theorem broadcast_eq_merge {a b : Dim} (ha : a ≠ static 1) (hb : b ≠ static 1) :
    a.broadcast b = a.merge b := by
  rw [broadcast, if_neg ha, if_neg hb]

/-- **The combined dimension admits exactly the combinations of admitted lengths.** -/
theorem admits_broadcast_iff {a b c : Dim} (h : a.broadcast b = some c) {k : Nat} :
    c.Admits k ↔ ∃ m n, a.Admits m ∧ b.Admits n ∧ Shape.Stretches m n k := by
  constructor
  · intro hk
    by_cases ha : a = static 1
    · subst ha
      rw [broadcast_one_left, Option.some.injEq] at h
      exact ⟨1, k, rfl, h ▸ hk, Shape.stretches_one_left k⟩
    by_cases hb : b = static 1
    · subst hb
      rw [broadcast_one_right, Option.some.injEq] at h
      exact ⟨k, 1, h ▸ hk, rfl, (Shape.stretches_one_left k).comm⟩
    -- without a length one the operands have the same length
    rw [broadcast_eq_merge ha hb] at h
    obtain ⟨hka, hkb⟩ := (admits_merge h k).1 hk
    exact ⟨k, k, hka, hkb, Shape.stretches_self k⟩
  · rintro ⟨m, n, hm, hn, hk⟩
    exact admits_broadcast h hm hn (broadcast_static_iff.2 hk)

end Dim

/-! ### Shapes -/

namespace PartialShape

/-- Shapes that the two descriptions admit combine to the shape `t`. -/
def Combines (a b : PartialShape) (t : Shape) : Prop :=
  ∃ s r, a.Admits s ∧ b.Admits r ∧ Shape.Stretch s r t

/-- Lengths that are admitted one by one make up an admitted shape. -/
theorem admits_ofEnd {dims : List Dim} {length : Nat → Nat}
    (h : ∀ k, (OpGraph.fromEnd dims k).Admits (length k)) :
    (ranked dims).Admits (ofEnd dims.length length) ∧
      ∀ k, Shape.fromEnd (ofEnd dims.length length) k = length k := by
  have hone : ∀ k, dims.length ≤ k → length k = 1 := by
    intro k hk
    have hadmits := h k
    rw [OpGraph.fromEnd_of_length_le hk] at hadmits
    exact hadmits.symm
  have hlength := Shape.fromEnd_ofEnd hone
  refine ⟨admits_ranked.2 ⟨(length_ofEnd ..).symm, fun k => ?_⟩, hlength⟩
  rw [hlength]
  exact h k

theorem exists_admits (p : PartialShape) : ∃ s, p.Admits s := by
  cases p with
  | unranked => exact ⟨[], trivial⟩
  | ranked dims =>
    choose length hlength using fun k => Dim.exists_admits (OpGraph.fromEnd dims k)
    exact ⟨_, (admits_ofEnd hlength).1⟩

/-- **Descriptions have a combined one if shapes that they admit can be combined.** -/
theorem exists_broadcast_of_combines {a b : PartialShape} {t : Shape} (h : a.Combines b t) :
    ∃ c, a.broadcast b = some c := by
  obtain ⟨s, r, hs, hr, hstretch⟩ := h
  obtain ⟨c, hc, -⟩ := lenient_broadcast (refines_ofShape_iff.2 hs) (refines_ofShape_iff.2 hr)
    (broadcast_ofShape_iff.2 hstretch)
  exact ⟨c, hc⟩

/-- **If both ranks are known, nothing else is admitted.** -/
theorem combines_of_admits {as bs : List Dim} {c : PartialShape} {t : Shape}
    (h : broadcast (ranked as) (ranked bs) = some c) (ht : c.Admits t) :
    Combines (ranked as) (ranked bs) t := by
  obtain ⟨cs, rfl, hlength, haxis⟩ := broadcast_eq_some.1 h
  obtain ⟨hrank, ht⟩ := admits_ranked.1 ht
  choose m n hm hn hstretch using fun k => (Dim.admits_broadcast_iff (haxis k)).1 (ht k)
  obtain ⟨hs, hsk⟩ := admits_ofEnd hm
  obtain ⟨hr, hrk⟩ := admits_ofEnd hn
  refine ⟨_, _, hs, hr, ?_, fun k => ?_⟩
  · rw [length_ofEnd, length_ofEnd, ← hrank, hlength]
  · rw [hsk, hrk]
    exact hstretch k

theorem combines_unranked_left {p : PartialShape} {t : Shape} (h : p.Admits t) :
    Combines unranked p t :=
  ⟨[], t, trivial, h, .scalar_left t⟩

theorem Combines.comm {a b : PartialShape} {t : Shape} (h : a.Combines b t) : b.Combines a t := by
  obtain ⟨s, r, hs, hr, hstretch⟩ := h
  exact ⟨r, s, hr, hs, hstretch.comm⟩

/-- Descriptions with a combined one admit shapes that can be combined. -/
theorem exists_combines {a b c : PartialShape} (h : a.broadcast b = some c) :
    ∃ t, a.Combines b t := by
  cases a with
  | unranked =>
    obtain ⟨t, ht⟩ := b.exists_admits
    exact ⟨t, combines_unranked_left ht⟩
  | ranked as =>
    cases b with
    | unranked =>
      obtain ⟨t, ht⟩ := (ranked as).exists_admits
      exact ⟨t, (combines_unranked_left ht).comm⟩
    | ranked bs =>
      obtain ⟨t, ht⟩ := c.exists_admits
      exact ⟨t, combines_of_admits h ht⟩

/-- **Broadcasting of descriptions is the exact abstraction of broadcasting.**  There is no result if and
only if no shapes that the two descriptions admit can be combined.  A result admits every combination of
admitted shapes, and if both ranks are known, every shape that it admits is such a combination. -/
theorem broadcast_exact (a b : PartialShape) :
    (a.broadcast b = none ↔ ∀ s r t, a.Admits s → b.Admits r → ¬ Shape.Stretch s r t) ∧
      ∀ c, a.broadcast b = some c →
        (∀ s r t, a.Admits s → b.Admits r → Shape.Stretch s r t → c.Admits t) ∧
        (a.isRanked → b.isRanked →
          ∀ t, c.Admits t → ∃ s r, a.Admits s ∧ b.Admits r ∧ Shape.Stretch s r t) := by
  refine ⟨⟨fun h s r t hs hr hstretch => ?_, fun h => ?_⟩, fun c h => ⟨?_, fun ha hb t ht => ?_⟩⟩
  · obtain ⟨c, hc⟩ := exists_broadcast_of_combines ⟨s, r, hs, hr, hstretch⟩
    rw [h] at hc
    cases hc
  · refine Option.eq_none_iff_forall_ne_some.2 fun c hc => ?_
    obtain ⟨t, s, r, hs, hr, hstretch⟩ := exists_combines hc
    exact h s r t hs hr hstretch
  · intro s r t hs hr hstretch
    exact admits_broadcast h hs hr (broadcast_ofShape_iff.2 hstretch)
  · cases a with
    | unranked => cases ha
    | ranked as =>
      cases b with
      | unranked => cases hb
      | ranked bs => exact combines_of_admits h ht

/-- An unknown length takes the length three or is stretched to five; length two never fits length zero. -/
theorem broadcast_exact_unknownLength :
    (ranked [.dynamic, .static 1]).broadcast (ranked [.static 3, .dynamic]) =
        some (ranked [.static 3, .dynamic]) ∧
      (∃ s r, (ranked [.dynamic, .static 1]).Admits s ∧ (ranked [.static 3, .dynamic]).Admits r ∧
        Shape.Stretch s r [3, 5]) ∧
      ∀ s r t, (ranked [.dynamic, .static 2]).Admits s → (ranked [.static 0]).Admits r →
        ¬ Shape.Stretch s r t := by
  have hadmits : (ranked [.static 3, .dynamic]).Admits [3, 5] :=
    .cons rfl (.cons trivial .nil)
  exact ⟨rfl, ((broadcast_exact _ _).2 _ rfl).2 rfl rfl _ hadmits, (broadcast_exact _ _).1.1 rfl⟩

end PartialShape

end OpGraph
