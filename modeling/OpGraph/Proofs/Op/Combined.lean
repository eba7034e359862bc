import Mathlib.Algebra.Order.BigOperators.Group.List
import OpGraph.Proofs.Op.Evaluation
import OpGraph.Proofs.Shape.Stretch

/-!
# Parts of combined shapes

A shape that combines with the combination of two others combines with the first of them alone
(`Shape.exists_broadcast_of_combined`).  The lengths of the smaller combination are lengths of the larger
one or equal to one, so the smaller one is addressable if the larger one is.
-/

namespace OpGraph

namespace Shape

/-! ### Addressable shapes -/

theorem numel_filter (s : Shape) : numel (s.filter (· ≠ 0)) = (s.map (max 1)).prod := by
  induction s with
  | nil => rfl
  | cons n s ih =>
    rw [List.map_cons, List.prod_cons, ← ih]
    rcases Nat.eq_zero_or_pos n with rfl | hn
    · simp
    · rw [List.filter_cons_of_pos (by simpa using Nat.ne_of_gt hn), numel_cons,
        Nat.max_eq_right hn]

theorem one_le_prod (l : List Nat) : 1 ≤ (l.map (max 1)).prod := by
  refine List.one_le_prod_of_one_le fun n hn => ?_
  obtain ⟨m, -, rfl⟩ := List.mem_map.1 hn
  exact Nat.le_max_left 1 m

theorem prod_le_of_getElem? {l l' : List Nat}
    (h : ∀ k : Nat, l[k]?.getD 1 ≤ max 1 (l'[k]?.getD 1)) :
    (l.map (max 1)).prod ≤ (l'.map (max 1)).prod := by
  induction l generalizing l' with
  | nil => exact one_le_prod l'
  | cons n l ih =>
    have hhead := h 0
    cases l' with
    | nil =>
      have hn : n ≤ 1 := by simpa using hhead
      have hl : (l.map (max 1)).prod ≤ (([] : List Nat).map (max 1)).prod :=
        ih fun k => by simpa using h (k + 1)
      rw [List.map_cons, List.prod_cons, Nat.max_eq_left hn, Nat.one_mul]
      exact hl
    | cons m l' =>
      have hl : (l.map (max 1)).prod ≤ (l'.map (max 1)).prod :=
        ih fun k => by simpa using h (k + 1)
      rw [List.map_cons, List.map_cons, List.prod_cons, List.prod_cons]
      refine Nat.mul_le_mul ?_ hl
      simp only [List.getElem?_cons_zero, Option.getD_some] at hhead
      omega

theorem le_addressLimit {s : Shape} (hs : s.addressable) {n : Nat} (hn : n ∈ s) :
    n ≤ addressLimit := by
  induction s with
  | nil => cases hn
  | cons m s ih =>
    rcases List.mem_cons.1 hn with rfl | hn
    · have hle : numel ((n :: s).filter (· ≠ 0)) ≤ addressLimit := of_decide_eq_true hs
      rw [numel_filter, List.map_cons, List.prod_cons] at hle
      have hmul := Nat.le_mul_of_pos_right (max 1 n) (one_le_prod s)
      omega
    · exact ih (addressable_of_cons hs) hn

theorem addressable_of_prod_le {s r : Shape} (hr : r.addressable)
    (h : (s.map (max 1)).prod ≤ (r.map (max 1)).prod) : s.addressable := by
  rw [← numel_filter, ← numel_filter] at h
  exact decide_eq_true (Nat.le_trans h (of_decide_eq_true hr))

/-- A shape stays addressable if axes are left out or get length one. -/
theorem addressable_of_expandsTo {s r : Shape} (hr : r.addressable) (h : s.ExpandsTo r) :
    s.addressable := by
  have hperm (s : Shape) : (s.reverse.map (max 1)).prod = (s.map (max 1)).prod :=
    ((List.reverse_perm s).map (max 1)).prod_eq
  refine addressable_of_prod_le hr ?_
  rw [← hperm s, ← hperm r]
  refine prod_le_of_getElem? fun k => ?_
  rcases h.axis k with hk | hk
  · exact Nat.le_trans (Nat.le_of_eq hk) (Nat.le_max_right ..)
  · exact Nat.le_trans (Nat.le_of_eq hk) (Nat.le_max_left ..)

/-- A shape stays addressable if one axis is cut short. -/
theorem addressable_set {s : Shape} (hs : s.addressable) {axis n : Nat} (hn : n ≤ s.getD axis 0) :
    Shape.addressable (s.set axis n) := by
  refine addressable_of_prod_le hs (prod_le_of_getElem? fun k => ?_)
  rw [List.getElem?_set]
  split
  next hk =>
    subst hk
    split
    next hlt =>
      rw [List.getD_eq_getElem?_getD, List.getElem?_eq_getElem hlt] at hn
      rw [List.getElem?_eq_getElem hlt]
      exact Nat.le_trans hn (Nat.le_max_right ..)
    next => exact Nat.le_max_left ..
  next => exact Nat.le_max_right ..

/-! ### Combinations -/

theorem broadcast_eq_some_iff {a b s : Shape} : a.broadcast b = some s ↔
    PartialShape.broadcast (.ofShape a) (.ofShape b) = some (.ofShape s) ∧ s.addressable := by
  constructor
  · intro h
    have hs := broadcast_eq_some h
    rw [broadcast_eq_ite hs] at h
    exact ⟨hs, (Option.ite_none_right_eq_some.1 h).1⟩
  · intro h
    rw [broadcast_eq_ite h.1, if_pos h.2]

/-- Shapes combine to what they stretch to, unless it is too large to address. -/
theorem broadcast_eq_some_iff_stretch {a b s : Shape} :
    a.broadcast b = some s ↔ Stretch a b s ∧ s.addressable := by
  rw [broadcast_eq_some_iff, PartialShape.broadcast_ofShape_iff]

/-- **What combines with a combination combines with its first part.** -/
theorem exists_broadcast_of_combined {a b c bc s : Shape} (hbc : b.broadcast c = some bc)
    (h : a.broadcast bc = some s) : ∃ ab, a.broadcast b = some ab := by
  obtain ⟨hbc, -⟩ := broadcast_eq_some_iff_stretch.1 hbc
  obtain ⟨hs, haddressable⟩ := broadcast_eq_some_iff_stretch.1 h
  obtain ⟨ab, hab, hs⟩ := hbc.reassoc_left hs
  exact ⟨ab, broadcast_eq_some_iff_stretch.2
    ⟨hab, addressable_of_expandsTo haddressable hs.left⟩⟩

end Shape

theorem Tensor.exists_zipBroadcast {a b : Tensor} {s : Shape} (h : a.shape.broadcast b.shape = some s)
    (type : ElementType) (f : Float → Float → Float) :
    ∃ t, a.zipBroadcast b type f = some t ∧ t.shape = s := by
  exact ⟨_, zipBroadcast_eq_some_iff_broadcast.2 ⟨s, h, rfl⟩, rfl⟩

/-- Shapes that a rule combines stretch to the result. -/
theorem Broadcast.stretch_of_shape? {rule : Broadcast} {a b s : Shape}
    (h : rule.shape? (.ofShape a) (.ofShape b) = some (.ofShape s)) : Shape.Stretch a b s := by
  rw [← PartialShape.broadcast_ofShape_iff]
  cases rule with
  | numpy => exact h
  | none =>
    -- equal shapes broadcast to themselves
    obtain ⟨hab, he⟩ := PartialShape.merge_ofShape_eq_some.1 h
    rw [he, hab, PartialShape.broadcast_ofShape_self]

/-- A shape that has been inferred for two shapes that combine is addressable. -/
theorem Broadcast.addressable_of_shape? {rule : Broadcast} {a b s u : Shape}
    (h : rule.shape? (.ofShape a) (.ofShape b) = some (.ofShape s)) (hu : a.broadcast b = some u) :
    s.addressable := by
  obtain ⟨hstretch, haddressable⟩ := Shape.broadcast_eq_some_iff_stretch.1 hu
  exact (stretch_of_shape? h).unique hstretch ▸ haddressable

end OpGraph
