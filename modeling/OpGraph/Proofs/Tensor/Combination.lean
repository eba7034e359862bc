import OpGraph.Proofs.Op.Combined

/-!
# Elementwise combination of tensors

`Tensor.zipBroadcast_elementwise` says what the combination of two tensors is, without saying how it is
computed.  There is a combination exactly when the lengths fit on every axis and the result can be
addressed; its shape is the one that the shapes stretch to.  The element at an index comes from the two
elements at the trailing parts of that index, where an operand has position zero on its axes of length one.

Elements are stored in row-major order: `Shape.ravel_lt_ravel_iff` says that offsets are ordered as the
indices are, the first axis that differs deciding.
-/

namespace OpGraph

/-- The position on the axis with `k` axes behind it; zero where there is no such axis. -/
def Index.fromEnd (idx : Index) (k : Nat) : Nat := idx.reverse[k]?.getD 0

namespace Shape

/-! ### Indices inside the bounds -/

theorem inBounds_iff_forall₂ {s : Shape} {idx : Index} :
    s.InBounds idx ↔ List.Forall₂ (fun n i => i < n) s idx := by
  induction s generalizing idx with
  | nil => cases idx <;> simp [InBounds]
  | cons n s ih => cases idx <;> simp [InBounds, ih]

/-- An index lies in a shape if it does so on every axis, counted from the end. -/
theorem inBounds_iff {s : Shape} {idx : Index} :
    s.InBounds idx ↔ s.length = idx.length ∧ ∀ k, idx.fromEnd k < s.fromEnd k := by
  rw [inBounds_iff_forall₂]
  exact forall₂_iff_fromEnd (R := fun n i => i < n) Nat.zero_lt_one

/-- **Offsets are ordered as the indices are**, the first axis that differs deciding. -/
theorem ravel_lt_ravel_iff {s : Shape} {i j : Index} (hi : s.InBounds i) (hj : s.InBounds j) :
    s.ravel i < s.ravel j ↔ i < j := by
  induction s generalizing i j with
  | nil =>
    cases i with
    | nil =>
      cases j with
      | nil => simp
      | cons _ _ => exact hj.elim
    | cons _ _ => exact hi.elim
  | cons n s ih =>
    cases i with
    | nil => exact hi.elim
    | cons p is =>
      cases j with
      | nil => exact hj.elim
      | cons q js =>
        have his := ravel_lt hi.2
        have hjs := ravel_lt hj.2
        rw [List.cons_lt_cons_iff, ravel, ravel]
        rcases Nat.lt_trichotomy p q with hpq | rfl | hpq
        · have hrow : (p + 1) * numel s ≤ q * numel s := Nat.mul_le_mul_right _ hpq
          rw [Nat.add_mul, Nat.one_mul] at hrow
          exact iff_of_true (by omega) (Or.inl hpq)
        · simp [ih hi.2 hj.2]
        · have hrow : (q + 1) * numel s ≤ p * numel s := Nat.mul_le_mul_right _ hpq
          rw [Nat.add_mul, Nat.one_mul] at hrow
          exact iff_of_false (by omega) (by omega)

/-! ### Trailing parts of an index -/

/-- The index `i` of an operand of shape `s` is the trailing part of `idx`, with position zero on the axes
on which the operand has length one. -/
structure Trailing (s : Shape) (idx i : Index) : Prop where
  length_eq : i.length = s.length
  axis : ∀ k, i.fromEnd k = if s.fromEnd k = 1 then 0 else idx.fromEnd k

/-- What takes part in an element of the result is the trailing part of its index. -/
theorem ExpandsTo.trailing_project {s r : Shape} {idx : Index} (hs : s.ExpandsTo r)
    (hidx : r.InBounds idx) : s.Trailing idx (s.project idx) := by
  have h : s.length ≤ idx.length := (inBounds_iff.1 hidx).1 ▸ hs.length_le
  have hdrop : (idx.drop (idx.length - s.length)).length = s.length := by
    rw [List.length_drop]
    omega
  refine ⟨by rw [project, List.length_zipWith, hdrop, Nat.min_self], fun k => ?_⟩
  rw [Index.fromEnd, Index.fromEnd, fromEnd, project, List.reverse_zipWith hdrop.symm,
    List.getElem?_zipWith, List.reverse_drop, Nat.sub_sub_self h]
  by_cases hk : k < s.length
  · have hks : k < s.reverse.length := by simpa using hk
    have hki : k < idx.reverse.length := by simpa using Nat.lt_of_lt_of_le hk h
    rw [List.getElem?_take_of_lt hk, List.getElem?_eq_getElem hks, List.getElem?_eq_getElem hki]
    rfl
  · have hks : s.reverse.length ≤ k := by simpa using hk
    rw [List.getElem?_eq_none hks]
    rfl

/-- A trailing part of an index that lies in a shape lies in a shape that stretches to it. -/
theorem Trailing.inBounds {s r : Shape} {idx i : Index} (h : s.Trailing idx i) (hidx : r.InBounds idx)
    (hs : s.ExpandsTo r) : s.InBounds i := by
  refine inBounds_iff.2 ⟨h.length_eq.symm, fun k => ?_⟩
  have hk := (inBounds_iff.1 hidx).2 k
  rw [h.axis]
  split
  next hone => omega
  next hone => rwa [(hs.axis k).resolve_right hone]

end Shape

/-! ### Elements -/

namespace Tensor

/-- The element of the tensor at the index, in row-major order, is `x`. -/
def HasElement (t : Tensor) (idx : Index) (x : Float) : Prop :=
  t.shape.InBounds idx ∧ t.values[t.shape.ravel idx]? = some x

theorem hasElement_get {t : Tensor} {idx : Index} (h : t.shape.InBounds idx) :
    t.HasElement idx (t.get idx) := by
  have hlt : t.shape.ravel idx < t.values.size := by
    rw [t.size_values]
    exact Shape.ravel_lt h
  refine ⟨h, ?_⟩
  rw [get, Array.getElem?_eq_getElem hlt, Option.getD_some]

theorem beq_get_of_allEqual {t : Tensor} {x : Float} (h : t.allEqual x) {idx : Index}
    (hidx : t.shape.InBounds idx) : t.get idx == x := by
  rw [allEqual, Bool.and_eq_true, Array.all_eq_true'] at h
  exact h.2 _ (Array.mem_of_getElem? (hasElement_get hidx).2)

theorem hasElement_ofIndex {t : ElementType} {s : Shape} {f : Index → Float} {hs : s.addressable}
    {idx : Index} (h : s.InBounds idx) : (ofIndex t s f hs).HasElement idx (t.coerce (f idx)) := by
  have hget : (ofIndex t s f hs).get idx = t.coerce (f idx) := get_ofIndex h
  exact hget ▸ hasElement_get h

/-! ### Combinations -/

variable {a b c : Tensor} {t : ElementType} {f : Float → Float → Float}

/-- The element at an index of a larger shape, along whose axes the tensor is repeated. -/
def repeated (a : Tensor) (idx : Index) : Float := a.get (a.shape.project idx)

theorem holds_repeated {r : Shape} {idx : Index} (hr : a.shape.ExpandsTo r)
    (hidx : r.InBounds idx) : a.elementType.Holds (a.repeated idx) := by
  have hin := (hr.trailing_project hidx).inBounds hidx hr
  exact a.holds _ (Array.mem_of_getElem? (hasElement_get hin).2)

theorem zipBroadcast_eq_some_iff :
    a.zipBroadcast b t f = some c ↔
      ∃ (s : Shape) (hs : s.addressable), Shape.Stretch a.shape b.shape s ∧
        c = ofIndex t s (fun idx => f (a.repeated idx) (b.repeated idx)) hs := by
  rw [zipBroadcast_eq_some_iff_broadcast]
  constructor
  · rintro ⟨s, hs, rfl⟩
    exact ⟨s, _, (Shape.broadcast_eq_some_iff_stretch.1 hs).1, rfl⟩
  · rintro ⟨s, hs, hstretch, rfl⟩
    exact ⟨s, Shape.broadcast_eq_some_iff_stretch.2 ⟨hstretch, hs⟩, rfl⟩

/-- **Elementwise combination.**  There is a combination exactly when the lengths fit on every axis and the
result can be addressed.  It has the combined shape, and its elements are computed from the elements of the
operands at the trailing parts of their index. -/
theorem zipBroadcast_elementwise (a b : Tensor) (t : ElementType) (f : Float → Float → Float) :
    ((a.zipBroadcast b t f).isSome ↔
      (∀ k, Shape.Fits (a.shape.fromEnd k) (b.shape.fromEnd k)) ∧
        ∀ s, Shape.Stretch a.shape b.shape s → s.addressable) ∧
    ∀ c, a.zipBroadcast b t f = some c →
      c.elementType = t ∧ Shape.Stretch a.shape b.shape c.shape ∧
        ∀ idx, c.shape.InBounds idx → ∃ i j x y,
          a.shape.Trailing idx i ∧ a.HasElement i x ∧ b.shape.Trailing idx j ∧ b.HasElement j y ∧
            c.HasElement idx (t.coerce (f x y)) := by
  constructor
  · rw [← Shape.exists_stretch_iff, Option.isSome_iff_exists]
    constructor
    · rintro ⟨c, hc⟩
      obtain ⟨s, haddressable, hs, -⟩ := zipBroadcast_eq_some_iff.1 hc
      exact ⟨⟨s, hs⟩, fun r hr => hs.unique hr ▸ haddressable⟩
    · rintro ⟨⟨s, hs⟩, haddressable⟩
      exact ⟨_, zipBroadcast_eq_some_iff.2 ⟨s, haddressable s hs, hs, rfl⟩⟩
  · intro c hc
    obtain ⟨s, -, hs, rfl⟩ := zipBroadcast_eq_some_iff.1 hc
    refine ⟨rfl, hs, fun idx hidx => ?_⟩
    have hi := hs.left.trailing_project hidx
    have hj := hs.right.trailing_project hidx
    exact ⟨_, _, _, _, hi, hasElement_get (hi.inBounds hidx hs.left), hj,
      hasElement_get (hj.inBounds hidx hs.right), hasElement_ofIndex hidx⟩

/-- A column and a row make up a table. -/
theorem zipBroadcast_elementwise_table :
    let column : Tensor := .ofList .f64 [2, 1] [1, 2] rfl rfl
    let row : Tensor := .ofList .f64 [3] [10, 20, 30] rfl rfl
    ∃ c, column.zipBroadcast row .f64 (· + ·) = some c ∧ c.shape = [2, 3] ∧ c.shape.InBounds [1, 2] ∧
      ∃ i j x y, column.shape.Trailing [1, 2] i ∧ column.HasElement i x ∧
        row.shape.Trailing [1, 2] j ∧ row.HasElement j y ∧ c.HasElement [1, 2] (x + y) := by
  intro column row
  have hidx : Shape.InBounds [2, 3] [1, 2] := ⟨by decide, by decide, trivial⟩
  obtain ⟨-, -, helements⟩ := (zipBroadcast_elementwise column row .f64 (· + ·)).2 _ rfl
  exact ⟨_, rfl, rfl, hidx, helements [1, 2] hidx⟩

end Tensor

end OpGraph
