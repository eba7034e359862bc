import OpGraph.Proofs.Shape.Admits

/-!
# Shapes that stretch to one another

`Shape.Stretch a b s` says what it means that operands of the shapes `a` and `b` combine to the shape `s`,
without saying how the shape is computed.  The shapes are aligned at the last axis, and a missing axis
counts as length one.  On each axis the lengths are equal or one of them is one, and the result has the
other one.

Static shapes broadcast exactly as the relation says (`PartialShape.broadcast_ofShape_iff`).  There is a
result if and only if the lengths fit on every axis (`Shape.exists_stretch_iff`), and only one
(`Shape.Stretch.unique`).  Three shapes combine to the same one from either side
(`Shape.Stretch.reassoc_right`, `Shape.Stretch.reassoc_left`).
-/

namespace OpGraph

/-! ### Lists counted from the end -/

/-- The list of the given length with the given entries, counted from the end. -/
def ofEnd {α : Type} (n : Nat) (entry : Nat → α) : List α := ((List.range n).map entry).reverse

@[simp] theorem length_ofEnd {α : Type} (n : Nat) (entry : Nat → α) : (ofEnd n entry).length = n := by
  simp [ofEnd]

theorem getD_reverse_ofEnd {α : Type} {n : Nat} {entry : Nat → α} {d : α}
    (h : ∀ k, n ≤ k → entry k = d) (k : Nat) : (ofEnd n entry).reverse[k]?.getD d = entry k := by
  rw [ofEnd, List.reverse_reverse, List.getElem?_map]
  by_cases hk : k < n
  · rw [List.getElem?_range hk]
    rfl
  · rw [List.getElem?_eq_none (by simpa using hk), h k (Nat.le_of_not_lt hk)]
    rfl

theorem Shape.fromEnd_ofEnd {n : Nat} {length : Nat → Nat} (h : ∀ k, n ≤ k → length k = 1)
    (k : Nat) : Shape.fromEnd (ofEnd n length) k = length k :=
  getD_reverse_ofEnd h k

/-! ### Shapes -/

namespace Shape

/-- Two lengths of one axis that can be combined. -/
def Fits (m n : Nat) : Prop := m = n ∨ m = 1 ∨ n = 1

/-- The lengths `m` and `n` of one axis combine to `k`: an axis of length one takes the other length. -/
def Stretches (m n k : Nat) : Prop := Fits m n ∧ k = if m = 1 then n else m

theorem Stretches.comm {m n k : Nat} (h : Stretches m n k) : Stretches n m k := by
  unfold Stretches Fits at *
  split at h <;> split <;> omega

theorem Fits.stretches {m n : Nat} (h : Fits m n) : Stretches m n (if m = 1 then n else m) := ⟨h, rfl⟩

theorem stretches_self (k : Nat) : Stretches k k k := ⟨Or.inl rfl, by split <;> rfl⟩

theorem stretches_one_left (k : Nat) : Stretches 1 k k := ⟨Or.inr (Or.inl rfl), rfl⟩

theorem stretches_one_one {k : Nat} (h : Stretches 1 1 k) : k = 1 := h.2

theorem Stretches.length_cases {m n k : Nat} (h : Stretches m n k) : m = k ∨ m = 1 := by
  unfold Stretches Fits at h
  split at h <;> omega

/-- A tensor of shape `s` can be repeated until it has shape `r`: it has no further axes, and on each axis the
same length or length one. -/
structure ExpandsTo (s r : Shape) : Prop where
  length_le : s.length ≤ r.length
  axis : ∀ k, s.fromEnd k = r.fromEnd k ∨ s.fromEnd k = 1

theorem ExpandsTo.trans {s r t : Shape} (h : ExpandsTo s r) (h' : ExpandsTo r t) : ExpandsTo s t := by
  refine ⟨h.length_le.trans h'.length_le, fun k => ?_⟩
  have hs := h.axis k
  have hr := h'.axis k
  omega

/-- Operands of the shapes `a` and `b` combine to the shape `s`. -/
structure Stretch (a b s : Shape) : Prop where
  length_eq : s.length = max a.length b.length
  axis : ∀ k, Stretches (a.fromEnd k) (b.fromEnd k) (s.fromEnd k)

theorem fromEnd_of_max_le {a b : Shape} {k : Nat} (h : max a.length b.length ≤ k) :
    a.fromEnd k = 1 ∧ b.fromEnd k = 1 :=
  ⟨fromEnd_of_length_le (Nat.le_trans (Nat.le_max_left ..) h),
    fromEnd_of_length_le (Nat.le_trans (Nat.le_max_right ..) h)⟩

/-- Lengths that combine one by one make up a shape. -/
theorem exists_stretch_of_axis {a b : Shape} {length : Nat → Nat}
    (h : ∀ k, Stretches (a.fromEnd k) (b.fromEnd k) (length k)) :
    ∃ s, Stretch a b s ∧ ∀ k, s.fromEnd k = length k := by
  have hone : ∀ k, max a.length b.length ≤ k → length k = 1 := by
    intro k hk
    obtain ⟨ha, hb⟩ := fromEnd_of_max_le hk
    have hstretch := h k
    rw [ha, hb] at hstretch
    exact stretches_one_one hstretch
  have hlength := fromEnd_ofEnd hone
  refine ⟨ofEnd (max a.length b.length) length, ⟨length_ofEnd .., fun k => ?_⟩, hlength⟩
  rw [hlength]
  exact h k

/-- **Shapes combine if and only if their lengths fit on every axis.** -/
theorem exists_stretch_iff {a b : Shape} :
    (∃ s, Stretch a b s) ↔ ∀ k, Fits (a.fromEnd k) (b.fromEnd k) := by
  constructor
  · rintro ⟨s, hs⟩ k
    exact (hs.axis k).1
  · intro h
    obtain ⟨s, hs, -⟩ := exists_stretch_of_axis fun k => (h k).stretches
    exact ⟨s, hs⟩

namespace Stretch

variable {a b c s t ab bc : Shape}

theorem scalar_left (s : Shape) : Stretch [] s s :=
  ⟨(Nat.zero_max _).symm, fun k => stretches_one_left (s.fromEnd k)⟩

theorem comm (h : Stretch a b s) : Stretch b a s :=
  ⟨h.length_eq.trans (Nat.max_comm ..), fun k => (h.axis k).comm⟩

theorem unique (h : Stretch a b s) (h' : Stretch a b t) : s = t :=
  fromEnd_ext (h.length_eq.trans h'.length_eq.symm) fun k => (h.axis k).2.trans (h'.axis k).2.symm

/-- The first operand can be repeated until it has the shape of the result. -/
theorem left (h : Stretch a b s) : a.ExpandsTo s :=
  ⟨h.length_eq ▸ Nat.le_max_left .., fun k => (h.axis k).length_cases⟩

theorem right (h : Stretch a b s) : b.ExpandsTo s := h.comm.left

/-- **Three shapes that combine from the left combine from the right to the same shape.** -/
theorem reassoc_right (hab : Stretch a b ab) (hs : Stretch ab c s) :
    ∃ bc, Stretch b c bc ∧ Stretch a bc s := by
  have haxis : ∀ k, Stretches (b.fromEnd k) (c.fromEnd k)
      (if b.fromEnd k = 1 then c.fromEnd k else b.fromEnd k) := by
    intro k
    have hab := hab.axis k
    have hs := hs.axis k
    unfold Stretches Fits at *
    split at hab <;> split at hs <;> split <;> omega
  obtain ⟨bc, hbc, hlength⟩ := exists_stretch_of_axis haxis
  refine ⟨bc, hbc, ?_, fun k => ?_⟩
  · have hab := hab.length_eq
    have hs := hs.length_eq
    have hbc := hbc.length_eq
    omega
  · have hab := hab.axis k
    have hs := hs.axis k
    rw [hlength]
    unfold Stretches Fits at *
    split at hab <;> split at hs <;> split <;> omega

/-- **Three shapes that combine from the right combine from the left to the same shape.** -/
theorem reassoc_left (hbc : Stretch b c bc) (hs : Stretch a bc s) :
    ∃ ab, Stretch a b ab ∧ Stretch ab c s := by
  obtain ⟨ab, hab, hs⟩ := hbc.comm.reassoc_right hs.comm
  exact ⟨ab, hab.comm, hs.comm⟩

end Stretch

end Shape

/-! ### Broadcasting of known shapes -/

theorem Dim.broadcast_static_iff {m n k : Nat} :
    (static m).broadcast (static n) = some (static k) ↔ Shape.Stretches m n k := by
  rw [broadcast_static]
  unfold Shape.Stretches Shape.Fits
  split <;> omega

/-- **Known shapes broadcast to what they stretch to.** -/
theorem PartialShape.broadcast_ofShape_iff {a b s : Shape} :
    broadcast (ofShape a) (ofShape b) = some (ofShape s) ↔ Shape.Stretch a b s := by
  rw [broadcast_ofShape_eq_some]
  simp only [Dim.broadcast_static_iff]
  constructor
  · rintro ⟨t, ht, hl, hk⟩
    obtain rfl := ofShape_injective ht
    exact ⟨hl, hk⟩
  · intro h
    exact ⟨s, rfl, h.length_eq, h.axis⟩

end OpGraph
