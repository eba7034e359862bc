import OpGraph.Op.Elementwise

/-!
# Shapes axis by axis

Operands of an elementwise operation are aligned at the last axis, so axes are counted from the end
here: `fromEnd dims k` is the dimension of the axis with `k` axes behind it, and length one where there
is no such axis.  `PartialShape.broadcast_eq_some` and `PartialShape.merge_eq_some` say what the two
ways to combine shapes do to one axis.
-/

namespace OpGraph

/-- The dimension of the axis with `k` axes behind it; a missing axis has length one. -/
def fromEnd (dims : List Dim) (k : Nat) : Dim := dims.reverse[k]?.getD (.static 1)

theorem fromEnd_of_length_le {dims : List Dim} {k : Nat} (h : dims.length ≤ k) :
    fromEnd dims k = .static 1 := by
  rw [fromEnd]
  rw [List.getElem?_eq_none (by simpa using h), Option.getD_none]

theorem fromEnd_cons (d : Dim) (dims : List Dim) (k : Nat) :
    fromEnd (d :: dims) k = if k = dims.length then d else fromEnd dims k := by
  unfold fromEnd
  rw [List.reverse_cons, List.getElem?_append, List.length_reverse]
  rcases Nat.lt_trichotomy k dims.length with h | h | h
  · rw [if_pos h, if_neg (Nat.ne_of_lt h)]
  · simp [h]
  · have hd : dims.reverse.length ≤ k := by simpa using Nat.le_of_lt h
    have hs : ([d] : List Dim).length ≤ k - dims.length := Nat.sub_pos_of_lt h
    rw [if_neg (Nat.lt_asymm h), if_neg (Nat.ne_of_gt h), List.getElem?_eq_none hs,
      List.getElem?_eq_none hd]

theorem fromEnd_ext {as bs : List Dim} (hl : as.length = bs.length)
    (h : ∀ k, fromEnd as k = fromEnd bs k) : as = bs := by
  rw [← List.reverse_inj]
  refine List.ext_getElem (by simpa using hl) fun k hk₁ hk₂ => ?_
  have := h k
  unfold fromEnd at this
  rwa [List.getElem?_eq_getElem hk₁, List.getElem?_eq_getElem hk₂] at this

theorem exists_fromEnd_of_mem {dims : List Dim} {d : Dim} (h : d ∈ dims) :
    ∃ k, fromEnd dims k = d := by
  obtain ⟨k, hk⟩ := List.mem_iff_getElem?.1 (List.mem_reverse.2 h)
  exact ⟨k, by rw [fromEnd, hk, Option.getD_some]⟩

namespace PartialShape

theorem length_padTo {rank : Nat} {dims : List Dim} (h : dims.length ≤ rank) :
    (padTo rank dims).length = rank := by
  rw [padTo]
  simp only [List.length_append, List.length_replicate]
  omega

theorem fromEnd_padTo (rank : Nat) (dims : List Dim) (k : Nat) :
    fromEnd (padTo rank dims) k = fromEnd dims k := by
  rw [padTo]
  induction rank - dims.length with
  | zero => rfl
  | succ m ih =>
    rw [List.replicate_succ, List.cons_append, fromEnd_cons, ih]
    split
    next hk =>
      refine (fromEnd_of_length_le ?_).symm
      rw [hk, List.length_append]
      exact Nat.le_add_left _ _
    next => rfl

/-- Two lists of dimensions combine axis by axis, if they have the same length. -/
theorem zipDims_eq_some {f : Dim → Dim → Option Dim}
    (hf : f (.static 1) (.static 1) = some (.static 1)) {as bs cs : List Dim} :
    zipDims f as bs = some cs ↔
      as.length = cs.length ∧ bs.length = cs.length ∧
        ∀ k, f (fromEnd as k) (fromEnd bs k) = some (fromEnd cs k) := by
  induction as generalizing bs cs with
  | nil =>
    cases bs with
    | nil =>
      constructor
      · intro h
        simp only [zipDims, Option.some.injEq] at h
        subst h
        exact ⟨rfl, rfl, fun k => hf⟩
      · intro h'
        rcases h' with ⟨hl, -, -⟩
        rw [List.length_nil] at hl
        rw [List.length_eq_zero_iff.1 hl.symm]
        rfl
    | cons b bs =>
      refine ⟨fun h => by simp [zipDims] at h, ?_⟩
      intro h'
      rcases h' with ⟨h₁, h₂, -⟩
      rw [← h₁] at h₂
      cases h₂
  | cons a as ih =>
    cases bs with
    | nil =>
      refine ⟨fun h => by simp [zipDims] at h, ?_⟩
      intro h'
      rcases h' with ⟨h₁, h₂, -⟩
      rw [← h₂] at h₁
      cases h₁
    | cons b bs =>
      constructor
      · intro h
        rw [zipDims] at h
        obtain ⟨d, hd, h⟩ := Option.bind_eq_some_iff.1 h
        obtain ⟨ds, hds, h⟩ := Option.bind_eq_some_iff.1 h
        obtain rfl := Option.some.inj h
        obtain ⟨h₁, h₂, hk⟩ := ih.1 hds
        refine ⟨congrArg (· + 1) h₁, congrArg (· + 1) h₂, fun k => ?_⟩
        rw [fromEnd_cons, fromEnd_cons, fromEnd_cons, h₁, h₂]
        split
        · exact hd
        · exact hk k
      · intro h'
        rcases h' with ⟨h₁, h₂, hk⟩
        cases cs with
        | nil => cases h₁
        | cons c cs =>
          have h₁ : as.length = cs.length := Nat.succ.inj h₁
          have h₂ : bs.length = cs.length := Nat.succ.inj h₂
          have hd : f a b = some c := by
            have := hk cs.length
            rwa [fromEnd_cons, fromEnd_cons, fromEnd_cons, if_pos h₁.symm, if_pos h₂.symm,
              if_pos rfl] at this
          have hds : zipDims f as bs = some cs := by
            refine ih.2 ⟨h₁, h₂, fun k => ?_⟩
            by_cases hlt : cs.length ≤ k
            · rw [fromEnd_of_length_le (h₁ ▸ hlt), fromEnd_of_length_le (h₂ ▸ hlt),
                fromEnd_of_length_le hlt, hf]
            · have hne : k ≠ cs.length := by omega
              have := hk k
              rwa [fromEnd_cons, fromEnd_cons, fromEnd_cons, if_neg (h₁ ▸ hne),
                if_neg (h₂ ▸ hne), if_neg hne] at this
          rw [zipDims, hd, hds]
          rfl

theorem merge_eq_some {as bs : List Dim} {r : PartialShape} :
    merge (ranked as) (ranked bs) = some r ↔
      ∃ cs, r = ranked cs ∧ as.length = cs.length ∧ bs.length = cs.length ∧
        ∀ k, (fromEnd as k).merge (fromEnd bs k) = some (fromEnd cs k) := by
  simp only [merge, Option.map_eq_some_iff, zipDims_eq_some (Dim.merge_self _), eq_comm (a := r)]
  constructor
  · intro h'
    rcases h' with ⟨cs, h, hr⟩
    exact ⟨cs, hr, h⟩
  · intro h'
    rcases h' with ⟨cs, hr, h⟩
    exact ⟨cs, h, hr⟩

theorem broadcast_eq_some {as bs : List Dim} {r : PartialShape} :
    broadcast (ranked as) (ranked bs) = some r ↔
      ∃ cs, r = ranked cs ∧ cs.length = max as.length bs.length ∧
        ∀ k, (fromEnd as k).broadcast (fromEnd bs k) = some (fromEnd cs k) := by
  simp only [broadcast, Option.map_eq_some_iff, zipDims_eq_some (Dim.broadcast_one_left _),
    length_padTo (Nat.le_max_left ..), length_padTo (Nat.le_max_right ..), fromEnd_padTo]
  constructor
  · intro h
    rcases h with ⟨cs, ⟨hl, -, hk⟩, rfl⟩
    exact ⟨cs, rfl, hl.symm, hk⟩
  · intro h
    rcases h with ⟨cs, rfl, hl, hk⟩
    exact ⟨cs, ⟨hl.symm, hl.symm, hk⟩, rfl⟩

end PartialShape

end OpGraph
