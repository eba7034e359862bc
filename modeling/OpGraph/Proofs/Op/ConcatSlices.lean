import OpGraph.Proofs.Op.ConcatEvaluation
import OpGraph.Proofs.Tensor.Slice

/-!
# Concatenation is undone by slicing

`Concat.evaluate_slices`: tensors whose exact descriptions are accepted by the inference rule of
concatenation are laid end to end, and each of them is got back as a slice of the result.  Only a result that
is too large to be addressed is not computed, which can happen although it has no elements
(`Concat.evaluate_wideRows`).

What the inference rule accepts is what can be joined (`Concat.joins_of_infer`), and what has been joined is got
back by slicing (`Tensor.slice_join`).  The lengths along the axis are taken to have a sum that fits into 64 bits.
If the result is addressable, the offsets of all slices do (`Tensor.lengthAlong_take_le`).  The axis only matters through its position, so it can be counted from
either end (`normalizeAxis_eq_some_iff`).
-/

namespace OpGraph

/-- An axis is named by its position or, counted from the back, by its position less the rank. -/
theorem normalizeAxis_eq_some_iff {axis : Int} {a rank : Nat} (hrank : rank < 2 ^ 63) :
    normalizeAxis axis rank = some a ↔ a < rank ∧ (axis = a ∨ axis = a - rank) := by
  have hbound : Int.bmod rank UInt64.size = rank := by
    unfold Int.bmod
    simp only [UInt64.size]
    omega
  rw [normalizeAxis, hbound, Option.ite_none_right_eq_some, Option.some.injEq]
  split <;> omega

namespace Concat

/-- The inference rule only looks at the position of the axis. -/
theorem infer_congr_axis {a b : Int} {ds : List Desc}
    (h : ∀ rank, mergeRanks none ds = .ok (some rank) →
      ∃ ax, normalizeAxis a rank = some ax ∧ normalizeAxis b rank = some ax) :
    infer a ds = infer b ds := by
  unfold infer
  cases mergeTypes .dynamic 0 ds with
  | error e => rfl
  | ok type =>
    cases hrank : mergeRanks none ds with
    | error e => rfl
    | ok r =>
      cases r with
      | none => rfl
      | some rank =>
        obtain ⟨ax, ha, hb⟩ := h rank hrank
        simp only [bind, Except.bind, ha, hb]

theorem evaluate_congr_axis {a b : Int} {ts : List Tensor}
    (h : ∀ t ∈ ts, normalizeAxis a t.shape.length = normalizeAxis b t.shape.length) :
    evaluate a ts = evaluate b ts := by
  cases ts with
  | nil => rfl
  | cons t ts =>
    unfold evaluate
    simp only [List.head?_cons, Option.bind_eq_bind, Option.bind_some, h t List.mem_cons_self]

/-- **The axis can be counted from either end.** -/
theorem congr_axis_sub {a rank : Nat} (ha : a < rank) (hrank : rank < 2 ^ 63) {ts : List Tensor}
    (hts : ∀ t ∈ ts, t.shape.length = rank) :
    infer a (ts.map Tensor.desc) = infer (a - rank) (ts.map Tensor.desc) ∧
      evaluate a ts = evaluate (a - rank) ts := by
  have hfront : normalizeAxis a rank = some a :=
    (normalizeAxis_eq_some_iff hrank).2 ⟨ha, Or.inl rfl⟩
  have hback : normalizeAxis (a - rank) rank = some a :=
    (normalizeAxis_eq_some_iff hrank).2 ⟨ha, Or.inr rfl⟩
  constructor
  · refine infer_congr_axis fun r hr => ?_
    cases ts with
    | nil => cases hr
    | cons t ts =>
      obtain ⟨_, hsome, hrank⟩ := mergeRanks_desc (List.cons_ne_nil t _) hr
      obtain rfl : r = rank := by
        rw [Option.some.inj hsome, ← hrank t List.mem_cons_self, hts t List.mem_cons_self]
      exact ⟨a, hfront, hback⟩
  · exact evaluate_congr_axis fun t ht => by rw [hts t ht, hfront, hback]

/-- **Concatenation is undone by slicing.**  Tensors whose exact descriptions are accepted are laid end to end,
unless the announced shape is too large to be addressed.  Along the axis the result is as long as all of them
together, and the slices at the cumulative offsets are the tensors themselves, their elements coerced into the
common type.  Up to rank `2 ^ 63` it makes no difference from which end the axis is counted.

A shape that is too large has been announced all the same, so the sum of the lengths is taken to fit into 64 bits:
three tensors of shape `[0, 2 ^ 63 - 1]` have no length together on the second axis. -/
theorem evaluate_slices :
    (∀ (axis : Int) (ts : List Tensor) (os : List Desc), infer axis (ts.map Tensor.desc) = .ok os →
      ∃ ax type s, (∀ t ∈ ts, normalizeAxis axis t.shape.length = some ax) ∧
        ts.foldlM (fun acc t => acc.merge t.elementType) .dynamic = some type ∧
        os = [⟨type, .ofShape s⟩] ∧
        (s.addressable = false → evaluate axis ts = none) ∧
        (s.addressable = true → ∃ t, evaluate axis ts = some [t] ∧ t.elementType = type ∧ t.shape = s ∧
          t.shape.getD ax 0 = (ts.map (·.shape.getD ax 0)).sum ∧
          ∀ k u, ts[k]? = some u →
            t.slice ax ((ts.take k).map (·.shape.getD ax 0)).sum (u.shape.getD ax 0) = u.map type id)) ∧
    ∀ (a rank : Nat) (ts : List Tensor), a < rank → rank < 2 ^ 63 →
      (∀ t ∈ ts, t.shape.length = rank) →
        infer a (ts.map Tensor.desc) = infer (a - rank) (ts.map Tensor.desc) ∧
          evaluate a ts = evaluate (a - rank) ts := by
  refine ⟨fun axis ts os hi => ?_, fun a rank ts ha hrank hts => congr_axis_sub ha hrank hts⟩
  obtain ⟨ax, type, s, hjoins, hos⟩ := joins_of_infer hi
  refine ⟨ax, type, s, hjoins.axis_eq, hjoins.type_eq, hos, fun hlarge => ?_, fun hsmall => ?_⟩
  · exact hjoins.evaluate_eq.trans (dif_neg (Bool.eq_false_iff.1 hlarge))
  · obtain ⟨t₀, ht₀⟩ := List.exists_mem_of_ne_nil ts hjoins.nonempty
    obtain ⟨haxis, hs⟩ := Tensor.set_of_join hjoins.shape_eq ht₀
    have hlength : s.getD ax 0 = Tensor.lengthAlong ax ts := by
      rw [hs, List.getD_eq_getElem?_getD, List.getElem?_set_self haxis, Option.getD_some]
    refine ⟨_, by rw [hjoins.evaluate_eq, dif_pos hsmall], rfl, rfl, hlength, fun k u hu => ?_⟩
    exact Tensor.slice_join hsmall hjoins.shape_eq hu

/-- Two columns and one more column, counted from the back. -/
theorem evaluate_slices_columns :
    let a : Tensor := .ofList .f32 [2, 2] [1, 2, 3, 4] rfl rfl
    let b : Tensor := .ofList .dynamic [2, 1] [5, 6] rfl rfl
    infer (-1) ([a, b].map Tensor.desc) = .ok [⟨.f32, .ofShape [2, 3]⟩] ∧
      ∃ t, evaluate (-1) [a, b] = some [t] ∧ t.slice 1 0 2 = a.map .f32 id ∧
        t.slice 1 2 1 = b.map .f32 id ∧ evaluate 1 [a, b] = some [t] := by
  intro a b
  have hi : infer (-1) ([a, b].map Tensor.desc) = .ok [⟨.f32, .ofShape [2, 3]⟩] := by decide
  obtain ⟨ax, type, s, hax, htype, hos, -, hsome⟩ := evaluate_slices.1 (-1) [a, b] _ hi
  have haxis : normalizeAxis (-1) 2 = some 1 := by decide
  obtain rfl : 1 = ax := Option.some.inj (haxis.symm.trans (hax a List.mem_cons_self))
  obtain rfl : .f32 = type := Option.some.inj htype
  obtain rfl : [2, 3] = s :=
    PartialShape.ofShape_injective (Desc.mk.inj (List.cons.inj hos).1).2
  obtain ⟨t, ht, -, -, -, hslices⟩ := hsome (by decide)
  have hrank : ∀ t ∈ [a, b], t.shape.length = 2 := by simp [a, b, Tensor.ofList]
  have hfront := (evaluate_slices.2 1 2 [a, b] (by decide) (by decide) hrank).2
  exact ⟨hi, t, ht, hslices 0 a rfl, hslices 1 b rfl, hfront.trans ht⟩

/-- Two tensors without elements are not laid end to end although their descriptions are accepted, because
the result would have more than `2 ^ 63 - 1` columns. -/
theorem evaluate_wideRows :
    let rows : Tensor := .filled .f32 [0, 4611686018427387904] 0
    infer 1 ([rows, rows].map Tensor.desc) = .ok [⟨.f32, .ofShape [0, 9223372036854775808]⟩] ∧
      ¬ ∃ t, evaluate 1 [rows, rows] = some [t] := by
  intro rows
  refine ⟨by decide, ?_⟩
  rintro ⟨t, ht⟩
  have hnone : (evaluate 1 [rows, rows]).isSome = false := by decide
  rw [ht] at hnone
  cases hnone

end Concat

end OpGraph
