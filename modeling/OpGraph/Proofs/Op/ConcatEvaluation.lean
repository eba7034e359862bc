import OpGraph.Proofs.Op.ConcatConformance
import OpGraph.Proofs.Op.ConcatRefinement

/-!
# Concatenation of tensors that are known

`Concat.agrees_evaluate`: where the inference rule of concatenation accepts the exact descriptions of
some tensors, it has announced the exact description of the tensors laid end to end.  They can be laid
end to end unless there are too many elements.

Inference and evaluation go over the tensors separately.  What inference has found out about the types,
the ranks and the other axes is what evaluation checks (`mergeTypes_desc`, `mergeRanks_desc`,
`mergeShapes_desc`), and the total length is the one that evaluation computes (`totalLength_desc`).
`Concat.Joins` collects what they have in common (`Concat.joins_of_infer`, `Concat.Joins.evaluate_eq`).
-/

namespace OpGraph

/-- An evaluation agrees with the announced description if there is one result and it has exactly that
description.  There may be none if its shape is too large to be addressed. -/
def Desc.Agrees (d : Desc) (results : Option (List Tensor)) : Prop :=
  ∃ s, d.shape = .ofShape s ∧
    ((∃ t, results = some [t] ∧ t.desc = d) ∨ results = none ∧ s.addressable = false)

theorem Tensor.agrees_desc (t : Tensor) : t.desc.Agrees (some [t]) :=
  ⟨t.shape, rfl, Or.inl ⟨t, rfl, rfl⟩⟩

/-- Evaluation that only fails on shapes that are too large. -/
theorem Desc.agrees_dite {type : ElementType} {s : Shape} {t : s.addressable → Tensor}
    (ht : ∀ hs, (t hs).desc = ⟨type, .ofShape s⟩) :
    Desc.Agrees ⟨type, .ofShape s⟩ (if hs : s.addressable then some [t hs] else none) := by
  refine ⟨s, rfl, ?_⟩
  split
  next hs => exact Or.inl ⟨t hs, rfl, ht hs⟩
  next hs => exact Or.inr ⟨rfl, Bool.eq_false_iff.2 hs⟩

namespace Concat

theorem mergeTypes_desc {ts : List Tensor} {acc type : ElementType} {i : Nat} :
    mergeTypes acc i (ts.map Tensor.desc) = .ok type ↔
      ts.foldlM (fun acc t => acc.merge t.elementType) acc = some type := by
  induction ts generalizing acc i with
  | nil => simp [mergeTypes]
  | cons t ts ih =>
    rw [List.map_cons, mergeTypes, List.foldlM_cons, Tensor.desc]
    cases acc.merge t.elementType with
    | none => simp
    | some m => exact ih

theorem mergeRanks_desc {ts : List Tensor} (hne : ts ≠ []) {r : Option Nat}
    (h : mergeRanks none (ts.map Tensor.desc) = .ok r) :
    ∃ rank, r = some rank ∧ ∀ t ∈ ts, t.shape.length = rank := by
  have hknown : ∀ t ∈ ts, r = some t.shape.length := by
    intro t ht
    refine (mergeRanks_eq_ok.1 h _).2 (Or.inr ⟨t.desc, List.mem_map_of_mem ht, ?_⟩)
    exact congrArg some (List.length_map _)
  obtain ⟨t₀, ht₀⟩ := List.exists_mem_of_ne_nil ts hne
  refine ⟨t₀.shape.length, hknown t₀ ht₀, fun t ht => ?_⟩
  exact Option.some.inj ((hknown t ht).symm.trans (hknown t₀ ht₀))

/-- Off the axis, the lengths of the input are the lengths that are found. -/
theorem getElem?_mergeDims {axis i : Nat} {accs dims out : List Dim}
    (hi : mergeDims axis i accs dims = .ok out) {k n : Nat} (hk : k + i ≠ axis)
    (hlt : k < accs.length) (hn : dims[k]? = some (.static n)) : out[k]? = some (.static n) := by
  induction accs generalizing i dims out k with
  | nil => cases hlt
  | cons acc accs ih =>
    cases dims with
    | nil => cases hn
    | cons d dims =>
      obtain ⟨m, rest, hm, hrest, rfl⟩ := mergeDims_cons_eq_ok.1 hi
      cases k with
      | zero =>
        obtain rfl := Option.some.inj hn
        rw [if_neg (by omega), Dim.merge_comm] at hm
        exact congrArg some (Dim.refines_of_merge hm).eq_static
      | succ k => exact ih hrest (by omega) (Nat.lt_of_succ_lt_succ hlt) hn

theorem refines_of_mergeShapes {axis : Nat} {ds : List Desc} {acc dims : List Dim}
    (hi : mergeShapes axis acc ds = .ok dims) : List.Forall₂ Dim.Refines dims acc := by
  induction ds generalizing acc with
  | nil =>
    obtain rfl := Except.ok.inj hi
    exact List.forall₂_same.2 fun d _ => Dim.Refines.refl d
  | cons d ds ih =>
    rw [mergeShapes] at hi
    split at hi
    next => exact ih hi
    next =>
      obtain ⟨acc', hm, hi⟩ := except_bind_eq_ok.1 hi
      exact forall₂_trans (ih hi) (refines_of_mergeDims hm) Dim.Refines.trans

/-- Off the axis, each tensor has the lengths that are found. -/
theorem mergeShapes_desc {axis : Nat} {ts : List Tensor} {acc dims : List Dim}
    (hi : mergeShapes axis acc (ts.map Tensor.desc) = .ok dims)
    (hlen : ∀ t ∈ ts, t.shape.length = acc.length) :
    ∀ t ∈ ts, ∀ k : Nat, k ≠ axis → dims[k]? = t.shape[k]?.map .static := by
  induction ts generalizing acc with
  | nil => simp
  | cons t ts ih =>
    rw [List.map_cons, mergeShapes] at hi
    obtain ⟨acc', hm, hrest⟩ := except_bind_eq_ok.1 hi
    have hacc := (refines_of_mergeDims hm).length_eq
    intro u hu k hk
    rcases List.mem_cons.1 hu with rfl | hu
    · have hl := hlen u List.mem_cons_self
      have hdims := (refines_of_mergeShapes hrest).length_eq
      cases hn : u.shape[k]? with
      | none =>
        rw [List.getElem?_eq_none_iff] at hn
        exact List.getElem?_eq_none (by omega)
      | some n =>
        have hlt : k < acc.length := hl ▸ (List.getElem?_eq_some_iff.1 hn).1
        have hacc' : acc'[k]? = some (.static n) :=
          getElem?_mergeDims hm hk hlt (by rw [List.getElem?_map, hn]; rfl)
        obtain ⟨d, hd, hdn⟩ := forall₂_getElem?_right (refines_of_mergeShapes hrest) hacc'
        rw [hd, hdn.eq_static]
        rfl
    · exact ih hrest (fun x hx => (hlen x (List.mem_cons_of_mem t hx)).trans hacc.symm) u hu k hk

theorem totalLength_desc {axis : Nat} {ts : List Tensor} (h : ∀ t ∈ ts, axis < t.shape.length) :
    totalLength axis (ts.map Tensor.desc) =
      .static ((ts.map (·.shape)).foldl (fun n s => n + s.getD axis 0) 0) := by
  have hfold : ∀ n, (ts.map Tensor.desc).foldl
        (fun n d => n + (d.shape.dim? axis).getD .dynamic) (.static n) =
      .static ((ts.map (·.shape)).foldl (fun n s => n + s.getD axis 0) n) := by
    induction ts with
    | nil => exact fun _ => rfl
    | cons t ts ih =>
      intro n
      have haxis := h t List.mem_cons_self
      have hdim : (t.desc.shape.dim? axis).getD .dynamic = .static (t.shape.getD axis 0) := by
        show ((t.shape.map Dim.static)[axis]?).getD .dynamic = _
        rw [List.getElem?_map, List.getD_eq_getElem?_getD, List.getElem?_eq_getElem haxis]
        rfl
      simp only [List.map_cons, List.foldl_cons, hdim, Dim.static_add]
      exact ih (fun u hu => h u (List.mem_cons_of_mem t hu)) _
  exact hfold 0

/-- Tensors whose lengths off the axis agree can be laid end to end. -/
theorem join_of_lengths {axis : Nat} {first : Shape} {rest : List Shape} (haxis : axis < first.length)
    (h : ∀ s ∈ rest, s.length = first.length ∧ ∀ k : Nat, k ≠ axis → s[k]? = first[k]?) :
    Shape.join axis (first :: rest) =
      some (first.set axis ((first :: rest).foldl (fun n s => n + s.getD axis 0) 0)) := by
  rw [Shape.join, if_pos]
  refine ⟨haxis, fun s hs => ⟨(h s hs).1, List.ext_getElem? fun k => ?_⟩⟩
  rw [List.getElem?_eraseIdx, List.getElem?_eraseIdx]
  split
  next hk => exact (h s hs).2 k (Nat.ne_of_lt hk)
  next hk => exact (h s hs).2 (k + 1) (by omega)

/-- Off the axis the announced lengths are those of the first tensor, and on the axis it is the total
length. -/
theorem set_dims_eq {axis n : Nat} {dims : List Dim} {s : Shape} (hlen : dims.length = s.length)
    (h : ∀ k : Nat, k ≠ axis → dims[k]? = s[k]?.map .static) :
    dims.set axis (.static n) = (s.set axis n).map .static := by
  rw [List.map_set]
  refine List.ext_getElem? fun k => ?_
  rw [List.getElem?_set, List.getElem?_set, List.length_map, hlen]
  split
  next => rfl
  next hk => rw [List.getElem?_map, h k (Ne.symm hk)]

/-- What concatenation has found out about tensors whose exact descriptions it accepts: they are laid end to
end along the axis `ax`, their common type is `type`, and the shape of the result is `s`. -/
structure Joins (axis : Int) (ts : List Tensor) (ax : Nat) (type : ElementType) (s : Shape) :
    Prop where
  nonempty : ts ≠ []
  axis_eq : ∀ t ∈ ts, normalizeAxis axis t.shape.length = some ax
  type_eq : ts.foldlM (fun acc t => acc.merge t.elementType) .dynamic = some type
  shape_eq : Shape.join ax (ts.map (·.shape)) = some s

/-- **What the inference rule accepts can be laid end to end**, and the announced description is the exact
one of the result. -/
theorem joins_of_infer {axis : Int} {ts : List Tensor} {os : List Desc}
    (hi : infer axis (ts.map Tensor.desc) = .ok os) :
    ∃ ax type s, Joins axis ts ax type s ∧ os = [⟨type, .ofShape s⟩] := by
  obtain ⟨hne, type, htype, hos⟩ := infer_eq_ok.1 hi
  have hne : ts ≠ [] := fun h => hne (by rw [h, List.map_nil])
  rcases hos with ⟨hrank, -⟩ | ⟨rank, ax, dims, hrank, hax, hdims, rfl⟩
  · obtain ⟨_, h, -⟩ := mergeRanks_desc hne hrank
    cases h
  obtain ⟨_, h, hlen⟩ := mergeRanks_desc hne hrank
  obtain rfl := Option.some.inj h
  obtain ⟨t₀, rest, rfl⟩ := List.exists_cons_of_ne_nil hne
  have hlen₀ := hlen t₀ List.mem_cons_self
  have haxis : ax < rank := normalizeAxis_lt hax
  have hoff := mergeShapes_desc hdims (by simpa using hlen)
  have hdlen : dims.length = t₀.shape.length := by
    rw [(refines_of_mergeShapes hdims).length_eq, List.length_replicate, hlen₀]
  have hrest : ∀ s ∈ rest.map (·.shape),
      s.length = t₀.shape.length ∧ ∀ k : Nat, k ≠ ax → s[k]? = t₀.shape[k]? := by
    intro s hs
    obtain ⟨t, ht, rfl⟩ := List.mem_map.1 hs
    have ht := List.mem_cons_of_mem t₀ ht
    refine ⟨(hlen t ht).trans hlen₀.symm, fun k hk => ?_⟩
    refine Option.map_injective (fun _ _ => Dim.static.inj) ?_
    rw [← hoff t ht k hk, hoff t₀ List.mem_cons_self k hk]
  have hjoin := join_of_lengths (hlen₀ ▸ haxis) hrest
  refine ⟨ax, type, _, ⟨hne, fun t ht => hlen t ht ▸ hax, mergeTypes_desc.1 htype, hjoin⟩, ?_⟩
  rw [totalLength_desc fun t ht => hlen t ht ▸ haxis, set_dims_eq hdlen (hoff t₀ List.mem_cons_self)]
  rfl

theorem Joins.evaluate_eq {axis : Int} {ts : List Tensor} {ax : Nat} {type : ElementType} {s : Shape}
    (h : Joins axis ts ax type s) : evaluate axis ts =
      if hs : s.addressable then some [.ofIndex type s (Tensor.getJoined ax ts) hs] else none := by
  obtain ⟨t₀, rest, rfl⟩ := List.exists_cons_of_ne_nil h.nonempty
  unfold evaluate
  simp only [List.head?_cons, Option.bind_eq_bind, Option.bind_some, h.axis_eq t₀ List.mem_cons_self,
    h.type_eq, Tensor.join, h.shape_eq]
  split <;> rfl

theorem agrees_evaluate {axis : Int} {ts : List Tensor} {os : List Desc}
    (hi : infer axis (ts.map Tensor.desc) = .ok os) :
    ∃ d, os = [d] ∧ d.Agrees (evaluate axis ts) := by
  obtain ⟨ax, type, s, hjoins, rfl⟩ := joins_of_infer hi
  refine ⟨_, rfl, ?_⟩
  rw [hjoins.evaluate_eq]
  exact Desc.agrees_dite fun _ => rfl

end Concat

end OpGraph
