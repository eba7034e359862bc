import OpGraph.Op.Basic
import OpGraph.Proofs.Pointwise

/-!
# Inference rules taken apart

What an inference rule has found out about its inputs when it accepts them.
-/

namespace OpGraph

theorem except_bind_eq_ok {ε α β : Type} {x : Except ε α} {f : α → Except ε β} {b : β} :
    (x >>= f) = .ok b ↔ ∃ a, x = .ok a ∧ f a = .ok b := by
  cases x <;> simp [bind, Except.bind]

theorem checkInputCount_eq_ok {ds : List Desc} {n : Nat} {u : Unit} :
    checkInputCount ds n = .ok u ↔ ds.length = n := by
  rw [checkInputCount]
  split <;> simp [*]

theorem BinaryOp.infer_eq_ok {rule : Broadcast} {ds outs : List Desc} :
    infer rule ds = .ok outs ↔
      ∃ a b type shape, ds = [a, b] ∧ a.elementType.merge b.elementType = some type ∧
        type ≠ .boolean ∧ rule.shape? a.shape b.shape = some shape ∧ outs = [⟨type, shape⟩] := by
  match ds with
  | [] => simp [infer]
  | [a] => simp [infer]
  | a :: b :: c :: ds => simp [infer]
  | [a, b] =>
    simp only [infer, List.cons.injEq, and_true]
    constructor
    · intro h
      split at h
      next => cases h
      next type htype =>
        split at h
        next => cases h
        next hbool =>
          split at h
          next => cases h
          next shape hshape =>
            cases h
            exact ⟨a, b, type, shape, ⟨rfl, rfl⟩, htype, hbool, hshape, rfl⟩
    · intro h'
      rcases h' with ⟨a', b', type, shape, ⟨rfl, rfl⟩, htype, hbool, hshape, rfl⟩
      simp [htype, hbool, hshape]

theorem BinaryOp.shape?_of_infer {rule : Broadcast} {a b d : Desc}
    (h : infer rule [a, b] = .ok [d]) : rule.shape? a.shape b.shape = some d.shape := by
  obtain ⟨a', b', type, shape, hin, -, -, hshape, hout⟩ := infer_eq_ok.1 h
  cases hin
  cases hout
  exact hshape

theorem Broadcast.shape?_comm (rule : Broadcast) (a b : PartialShape) :
    rule.shape? a b = rule.shape? b a := by
  cases rule with
  | none => exact PartialShape.merge_comm a b
  | numpy => exact PartialShape.broadcast_comm a b

theorem UnaryOp.infer_eq_ok {ds outs : List Desc} :
    infer ds = .ok outs ↔ ∃ a, ds = [a] ∧ a.elementType ≠ .boolean ∧ outs = [a] := by
  match ds with
  | [] => simp [infer]
  | a :: b :: ds => simp [infer]
  | [a] =>
    simp only [infer, List.cons.injEq, and_true, exists_eq_left']
    split <;> simp_all [eq_comm]

theorem Op.infer_result {ds outs : List Desc} :
    result.infer ds = .ok outs ↔ ds.length = 1 ∧ outs = ds := by
  simp only [infer, except_bind_eq_ok, checkInputCount_eq_ok, exists_const, pure, Except.pure,
    Except.ok.injEq, @eq_comm _ outs]

theorem Op.infer_convert {destination : ElementType} {ds outs : List Desc} :
    (convert destination).infer ds = .ok outs ↔ ds.length = 1 ∧ destination.isStatic ∧
      outs = ds.map fun d => { d with elementType := destination } := by
  simp only [infer, except_bind_eq_ok, checkInputCount_eq_ok, exists_const]
  refine and_congr_right fun _ => ?_
  by_cases hd : destination = .dynamic
  · subst hd
    simp [ElementType.isStatic, ElementType.isDynamic, bind, Except.bind, throw, throwThe,
      MonadExceptOf.throw]
  · simp [ElementType.isStatic, ElementType.isDynamic, hd, pure, Except.pure, @eq_comm _ outs]

theorem Op.infer_shapeOf {ds outs : List Desc} :
    shapeOf.infer ds = .ok outs ↔ ds.length = 1 ∧
      outs = ds.map fun d => ⟨.i64, .ranked [match d.shape.rank? with
        | some rank => .static rank
        | none => .dynamic]⟩ := by
  simp only [infer, except_bind_eq_ok, checkInputCount_eq_ok, exists_const]
  exact and_congr_right fun _ =>
    ⟨fun h => (Except.ok.inj h).symm, fun h => congrArg Except.ok h.symm⟩

/-! ### Concatenation -/

namespace Concat

/-- The ranks that are known are all the same one. -/
theorem mergeRanks_eq_ok {acc r : Option Nat} {ds : List Desc} :
    mergeRanks acc ds = .ok r ↔
      ∀ k, r = some k ↔ acc = some k ∨ ∃ d ∈ ds, d.shape.rank? = some k := by
  induction ds generalizing acc with
  | nil =>
    simp only [mergeRanks, Except.ok.injEq, List.not_mem_nil, false_and, exists_false, or_false]
    constructor
    · intro h k
      rw [h]
    · intro h
      exact Option.ext fun k => (h k).symm
  | cons d ds ih =>
    simp only [List.mem_cons, exists_eq_or_imp, ← or_assoc]
    unfold mergeRanks
    split
    next acc hd => simp only [ih, hd, reduceCtorEq, or_false]
    next m hd => simp only [ih, hd, reduceCtorEq, false_or]
    next n m hd =>
      split
      next hnm => simp only [ih, hd, hnm, or_self]
      next hnm =>
        simp only [reduceCtorEq, false_iff]
        intro h
        have hn := (h n).2 (Or.inl (Or.inl rfl))
        have hm := (h m).2 (Or.inl (Or.inr hd))
        exact hnm (Option.some.inj (hn.symm.trans hm))

/-- The axis of the concatenation is left alone, the others are merged. -/
theorem mergeDims_cons_eq_ok {axis i : Nat} {acc d : Dim} {accs ds out : List Dim} :
    mergeDims axis i (acc :: accs) (d :: ds) = .ok out ↔
      ∃ m rest, (if i = axis then some acc else acc.merge d) = some m ∧
        mergeDims axis (i + 1) accs ds = .ok rest ∧ out = m :: rest := by
  rw [mergeDims]
  split
  · simp only [except_bind_eq_ok, pure, Except.pure, Except.ok.injEq, Option.some.injEq,
      exists_and_left, exists_eq_left', @eq_comm _ out]
  · cases acc.merge d with
    | none => simp
    | some m =>
      simp only [except_bind_eq_ok, pure, Except.pure, Except.ok.injEq, Option.some.injEq,
        exists_and_left, exists_eq_left', @eq_comm _ out]

/-- What concatenation has found out when it accepts its inputs. -/
theorem infer_eq_ok {axis : Int} {ds os : List Desc} :
    infer axis ds = .ok os ↔ ds ≠ [] ∧ ∃ type, mergeTypes .dynamic 0 ds = .ok type ∧
      (mergeRanks none ds = .ok none ∧ os = [⟨type, .unranked⟩] ∨
        ∃ rank ax dims, mergeRanks none ds = .ok (some rank) ∧ normalizeAxis axis rank = some ax ∧
          mergeShapes ax (List.replicate rank .dynamic) ds = .ok dims ∧
          os = [⟨type, .ranked (dims.set ax (totalLength ax ds))⟩]) := by
  unfold infer
  cases ds with
  | nil => simp [throw, throwThe, MonadExceptOf.throw, bind, Except.bind]
  | cons d ds =>
    simp only [List.isEmpty_cons, Bool.false_eq_true, if_false, except_bind_eq_ok, ne_eq,
      reduceCtorEq, not_false_eq_true, true_and]
    refine exists_congr fun type => and_congr_right fun _ => ?_
    constructor
    · intro h
      obtain ⟨rank, hrank, h⟩ := h
      cases rank with
      | none => exact Or.inl ⟨hrank, (Except.ok.inj h).symm⟩
      | some rank =>
        dsimp only at h
        split at h
        next => cases h
        next ax hax =>
          obtain ⟨dims, hdims, h⟩ := except_bind_eq_ok.1 h
          exact Or.inr ⟨rank, ax, dims, hrank, hax, hdims, (Except.ok.inj h).symm⟩
    · intro h
      rcases h with ⟨hrank, rfl⟩ | ⟨rank, ax, dims, hrank, hax, hdims, rfl⟩
      · exact ⟨none, hrank, rfl⟩
      · refine ⟨some rank, hrank, ?_⟩
        simp only [hax, hdims]
        rfl

end Concat

/-! ### Windows -/

/-- The ranks that are known are the same one. -/
theorem Convolution.rank?_eq_ok {data filters : PartialShape} {r : Option Nat} :
    rank? data filters = .ok r ↔
      ∀ k, r = some k ↔ data.rank? = some k ∨ filters.rank? = some k := by
  unfold rank?
  split
  next a b ha hb =>
    rw [ha, hb]
    split
    next hab =>
      rw [Except.ok.injEq, eq_comm, Option.ext_iff]
      simp [hab]
    next hab =>
      simp only [reduceCtorEq, false_iff, Option.some.injEq]
      intro h
      exact hab (Option.some.inj (((h a).2 (Or.inl rfl)).symm.trans ((h b).2 (Or.inr rfl))))
  next a ha hb =>
    rw [Except.ok.injEq, eq_comm, Option.ext_iff]
    simp [ha, hb]
  next ha =>
    rw [Except.ok.injEq, eq_comm, Option.ext_iff]
    simp [ha]

theorem Convolution.infer_eq_ok {c : Convolution} {ds os : List Desc} :
    c.infer ds = .ok os ↔ ∃ data filters type, ds = [data, filters] ∧
      data.elementType.merge filters.elementType = some type ∧ type ≠ .boolean ∧
      (rank? data.shape filters.shape = .ok none ∧ os = [⟨type, .unranked⟩] ∨
        ∃ rank windows, rank? data.shape filters.shape = .ok (some rank) ∧ 3 ≤ rank ∧
          c.check (rank - 2) = .ok () ∧
          (((data.shape.dimsOfRank rank).getD 1 .dynamic).merge
            ((filters.shape.dimsOfRank rank).getD 1 .dynamic)).isSome ∧
          List.Forall₂ (fun i d => (c.window i).outputDim c.autoPad .floor
            ((data.shape.dimsOfRank rank).getD (i + 2) .dynamic)
            ((filters.shape.dimsOfRank rank).getD (i + 2) .dynamic) = .ok d)
            (List.range (rank - 2)) windows ∧
          os = [⟨type, .ranked ((data.shape.dimsOfRank rank).getD 0 .dynamic ::
            (filters.shape.dimsOfRank rank).getD 0 .dynamic :: windows)⟩]) := by
  match ds with
  | [] => simp [infer]
  | [a] => simp [infer]
  | a :: b :: e :: ds => simp [infer]
  | [data, filters] =>
    simp only [infer, List.cons.injEq, and_true]
    cases htype : data.elementType.merge filters.elementType with
    | none => simp [htype, bind, Except.bind, throw, throwThe, MonadExceptOf.throw]
    | some type =>
    by_cases hbool : type = .boolean
    · simp [htype, hbool, bind, Except.bind, pure, Except.pure, throw, throwThe, MonadExceptOf.throw]
    simp only [pure_bind, if_neg hbool, except_bind_eq_ok]
    constructor
    · intro h
      obtain ⟨rank, hrank, h⟩ := h
      refine ⟨data, filters, type, ⟨rfl, rfl⟩, htype, hbool, ?_⟩
      cases rank with
      | none => exact Or.inl ⟨hrank, (Except.ok.inj h).symm⟩
      | some rank =>
        dsimp only at h
        split at h
        next => cases h
        next hge =>
        obtain ⟨_, hcheck, h⟩ := except_bind_eq_ok.1 h
        split at h
        next => cases h
        next hch =>
        obtain ⟨windows, hw, h⟩ := except_bind_eq_ok.1 h
        refine Or.inr ⟨rank, windows, hrank, Nat.le_of_not_lt hge, hcheck, ?_, mapM_eq_ok.1 hw,
          (Except.ok.inj h).symm⟩
        simpa [Option.isSome_iff_ne_none] using hch
    · intro h
      obtain ⟨_, _, type', ⟨rfl, rfl⟩, htype', -, h⟩ := h
      obtain rfl := Option.some.inj (htype.symm.trans htype')
      rcases h with ⟨hrank, rfl⟩ | ⟨rank, windows, hrank, hge, hcheck, hch, hw, rfl⟩
      · exact ⟨none, hrank, rfl⟩
      · have hnone := Option.isSome_iff_ne_none.1 hch
        refine ⟨some rank, hrank, ?_⟩
        simp only [if_neg (Nat.not_lt.2 hge), Option.isNone_iff_eq_none, if_neg hnone]
        exact except_bind_eq_ok.2 ⟨(), hcheck, except_bind_eq_ok.2 ⟨_, mapM_eq_ok.2 hw, rfl⟩⟩

theorem MaxPool.infer_eq_ok {p : MaxPool} {ds os : List Desc} :
    p.infer ds = .ok os ↔ ∃ data, ds = [data] ∧
      (∀ r, data.shape.rank? = some r → r = p.kernel.length + 2) ∧
      p.check p.kernel.length = .ok () ∧ ∃ windows,
        List.Forall₂ (fun i d => (p.window i).outputDim p.autoPad p.rounding
          ((data.shape.dimsOfRank (p.kernel.length + 2)).getD (i + 2) .dynamic)
          (.static (p.kernel.getD i 0)) = .ok d) (List.range p.kernel.length) windows ∧
        os = [⟨data.elementType,
          .ranked ((data.shape.dimsOfRank (p.kernel.length + 2)).getD 0 .dynamic ::
            (data.shape.dimsOfRank (p.kernel.length + 2)).getD 1 .dynamic :: windows)⟩] := by
  match ds with
  | [] => simp [infer]
  | a :: b :: ds => simp [infer]
  | [data] =>
    simp only [infer, List.cons.injEq, and_true, exists_eq_left']
    have hrest : (do
        p.check p.kernel.length
        let windows ← (List.range p.kernel.length).mapM fun i =>
          (p.window i).outputDim p.autoPad p.rounding
            ((data.shape.dimsOfRank (p.kernel.length + 2)).getD (i + 2) .dynamic)
            (.static (p.kernel.getD i 0))
        return [⟨data.elementType,
          .ranked ((data.shape.dimsOfRank (p.kernel.length + 2)).getD 0 .dynamic ::
            (data.shape.dimsOfRank (p.kernel.length + 2)).getD 1 .dynamic :: windows)⟩] :
        Except InferError (List Desc)) = .ok os ↔
      p.check p.kernel.length = .ok () ∧ ∃ windows,
        List.Forall₂ (fun i d => (p.window i).outputDim p.autoPad p.rounding
          ((data.shape.dimsOfRank (p.kernel.length + 2)).getD (i + 2) .dynamic)
          (.static (p.kernel.getD i 0)) = .ok d) (List.range p.kernel.length) windows ∧
        os = [⟨data.elementType,
          .ranked ((data.shape.dimsOfRank (p.kernel.length + 2)).getD 0 .dynamic ::
            (data.shape.dimsOfRank (p.kernel.length + 2)).getD 1 .dynamic :: windows)⟩] := by
      simp only [except_bind_eq_ok, mapM_eq_ok, pure, Except.pure, Except.ok.injEq]
      constructor
      · intro h
        obtain ⟨_, hcheck, windows, hw, hos⟩ := h
        exact ⟨hcheck, windows, hw, hos.symm⟩
      · intro h
        obtain ⟨hcheck, windows, hw, hos⟩ := h
        exact ⟨(), hcheck, windows, hw, hos.symm⟩
    cases hr : data.shape.rank? with
    | none => simpa [hr] using hrest
    | some r =>
      by_cases hlen : r = p.kernel.length + 2
      · simpa [hr, hlen] using hrest
      · simp [hlen, bind, Except.bind, throw, throwThe, MonadExceptOf.throw]

/-- A built-in operation has a single output. -/
theorem Op.infer_singleton {op : Op} (hop : op.isBuiltIn) {ds outs : List Desc}
    (h : op.infer ds = .ok outs) : ∃ d, outs = [d] := by
  cases op with
  | extension e => cases hop
  | parameter type shape =>
    rw [infer] at h
    split at h
    · exact ⟨_, (Except.ok.inj h).symm⟩
    · cases h
  | constant t =>
    rw [infer] at h
    split at h
    · exact ⟨_, (Except.ok.inj h).symm⟩
    · cases h
  | result =>
    obtain ⟨hlen, rfl⟩ := infer_result.1 h
    exact List.length_eq_one_iff.1 hlen
  | convert destination =>
    obtain ⟨hlen, -, rfl⟩ := infer_convert.1 h
    exact List.length_eq_one_iff.1 (by rw [List.length_map, hlen])
  | shapeOf =>
    obtain ⟨hlen, rfl⟩ := infer_shapeOf.1 h
    exact List.length_eq_one_iff.1 (by rw [List.length_map, hlen])
  | binary op rule =>
    obtain ⟨-, -, type, shape, -, -, -, -, houts⟩ := BinaryOp.infer_eq_ok.1 h
    exact ⟨_, houts⟩
  | unary op =>
    obtain ⟨a, -, -, houts⟩ := UnaryOp.infer_eq_ok.1 h
    exact ⟨a, houts⟩
  | concat axis =>
    obtain ⟨-, type, -, ⟨-, houts⟩ | ⟨_, _, _, -, -, -, houts⟩⟩ := Concat.infer_eq_ok.1 h
    · exact ⟨_, houts⟩
    · exact ⟨_, houts⟩
  | convolution c =>
    obtain ⟨_, _, type, -, -, -, ⟨-, houts⟩ | ⟨_, _, -, -, -, -, -, houts⟩⟩ :=
      Convolution.infer_eq_ok.1 h
    · exact ⟨_, houts⟩
    · exact ⟨_, houts⟩
  | maxPool p =>
    obtain ⟨_, -, -, -, _, -, houts⟩ := MaxPool.infer_eq_ok.1 h
    exact ⟨_, houts⟩

end OpGraph
