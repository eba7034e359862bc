import OpGraph.Op.Concat
import OpGraph.Proofs.Op.Infer
import OpGraph.Proofs.Shape.Admits

/-!
# Concatenation conforms to its inference

`Concat.describes_evaluate`: where the inference rule accepts descriptions of some tensors, its answer
describes the tensors laid end to end.
-/

namespace OpGraph

/-- The description says nothing wrong about the tensor. -/
def Desc.Describes (d : Desc) (t : Tensor) : Prop := d.Admits t.elementType t.shape

namespace Concat

theorem admits_mergeTypes {ds : List Desc} {ts : List Tensor}
    (h : List.Forall₂ Desc.Describes ds ts) {acc acc' type type' : ElementType} {i : Nat}
    (hacc : acc.Admits acc') (hi : mergeTypes acc i ds = .ok type)
    (he : ts.foldlM (fun acc t => acc.merge t.elementType) acc' = some type') :
    type.Admits type' := by
  induction h generalizing acc acc' i with
  | nil =>
    obtain rfl := Except.ok.inj hi
    obtain rfl := Option.some.inj he
    exact hacc
  | @cons d t ds ts hdt _ ih =>
    rw [mergeTypes] at hi
    rw [List.foldlM_cons] at he
    obtain ⟨m', hm', he⟩ := Option.bind_eq_some_iff.1 he
    split at hi
    next m hm => exact ih (ElementType.admits_merge hm hacc hdt.1 hm') hi he
    next => cases hi

/-- The rank that is found is that of the tensors. -/
theorem mergeRanks_eq {ds : List Desc} {ts : List Tensor} (h : List.Forall₂ Desc.Describes ds ts)
    {rank : Nat} (hrank : ∀ t ∈ ts, t.shape.length = rank) {r : Nat}
    (hi : mergeRanks none ds = .ok (some r)) : r = rank := by
  obtain hr | ⟨d, hd, hr⟩ := (mergeRanks_eq_ok.1 hi r).1 rfl
  · cases hr
  obtain ⟨t, ht, hdt⟩ := forall₂_exists_of_mem h hd
  have hshape := hdt.2
  cases hs : d.shape with
  | unranked =>
    rw [hs] at hr
    cases hr
  | ranked dims =>
    rw [hs] at hr hshape
    obtain rfl := Option.some.inj hr
    exact (List.Forall₂.length_eq hshape).trans (hrank t ht)

/-- The dimensions, numbered from `i`, admit the lengths of a shape on all axes but one. -/
def AdmitsOff (axis i : Nat) (dims : List Dim) (s : Shape) : Prop :=
  ∀ (k : Nat) n d, k + i ≠ axis → s[k]? = some n → dims[k]? = some d → d.Admits n

theorem admitsOff_cons {axis i : Nat} {d : Dim} {dims : List Dim} {n : Nat} {s : Shape}
    (hd : i ≠ axis → d.Admits n) (h : AdmitsOff axis (i + 1) dims s) :
    AdmitsOff axis i (d :: dims) (n :: s) := by
  intro k m e hk hm he
  cases k with
  | zero =>
    obtain rfl := Option.some.inj hm
    obtain rfl := Option.some.inj he
    exact hd (by simpa using hk)
  | succ k => exact h k m e (by omega) hm he

theorem admitsOff_tail {axis i : Nat} {d : Dim} {dims : List Dim} {n : Nat} {s : Shape}
    (h : AdmitsOff axis i (d :: dims) (n :: s)) : AdmitsOff axis (i + 1) dims s :=
  fun k m e hk hm he => h (k + 1) m e (by omega) hm he

theorem admitsOff_mergeDims {axis i : Nat} {accs ds out : List Dim} {first s : Shape}
    (hi : mergeDims axis i accs ds = .ok out) (hacc : AdmitsOff axis i accs first)
    (hds : List.Forall₂ Dim.Admits ds s) (hlen : s.length = first.length)
    (hs : ∀ k : Nat, k + i ≠ axis → s[k]? = first[k]?) :
    out.length = accs.length ∧ AdmitsOff axis i out first := by
  induction accs generalizing i ds out first s with
  | nil =>
    obtain rfl := Except.ok.inj hi
    exact ⟨rfl, hacc⟩
  | cons acc accs ih =>
    cases hds with
    | nil =>
      obtain rfl := Except.ok.inj hi
      exact ⟨rfl, hacc⟩
    | @cons d n ds s hd hds =>
      cases first with
      | nil => cases hlen
      | cons m first =>
        have hlen' : s.length = first.length := Nat.succ.inj hlen
        have hs' : ∀ k : Nat, k + (i + 1) ≠ axis → s[k]? = first[k]? := fun k hk =>
          hs (k + 1) (by omega)
        obtain ⟨c, rest, hc, hrest, rfl⟩ := mergeDims_cons_eq_ok.1 hi
        obtain ⟨hl, ha⟩ := ih hrest (admitsOff_tail hacc) hds hlen' hs'
        refine ⟨congrArg (· + 1) hl, admitsOff_cons (fun hne => ?_) ha⟩
        rw [if_neg hne] at hc
        have hnm : n = m := Option.some.inj (hs 0 (by simpa using hne))
        refine (Dim.admits_merge hc m).2 ⟨?_, hnm ▸ hd⟩
        exact hacc 0 m acc (by simpa using hne) rfl rfl

theorem admitsOff_mergeShapes {axis : Nat} {ds : List Desc} {ts : List Tensor}
    (h : List.Forall₂ Desc.Describes ds ts) {first : Shape}
    (hts : ∀ t ∈ ts, t.shape.length = first.length ∧ ∀ k : Nat, k ≠ axis → t.shape[k]? = first[k]?)
    {acc dims : List Dim} (hacc : AdmitsOff axis 0 acc first)
    (hi : mergeShapes axis acc ds = .ok dims) :
    dims.length = acc.length ∧ AdmitsOff axis 0 dims first := by
  induction h generalizing acc with
  | nil =>
    obtain rfl := Except.ok.inj hi
    exact ⟨rfl, hacc⟩
  | @cons d t ds ts hdt _ ih =>
    have htail := fun x hx => hts x (List.mem_cons_of_mem t hx)
    obtain ⟨hlen, hoff⟩ := hts t List.mem_cons_self
    rw [mergeShapes] at hi
    split at hi
    next => exact ih htail hacc hi
    next ddims hshape =>
      cases hm : mergeDims axis 0 acc ddims with
      | error e =>
        rw [hm] at hi
        cases hi
      | ok acc' =>
        rw [hm] at hi
        have hd := hdt.2
        rw [hshape] at hd
        obtain ⟨hl, ha⟩ := admitsOff_mergeDims hm hacc hd hlen hoff
        obtain ⟨hl', ha'⟩ := ih htail ha hi
        exact ⟨hl'.trans hl, ha'⟩

theorem admits_totalLength {axis : Nat} {ds : List Desc} {ts : List Tensor}
    (h : List.Forall₂ Desc.Describes ds ts) :
    (totalLength axis ds).Admits
      ((ts.map (·.shape)).foldl (fun n s => n + s.getD axis 0) 0) := by
  have hadd : ∀ {a b : Dim} {m n : Nat}, a.Admits m → b.Admits n → (a + b).Admits (m + n) := by
    intro a b m n ha hb
    cases a with
    | dynamic => trivial
    | static x =>
      cases b with
      | dynamic => trivial
      | static y => exact congrArg₂ (· + ·) ha hb
  have hfold : ∀ (acc : Dim) (n : Nat), acc.Admits n →
      (ds.foldl (fun n d => n + (d.shape.dim? axis).getD .dynamic) acc).Admits
        (ts.foldl (fun n t => n + t.shape.getD axis 0) n) := by
    induction h with
    | nil => exact fun _ _ hacc => hacc
    | @cons d t ds ts hdt _ ih =>
      intro acc n hacc
      refine ih _ _ (hadd hacc ?_)
      have hshape := hdt.2
      cases hs : d.shape with
      | unranked => trivial
      | ranked dims =>
        rw [hs] at hshape
        show ((dims[axis]?).getD .dynamic).Admits _
        cases hd : dims[axis]? with
        | none => trivial
        | some x =>
          obtain ⟨m, hm, hxm⟩ := forall₂_getElem? hshape hd
          rw [List.getD_eq_getElem?_getD, hm]
          exact hxm
  rw [List.foldl_map]
  exact hfold _ _ rfl

/-- Shapes that are joined differ from the first one on the axis only. -/
theorem join_eq_some {axis : Nat} {first s : Shape} {rest : List Shape}
    (h : Shape.join axis (first :: rest) = some s) :
    axis < first.length ∧
      (∀ r ∈ first :: rest, r.length = first.length ∧ ∀ k : Nat, k ≠ axis → r[k]? = first[k]?) ∧
      s = first.set axis ((first :: rest).foldl (fun n s => n + s.getD axis 0) 0) := by
  rw [Shape.join, Option.ite_none_right_eq_some] at h
  obtain ⟨⟨haxis, hrest⟩, hs⟩ := h
  refine ⟨haxis, fun r hr => ?_, (Option.some.inj hs).symm⟩
  rcases List.mem_cons.1 hr with rfl | hr
  · exact ⟨rfl, fun _ _ => rfl⟩
  · obtain ⟨hl, he⟩ := hrest r hr
    refine ⟨hl, fun k hk => ?_⟩
    rcases Nat.lt_or_gt_of_ne hk with hlt | hgt
    · have := congrArg (·[k]?) he
      simpa [List.getElem?_eraseIdx, hlt] using this
    · have := congrArg (·[k - 1]?) he
      have h₁ : ¬ k - 1 < axis := by omega
      have h₂ : k - 1 + 1 = k := by omega
      simpa [List.getElem?_eraseIdx, h₁, h₂] using this

theorem describes_evaluate {axis : Int} {ds os : List Desc} {ts outs : List Tensor}
    (h : List.Forall₂ Desc.Describes ds ts) (hi : infer axis ds = .ok os)
    (he : evaluate axis ts = some outs) : List.Forall₂ Desc.Describes os outs := by
  unfold evaluate at he
  obtain ⟨t₀, hfirst, he⟩ := Option.bind_eq_some_iff.1 he
  obtain ⟨ax', hax', he⟩ := Option.bind_eq_some_iff.1 he
  obtain ⟨type', htype', he⟩ := Option.bind_eq_some_iff.1 he
  obtain ⟨t, hjoin, he⟩ := Option.bind_eq_some_iff.1 he
  obtain rfl := Option.some.inj he
  obtain ⟨s, -, hs, rfl⟩ := Tensor.join_eq_some.1 hjoin
  obtain ⟨rest, rfl⟩ : ∃ rest, ts = t₀ :: rest := List.head?_eq_some_iff.1 hfirst
  obtain ⟨haxis, hsame, hsum⟩ := join_eq_some hs
  have hts : ∀ t ∈ t₀ :: rest,
      t.shape.length = t₀.shape.length ∧ ∀ k : Nat, k ≠ ax' → t.shape[k]? = t₀.shape[k]? :=
    fun t ht => hsame t.shape (List.mem_map_of_mem ht)
  obtain ⟨-, type, htype, hos⟩ := infer_eq_ok.1 hi
  have htypes : type.Admits type' :=
    admits_mergeTypes h (ElementType.admits_refl _) htype htype'
  rcases hos with ⟨-, rfl⟩ | ⟨rank, ax, dims, hrank, hax, hdims, rfl⟩
  · exact .cons ⟨htypes, trivial⟩ .nil
  have hr : rank = t₀.shape.length :=
    mergeRanks_eq h (fun t ht => (hts t ht).1) hrank
  obtain rfl : ax = ax' := Option.some.inj (hax.symm.trans (hr ▸ hax'))
  have hdyn : AdmitsOff ax 0 (List.replicate rank .dynamic) t₀.shape := by
    intro k n d _ _ hd
    rw [List.eq_of_mem_replicate (List.mem_of_getElem? hd)]
    trivial
  obtain ⟨hlen, hoff⟩ := admitsOff_mergeShapes h hts hdyn hdims
  rw [List.length_replicate, hr] at hlen
  refine .cons ⟨htypes, ?_⟩ .nil
  show List.Forall₂ Dim.Admits (dims.set ax (totalLength ax ds)) s
  rw [hsum]
  refine forall₂_iff_getElem?.2 ⟨by simpa using hlen, fun k d n hd hn => ?_⟩
  rw [List.getElem?_set] at hd hn
  split at hd
  next hk =>
    subst hk
    rw [if_pos rfl] at hn
    rw [if_pos (hlen.symm ▸ haxis)] at hd
    rw [if_pos haxis] at hn
    obtain rfl := Option.some.inj hd
    obtain rfl := Option.some.inj hn
    exact admits_totalLength h
  next hk =>
    rw [if_neg hk] at hn
    exact hoff k n d (by omega) hn hd

end Concat

end OpGraph
