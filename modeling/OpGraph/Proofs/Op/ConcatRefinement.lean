import OpGraph.Proofs.Op.Infer
import OpGraph.Proofs.Shape.Refines

/-!
# Concatenation does not guess

`Concat.infer_refines`: from descriptions that know less, the inference rule of concatenation finds
less, and it accepts them wherever it accepts the more precise ones.

The rule goes over its inputs with what it has found so far, once for the types, once for the ranks and
once for the dimensions.  The lemma about each pass compares two runs that have started from different
finds.
-/

namespace OpGraph.Concat

section

variable {ds' ds : List Desc} (h : List.Forall₂ Desc.Refines ds' ds)

include h

theorem mergeTypes_refines {acc' acc type' : ElementType} (hacc : acc'.Refines acc) {i : Nat}
    (hi : mergeTypes acc' i ds' = .ok type') :
    ∃ type, mergeTypes acc i ds = .ok type ∧ type'.Refines type := by
  induction h generalizing acc' acc i with
  | nil =>
    obtain rfl := Except.ok.inj hi
    exact ⟨acc, rfl, hacc⟩
  | cons hd _ ih =>
    rw [mergeTypes] at hi ⊢
    split at hi
    next m' hm' =>
      obtain ⟨m, hm, hmm⟩ := ElementType.lenient_merge hacc hd.1 hm'
      rw [hm]
      exact ih hmm hi
    next => cases hi

/-- The rank may no longer be found, but it does not change. -/
theorem mergeRanks_refines {r' : Option Nat} (hi : mergeRanks none ds' = .ok r') :
    ∃ r, mergeRanks none ds = .ok r ∧ ∀ k, r = some k → r' = some k := by
  simp only [mergeRanks_eq_ok, reduceCtorEq, false_or] at hi ⊢
  refine exists_rank_of_imp hi fun k hk => ?_
  obtain ⟨d, hd, hk⟩ := hk
  obtain ⟨d', hd', hdd⟩ := forall₂_exists_of_mem h.flip hd
  exact ⟨d', hd', PartialShape.Refines.rank?_eq hdd.2 hk⟩

theorem totalLength_refines (axis : Nat) : (totalLength axis ds').Refines (totalLength axis ds) := by
  refine List.rel_foldl ?_ (Dim.Refines.refl _) h
  intro n' n hn d' d hd
  refine Dim.refines_add hn ?_
  exact PartialShape.Refines.dim?_getD hd.2 axis

end

theorem mergeDims_refines {axis i : Nat} {accs' accs dims' dims out' : List Dim}
    (hacc : List.Forall₂ Dim.Refines accs' accs) (hd : List.Forall₂ Dim.Refines dims' dims)
    (hi : mergeDims axis i accs' dims' = .ok out') :
    ∃ out, mergeDims axis i accs dims = .ok out ∧ List.Forall₂ Dim.Refines out' out := by
  induction hacc generalizing dims' dims i out' with
  | nil =>
    obtain rfl := Except.ok.inj hi
    exact ⟨[], rfl, .nil⟩
  | cons hacc haccs ih =>
    cases hd with
    | nil =>
      obtain rfl := Except.ok.inj hi
      exact ⟨_, rfl, .cons hacc haccs⟩
    | cons hd hds =>
      obtain ⟨m', rest', hm', hrest', rfl⟩ := mergeDims_cons_eq_ok.1 hi
      obtain ⟨rest, hrest, hrr⟩ := ih hds hrest'
      obtain ⟨m, hm, hmm⟩ : ∃ m, (if i = axis then some _ else _) = some m ∧ m'.Refines m := by
        split at hm'
        next heq =>
          obtain rfl := Option.some.inj hm'
          exact ⟨_, if_pos heq, hacc⟩
        next hne =>
          obtain ⟨m, hm, hmm⟩ := Dim.lenient_merge hacc hd hm'
          exact ⟨m, (if_neg hne).trans hm, hmm⟩
      exact ⟨m :: rest, mergeDims_cons_eq_ok.2 ⟨m, rest, hm, hrest, rfl⟩, .cons hmm hrr⟩

/-- Merging more dimensions loses nothing of what has been found. -/
theorem refines_of_mergeDims {axis i : Nat} {accs dims out : List Dim}
    (hi : mergeDims axis i accs dims = .ok out) : List.Forall₂ Dim.Refines out accs := by
  induction accs generalizing dims i out with
  | nil =>
    obtain rfl := Except.ok.inj hi
    exact .nil
  | cons acc accs ih =>
    cases dims with
    | nil =>
      obtain rfl := Except.ok.inj hi
      exact List.forall₂_same.2 fun d _ => Dim.Refines.refl d
    | cons d dims =>
      obtain ⟨m, rest, hm, hrest, rfl⟩ := mergeDims_cons_eq_ok.1 hi
      refine .cons ?_ (ih hrest)
      split at hm
      next => exact Option.some.inj hm ▸ Dim.Refines.refl _
      next => exact Dim.refines_of_merge hm

theorem mergeShapes_refines {ds' ds : List Desc} (h : List.Forall₂ Desc.Refines ds' ds) {axis : Nat}
    {acc' acc dims' : List Dim} (hacc : List.Forall₂ Dim.Refines acc' acc)
    (hi : mergeShapes axis acc' ds' = .ok dims') :
    ∃ dims, mergeShapes axis acc ds = .ok dims ∧ List.Forall₂ Dim.Refines dims' dims := by
  induction h generalizing acc' acc with
  | nil =>
    obtain rfl := Except.ok.inj hi
    exact ⟨acc, rfl, hacc⟩
  | @cons d' d ds' ds hd _ ih =>
    have hshape := hd.2
    cases hs : d.shape with
    | unranked =>
      -- the more precise shape only adds to what has been found
      obtain ⟨acc'', hacc'', hi⟩ : ∃ acc'', List.Forall₂ Dim.Refines acc'' acc' ∧
          mergeShapes axis acc'' ds' = .ok dims' := by
        rw [mergeShapes] at hi
        split at hi
        next => exact ⟨acc', List.forall₂_same.2 fun x _ => Dim.Refines.refl x, hi⟩
        next =>
          obtain ⟨acc'', hm, hi⟩ := except_bind_eq_ok.1 hi
          exact ⟨acc'', refines_of_mergeDims hm, hi⟩
      rw [mergeShapes, hs]
      exact ih (forall₂_trans hacc'' hacc Dim.Refines.trans) hi
    | ranked xs =>
      rw [hs] at hshape
      obtain ⟨xs', hs', hxs⟩ := hshape.exists_ranked
      rw [mergeShapes, hs'] at hi
      obtain ⟨acc'', hm', hi⟩ := except_bind_eq_ok.1 hi
      obtain ⟨out, hm, hout⟩ := mergeDims_refines hacc hxs hm'
      obtain ⟨dims, hdims, hdd⟩ := ih hout hi
      refine ⟨dims, ?_, hdd⟩
      rw [mergeShapes, hs]
      exact except_bind_eq_ok.2 ⟨out, hm, hdims⟩

theorem infer_refines {axis : Int} {ds' ds os' : List Desc} (h : List.Forall₂ Desc.Refines ds' ds)
    (hi : infer axis ds' = .ok os') :
    ∃ os, infer axis ds = .ok os ∧ List.Forall₂ Desc.Refines os' os := by
  obtain ⟨hne', type', htype', hos'⟩ := infer_eq_ok.1 hi
  have hne : ds ≠ [] := by
    rintro rfl
    exact hne' (List.forall₂_nil_right_iff.1 h)
  obtain ⟨type, htype, htt⟩ := mergeTypes_refines h (ElementType.Refines.refl _) htype'
  obtain ⟨r, hr, hrank⟩ : ∃ r, mergeRanks none ds = .ok r ∧
      ∀ k, r = some k → mergeRanks none ds' = .ok (some k) := by
    rcases hos' with ⟨hr', -⟩ | ⟨rank, _, _, hr', -⟩
    all_goals
      obtain ⟨r, hr, hrr⟩ := mergeRanks_refines h hr'
      exact ⟨r, hr, fun k hk => hrr k hk ▸ hr'⟩
  cases r with
  | none =>
    refine ⟨[⟨type, .unranked⟩], infer_eq_ok.2 ⟨hne, type, htype, Or.inl ⟨hr, rfl⟩⟩, ?_⟩
    rcases hos' with ⟨-, rfl⟩ | ⟨_, _, _, -, -, -, rfl⟩
    all_goals exact .cons ⟨htt, PartialShape.refines_unranked _⟩ .nil
  | some k =>
    have hk := hrank k rfl
    rcases hos' with ⟨hr', -⟩ | ⟨rank, ax, dims', hr', hax, hdims', rfl⟩
    · cases hk.symm.trans hr'
    · cases hk.symm.trans hr'
      obtain ⟨dims, hdims, hdd⟩ := mergeShapes_refines h
        (List.forall₂_same.2 fun d _ => Dim.Refines.refl d) hdims'
      refine ⟨_, infer_eq_ok.2 ⟨hne, type, htype,
        Or.inr ⟨k, ax, dims, hr, hax, hdims, rfl⟩⟩, .cons ⟨htt, ?_⟩ .nil⟩
      exact forall₂_set_set hdd (totalLength_refines h ax) ax

end OpGraph.Concat
