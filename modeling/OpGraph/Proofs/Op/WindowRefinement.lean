import OpGraph.Proofs.Op.Infer
import OpGraph.Proofs.Shape.Refines

/-!
# Window operations do not guess

`Convolution.infer_refines` and `MaxPool.infer_refines`: from descriptions that know less, the inference
rules of the window operations find less, and they accept them wherever they accept the more precise
ones.

Along one axis this is `Window.outputDim_refines`: the number of window positions is only given for
lengths that are known.
-/

namespace OpGraph

theorem Window.outputDim_dynamic (w : Window) (pad : AutoPad) (rounding : Rounding) (kernel : Dim) :
    w.outputDim pad rounding .dynamic kernel = .ok .dynamic := by
  cases pad <;> rfl

theorem Window.outputDim_refines {w : Window} {pad : AutoPad} {rounding : Rounding}
    {input' input kernel' kernel d' : Dim} (hinput : input'.Refines input)
    (hkernel : kernel'.Refines kernel) (hd : w.outputDim pad rounding input' kernel' = .ok d') :
    ∃ d, w.outputDim pad rounding input kernel = .ok d ∧ d'.Refines d := by
  rcases hinput with rfl | rfl
  · exact ⟨.dynamic, outputDim_dynamic w pad rounding kernel, Dim.refines_dynamic d'⟩
  rcases hkernel with rfl | rfl
  · cases input' with
    | dynamic => exact ⟨.dynamic, outputDim_dynamic w pad rounding _, Dim.refines_dynamic d'⟩
    | static n =>
      cases pad with
      | explicit => exact ⟨.dynamic, rfl, Dim.refines_dynamic d'⟩
      | valid => exact ⟨.dynamic, rfl, Dim.refines_dynamic d'⟩
      -- these modes do not look at the kernel
      | sameUpper => exact ⟨d', hd, Dim.Refines.refl d'⟩
      | sameLower => exact ⟨d', hd, Dim.Refines.refl d'⟩
  · exact ⟨d', hd, Dim.Refines.refl d'⟩

/-- The windows along several axes, from the lengths `input` and `kernel` of each axis. -/
theorem Window.outputDims_refines {window : Nat → Window} {pad : AutoPad} {rounding : Rounding}
    {input' input kernel' kernel : Nat → Dim} (hinput : ∀ i, (input' i).Refines (input i))
    (hkernel : ∀ i, (kernel' i).Refines (kernel i)) {axes : List Nat} {ds' : List Dim}
    (h : List.Forall₂ (fun i d => (window i).outputDim pad rounding (input' i) (kernel' i) = .ok d)
      axes ds') :
    ∃ ds, List.Forall₂ (fun i d =>
        (window i).outputDim pad rounding (input i) (kernel i) = .ok d) axes ds ∧
      List.Forall₂ Dim.Refines ds' ds := by
  induction h with
  | nil => exact ⟨[], .nil, .nil⟩
  | @cons i _ _ _ hd _ ih =>
    obtain ⟨d, hd, hdd⟩ := outputDim_refines (hinput i) (hkernel i) hd
    obtain ⟨ds, hds, hdds⟩ := ih
    exact ⟨d :: ds, .cons hd hds, .cons hdd hdds⟩

/-- The rank may no longer be found, but it does not change. -/
theorem Convolution.rank?_refines {data' data filters' filters : PartialShape}
    (hdata : data'.Refines data) (hfilters : filters'.Refines filters) {r' : Option Nat}
    (h : rank? data' filters' = .ok r') :
    ∃ r, rank? data filters = .ok r ∧ ∀ k, r = some k → r' = some k := by
  rw [rank?_eq_ok] at h
  simp only [rank?_eq_ok]
  exact exists_rank_of_imp h fun k hk => hk.imp hdata.rank?_eq hfilters.rank?_eq

theorem Convolution.infer_refines {c : Convolution} {ds' ds os' : List Desc}
    (h : List.Forall₂ Desc.Refines ds' ds) (hi : c.infer ds' = .ok os') :
    ∃ os, c.infer ds = .ok os ∧ List.Forall₂ Desc.Refines os' os := by
  obtain ⟨data', filters', type', rfl, htype', hbool', hos'⟩ := infer_eq_ok.1 hi
  cases h with
  | @cons _ data _ _ hdata h =>
  cases h with
  | @cons _ filters _ _ hfilters h =>
  cases h
  obtain ⟨type, htype, htt⟩ := ElementType.lenient_merge hdata.1 hfilters.1 htype'
  have hbool : type ≠ .boolean := by
    rintro rfl
    exact hbool' htt.eq_boolean
  obtain ⟨r, hr, hrank⟩ : ∃ r, rank? data.shape filters.shape = .ok r ∧
      ∀ k, r = some k → rank? data'.shape filters'.shape = .ok (some k) := by
    rcases hos' with ⟨hr', -⟩ | ⟨rank, _, hr', -⟩
    all_goals
      obtain ⟨r, hr, hrr⟩ := rank?_refines hdata.2 hfilters.2 hr'
      exact ⟨r, hr, fun k hk => hrr k hk ▸ hr'⟩
  cases r with
  | none =>
    refine ⟨_, infer_eq_ok.2 ⟨data, filters, type, rfl, htype, hbool, Or.inl ⟨hr, rfl⟩⟩, ?_⟩
    rcases hos' with ⟨-, rfl⟩ | ⟨_, _, -, -, -, -, -, rfl⟩
    all_goals exact .cons ⟨htt, PartialShape.refines_unranked _⟩ .nil
  | some k =>
    have hk := hrank k rfl
    rcases hos' with ⟨hr', -⟩ | ⟨rank, windows', hr', hge, hcheck, hch', hw', rfl⟩
    · cases hk.symm.trans hr'
    · cases hk.symm.trans hr'
      have hinput := PartialShape.Refines.dimsOfRank_getD hdata.2 k
      have hkernel := PartialShape.Refines.dimsOfRank_getD hfilters.2 k
      obtain ⟨channels', hch'⟩ := Option.isSome_iff_exists.1 hch'
      obtain ⟨channels, hch, -⟩ := Dim.lenient_merge (hinput 1) (hkernel 1) hch'
      obtain ⟨windows, hw, hww⟩ := Window.outputDims_refines (fun i => hinput (i + 2))
        (fun i => hkernel (i + 2)) hw'
      refine ⟨_, infer_eq_ok.2 ⟨data, filters, type, rfl, htype, hbool, Or.inr ⟨k, windows, hr, hge,
        hcheck, Option.isSome_iff_exists.2 ⟨channels, hch⟩, hw, rfl⟩⟩, .cons ⟨htt, ?_⟩ .nil⟩
      exact .cons (hinput 0) (.cons (hkernel 0) hww)

theorem MaxPool.infer_refines {p : MaxPool} {ds' ds os' : List Desc}
    (h : List.Forall₂ Desc.Refines ds' ds) (hi : p.infer ds' = .ok os') :
    ∃ os, p.infer ds = .ok os ∧ List.Forall₂ Desc.Refines os' os := by
  obtain ⟨data', rfl, hrank', hcheck, windows', hw', rfl⟩ := infer_eq_ok.1 hi
  cases h with
  | @cons _ data _ _ hdata h =>
  cases h
  have hinput := PartialShape.Refines.dimsOfRank_getD hdata.2 (p.kernel.length + 2)
  obtain ⟨windows, hw, hww⟩ := Window.outputDims_refines (fun i => hinput (i + 2))
    (fun _ => Dim.Refines.refl _) hw'
  have hrank : ∀ r, data.shape.rank? = some r → r = p.kernel.length + 2 := fun r hr =>
    hrank' r (PartialShape.Refines.rank?_eq hdata.2 hr)
  refine ⟨_, infer_eq_ok.2 ⟨data, rfl, hrank, hcheck, windows, hw, rfl⟩, .cons ⟨hdata.1, ?_⟩ .nil⟩
  exact .cons (hinput 0) (.cons (hinput 1) hww)

end OpGraph
