import Mathlib.Data.List.GetD
import Mathlib.Data.Set.Card
import OpGraph.Proofs.Op.Infer

/-!
# Window operations count windows

`windows_counted`: the length that convolution and rounded-down pooling announce for a spatial axis is the
number of windows on it.  With explicit padding or none the windows are those that end inside the padded input,
and inference fails exactly where there are none on some axis, or the kernel is empty.  In the `same` modes they
are those that begin inside the input, and inference never fails.

The windows on an axis are numbered from zero, and those that fit are the first ones (`Window.fits_iff_lt`,
`lt_ceilDiv_iff`), so their number is the length that the formula gives (`Window.positions_floor`).  What is
said about one axis (`Window.outputDim_eq_error_iff`, `Window.outputDim_countsOn`) is carried over all axes by
`CountsWindows.of_mapM`.
-/

namespace OpGraph

/-- The dimension of an axis, dynamic if there is none. -/
def PartialShape.dimAt (s : PartialShape) (axis : Nat) : Dim := (s.dim? axis).getD .dynamic

theorem PartialShape.dimsOfRank_getD (s : PartialShape) (rank axis : Nat) :
    (s.dimsOfRank rank).getD axis .dynamic = s.dimAt axis := by
  rw [List.getD_eq_getElem?_getD]
  cases s with
  | unranked => exact List.getElem?_getD_replicate_default_eq ..
  | ranked dims => rfl

theorem except_map_eq_ok {ε α β : Type} {x : Except ε α} {f : α → β} {b : β} :
    x.map f = .ok b ↔ ∃ a, x = .ok a ∧ f a = b := by
  cases x <;> simp [Except.map]

/-! ### Counting -/

/-- A quotient rounded up counts the smaller multiples. -/
theorem lt_ceilDiv_iff {k n s : Nat} (hs : 0 < s) : k < ceilDiv n s ↔ k * s < n := by
  rw [ceilDiv]
  split
  next h =>
    have hdiv : n / s * s = n := Nat.div_mul_cancel (Nat.dvd_of_mod_eq_zero h)
    rw [← Nat.mul_lt_mul_right hs, hdiv]
  next h =>
    rw [Nat.lt_succ_iff, Nat.le_div_iff_mul_le hs, Nat.lt_iff_le_and_ne, iff_self_and]
    rintro - rfl
    exact h (Nat.mul_mod_left k s)

/-- Numbers that begin with zero and have no gaps are as many as their bound says. -/
theorem encard_eq_of_iff_lt {p : Nat → Prop} {n : Nat} (h : ∀ k, p k ↔ k < n) :
    {k | p k}.encard = n := by
  have hset : {k | p k} = (Finset.range n : Set Nat) := by
    ext k
    simp [h]
  rw [hset, Set.encard_coe_eq_coe_finsetCard, Finset.card_range]

namespace Window

variable {w : Window} {n m : Nat}

/-- The window number `k` ends inside the padded input. -/
def Fits (w : Window) (input kernel k : Nat) : Prop :=
  k * w.stride + (kernel - 1) * w.dilation + 1 ≤ input + w.padBegin + w.padEnd

/-- If any window fits, the first one does. -/
theorem exists_fits_iff :
    (∃ k, w.Fits n m k) ↔ w.effectiveKernel m ≤ n + w.padBegin + w.padEnd := by
  constructor
  · rintro ⟨k, hk⟩
    rw [Fits] at hk
    rw [effectiveKernel]
    omega
  · intro h
    refine ⟨0, ?_⟩
    rw [effectiveKernel] at h
    rw [Fits]
    omega

/-- **The windows that fit are the first ones**, as many as the formula says. -/
theorem fits_iff_lt (hs : 0 < w.stride) (h : w.effectiveKernel m ≤ n + w.padBegin + w.padEnd)
    {k : Nat} : w.Fits n m k ↔
      k < (n + w.padBegin + w.padEnd - w.effectiveKernel m) / w.stride + 1 := by
  rw [Nat.lt_succ_iff, Nat.le_div_iff_mul_le hs, Fits]
  rw [effectiveKernel] at *
  omega

/-- Whatever the rounding, there is no length exactly if the kernel is empty or no window fits. -/
theorem positions_eq_error_iff (rounding : Rounding) :
    (∃ e, w.positions rounding n m = .error e) ↔ m = 0 ∨ ∀ k, ¬ w.Fits n m k := by
  rw [← not_exists, exists_fits_iff, positions.eq_def]
  by_cases hm : m = 0
  · simp [hm]
  · by_cases hle : w.effectiveKernel m ≤ n + w.padBegin + w.padEnd
    · cases rounding <;> simp [hm, hle, Nat.not_lt.2 hle]
    · simp [hm, hle, Nat.lt_of_not_le hle]

/-- Where there is a length, the kernel is not empty and covers no more than the padded input. -/
theorem le_of_positions {rounding : Rounding} {c : Nat} (h : w.positions rounding n m = .ok c) :
    m ≠ 0 ∧ w.effectiveKernel m ≤ n + w.padBegin + w.padEnd := by
  have hfits : ¬ (m = 0 ∨ ∀ k, ¬ w.Fits n m k) := by
    rw [← positions_eq_error_iff rounding, h]
    rintro ⟨e, he⟩
    cases he
  rwa [not_or, ← not_exists, not_not, exists_fits_iff] at hfits

/-- **The formula counts the windows that fit.** -/
theorem positions_floor (hs : 0 < w.stride) {c : Nat} (h : w.positions .floor n m = .ok c) :
    {k | w.Fits n m k}.encard = c := by
  obtain ⟨hm, hle⟩ := le_of_positions h
  rw [positions.eq_def, if_neg hm, if_neg (Nat.not_lt.2 hle)] at h
  obtain rfl := Except.ok.inj h
  exact encard_eq_of_iff_lt fun k => fits_iff_lt hs hle

/-! ### One axis -/

/-- The window with the padding that the mode leaves it. -/
def inMode (w : Window) : AutoPad → Window
  | .valid => w.unpadded
  | _ => w

theorem outputDim_inMode {pad : AutoPad} (hpad : pad = .explicit ∨ pad = .valid)
    (rounding : Rounding) (input kernel : Dim) :
    w.outputDim pad rounding input kernel =
      (w.inMode pad).outputDim .explicit rounding input kernel := by
  rcases hpad with rfl | rfl <;> rfl

theorem stride_inMode (pad : AutoPad) : (w.inMode pad).stride = w.stride := by
  cases pad <;> rfl

/-- With explicit padding or none, an axis has no output length exactly if its lengths are known and either the
kernel is empty or no window fits. -/
theorem outputDim_eq_error_iff {pad : AutoPad} (hpad : pad = .explicit ∨ pad = .valid)
    (rounding : Rounding) {input kernel : Dim} :
    (∃ e, w.outputDim pad rounding input kernel = .error e) ↔
      ∃ n m, input = .static n ∧ kernel = .static m ∧ (m = 0 ∨ ∀ k, ¬ (w.inMode pad).Fits n m k) := by
  simp only [outputDim_inMode hpad, ← positions_eq_error_iff rounding]
  cases input with
  | dynamic => simp [outputDim]
  | static n =>
    cases kernel with
    | dynamic => simp [outputDim]
    | static m =>
      rw [outputDim]
      dsimp only
      cases hp : (w.inMode pad).positions rounding n m <;> simp [hp, Except.map]

/-- The length `d` counts the windows on an axis, as far as the lengths that matter are known. -/
structure CountsOn (w : Window) (pad : AutoPad) (input kernel d : Dim) : Prop where
  sliding : pad = .explicit ∨ pad = .valid →
    (∀ n m, input = .static n → kernel = .static m →
      ∃ c : Nat, d = .static c ∧ {k | (w.inMode pad).Fits n m k}.encard = c) ∧
    (input = .dynamic ∨ kernel = .dynamic → d = .dynamic)
  same : pad = .sameUpper ∨ pad = .sameLower →
    (∀ n, input = .static n → ∃ c : Nat, d = .static c ∧ {k | k * w.stride < n}.encard = c) ∧
    (input = .dynamic → d = .dynamic)

/-- **Rounded down, the output length of an axis counts the windows on it.** -/
theorem outputDim_countsOn (hs : 0 < w.stride) {pad : AutoPad} {input kernel d : Dim}
    (h : w.outputDim pad .floor input kernel = .ok d) : w.CountsOn pad input kernel d := by
  constructor
  · intro hpad
    rw [outputDim_inMode hpad] at h
    constructor
    · rintro n m rfl rfl
      obtain ⟨c, hc, hd⟩ := except_map_eq_ok.1 h
      exact ⟨c, hd.symm, positions_floor (by rwa [stride_inMode]) hc⟩
    · rintro (rfl | rfl)
      · exact (Except.ok.inj h).symm
      · cases input <;> exact (Except.ok.inj h).symm
  · rintro (rfl | rfl)
    all_goals
      constructor
      · rintro n rfl
        exact ⟨_, (Except.ok.inj h).symm, encard_eq_of_iff_lt fun k => (lt_ceilDiv_iff hs).symm⟩
      · rintro rfl
        exact (Except.ok.inj h).symm

theorem outputDim_same {pad : AutoPad} (hpad : pad = .sameUpper ∨ pad = .sameLower)
    (rounding : Rounding) (input kernel : Dim) :
    ∃ d, w.outputDim pad rounding input kernel = .ok d := by
  rcases hpad with rfl | rfl <;> cases input <;> exact ⟨_, rfl⟩

end Window

/-! ### All axes -/

theorem except_eq_error_iff {ε α : Type} {x : Except ε α} :
    (∃ e, x = .error e) ↔ ¬ ∃ a, x = .ok a := by
  cases x <;> simp

/-- What is announced for windows that slide over several axes: `announced ds`, where the lengths `ds` count the
windows on the axes.  With explicit padding or none it is an error instead exactly if on some axis of known
lengths the kernel is empty or no window fits. -/
structure CountsWindows (spatial : Nat) (window : Nat → Window) (pad : AutoPad)
    (input kernel : Nat → Dim) (announced : List Dim → Desc)
    (result : Except InferError (List Desc)) : Prop where
  error_iff : pad = .explicit ∨ pad = .valid →
    ((∃ e, result = .error e) ↔ ∃ i < spatial, ∃ n m, input i = .static n ∧ kernel i = .static m ∧
      (m = 0 ∨ ∀ k, ¬ ((window i).inMode pad).Fits n m k))
  same_ok : pad = .sameUpper ∨ pad = .sameLower → ∃ os, result = .ok os
  counts : ∀ os, result = .ok os → ∃ ds, os = [announced ds] ∧ ds.length = spatial ∧
    ∀ i d, ds[i]? = some d → (window i).CountsOn pad (input i) (kernel i) d

section

variable {spatial : Nat} {window : Nat → Window} {pad : AutoPad} {input kernel : Nat → Dim}
  {announced : List Dim → Desc}

/-- **Axis by axis the windows are counted.** -/
theorem CountsWindows.of_mapM (hs : ∀ i, 0 < (window i).stride) :
    CountsWindows spatial window pad input kernel announced (do
      let ds ← (List.range spatial).mapM fun i =>
        (window i).outputDim pad .floor (input i) (kernel i)
      return [announced ds]) := by
  have hok : (∃ os, (do
      let ds ← (List.range spatial).mapM fun i =>
        (window i).outputDim pad .floor (input i) (kernel i)
      return [announced ds]) = Except.ok os) ↔
      ∀ i < spatial, ∃ d, (window i).outputDim pad .floor (input i) (kernel i) = .ok d := by
    simp only [← List.mem_range, ← exists_mapM_eq_ok, except_bind_eq_ok]
    constructor
    · rintro ⟨os, ds, hds, -⟩
      exact ⟨ds, hds⟩
    · rintro ⟨ds, hds⟩
      exact ⟨_, ds, hds, rfl⟩
  refine ⟨fun hpad => ?_, fun hpad => ?_, fun os hos => ?_⟩
  · rw [except_eq_error_iff, hok]
    simp only [← Window.outputDim_eq_error_iff hpad .floor, except_eq_error_iff]
    simp only [not_forall, exists_prop]
  · exact hok.2 fun i _ => Window.outputDim_same hpad .floor (input i) (kernel i)
  · obtain ⟨ds, hds, hos⟩ := except_bind_eq_ok.1 hos
    have hall := mapM_eq_ok.1 hds
    refine ⟨ds, (Except.ok.inj hos).symm, ?_, fun i d hd => ?_⟩
    · rw [← hall.length_eq, List.length_range]
    · obtain ⟨j, hj, hjd⟩ := forall₂_getElem?_right hall hd
      obtain ⟨hi, hij⟩ := List.getElem?_eq_some_iff.1 hj
      rw [List.getElem_range] at hij
      subst hij
      exact Window.outputDim_countsOn (hs i) hjd

end

/-! ### The two operations -/

theorem pos_getD_of_notMem {values : List Nat} (h : 0 ∉ values) (i : Nat) :
    0 < values.getD i 1 := by
  rw [List.getD_eq_getElem?_getD]
  cases hv : values[i]? with
  | none => exact Nat.one_pos
  | some v =>
    refine Nat.pos_of_ne_zero ?_
    rintro rfl
    exact h (List.mem_of_getElem? hv)

theorem checkPositive_eq_ok {name : String} {values : List Nat} {u : Unit} :
    checkPositive name values = .ok u ↔ 0 ∉ values := by
  rw [checkPositive]
  split <;> simp [*]

namespace Convolution

/-- The checks of the inference rule pass, and the rank is known. -/
structure Checked (c : Convolution) (data filters : Desc) (type : ElementType) (rank : Nat) :
    Prop where
  type_eq : data.elementType.merge filters.elementType = some type
  numeric : type ≠ .boolean
  rank_eq : rank? data.shape filters.shape = .ok (some rank)
  spatial : 3 ≤ rank
  attributes : c.check (rank - 2) = .ok ()
  channels : ((data.shape.dimAt 1).merge (filters.shape.dimAt 1)).isSome

theorem stride_pos {c : Convolution} {spatial : Nat} (h : c.check spatial = .ok ()) (i : Nat) :
    0 < (c.window i).stride := by
  rw [check] at h
  obtain ⟨_, -, h⟩ := except_bind_eq_ok.1 h
  obtain ⟨_, -, h⟩ := except_bind_eq_ok.1 h
  obtain ⟨_, hstrides, -⟩ := except_bind_eq_ok.1 h
  exact pos_getD_of_notMem (checkPositive_eq_ok.1 hstrides) i

theorem Checked.infer_eq {c : Convolution} {data filters : Desc} {type : ElementType} {rank : Nat}
    (h : c.Checked data filters type rank) : c.infer [data, filters] = (do
      let ds ← (List.range (rank - 2)).mapM fun i =>
        (c.window i).outputDim c.autoPad .floor (data.shape.dimAt (i + 2))
          (filters.shape.dimAt (i + 2))
      return [⟨type, .ranked (data.shape.dimAt 0 :: filters.shape.dimAt 0 :: ds)⟩]) := by
  have hchannels := Option.isSome_iff_ne_none.1 h.channels
  simp only [infer, h.type_eq, if_neg h.numeric, h.rank_eq, h.attributes,
    PartialShape.dimsOfRank_getD, Option.isNone_iff_eq_none, if_neg hchannels,
    if_neg (Nat.not_lt.2 h.spatial), bind, Except.bind, pure, Except.pure]

end Convolution

namespace MaxPool

/-- The checks of the inference rule pass. -/
structure Checked (p : MaxPool) (data : Desc) : Prop where
  rank_eq : ∀ r, data.shape.rank? = some r → r = p.kernel.length + 2
  attributes : p.check p.kernel.length = .ok ()

theorem stride_pos {p : MaxPool} {spatial : Nat} (h : p.check spatial = .ok ()) (i : Nat) :
    0 < (p.window i).stride := by
  rw [check] at h
  split at h
  next => cases h
  next =>
    obtain ⟨_, -, h⟩ := except_bind_eq_ok.1 h
    obtain ⟨_, hstrides, -⟩ := except_bind_eq_ok.1 h
    exact pos_getD_of_notMem (checkPositive_eq_ok.1 hstrides) i

theorem Checked.infer_eq {p : MaxPool} {data : Desc} (h : p.Checked data) : p.infer [data] = (do
      let ds ← (List.range p.kernel.length).mapM fun i =>
        (p.window i).outputDim p.autoPad p.rounding (data.shape.dimAt (i + 2))
          (.static (p.kernel.getD i 0))
      return [⟨data.elementType, .ranked (data.shape.dimAt 0 :: data.shape.dimAt 1 :: ds)⟩]) := by
  simp only [infer, h.attributes, PartialShape.dimsOfRank_getD]
  cases hr : data.shape.rank? with
  | none => rfl
  | some r =>
    simp only [h.rank_eq r hr]
    rw [if_neg (not_not.2 rfl)]
    rfl

end MaxPool

/-- **Window operations count windows.**  Where the checks of convolution or of rounded-down pooling pass, the
announced lengths of the spatial axes are numbers of windows, dynamic where a length that matters is not known.
With explicit padding or none there is an error instead exactly if the kernel is empty or no window fits on some
axis of known lengths, and in the `same` modes there is none. -/
theorem windows_counted :
    (∀ (c : Convolution) (data filters : Desc) (type : ElementType) (rank : Nat),
      c.Checked data filters type rank →
        CountsWindows (rank - 2) c.window c.autoPad (fun i => data.shape.dimAt (i + 2))
          (fun i => filters.shape.dimAt (i + 2))
          (fun ds => ⟨type, .ranked (data.shape.dimAt 0 :: filters.shape.dimAt 0 :: ds)⟩)
          (c.infer [data, filters])) ∧
    ∀ (p : MaxPool) (data : Desc), p.rounding = .floor → p.Checked data →
      CountsWindows p.kernel.length p.window p.autoPad (fun i => data.shape.dimAt (i + 2))
        (fun i => .static (p.kernel.getD i 0))
        (fun ds => ⟨data.elementType, .ranked (data.shape.dimAt 0 :: data.shape.dimAt 1 :: ds)⟩)
        (p.infer [data]) := by
  constructor
  · intro c data filters type rank h
    rw [h.infer_eq]
    exact .of_mapM (Convolution.stride_pos h.attributes)
  · intro p data hfloor h
    rw [h.infer_eq, hfloor]
    exact .of_mapM (MaxPool.stride_pos h.attributes)

/-- Four windows of length three and stride two fit on a padded axis of length seven, and no window of length five
on an axis of length three. -/
theorem windows_counted_padded :
    let c : Convolution := ⟨[2], [1], [1], [1], .explicit⟩
    let data : Desc := ⟨.f32, .ranked [.dynamic, .static 3, .static 7]⟩
    let filters : Desc := ⟨.dynamic, .ofShape [8, 3, 3]⟩
    let p : MaxPool := ⟨[1], [], [], [5], .floor, .valid⟩
    let row : Desc := ⟨.f32, .ofShape [1, 1, 3]⟩
    c.Checked data filters .f32 3 ∧
      c.infer [data, filters] = .ok [⟨.f32, .ranked [.dynamic, .static 8, .static 4]⟩] ∧
      {k | (c.window 0).Fits 7 3 k}.encard = 4 ∧
      p.rounding = .floor ∧ p.Checked row ∧ ∃ e, p.infer [row] = .error e := by
  intro c data filters p row
  have hc : c.Checked data filters .f32 3 :=
    ⟨rfl, by decide, rfl, by decide, rfl, rfl⟩
  have hp : p.Checked row := ⟨fun r hr => (Option.some.inj hr).symm, rfl⟩
  have hi : c.infer [data, filters] =
      .ok [⟨.f32, .ranked [.dynamic, .static 8, .static 4]⟩] := by decide
  refine ⟨hc, hi, ?_, rfl, hp, ?_⟩
  · obtain ⟨ds, hds, -, hcounts⟩ := (windows_counted.1 c data filters .f32 3 hc).counts _ hi
    have hshape := PartialShape.ranked.inj (Desc.mk.inj (List.cons.inj hds).1).2
    obtain rfl : [.static 4] = ds := (List.cons.inj (List.cons.inj hshape).2).2
    obtain ⟨n, hn, hcard⟩ := ((hcounts 0 _ rfl).sliding (Or.inl rfl)).1 7 3 rfl rfl
    refine hcard.trans ?_
    rw [← Dim.static.inj hn]
    rfl
  · refine ((windows_counted.2 p row rfl hp).error_iff (Or.inr rfl)).2 ?_
    refine ⟨0, by decide, 3, 5, rfl, rfl, Or.inr fun k hk => ?_⟩
    have hk : k * 1 + 4 * 1 + 1 ≤ 3 := hk
    omega

end OpGraph
