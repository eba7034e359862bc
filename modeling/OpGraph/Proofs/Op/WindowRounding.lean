import Mathlib.Order.Bounds.Basic
import OpGraph.Proofs.Op.WindowCount

/-!
# Window counts that are rounded up

Rounded up, the number of windows on an axis may take in some that begin behind the input, in the trailing
padding.  The rule then takes one window off the count, and only one.  `MaxPool.roundedUp_lengths` says when that
is enough: the last window begins inside the input or the leading padding exactly if the trailing padding is
short (`Window.TrailingShort`), and the length is then the greatest with that property.  Otherwise one window is
taken off, and the last one left still begins in the trailing padding.

The padded length and the offset of the last window are numbers without a limit.  On words the rule comes to the
same count as long as they fit (`windowInference_faultless`).

Everything compares two counts: `Window.roundedUp`, which the rule begins with, and `Window.inside`, the windows
that begin in front of the trailing padding.
-/

namespace OpGraph

namespace Window

variable {w : Window} {n m c x : Nat}

/-- There is a window among `x`, and the last one begins inside the input or the leading padding. -/
def StartsInside (w : Window) (input x : Nat) : Prop :=
  1 ≤ x ∧ (x - 1) * w.stride < input + w.padBegin

/-- The number of windows that begin inside the input or the leading padding. -/
def inside (w : Window) (input : Nat) : Nat := ceilDiv (input + w.padBegin) w.stride

/-- The number of windows, rounded up, where each covers `covered` elements. -/
def roundedUp (w : Window) (input covered : Nat) : Nat :=
  ceilDiv (input + w.padBegin + w.padEnd - covered) w.stride + 1

/-- The trailing padding ends no later than the first window that begins in it. -/
def TrailingShort (w : Window) (input covered : Nat) : Prop :=
  input + w.padBegin + w.padEnd ≤ w.inside input * w.stride + covered

/-- The rounded-up number of windows, corrected to `c`: with short trailing padding it is the greatest number up
to the rounded-up one whose last window begins inside the input or the leading padding, otherwise it is one less
than the rounded-up one, and its last window begins in the trailing padding. -/
structure Corrected (w : Window) (input covered c : Nat) : Prop where
  pos : 1 ≤ c
  greatest_iff : IsGreatest {x | w.StartsInside input x ∧ x ≤ w.roundedUp input covered} c ↔
    w.TrailingShort input covered
  startsInside_iff : w.StartsInside input c ↔ w.TrailingShort input covered
  of_long : ¬ w.TrailingShort input covered → c + 1 = w.roundedUp input covered

theorem startsInside_iff_le (hs : 0 < w.stride) :
    w.StartsInside n x ↔ 1 ≤ x ∧ x ≤ w.inside n := by
  rw [StartsInside, inside, ← lt_ceilDiv_iff hs]
  omega

theorem inside_pos (hs : 0 < w.stride) (hin : 0 < n + w.padBegin) : 0 < w.inside n := by
  rwa [inside, lt_ceilDiv_iff hs, Nat.zero_mul]

theorem trailingShort_iff_le (hs : 0 < w.stride) :
    w.TrailingShort n m ↔ w.roundedUp n m ≤ w.inside n + 1 := by
  rw [TrailingShort, roundedUp, Nat.succ_le_succ_iff, ← Nat.not_lt (a := w.inside n),
    lt_ceilDiv_iff hs]
  omega

/-- Trailing padding that is no longer than the kernel is short. -/
theorem trailingShort_of_padEnd_le (hs : 0 < w.stride) (h : w.padEnd ≤ m) :
    w.TrailingShort n m := by
  have hreach : n + w.padBegin ≤ w.inside n * w.stride := by
    rw [← Nat.not_lt, ← lt_ceilDiv_iff hs]
    exact Nat.lt_irrefl _
  rw [TrailingShort]
  omega

/-- The greatest of the numbers that start inside, up to a bound. -/
theorem isGreatest_startsInside_iff (hs : 0 < w.stride) (hin : 0 < n + w.padBegin) {bound : Nat}
    (hbound : 1 ≤ bound) :
    IsGreatest {x | w.StartsInside n x ∧ x ≤ bound} c ↔ c = min (w.inside n) bound := by
  have hpos := inside_pos hs hin
  have hmin : IsGreatest {x | w.StartsInside n x ∧ x ≤ bound} (min (w.inside n) bound) := by
    constructor
    · rw [Set.mem_ofPred_eq, startsInside_iff_le hs]
      omega
    · rintro x ⟨hx, hxb⟩
      exact le_min ((startsInside_iff_le hs).1 hx).2 hxb
  constructor
  · exact fun h => h.unique hmin
  · rintro rfl
    exact hmin

/-- Rounding up takes one window off the count if there are more than begin in front of the trailing padding. -/
theorem positions_ceil (hs : 0 < w.stride) (h : w.positions .ceil n m = .ok c) :
    w.inside n < w.roundedUp n (w.effectiveKernel m) ∧ c + 1 = w.roundedUp n (w.effectiveKernel m) ∨
      w.roundedUp n (w.effectiveKernel m) ≤ w.inside n ∧ c = w.roundedUp n (w.effectiveKernel m) := by
  obtain ⟨hm, hle⟩ := le_of_positions h
  rw [positions.eq_def, if_neg hm, if_neg (Nat.not_lt.2 hle)] at h
  have hc := Except.ok.inj h
  rw [← roundedUp] at hc
  -- the correction asks whether the last window begins behind the input
  have hbehind : n + w.padBegin ≤ (w.roundedUp n (w.effectiveKernel m) - 1) * w.stride ↔
      w.inside n < w.roundedUp n (w.effectiveKernel m) := by
    rw [← Nat.not_lt, ← lt_ceilDiv_iff hs, ← inside, roundedUp]
    omega
  split at hc
  next hge =>
    have hlt := hbehind.1 hge
    exact Or.inl ⟨hlt, by omega⟩
  next hge => exact Or.inr ⟨Nat.not_lt.1 (mt hbehind.2 hge), hc.symm⟩

/-- **One window off is enough exactly if the trailing padding is short.** -/
theorem corrected_of_positions (hs : 0 < w.stride) (hin : 0 < n + w.padBegin)
    (h : w.positions .ceil n m = .ok c) : w.Corrected n (w.effectiveKernel m) c := by
  have hc := positions_ceil hs h
  have hpos := inside_pos hs hin
  have hbound : 1 ≤ w.roundedUp n (w.effectiveKernel m) := Nat.le_add_left ..
  have hshort := trailingShort_iff_le (n := n) (m := w.effectiveKernel m) hs
  constructor
  · omega
  · rw [isGreatest_startsInside_iff hs hin hbound, hshort]
    omega
  · rw [startsInside_iff_le hs, hshort]
    omega
  · rw [hshort]
    omega

end Window

namespace MaxPool

theorem effectiveKernel_window (p : MaxPool) (axis : Nat) {m : Nat} (hm : m ≠ 0) :
    ((p.window axis).inMode p.autoPad).effectiveKernel m = m := by
  have hdilation : ((p.window axis).inMode p.autoPad).dilation = 1 := by
    cases p.autoPad <;> rfl
  rw [Window.effectiveKernel, hdilation]
  omega

/-- **Pooling that is rounded up.**  With explicit padding or none, the length announced for a spatial axis of
known length is the rounded-up number of windows with one taken off where too many begin behind the input.  With
short trailing padding no window is left that does.  The length and its paddings are taken to have a sum that fits
into 64 bits. -/
theorem roundedUp_lengths {p : MaxPool} {data : Desc} {os : List Desc}
    (hceil : p.rounding = .ceil) (hpad : p.autoPad = .explicit ∨ p.autoPad = .valid)
    (h : p.infer [data] = .ok os) :
    ∃ ds, os = [⟨data.elementType, .ranked (data.shape.dimAt 0 :: data.shape.dimAt 1 :: ds)⟩] ∧
      ds.length = p.kernel.length ∧
      ∀ i < p.kernel.length, ∀ n, data.shape.dimAt (i + 2) = .static n →
        0 < n + ((p.window i).inMode p.autoPad).padBegin →
          ∃ c, ds[i]? = some (.static c) ∧
            ((p.window i).inMode p.autoPad).Corrected n (p.kernel.getD i 0) c := by
  obtain ⟨_, hdata, -, hcheck, ds, hall, rfl⟩ := infer_eq_ok.1 h
  obtain ⟨rfl, -⟩ := List.cons.inj hdata
  simp only [PartialShape.dimsOfRank_getD] at hall
  rw [PartialShape.dimsOfRank_getD, PartialShape.dimsOfRank_getD]
  refine ⟨ds, rfl, ?_, fun i hi n hn hin => ?_⟩
  · rw [← hall.length_eq, List.length_range]
  · obtain ⟨d, hd, hout⟩ := forall₂_getElem? hall (List.getElem?_range hi)
    rw [Window.outputDim_inMode hpad, hceil, hn] at hout
    obtain ⟨c, hc, rfl⟩ := except_map_eq_ok.1 hout
    have hs : 0 < ((p.window i).inMode p.autoPad).stride := by
      rw [Window.stride_inMode]
      exact stride_pos hcheck i
    have hcorrected := Window.corrected_of_positions hs hin hc
    rw [effectiveKernel_window p i (Window.le_of_positions hc).1] at hcorrected
    exact ⟨c, hd, hcorrected⟩

/-- Of the windows of length two on an axis of length seven, the fourth begins on the last element. -/
theorem roundedUp_lengths_seven :
    let p : MaxPool := ⟨[2], [0], [0], [2], .ceil, .explicit⟩
    let data : Desc := ⟨.f32, .ofShape [1, 16, 7]⟩
    p.rounding = .ceil ∧ p.autoPad = .explicit ∧
      p.infer [data] = .ok [⟨.f32, .ofShape [1, 16, 4]⟩] ∧
      IsGreatest {x | (p.window 0).StartsInside 7 x ∧ x ≤ 4} 4 := by
  intro p data
  have h : p.infer [data] = .ok [⟨.f32, .ofShape [1, 16, 4]⟩] := by decide
  obtain ⟨ds, hds, -, hall⟩ := roundedUp_lengths rfl (Or.inl rfl) h
  have hshape := PartialShape.ranked.inj (Desc.mk.inj (List.cons.inj hds).1).2
  obtain rfl : [.static 4] = ds := (List.cons.inj (List.cons.inj hshape).2).2
  obtain ⟨c, hc, hcorrected⟩ := hall 0 (by decide) 7 rfl (by decide)
  obtain rfl : 4 = c := Dim.static.inj (Option.some.inj hc)
  have hshort : (p.window 0).TrailingShort 7 2 :=
    Window.trailingShort_of_padEnd_le (by decide) (by decide)
  have hbound : (p.window 0).roundedUp 7 2 = 4 := by decide
  have hgreatest : IsGreatest
      {x | (p.window 0).StartsInside 7 x ∧ x ≤ (p.window 0).roundedUp 7 2} 4 :=
    hcorrected.greatest_iff.2 hshort
  rw [hbound] at hgreatest
  exact ⟨rfl, rfl, h, hgreatest⟩

/-- On an axis of length one with trailing padding of two, windows of length one begin at zero, one and two.  The
length announced is two, although only the first window begins inside the input. -/
theorem roundedUp_lengths_long :
    let p : MaxPool := ⟨[1], [0], [2], [1], .ceil, .explicit⟩
    p.infer [⟨.f32, .ofShape [1, 1, 1]⟩] = .ok [⟨.f32, .ofShape [1, 1, 2]⟩] ∧
      ¬ (p.window 0).StartsInside 1 2 := by
  intro p
  refine ⟨by decide, ?_⟩
  rintro ⟨-, h⟩
  exact absurd h (by decide)

end MaxPool

end OpGraph
