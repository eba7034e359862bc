import Mathlib.Data.Nat.Bitwise
import OpGraph.ElementType.Coerce

/-!
# Doubles that are integers

A double is a sign, a mantissa of 53 binary digits and an exponent, packed into a word; `unpack` takes it
apart, and arithmetic is done on the parts (`Float.Model`).  `IsInt x z` says that `x` is the integer `z`,
which is below `2 ^ 53` in size.  Integers compare as they should (`IsInt.lt_iff`), and so does their
product, unless it is so large that there is no room for a fraction (`IsInt.mul`): rounding leaves a
mantissa alone that has 53 digits and zeros after them (`roundWithAccuracy_exact`).
-/

namespace OpGraph

open Float.Model (Format UnpackedFloat totalExponent)
open Float.Model.UnpackedFloat

/-! ### Digits -/

theorem log2_eq_of_digits {k : Nat} (hlo : 2 ^ 52 ≤ k) (hhi : k < 2 ^ 53) : k.log2 = 52 :=
  (Nat.log2_eq_iff (by omega)).2 ⟨hlo, hhi⟩

theorem log2_mul_two_pow {n k : Nat} (hn : n ≠ 0) : (n * 2 ^ k).log2 = n.log2 + k := by
  refine (Nat.log2_eq_iff (Nat.mul_ne_zero hn (Nat.ne_of_gt (Nat.two_pow_pos k)))).2 ⟨?_, ?_⟩
  · rw [Nat.pow_add]
    exact Nat.mul_le_mul_right _ (Nat.log2_self_le hn)
  · rw [Nat.add_right_comm, Nat.pow_add]
    exact Nat.mul_lt_mul_of_pos_right Nat.lt_log2_self (Nat.two_pow_pos k)

theorem log2_add_le {m n : Nat} (hm : m ≠ 0) (hn : n ≠ 0) : m.log2 + n.log2 ≤ (m * n).log2 := by
  refine (Nat.le_log2 (Nat.mul_ne_zero hm hn)).2 ?_
  rw [Nat.pow_add]
  exact Nat.mul_le_mul (Nat.log2_self_le hm) (Nat.log2_self_le hn)

/-- The first 53 digits of a number that has as many. -/
theorem first_digits {m : Nat} (hm : 2 ^ 52 ≤ m) :
    52 ≤ m.log2 ∧ 2 ^ 52 ≤ m / 2 ^ (m.log2 - 52) ∧ m / 2 ^ (m.log2 - 52) < 2 ^ 53 := by
  have hne : m ≠ 0 := by omega
  have hlog : 52 ≤ m.log2 := (Nat.le_log2 hne).2 hm
  refine ⟨hlog, ?_, ?_⟩
  · rw [Nat.le_div_iff_mul_le (Nat.two_pow_pos _), ← Nat.pow_add, Nat.add_sub_cancel' hlog]
    exact Nat.log2_self_le hne
  · rw [Nat.div_lt_iff_lt_mul (Nat.two_pow_pos _), ← Nat.pow_add,
      show 53 + (m.log2 - 52) = m.log2 + 1 by omega]
    exact Nat.lt_log2_self

/-- A smaller number is scaled to 53 digits. -/
theorem scaled_digits {n : Nat} (h : n ≠ 0) (hn : n < 2 ^ 53) :
    n.log2 ≤ 52 ∧ 2 ^ 52 ≤ n * 2 ^ (52 - n.log2) ∧ n * 2 ^ (52 - n.log2) < 2 ^ 53 := by
  have hlog : n.log2 ≤ 52 := Nat.le_of_lt_succ ((Nat.log2_lt h).2 hn)
  have hlo := Nat.mul_le_mul_right (2 ^ (52 - n.log2)) (Nat.log2_self_le h)
  have hhi := Nat.mul_lt_mul_of_pos_right (Nat.lt_log2_self (n := n)) (Nat.two_pow_pos (52 - n.log2))
  rw [← Nat.pow_add] at hlo hhi
  rw [show n.log2 + (52 - n.log2) = 52 by omega] at hlo
  rw [show n.log2 + 1 + (52 - n.log2) = 53 by omega] at hhi
  exact ⟨hlog, hlo, hhi⟩

/-! ### Packed doubles -/

theorem toNat_unpackMantissa (b : BitVec 64) :
    (@unpackMantissa .binary64 b).toNat = b.toNat % 2 ^ 52 := by
  simp [unpackMantissa, BitVec.extractLsb_toNat]

theorem toNat_unpackExponent (b : BitVec 64) :
    (@unpackExponent .binary64 b).toNat = b.toNat / 2 ^ 52 % 2 ^ 11 := by
  simp [unpackExponent, BitVec.extractLsb_toNat, Nat.shiftRight_eq_div_pow]

theorem toNat_unpackSign (b : BitVec 64) :
    (@unpackSign .binary64 b).toNat = b.toNat / 2 ^ 63 := by
  have hb : b.toNat < 2 ^ 64 := b.isLt
  delta unpackSign
  simp [BitVec.extractLsb_toNat, Nat.shiftRight_eq_div_pow]
  omega

theorem finite_congr {s t : Sign} {m n : Nat} {d e : Int} {hm : 0 < m} {hn : 0 < n} (hst : s = t)
    (hmn : m = n) (hde : d = e) : UnpackedFloat.finite s m d hm = .finite t n e hn := by
  subst hst hmn hde
  rfl

/-- A word whose exponent is neither the least nor the greatest one. -/
theorem unpack_normal (b : BitVec 64) (h0 : 0 < b.toNat / 2 ^ 52 % 2 ^ 11)
    (h1 : b.toNat / 2 ^ 52 % 2 ^ 11 < 2047) :
    unpack .binary64 b = .finite (Sign.ofBitVec (@unpackSign .binary64 b))
      (2 ^ 52 + b.toNat % 2 ^ 52) ((b.toNat / 2 ^ 52 % 2 ^ 11 : Nat) - 1075) (by omega) := by
  have hne {e : BitVec 11} (he : b.toNat / 2 ^ 52 % 2 ^ 11 ≠ e.toNat) :
      @unpackExponent .binary64 b ≠ e := by
    rintro rfl
    exact he (toNat_unpackExponent b).symm
  have hinf : @unpackExponent .binary64 b ≠ -1#11 := hne (Nat.ne_of_lt h1)
  have hsub : @unpackExponent .binary64 b ≠ 0#11 := hne (Nat.ne_of_gt h0)
  refine (if_neg hinf).trans ((if_neg hsub).trans (finite_congr rfl ?_ ?_))
  · rw [BitVec.toNat_append, ← Nat.shiftLeft_add_eq_or_of_lt (BitVec.isLt _), toNat_unpackMantissa]
    simp [Nat.shiftLeft_eq]
  · rw [toNat_unpackExponent]
    simp [Format.exponentBias]

theorem toNat_packComponents (s : Sign) (e : BitVec 11) (m : BitVec 52) :
    (packComponents .binary64 s e m).toNat =
      s.toBitVec.toNat * 2 ^ 63 + e.toNat * 2 ^ 52 + m.toNat := by
  rw [packComponents, BitVec.toNat_append, ← Nat.shiftLeft_add_eq_or_of_lt m.isLt,
    BitVec.toNat_append, ← Nat.shiftLeft_add_eq_or_of_lt e.isLt]
  simp only [Nat.shiftLeft_eq]
  omega

/-- The sign is the first bit. -/
theorem sign_of_toNat {s : Sign} {b : BitVec 64} (h : b.toNat / 2 ^ 63 = s.toBitVec.toNat) :
    Sign.ofBitVec (@unpackSign .binary64 b) = s := by
  have hb : @unpackSign .binary64 b = s.toBitVec :=
    BitVec.eq_of_toNat_eq ((toNat_unpackSign b).trans h)
  rw [hb]
  cases s <;> rfl

/-- A number whose digits and exponent fit survives being packed. -/
theorem unpack_pack {s : Sign} {m : Nat} {e : Int} {hm : 0 < m} (hlo : 2 ^ 52 ≤ m)
    (hhi : m < 2 ^ 53) (he : -1074 ≤ e) (he' : e ≤ 971) :
    unpack .binary64 (pack .binary64 (.finite s m e hm)) = .finite s m e hm := by
  have hlog := log2_eq_of_digits hlo hhi
  have hexp : (e + (Format.binary64.exponentBias : Nat) + (52 : Nat)).toNat = (e + 1075).toNat := by
    show (e + (1023 : Nat) + (52 : Nat)).toNat = _
    omega
  have hpack : pack .binary64 (.finite s m e hm) =
      packComponents .binary64 s (BitVec.ofNat 11 (e + 1075).toNat) (BitVec.ofNat 52 m) := by
    delta pack
    simp only [hlog, hexp]
    rw [if_neg (by omega)]
    exact if_pos rfl
  have hsign : s.toBitVec.toNat < 2 := s.toBitVec.isLt
  have hbits : (pack .binary64 (.finite s m e hm)).toNat =
      s.toBitVec.toNat * 2 ^ 63 + (e + 1075).toNat * 2 ^ 52 + (m - 2 ^ 52) := by
    rw [hpack, toNat_packComponents, BitVec.toNat_ofNat, BitVec.toNat_ofNat]
    omega
  have hfield : (pack .binary64 (.finite s m e hm)).toNat / 2 ^ 52 % 2 ^ 11 = (e + 1075).toNat := by
    omega
  rw [unpack_normal _ (by omega) (by omega)]
  exact finite_congr (sign_of_toNat (by omega)) (by omega) (by omega)

/-! ### Rounding -/

theorem shiftRight_exact (k n : Nat) :
    (⟨k * 2 ^ n, false, false⟩ : ExtendedMantissa) >>> n = ⟨k, false, false⟩ := by
  show n.repeat ExtendedMantissa.shiftRightOne _ = _
  induction n generalizing k with
  | zero => simp [Nat.repeat]
  | succ n ih =>
    rw [Nat.repeat, Nat.pow_succ, Nat.mul_comm _ 2, ← Nat.mul_assoc, ih]
    simp [ExtendedMantissa.shiftRightOne]

theorem mantissa_shiftRight (em : ExtendedMantissa) (n : Nat) :
    (em >>> n).mantissa = em.mantissa / 2 ^ n := by
  show (n.repeat ExtendedMantissa.shiftRightOne em).mantissa = _
  induction n with
  | zero => simp [Nat.repeat]
  | succ n ih =>
    rw [Nat.repeat, Nat.pow_succ, ← Nat.div_div_eq_div_mul, ← ih]
    rfl

theorem roundedMantissa_bounds (em : ExtendedMantissa) :
    em.mantissa ≤ em.roundedMantissa ∧ em.roundedMantissa ≤ em.mantissa + 1 := by
  obtain ⟨m, r, s⟩ := em
  rw [ExtendedMantissa.roundedMantissa]
  cases r <;> cases s <;> simp [ExtendedMantissa.accuracy, Accuracy.roundToNearestEven]
  -- half way between two numbers, the even one is taken
  omega

/-- How a mantissa with 53 digits or more is shifted. -/
theorem shiftToTargetExponent_eq {m : Nat} {e : Int} (hm : 2 ^ 52 ≤ m)
    (he : -1074 ≤ m.log2 + e - 52) (a : Accuracy) :
    shiftToTargetExponent .binary64 m e a =
      (ExtendedMantissa.ofMantissaAndAccuracy m a >>> (m.log2 - 52), e + (m.log2 - 52 : Nat)) := by
  have hlog : 52 ≤ m.log2 := (Nat.le_log2 (by omega)).2 hm
  have htarget : Format.binary64.targetExponent (totalExponent m e) - e = (m.log2 - 52 : Nat) := by
    show max ((m.log2 : Int) + 1 + e - (53 : Nat)) (3 - 2 ^ (11 - 1) - (53 : Nat)) - e = _
    omega
  rw [shiftToTargetExponent, shiftToExponent]
  simp only [htarget, Int.toNat_natCast]

/-- The two shifts of rounding. -/
theorem roundWithAccuracy_eq {s : Sign} {m : Nat} {e e₁ e₂ : Int} {em₁ em₂ : ExtendedMantissa}
    (h₁ : shiftToTargetExponent .binary64 m e .exact = (em₁, e₁))
    (h₂ : shiftToTargetExponent .binary64 em₁.roundedMantissa e₁ .exact = (em₂, e₂))
    (hpos : 0 < em₂.mantissa) :
    roundWithAccuracy .binary64 s m e .exact = .finite s em₂.mantissa e₂ hpos := by
  rw [roundWithAccuracy, h₁]
  dsimp only
  rw [h₂]
  exact dif_neg (Nat.ne_of_gt hpos)

/-- A mantissa is left alone that has 53 digits and zeros after them. -/
theorem roundWithAccuracy_exact {s : Sign} {k n : Nat} {e : Int} (hlo : 2 ^ 52 ≤ k)
    (hhi : k < 2 ^ 53) (he : -1074 ≤ e + n) :
    roundWithAccuracy .binary64 s (k * 2 ^ n) e .exact = .finite s k (e + n) (by omega) := by
  have hlog := log2_eq_of_digits hlo hhi
  have hlog' : (k * 2 ^ n).log2 = 52 + n := by rw [log2_mul_two_pow (by omega), hlog]
  have hge : 2 ^ 52 ≤ k * 2 ^ n := Nat.le_trans hlo (Nat.le_mul_of_pos_right k (Nat.two_pow_pos n))
  have hfirst : shiftToTargetExponent .binary64 (k * 2 ^ n) e .exact =
      (⟨k, false, false⟩, e + n) := by
    rw [shiftToTargetExponent_eq hge (by omega), hlog', Nat.add_sub_cancel_left,
      ExtendedMantissa.ofMantissaAndAccuracy, shiftRight_exact]
  have hsecond : shiftToTargetExponent .binary64 k (e + n) .exact =
      (⟨k, false, false⟩, e + n) := by
    rw [shiftToTargetExponent_eq hlo (by omega), hlog, Nat.sub_self, Int.natCast_zero, Int.add_zero]
    rfl
  exact roundWithAccuracy_eq hfirst hsecond (show 0 < k by omega)

/-- Rounding leaves 53 digits, and the exponent is that of the first of them or the next one. -/
theorem exists_roundWithAccuracy {s : Sign} {m : Nat} {e : Int} (hm : 2 ^ 52 ≤ m)
    (he : -1074 ≤ m.log2 + e - 52) : ∃ k e' hk,
      roundWithAccuracy .binary64 s m e .exact = .finite s k e' hk ∧ 2 ^ 52 ≤ k ∧ k < 2 ^ 53 ∧
        m.log2 + e - 52 ≤ e' ∧ e' ≤ m.log2 + e - 51 := by
  obtain ⟨hlog, hdigits, hdigits'⟩ := first_digits hm
  have hfirst := shiftToTargetExponent_eq hm he .exact
  obtain ⟨r, hr⟩ : ∃ r, (ExtendedMantissa.ofMantissaAndAccuracy m .exact >>>
    (m.log2 - 52)).roundedMantissa = r := ⟨_, rfl⟩
  have hmantissa {n k : Nat} :
      (ExtendedMantissa.ofMantissaAndAccuracy n .exact >>> k).mantissa = n / 2 ^ k :=
    mantissa_shiftRight _ _
  have hbounds := roundedMantissa_bounds
    (ExtendedMantissa.ofMantissaAndAccuracy m .exact >>> (m.log2 - 52))
  rw [hr, hmantissa] at hbounds
  -- rounding up may give a digit more, for which the second shift makes room
  have hround : 2 ^ 52 ≤ r := by omega
  have hcarry : r.log2 < 54 := (Nat.log2_lt (by omega)).2 (by omega)
  obtain ⟨hlog', hk, hk'⟩ := first_digits hround
  have hsecond := shiftToTargetExponent_eq hround (by omega : -1074 ≤ r.log2 + (e +
    (m.log2 - 52 : Nat)) - 52) .exact
  have hlow : m.log2 + e - 52 ≤ e + (m.log2 - 52 : Nat) + (r.log2 - 52 : Nat) := by omega
  have hhigh : e + (m.log2 - 52 : Nat) + (r.log2 - 52 : Nat) ≤ m.log2 + e - 51 := by omega
  have hpos := Nat.lt_of_lt_of_le (Nat.two_pow_pos 52) hk
  rw [← hmantissa] at hk hk' hpos
  subst hr
  exact ⟨_, _, hpos, roundWithAccuracy_eq hfirst hsecond hpos, hk, hk', hlow, hhigh⟩

/-! ### Whole numbers -/

/-- A whole number with a sign, scaled to 53 digits. -/
def wholeForm (s : Sign) (n : Nat) : UnpackedFloat :=
  if h : n = 0 then .zero s
  else .finite s (n * 2 ^ (52 - n.log2)) (n.log2 - 52)
    (Nat.mul_pos (Nat.pos_of_ne_zero h) (Nat.two_pow_pos _))

/-- `x` is the number `n` with the sign `s`. -/
def IsWhole (x : Float) (s : Sign) (n : Nat) : Prop :=
  n < 2 ^ 53 ∧ x.toModel.unpack = wholeForm s n

/-- `x` is too large to have a fraction. -/
def IsLarge (x : Float) (s : Sign) : Prop :=
  x.toModel.unpack = .infinity s ∨ ∃ m e hm, x.toModel.unpack = .finite s m e hm ∧ 0 ≤ e

theorem wholeForm_eq {s : Sign} {n : Nat} (h : n ≠ 0) : wholeForm s n =
    .finite s (n * 2 ^ (52 - n.log2)) (n.log2 - 52)
      (Nat.mul_pos (Nat.pos_of_ne_zero h) (Nat.two_pow_pos _)) := dif_neg h

theorem unpack_pack_wholeForm {s : Sign} {n : Nat} (hn : n < 2 ^ 53) :
    unpack .binary64 (pack .binary64 (wholeForm s n)) = wholeForm s n := by
  by_cases h : n = 0
  · subst h
    cases s <;> rfl
  · obtain ⟨hlog, hlo, hhi⟩ := scaled_digits h hn
    rw [wholeForm_eq h]
    exact unpack_pack hlo hhi (by omega) (by omega)

theorem unpack_mul (x y : Float) : (x * y).toModel.unpack =
    unpack .binary64 (pack .binary64 (mul .binary64 x.toModel.unpack y.toModel.unpack)) := rfl

theorem mul_finite {s t : Sign} {m n : Nat} {d e : Int} {hm : 0 < m} {hn : 0 < n} :
    mul .binary64 (.finite s m d hm) (.finite t n e hn) =
      roundWithAccuracy .binary64 (s * t) (m * n) (d + e) .exact := rfl

theorem isWhole_mul {x y : Float} {s t : Sign} {m n : Nat} (hx : IsWhole x s m)
    (hy : IsWhole y t n) (hmn : m * n < 2 ^ 53) : IsWhole (x * y) (s * t) (m * n) := by
  obtain ⟨hm, hx⟩ := hx
  obtain ⟨hn, hy⟩ := hy
  refine ⟨hmn, ?_⟩
  rw [unpack_mul, hx, hy]
  suffices hmul : mul .binary64 (wholeForm s m) (wholeForm t n) = wholeForm (s * t) (m * n) by
    rw [hmul, unpack_pack_wholeForm hmn]
  by_cases hm0 : m = 0
  · subst hm0
    rw [Nat.zero_mul]
    by_cases hn0 : n = 0
    · subst hn0
      rfl
    · rw [wholeForm_eq hn0]
      rfl
  by_cases hn0 : n = 0
  · subst hn0
    rw [wholeForm_eq hm0]
    rfl
  have hne := Nat.mul_ne_zero hm0 hn0
  obtain ⟨hlm, -, -⟩ := scaled_digits hm0 hm
  obtain ⟨hln, -, -⟩ := scaled_digits hn0 hn
  obtain ⟨hl, hlo, hhi⟩ := scaled_digits hne hmn
  have hle := log2_add_le hm0 hn0
  have hscale : m * 2 ^ (52 - m.log2) * (n * 2 ^ (52 - n.log2)) =
      m * n * 2 ^ (52 - (m * n).log2) * 2 ^ (52 + (m * n).log2 - m.log2 - n.log2) := by
    rw [Nat.mul_mul_mul_comm, Nat.mul_assoc (m * n), ← Nat.pow_add, ← Nat.pow_add]
    congr 2
    omega
  rw [wholeForm_eq hm0, wholeForm_eq hn0, wholeForm_eq hne, mul_finite, hscale,
    roundWithAccuracy_exact hlo hhi (by omega)]
  exact finite_congr rfl rfl (by omega)

theorem isLarge_mul {x y : Float} {s t : Sign} {m n : Nat} (hx : IsWhole x s m)
    (hy : IsWhole y t n) (hmn : 2 ^ 53 ≤ m * n) : IsLarge (x * y) (s * t) := by
  obtain ⟨hm, hx⟩ := hx
  obtain ⟨hn, hy⟩ := hy
  have hm0 : m ≠ 0 := by
    rintro rfl
    omega
  have hn0 : n ≠ 0 := by
    rintro rfl
    omega
  have hne := Nat.mul_ne_zero hm0 hn0
  obtain ⟨hlm, hlo, -⟩ := scaled_digits hm0 hm
  obtain ⟨hln, hlo', -⟩ := scaled_digits hn0 hn
  have hlog : 53 ≤ (m * n).log2 := (Nat.le_log2 hne).2 hmn
  have hlog' : (m * n).log2 < 106 := by
    refine (Nat.log2_lt hne).2 ?_
    have h := Nat.mul_lt_mul'' hm hn
    rwa [← Nat.pow_add] at h
  have hdigits : 2 ^ 52 ≤ m * 2 ^ (52 - m.log2) * (n * 2 ^ (52 - n.log2)) :=
    Nat.le_trans hlo (Nat.le_mul_of_pos_right _ (by omega))
  have hscaled : (m * 2 ^ (52 - m.log2) * (n * 2 ^ (52 - n.log2))).log2 =
      (m * n).log2 + (52 - m.log2 + (52 - n.log2)) := by
    rw [Nat.mul_mul_mul_comm, ← Nat.pow_add, log2_mul_two_pow hne]
  obtain ⟨k, e, hk, hround, hklo, hkhi, helo, hehi⟩ := exists_roundWithAccuracy (s := s * t)
    (e := (m.log2 - 52 : Int) + (n.log2 - 52)) hdigits (by omega)
  refine Or.inr ⟨k, e, hk, ?_, by omega⟩
  rw [unpack_mul, hx, hy, wholeForm_eq hm0, wholeForm_eq hn0, mul_finite, hround]
  exact unpack_pack hklo hkhi (by omega) (by omega)

theorem lt_iff_compare {x y : Float} :
    x < y ↔ x.toModel.unpack.compare y.toModel.unpack = some .lt := by
  show decide (UnpackedFloat.lt _ _ = true) = true ↔ _
  rw [UnpackedFloat.lt]
  simp

theorem compare_scaled {m n : Nat} (hm : m ≠ 0) (hn : n ≠ 0) :
    (compare (m.log2 - 52 : Int) (n.log2 - 52)).then
      (compare (m * 2 ^ (52 - m.log2)) (n * 2 ^ (52 - n.log2))) = compare m n := by
  have hlog {k l : Nat} (hk : k ≠ 0) (hlt : k.log2 < l.log2) : k < l := by
    have h := (Nat.log2_lt hk).1 hlt
    have hl : l ≠ 0 := by
      rintro rfl
      simp at hlt
    exact Nat.lt_of_lt_of_le h (Nat.log2_self_le hl)
  rcases Nat.lt_trichotomy m.log2 n.log2 with h | h | h
  · rw [Int.compare_eq_lt.2 (by omega), Nat.compare_eq_lt.2 (hlog hm h)]
    rfl
  · rw [h, Int.compare_eq_eq.2 rfl]
    show compare _ _ = _
    simp only [Nat.compare_eq_ite_lt, Nat.mul_lt_mul_right (Nat.two_pow_pos _)]
  · rw [Int.compare_eq_gt.2 (by omega), Nat.compare_eq_gt.2 (hlog hn h)]
    rfl

/-- Numbers other than zero compare by their signs, then by their exponents and mantissas. -/
theorem compare_finite {s t : Sign} {m n : Nat} {d e : Int} {hm : 0 < m} {hn : 0 < n} :
    (UnpackedFloat.finite s m d hm).compare (.finite t n e hn) =
      some (match s, t with
        | .negative, .negative => ((compare d e).then (compare m n)).swap
        | .negative, .positive => .lt
        | .positive, .negative => .gt
        | .positive, .positive => (compare d e).then (compare m n)) := by
  cases s <;> cases t <;> rfl

theorem finite_eq_of_compare {s t : Sign} {m n : Nat} {d e : Int} {hm : 0 < m} {hn : 0 < n}
    (h : (UnpackedFloat.finite s m d hm).compare (.finite t n e hn) = some .eq) :
    UnpackedFloat.finite s m d hm = .finite t n e hn := by
  have same {s : Sign} (h : (compare d e).then (compare m n) = .eq) :
      UnpackedFloat.finite s m d hm = .finite s n e hn := by
    obtain ⟨hde, hmn⟩ := Ordering.then_eq_eq.1 h
    exact finite_congr rfl (Nat.compare_eq_eq.1 hmn) (Int.compare_eq_eq.1 hde)
  rw [compare_finite, Option.some.injEq] at h
  cases s <;> cases t
  · exact same (Ordering.swap_eq_eq.1 h)
  · cases h
  · cases h
  · exact same h

/-- Whole numbers compare as integers do. -/
theorem compare_wholeForm_eq_lt (s t : Sign) (m n : Nat) :
    (wholeForm s m).compare (wholeForm t n) = some .lt ↔ s.apply m < t.apply n := by
  by_cases hm : m = 0 <;> by_cases hn : n = 0
  · subst hm hn
    cases s <;> cases t <;> decide
  · subst hm
    rw [wholeForm_eq hn]
    cases t
    · exact iff_of_false (by rintro ⟨⟩) (by cases s <;> simp only [Sign.apply] <;> omega)
    · exact iff_of_true rfl (by cases s <;> simp only [Sign.apply] <;> omega)
  · subst hn
    rw [wholeForm_eq hm]
    cases s
    · exact iff_of_true rfl (by cases t <;> simp only [Sign.apply] <;> omega)
    · exact iff_of_false (by rintro ⟨⟩) (by cases t <;> simp only [Sign.apply] <;> omega)
  · rw [wholeForm_eq hm, wholeForm_eq hn, compare_finite, compare_scaled hm hn]
    cases s <;> cases t <;> simp [Sign.apply, Nat.compare_eq_gt, Nat.compare_eq_lt]
    omega

/-- How a number of the sign that lies beyond all others compares to them. -/
def beyond : Sign → Ordering
  | .negative => .lt
  | .positive => .gt

theorem IsLarge.compare_wholeForm {x : Float} {s t : Sign} {n : Nat} (hx : IsLarge x s)
    (hn : n < 2 ^ 52) : x.toModel.unpack.compare (wholeForm t n) = some (beyond s) ∧
      (wholeForm t n).compare x.toModel.unpack = some (beyond s).swap := by
  rcases hx with hx | ⟨m, e, hm, hx, he⟩
  · rw [hx]
    by_cases h : n = 0
    · subst h
      cases s <;> exact ⟨rfl, rfl⟩
    · rw [wholeForm_eq h]
      cases s <;> cases t <;> exact ⟨rfl, rfl⟩
  · rw [hx]
    by_cases h : n = 0
    · subst h
      cases s <;> exact ⟨rfl, rfl⟩
    · have hlog : n.log2 < 52 := (Nat.log2_lt h).2 hn
      have hgt : compare e (n.log2 - 52) = .gt := Int.compare_eq_gt.2 (by omega)
      have hlt : compare (n.log2 - 52 : Int) e = .lt := Int.compare_eq_lt.2 (by omega)
      rw [wholeForm_eq h, compare_finite, compare_finite, hgt, hlt]
      cases s <;> cases t <;> exact ⟨rfl, rfl⟩

/-! ### Integers -/

/-- `x` is the integer `z`. -/
def IsInt (x : Float) (z : Int) : Prop := ∃ s n, IsWhole x s n ∧ s.apply n = z

theorem IsInt.lt_iff {x y : Float} {a b : Int} (hx : IsInt x a) (hy : IsInt y b) :
    x < y ↔ a < b := by
  obtain ⟨s, m, hx, rfl⟩ := hx
  obtain ⟨t, n, hy, rfl⟩ := hy
  rw [lt_iff_compare, hx.2, hy.2, compare_wholeForm_eq_lt]

/-- What is too large lies beyond all bounds below `2 ^ 52`. -/
theorem IsLarge.lt_iff {x y : Float} {s : Sign} {b : Int} (hx : IsLarge x s) (hy : IsInt y b)
    (hb : b.natAbs < 2 ^ 52) : (x < y ↔ s = .negative) ∧ (y < x ↔ s = .positive) := by
  obtain ⟨t, n, ⟨-, hy⟩, rfl⟩ := hy
  have hn : n < 2 ^ 52 := by cases t <;> simp only [Sign.apply] at hb <;> omega
  obtain ⟨h, h'⟩ := hx.compare_wholeForm (t := t) hn
  rw [lt_iff_compare, lt_iff_compare, hy, h, h']
  cases s <;> simp [beyond]

theorem apply_sign_mul (s t : Sign) (m n : Nat) :
    (s * t).apply (m * n : Nat) = s.apply m * t.apply n := by
  cases s <;> cases t
  · exact (Int.neg_mul_neg (m : Int) n).symm
  · exact (Int.neg_mul (m : Int) n).symm
  · exact (Int.mul_neg (m : Int) n).symm
  · rfl

/-- **The product of integers is their product, or it is too large.** -/
theorem IsInt.mul {x y : Float} {a b : Int} (hx : IsInt x a) (hy : IsInt y b) :
    IsInt (x * y) (a * b) ∨ ∃ s, IsLarge (x * y) s ∧
      ((s = .negative ∧ a * b ≤ - 2 ^ 53) ∨ (s = .positive ∧ 2 ^ 53 ≤ a * b)) := by
  obtain ⟨s, m, hx, rfl⟩ := hx
  obtain ⟨t, n, hy, rfl⟩ := hy
  by_cases hmn : m * n < 2 ^ 53
  · exact Or.inl ⟨s * t, m * n, isWhole_mul hx hy hmn, apply_sign_mul s t m n⟩
  · refine Or.inr ⟨s * t, isLarge_mul hx hy (Nat.le_of_not_lt hmn), ?_⟩
    rw [← apply_sign_mul]
    cases h : s * t
    · exact Or.inl ⟨rfl, by simp only [Sign.apply]; omega⟩
    · exact Or.inr ⟨rfl, by simp only [Sign.apply]; omega⟩

theorem beq_iff_compare {x y : Float} :
    x == y ↔ x.toModel.unpack.compare y.toModel.unpack = some .eq := by
  show (x.toModel.unpack.compare y.toModel.unpack == some .eq) = true ↔ _
  rw [beq_iff_eq]

/-- What compares equal to an integer is the integer. -/
theorem IsInt.of_beq {x y : Float} {z : Int} (hy : IsInt y z) (h : x == y) : IsInt x z := by
  obtain ⟨t, n, ⟨hn, hy⟩, rfl⟩ := hy
  rw [beq_iff_compare, hy] at h
  by_cases h0 : n = 0
  · subst h0
    rw [wholeForm, dif_pos rfl] at h
    have hzero : ∃ s, x.toModel.unpack = .zero s := by
      cases hx : x.toModel.unpack with
      | zero s => exact ⟨s, rfl⟩
      | notANumber => rw [hx] at h; cases h
      | infinity s => rw [hx] at h; cases s <;> cases h
      | finite s m e hm => rw [hx] at h; cases s <;> cases h
    obtain ⟨s, hs⟩ := hzero
    exact ⟨s, 0, ⟨hn, hs⟩, by cases s <;> cases t <;> rfl⟩
  · refine ⟨t, n, ⟨hn, ?_⟩, rfl⟩
    rw [wholeForm_eq h0] at h ⊢
    cases hx : x.toModel.unpack with
    | notANumber => rw [hx] at h; cases h
    | infinity s => rw [hx] at h; cases s <;> cases h
    | zero s => rw [hx] at h; cases t <;> cases h
    | finite s m e hm => exact finite_eq_of_compare (hx ▸ h)

theorem IsInt.isNaN {x : Float} {z : Int} (h : IsInt x z) : x.isNaN = false := by
  obtain ⟨s, n, ⟨-, h⟩, -⟩ := h
  show x.toModel.unpack.isNaN = false
  rw [h]
  by_cases h0 : n = 0
  · rw [wholeForm, dif_pos h0]
    rfl
  · rw [wholeForm_eq h0]
    rfl

theorem IsLarge.isNaN {x : Float} {s : Sign} (h : IsLarge x s) : x.isNaN = false := by
  show x.toModel.unpack.isNaN = false
  rcases h with h | ⟨m, e, hm, h, -⟩ <;> rw [h] <;> rfl

/-- The integer part of a number. -/
def integerOf (x : Float) : Int := x.toModel.unpack.toInt 0 0

theorem IsInt.integerOf_eq {x : Float} {z : Int} (h : IsInt x z) : integerOf x = z := by
  obtain ⟨s, n, ⟨hn, hx⟩, rfl⟩ := h
  rw [integerOf, hx]
  by_cases h0 : n = 0
  · subst h0
    cases s <;> rfl
  · obtain ⟨hlog, -, -⟩ := scaled_digits h0 hn
    have hup : ((n.log2 - 52 : Int) - 0).toNat = 0 := by omega
    have hdown : (0 - ((n.log2 - 52 : Int) - (0 : Nat))).toNat = 52 - n.log2 := by omega
    rw [wholeForm_eq h0]
    show roundToInt s (n * 2 ^ (52 - n.log2)) (n.log2 - 52) = _
    rw [roundToInt, decreaseExponent]
    simp only [hup, shiftToExponent, hdown, Nat.shiftLeft_zero, mantissa_shiftRight]
    show s.apply ((n * 2 ^ (52 - n.log2) / 2 ^ (52 - n.log2) : Nat) : Int) = _
    rw [Nat.mul_div_cancel _ (Nat.two_pow_pos _)]

end OpGraph
