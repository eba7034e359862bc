import OpGraph.Proofs.ElementType.Doubles

/-!
# Saturating integers

The integer types drop the fraction of a number and saturate at the ends of their range
(`ElementType.coerce`).  The types of up to 32 bits hold integers of their range and nothing else
(`ElementType.exists_isInt_of_holds`), and the product of two integers, coerced, is their product, clipped
to the range (`ElementType.isInt_coerce_mul`).

A double loses its fraction by having digits of its word cleared.  That leaves the sign and the exponent
alone, so that the whole part can be read off the word (`wholePart_of_between`).  A product that is too
large to be exact lies beyond the range on the side of its sign (`IsRange.clamp_of_isLarge`).
-/

namespace OpGraph

open Float.Model (Format UnpackedFloat)
open Float.Model.UnpackedFloat

/-! ### Whole parts -/

/-- The exponent of a float, with its bias. -/
def exponentField (x : Float) : Nat := x.toBits.toNat / 2 ^ 52 % 2 ^ 11

/-- What is unpacked is told apart by the exponent. -/
theorem unpack_cases (x : Float) : ∃ s,
    (exponentField x = 0 ∧ (x.toModel.unpack = .zero s ∨
      ∃ m hm, x.toModel.unpack = .finite s m (-1074) hm)) ∨
    (exponentField x = 2047 ∧ (x.toModel.unpack = .infinity s ∨ x.toModel.unpack = .notANumber)) ∨
    (0 < exponentField x ∧ exponentField x < 2047 ∧ x.toModel.unpack =
      .finite s (2 ^ 52 + x.toBits.toNat % 2 ^ 52) (exponentField x - 1075) (by omega) ∧
      s.toBitVec.toNat = x.toBits.toNat / 2 ^ 63) := by
  have hfield := toNat_unpackExponent x.toModel.toBits.toBitVec
  have hlt : exponentField x < 2 ^ 11 := Nat.mod_lt _ (by decide)
  refine ⟨Sign.ofBitVec (@unpackSign .binary64 x.toModel.toBits.toBitVec), ?_⟩
  by_cases h0 : exponentField x = 0
  · refine Or.inl ⟨h0, ?_⟩
    have hzero : @unpackExponent .binary64 x.toModel.toBits.toBitVec = 0#11 :=
      BitVec.eq_of_toNat_eq (hfield.trans h0)
    have hfinite : @unpackExponent .binary64 x.toModel.toBits.toBitVec ≠ -1#11 := by
      rw [hzero]
      decide
    by_cases hm : @unpackMantissa .binary64 x.toModel.toBits.toBitVec = 0#52
    · exact Or.inl ((if_neg hfinite).trans ((if_pos hzero).trans (dif_pos hm)))
    · refine Or.inr ⟨_, Nat.pos_of_ne_zero fun h => hm (BitVec.eq_of_toNat_eq h), ?_⟩
      refine (if_neg hfinite).trans ((if_pos hzero).trans ((dif_neg hm).trans ?_))
      refine finite_congr rfl rfl ?_
      rw [hzero]
      rfl
  by_cases h1 : exponentField x = 2047
  · refine Or.inr (Or.inl ⟨h1, ?_⟩)
    have hones : @unpackExponent .binary64 x.toModel.toBits.toBitVec = -1#11 :=
      BitVec.eq_of_toNat_eq (hfield.trans h1)
    by_cases hm : @unpackMantissa .binary64 x.toModel.toBits.toBitVec = 0#52
    · exact Or.inl ((if_pos hones).trans (if_pos hm))
    · exact Or.inr ((if_pos hones).trans (if_neg hm))
  · refine Or.inr (Or.inr ⟨by omega, by omega, ?_, ?_⟩)
    · exact unpack_normal _ (Nat.pos_of_ne_zero h0) (show exponentField x < 2047 by omega)
    · refine Eq.trans ?_ (toNat_unpackSign x.toModel.toBits.toBitVec)
      rcases BitVec.eq_zero_or_eq_one (@unpackSign .binary64 x.toModel.toBits.toBitVec)
        with h | h <;> rw [h] <;> rfl

theorem toNat_exponentField (x : Float) :
    ((x.toBits >>> 52) &&& 0x7ff).toNat = exponentField x := by
  rw [UInt64.toNat_and, UInt64.toNat_shiftRight]
  show (x.toBits.toNat >>> 52) &&& (2 ^ 11 - 1) = _
  rw [Nat.and_two_pow_sub_one_eq_mod, Nat.shiftRight_eq_div_pow]
  rfl

theorem wholePart_of_lt {x : Float} (h : exponentField x < 1023) :
    ∃ s, IsWhole (wholePart x) s 0 := by
  have hbits : x.toBits &&& 0x8000000000000000 = 0 ∨
      x.toBits &&& 0x8000000000000000 = 0x8000000000000000 := by
    have hand : (x.toBits &&& 0x8000000000000000).toNat = (x.toBits.toNat.testBit 63).toNat * 2 ^ 63 := by
      rw [UInt64.toNat_and]
      exact Nat.and_two_pow x.toBits.toNat 63
    cases htest : x.toBits.toNat.testBit 63
    · left
      exact UInt64.toNat_inj.1 (by rw [hand, htest]; rfl)
    · right
      exact UInt64.toNat_inj.1 (by rw [hand, htest]; rfl)
  have hlt : ((x.toBits >>> 52) &&& 0x7ff) < 1023 := by
    rw [UInt64.lt_iff_toNat_lt, toNat_exponentField]
    exact h
  rw [wholePart, if_pos hlt]
  rcases hbits with hb | hb
  · exact ⟨.positive, by decide, by rw [hb]; rfl⟩
  · exact ⟨.negative, by decide, by rw [hb]; rfl⟩

theorem wholePart_of_ge {x : Float} (h : 1075 ≤ exponentField x) : wholePart x = x := by
  have hge : ((x.toBits >>> 52) &&& 0x7ff) ≥ 1075 := by
    rw [ge_iff_le, UInt64.le_iff_toNat_le, toNat_exponentField]
    exact h
  have hlt : ¬ ((x.toBits >>> 52) &&& 0x7ff) < 1023 := by
    rw [UInt64.lt_iff_toNat_lt, toNat_exponentField]
    exact Nat.not_lt.2 (Nat.le_trans (by decide) h)
  rw [wholePart, if_neg hlt, if_pos hge]

theorem toNat_cleared {u k : UInt64} (hk : k.toNat ≤ 52) :
    ((u >>> k) <<< k).toNat = u.toNat / 2 ^ k.toNat * 2 ^ k.toNat := by
  have hlt : u.toNat < 2 ^ 64 := u.toNat_lt
  rw [UInt64.toNat_shiftLeft, UInt64.toNat_shiftRight, Nat.mod_eq_of_lt (by omega : k.toNat < 64),
    Nat.shiftRight_eq_div_pow, Nat.shiftLeft_eq, Nat.mod_eq_of_lt]
  exact Nat.lt_of_le_of_lt (Nat.div_mul_le_self _ _) hlt

/-- Clearing digits of the fraction leaves the sign and the exponent alone. -/
theorem fields_cleared {k : Nat} (hk : k ≤ 52) (b : Nat) :
    b / 2 ^ k * 2 ^ k / 2 ^ 52 = b / 2 ^ 52 ∧
      2 ^ 52 + b / 2 ^ k * 2 ^ k % 2 ^ 52 = (2 ^ 52 + b % 2 ^ 52) / 2 ^ k * 2 ^ k := by
  have hpow : 2 ^ 52 = 2 ^ k * 2 ^ (52 - k) := by
    rw [← Nat.pow_add, Nat.add_sub_cancel' hk]
  have hpos : 0 < 2 ^ k := Nat.two_pow_pos k
  constructor
  · rw [hpow, ← Nat.div_div_eq_div_mul, Nat.mul_div_cancel _ hpos, Nat.div_div_eq_div_mul]
  · rw [hpow, Nat.mul_add_div hpos, Nat.mod_mul_right_div_self, Nat.add_mul,
      Nat.mul_comm (2 ^ k) (2 ^ (52 - k)), Nat.mul_mod_mul_right]

theorem log2_div_two_pow {m k : Nat} (hlo : 2 ^ 52 ≤ m) (hhi : m < 2 ^ 53) (hk : k ≤ 52) :
    m / 2 ^ k ≠ 0 ∧ (m / 2 ^ k).log2 = 52 - k := by
  have hpos : 0 < 2 ^ k := Nat.two_pow_pos k
  have hle : 2 ^ (52 - k) ≤ m / 2 ^ k := by
    rw [Nat.le_div_iff_mul_le hpos, ← Nat.pow_add, Nat.sub_add_cancel hk]
    exact hlo
  have hne : m / 2 ^ k ≠ 0 := Nat.ne_of_gt (Nat.lt_of_lt_of_le (Nat.two_pow_pos _) hle)
  refine ⟨hne, (Nat.log2_eq_iff hne).2 ⟨hle, ?_⟩⟩
  rw [Nat.div_lt_iff_lt_mul hpos, ← Nat.pow_add, show 52 - k + 1 + k = 53 by omega]
  exact hhi

/-- A word with the fields of a number whose last `k` digits have been cleared. -/
theorem unpack_cleared {b : BitVec 64} {s : Sign} {m k : Nat} (hlo : 2 ^ 52 ≤ m) (hhi : m < 2 ^ 53)
    (hk : k ≤ 52) (hsign : b.toNat / 2 ^ 63 = s.toBitVec.toNat)
    (hexp : b.toNat / 2 ^ 52 % 2 ^ 11 = 1075 - k)
    (hfraction : 2 ^ 52 + b.toNat % 2 ^ 52 = m / 2 ^ k * 2 ^ k) :
    unpack .binary64 b = wholeForm s (m / 2 ^ k) := by
  obtain ⟨hpos, hlog⟩ := log2_div_two_pow hlo hhi hk
  rw [unpack_normal b (by omega) (by omega), wholeForm_eq hpos]
  refine finite_congr (sign_of_toNat hsign) ?_ (by omega)
  rw [hlog, show 52 - (52 - k) = k by omega]
  exact hfraction

theorem toNat_fractionDigits {x : Float} (h : exponentField x ≤ 1075) :
    ((1075 : UInt64) - ((x.toBits >>> 52) &&& 0x7ff)).toNat = 1075 - exponentField x := by
  have hle : (x.toBits >>> 52) &&& 0x7ff ≤ 1075 := by
    rw [UInt64.le_iff_toNat_le, toNat_exponentField]
    exact h
  rw [UInt64.toNat_sub_of_le _ _ hle, toNat_exponentField]
  rfl

/-- A number between one and `2 ^ 52` loses its fraction. -/
theorem wholePart_of_between {x : Float} {s : Sign} (hlo : 1023 ≤ exponentField x)
    (hhi : exponentField x < 1075) (hs : s.toBitVec.toNat = x.toBits.toNat / 2 ^ 63) :
    IsWhole (wholePart x) s
      ((2 ^ 52 + x.toBits.toNat % 2 ^ 52) / 2 ^ (1075 - exponentField x)) := by
  have hlt : ¬ ((x.toBits >>> 52) &&& 0x7ff) < 1023 := by
    rw [UInt64.lt_iff_toNat_lt, toNat_exponentField]
    exact Nat.not_lt.2 hlo
  have hge : ¬ ((x.toBits >>> 52) &&& 0x7ff) ≥ 1075 := by
    rw [ge_iff_le, UInt64.le_iff_toNat_le, toNat_exponentField]
    exact Nat.not_le.2 hhi
  rw [wholePart, if_neg hlt, if_neg hge]
  have hk := toNat_fractionDigits (Nat.le_of_lt hhi)
  generalize (1075 : UInt64) - ((x.toBits >>> 52) &&& 0x7ff) = k at hk ⊢
  rw [← hk]
  have hk52 : k.toNat ≤ 52 := by omega
  obtain ⟨hhigh, hfraction⟩ := fields_cleared hk52 x.toBits.toNat
  have hbits := toNat_cleared (u := x.toBits) hk52
  generalize (x.toBits >>> k) <<< k = u at hbits ⊢
  rw [← hbits] at hhigh hfraction
  have hexp : u.toNat / 2 ^ 52 % 2 ^ 11 = 1075 - k.toNat := by
    rw [hhigh]
    show exponentField x = _
    omega
  have hunpack : unpack .binary64 u.toBitVec =
      wholeForm s ((2 ^ 52 + x.toBits.toNat % 2 ^ 52) / 2 ^ k.toNat) :=
    unpack_cleared (by omega) (by omega) hk52 (show u.toNat / 2 ^ 63 = _ by omega) hexp hfraction
  have hsmall : (2 ^ 52 + x.toBits.toNat % 2 ^ 52) / 2 ^ k.toNat < 2 ^ 53 :=
    Nat.lt_of_le_of_lt (Nat.div_le_self _ _) (by omega)
  refine ⟨hsmall, ?_⟩
  show unpack .binary64 (pack .binary64 (unpack .binary64 u.toBitVec)) = _
  rw [hunpack]
  exact unpack_pack_wholeForm hsmall

/-- **Integers are their own whole parts.** -/
theorem IsInt.wholePart {x : Float} {z : Int} (h : IsInt x z) : IsInt (wholePart x) z := by
  obtain ⟨s, n, ⟨hn, hx⟩, rfl⟩ := h
  obtain ⟨t, hcases⟩ := unpack_cases x
  by_cases h0 : n = 0
  · subst h0
    rw [wholeForm, dif_pos rfl] at hx
    have hexp : exponentField x = 0 := by
      rcases hcases with ⟨h, -⟩ | ⟨-, h⟩ | ⟨-, -, h, -⟩
      · exact h
      · rw [hx] at h
        rcases h with h | h <;> cases h
      · rw [hx] at h
        cases h
    obtain ⟨s', h⟩ := wholePart_of_lt (x := x) (by omega)
    exact ⟨s', 0, h, by cases s <;> cases s' <;> rfl⟩
  · rw [wholeForm_eq h0] at hx
    rw [hx] at hcases
    rcases hcases with ⟨-, h | ⟨m, hm, h⟩⟩ | ⟨-, h | h⟩ | ⟨hlo, hhi, h, hs⟩
    · cases h
    · cases UnpackedFloat.finite.inj h with | _ _ h => omega
    · cases h
    · cases h
    · obtain ⟨rfl, hm, he⟩ := UnpackedFloat.finite.inj h
      obtain ⟨hlog, -, -⟩ := scaled_digits h0 hn
      by_cases htop : n.log2 = 52
      · rw [wholePart_of_ge (by omega)]
        exact ⟨s, n, ⟨hn, hx.trans (wholeForm_eq h0).symm⟩, rfl⟩
      · have hwhole := wholePart_of_between (by omega) (by omega) hs
        rw [← hm, show 1075 - exponentField x = 52 - n.log2 by omega,
          Nat.mul_div_cancel _ (Nat.two_pow_pos _)] at hwhole
        exact ⟨s, n, hwhole, rfl⟩

/-- A whole part is an integer, or it is too large to have a fraction. -/
theorem isInt_or_isLarge_wholePart {x : Float} (hx : x.isNaN = false) :
    (∃ z, IsInt (wholePart x) z) ∨ ∃ s, IsLarge (wholePart x) s := by
  obtain ⟨s, hcases⟩ := unpack_cases x
  by_cases hlo : exponentField x < 1023
  · obtain ⟨t, h⟩ := wholePart_of_lt hlo
    exact Or.inl ⟨_, t, 0, h, rfl⟩
  by_cases hhi : exponentField x < 1075
  · rcases hcases with ⟨h, -⟩ | ⟨h, -⟩ | ⟨-, -, -, hs⟩
    · omega
    · omega
    · exact Or.inl ⟨_, s, _, wholePart_of_between (by omega) hhi hs, rfl⟩
  · rw [wholePart_of_ge (by omega)]
    refine Or.inr ⟨s, ?_⟩
    rcases hcases with ⟨h, -⟩ | ⟨-, h | h⟩ | ⟨-, -, h, -⟩
    · omega
    · exact Or.inl h
    · have hnan : x.isNaN = true := by
        show x.toModel.unpack.isNaN = true
        rw [h]
        rfl
      rw [hx] at hnan
      cases hnan
    · exact Or.inr ⟨_, _, _, h, by omega⟩

theorem IsLarge.wholePart_eq {x : Float} {s : Sign} (h : IsLarge x s) : wholePart x = x := by
  obtain ⟨t, hcases⟩ := unpack_cases x
  refine wholePart_of_ge ?_
  rcases h with h | ⟨m, e, hm, h, he⟩ <;> rw [h] at hcases
  · rcases hcases with ⟨-, h | ⟨m, hm, h⟩⟩ | ⟨hexp, -⟩ | ⟨-, -, h, -⟩
    · cases h
    · cases h
    · omega
    · cases h
  · rcases hcases with ⟨-, h | ⟨m, hm, h⟩⟩ | ⟨-, h | h⟩ | ⟨-, -, h, -⟩
    · cases h
    · obtain ⟨-, -, h⟩ := UnpackedFloat.finite.inj h
      omega
    · cases h
    · cases h
    · obtain ⟨-, -, h⟩ := UnpackedFloat.finite.inj h
      omega

theorem saturate_of_isNaN_eq_false {lo hi x : Float} (hx : x.isNaN = false) :
    saturate lo hi x = clamp lo hi (wholePart x) :=
  if_neg (Bool.eq_false_iff.1 hx)

theorem isInt_zero : IsInt 0 0 := ⟨.positive, 0, ⟨by decide, rfl⟩, rfl⟩

/-- The floats `lo` and `hi` are the ends of the range of integers from `a` to `b`, around zero. -/
structure IsRange (lo hi : Float) (a b : Int) : Prop where
  lo : IsInt lo a
  hi : IsInt hi b
  nonpos : a ≤ 0
  nonneg : 0 ≤ b
  lo_small : -2 ^ 52 < a
  hi_small : b < 2 ^ 52

namespace IsRange

variable {lo hi x y : Float} {a b p q : Int} {s : Sign} (h : IsRange lo hi a b)

include h

theorem clamp_of_isInt (hx : IsInt x p) : IsInt (clamp lo hi x) (max a (min b p)) := by
  have hnonpos := h.nonpos
  have hnonneg := h.nonneg
  rw [clamp]
  by_cases hlow : x < lo
  · have hlt := (hx.lt_iff h.lo).1 hlow
    rw [if_pos hlow, show max a (min b p) = a by omega]
    exact h.lo
  rw [if_neg hlow]
  have hge := mt (hx.lt_iff h.lo).2 hlow
  by_cases hhigh : x > hi
  · have hgt := (h.hi.lt_iff hx).1 hhigh
    rw [if_pos hhigh, show max a (min b p) = b by omega]
    exact h.hi
  · have hle := mt (h.hi.lt_iff hx).2 hhigh
    rw [if_neg hhigh, show max a (min b p) = p by omega]
    exact hx

theorem clamp_of_isLarge (hx : IsLarge x s) :
    (s = .negative → IsInt (clamp lo hi x) a) ∧ (s = .positive → IsInt (clamp lo hi x) b) := by
  obtain ⟨hlo, hhi, hnonpos, hnonneg, hsmall, hsmall'⟩ := h
  obtain ⟨hltlo, -⟩ := hx.lt_iff hlo (by omega)
  obtain ⟨-, hgthi⟩ := hx.lt_iff hhi (by omega)
  rw [clamp]
  constructor
  · intro hs
    rw [if_pos (hltlo.2 hs)]
    exact hlo
  · intro hs
    have hnot : ¬ x < lo := fun hlt => by cases hs.symm.trans (hltlo.1 hlt)
    rw [if_neg hnot, if_pos (hgthi.2 hs)]
    exact hhi

theorem saturate_of_isInt (hx : IsInt x p) : IsInt (saturate lo hi x) (max a (min b p)) := by
  rw [saturate_of_isNaN_eq_false hx.isNaN]
  exact h.clamp_of_isInt hx.wholePart

/-- **A saturated number is an integer of the range.** -/
theorem exists_isInt_saturate (x : Float) : ∃ z, IsInt (saturate lo hi x) z ∧ a ≤ z ∧ z ≤ b := by
  have hnonpos := h.nonpos
  have hnonneg := h.nonneg
  cases hx : x.isNaN with
  | true =>
    rw [saturate, if_pos hx]
    exact ⟨0, isInt_zero, hnonpos, hnonneg⟩
  | false =>
    rw [saturate_of_isNaN_eq_false hx]
    rcases isInt_or_isLarge_wholePart hx with ⟨z, hz⟩ | ⟨s, hs⟩
    · exact ⟨_, h.clamp_of_isInt hz, by omega, by omega⟩
    · obtain ⟨hneg, hpos⟩ := h.clamp_of_isLarge hs
      cases s with
      | negative => exact ⟨a, hneg rfl, Int.le_refl a, by omega⟩
      | positive => exact ⟨b, hpos rfl, by omega, Int.le_refl b⟩

/-- **A saturated product of integers is the product, clipped to the range.** -/
theorem isInt_saturate_mul (hx : IsInt x p) (hy : IsInt y q) :
    IsInt (saturate lo hi (x * y)) (max a (min b (p * q))) := by
  have hlo := h.lo_small
  have hhi := h.hi_small
  have hnonpos := h.nonpos
  have hnonneg := h.nonneg
  rcases hx.mul hy with hxy | ⟨s, hs, hbeyond⟩
  · exact h.saturate_of_isInt hxy
  · obtain ⟨hneg, hpos⟩ := h.clamp_of_isLarge hs
    rw [saturate_of_isNaN_eq_false hs.isNaN, hs.wholePart_eq]
    rcases hbeyond with ⟨hsign, hle⟩ | ⟨hsign, hge⟩
    · rw [show max a (min b (p * q)) = a by omega]
      exact hneg hsign
    · rw [show max a (min b (p * q)) = b by omega]
      exact hpos hsign

end IsRange

/-! ### Element types -/

namespace ElementType

/-- The ends of the range of an integer type of up to 32 bits. -/
def range? : ElementType → Option (Int × Int)
  | i8 => some (-128, 127)
  | i16 => some (-32768, 32767)
  | i32 => some (-2147483648, 2147483647)
  | u8 => some (0, 255)
  | u16 => some (0, 65535)
  | u32 => some (0, 4294967295)
  | _ => none

variable {t : ElementType} {a b p q : Int} {x y : Float}

theorem exists_isRange (h : t.range? = some (a, b)) :
    ∃ lo hi, IsRange lo hi a b ∧ ∀ x, t.coerce x = saturate lo hi x := by
  have ends {lo hi : Float} {m n : Nat} (hm : m < 2 ^ 52) (hn : n < 2 ^ 52) (hlo : IsInt lo (-m))
      (hhi : hi.toModel.unpack = wholeForm .positive n) : IsRange lo hi (-m) n :=
    ⟨hlo, ⟨.positive, n, ⟨by omega, hhi⟩, rfl⟩, by omega, by omega, by omega, by omega⟩
  have negative {x : Float} {n : Nat} (hn : n < 2 ^ 53)
      (hx : x.toModel.unpack = wholeForm .negative n) : IsInt x (-n) := ⟨_, _, ⟨hn, hx⟩, rfl⟩
  cases t <;> cases h
  case i8 =>
    exact ⟨_, _, ends (m := 128) (n := 127) (by decide) (by decide) (negative (by decide) rfl) rfl,
      fun _ => rfl⟩
  case i16 =>
    exact ⟨_, _, ends (m := 32768) (n := 32767) (by decide) (by decide)
      (negative (by decide) rfl) rfl, fun _ => rfl⟩
  case i32 =>
    exact ⟨_, _, ends (m := 2147483648) (n := 2147483647) (by decide) (by decide)
      (negative (by decide) rfl) rfl, fun _ => rfl⟩
  case u8 =>
    exact ⟨_, _, ends (m := 0) (n := 255) (by decide) (by decide) isInt_zero rfl, fun _ => rfl⟩
  case u16 =>
    exact ⟨_, _, ends (m := 0) (n := 65535) (by decide) (by decide) isInt_zero rfl, fun _ => rfl⟩
  case u32 =>
    exact ⟨_, _, ends (m := 0) (n := 4294967295) (by decide) (by decide) isInt_zero rfl,
      fun _ => rfl⟩

/-- **An integer type holds the integers of its range.** -/
theorem exists_isInt_of_holds (h : t.range? = some (a, b)) (hx : t.Holds x) :
    ∃ z, IsInt x z ∧ a ≤ z ∧ z ≤ b := by
  obtain ⟨lo, hi, hrange, hcoerce⟩ := exists_isRange h
  obtain ⟨y, rfl⟩ := hx
  rw [hcoerce]
  exact hrange.exists_isInt_saturate y

theorem isInt_coerce (h : t.range? = some (a, b)) (hx : IsInt x p) :
    IsInt (t.coerce x) (max a (min b p)) := by
  obtain ⟨lo, hi, hrange, hcoerce⟩ := exists_isRange h
  rw [hcoerce]
  exact hrange.saturate_of_isInt hx

/-- **A product in an integer type is the product of the integers, clipped to the range.** -/
theorem isInt_coerce_mul (h : t.range? = some (a, b)) (hx : IsInt x p) (hy : IsInt y q) :
    IsInt (t.coerce (x * y)) (max a (min b (p * q))) := by
  obtain ⟨lo, hi, hrange, hcoerce⟩ := exists_isRange h
  rw [hcoerce]
  exact hrange.isInt_saturate_mul hx hy

end ElementType

end OpGraph
