import OpGraph.ElementType

/-!
# Coercion into an element type

Tensor values of every element type are held as double-precision numbers.  `ElementType.coerce`
brings a number into the range of a type: integers drop the fraction and saturate at the ends of
their range, booleans become zero or one, and the reduced-precision types round through single
precision.
-/

namespace OpGraph

/-- The whole part of a number, rounding toward zero.  The sign is kept, so the whole part of `-0.5`
is `-0`; infinities and NaN stay as they are.

A finite double with biased exponent `e` has its units digit at fraction bit `1075 - e`, so clearing
the fraction bits below it leaves the whole part. -/
def wholePart (x : Float) : Float :=
  let bits := x.toBits
  let e := (bits >>> 52) &&& 0x7ff
  if e < 1023 then Float.ofBits (bits &&& 0x8000000000000000)
  else if e ≥ 1075 then x
  else Float.ofBits ((bits >>> (1075 - e)) <<< (1075 - e))

/-- The number of the interval from `lo` to `hi` that is closest to `x`. -/
def clamp (lo hi x : Float) : Float :=
  if x < lo then lo else if x > hi then hi else x

/-- The integer of a range that stands for `x`: NaN becomes zero, every other number loses its
fraction and saturates. -/
def saturate (lo hi x : Float) : Float :=
  if x.isNaN then 0 else clamp lo hi (wholePart x)

namespace ElementType

/-- Brings a number into the range of the element type.  The largest 64-bit integers are not
doubles; the bounds used for them are the nearest doubles, `2 ^ 63` and `2 ^ 64`. -/
def coerce (t : ElementType) (x : Float) : Float :=
  match t with
  | dynamic | f64 => x
  | f16 | f32 => x.toFloat32.toFloat
  | boolean => if x != 0 then 1 else 0
  | i8 => saturate (-128) 127 x
  | i16 => saturate (-32768) 32767 x
  | i32 => saturate (-2147483648) 2147483647 x
  | i64 => saturate (-9223372036854775808) 9223372036854775808 x
  | u8 => saturate 0 255 x
  | u16 => saturate 0 65535 x
  | u32 => saturate 0 4294967295 x
  | u64 => saturate 0 18446744073709551616 x

/-- The type holds the numbers that coercion into it gives. -/
def Holds (t : ElementType) (x : Float) : Prop := ∃ y, t.coerce y = x

@[simp] theorem holds_coerce (t : ElementType) (x : Float) : t.Holds (t.coerce x) := ⟨x, rfl⟩

@[simp] theorem coerce_f64 (x : Float) : coerce f64 x = x := rfl

@[simp] theorem coerce_dynamic (x : Float) : coerce dynamic x = x := rfl

end ElementType

end OpGraph
