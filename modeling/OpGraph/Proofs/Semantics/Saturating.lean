import OpGraph.Proofs.ElementType.Saturation
import OpGraph.Proofs.Semantics.Interpretation
import OpGraph.Proofs.Semantics.Shapes
import OpGraph.Proofs.Tensor.Associativity

/-!
# Saturating arithmetic

The interpretation by integers, clipped to the range of their type; the signed types go without their
least number, so that their range is symmetric.  A product with two constants in turn is then one with the
product of the constants: clipping once or on the way is the same (`ElementType.clip_mul_clip`).  The
types without a range hold nothing but zero.

The interpretation is lawful (`Interpretation.lawful_saturating`), and it has the products that rewriting
makes (`Interpretation.combinesProducts_saturating`).
-/

namespace OpGraph

/-! ### Clipping -/

namespace ElementType

/-- The number of the range that is closest to `z`. -/
def clip (t : ElementType) (z : Int) : Int :=
  match t.range? with
  | some (a, b) => max (max a (-b)) (min b z)
  | none => 0

/-- The type has the sign of `z`. -/
def HasSign (t : ElementType) (z : Int) : Prop := ∀ b, t.range? = some (0, b) → 0 ≤ z

/-- How a type clips: all to zero, or to a range that starts at zero or is symmetric. -/
theorem clip_cases (t : ElementType) :
    (t.range? = none ∧ ∀ z, t.clip z = 0) ∨ ∃ l n, 0 < n ∧ (∀ z, t.clip z = max l (min n z)) ∧
      (t.range? = some (0, n) ∧ l = 0 ∨ t.range? = some (-n - 1, n) ∧ l = -n) := by
  have unsigned {n : Int} (hn : 0 < n) (h : t.range? = some (0, n)) :
      ∀ z, t.clip z = max 0 (min n z) := by
    intro z
    rw [clip, h]
    dsimp only
    omega
  have signed {n : Int} (hn : 0 < n) (h : t.range? = some (-n - 1, n)) :
      ∀ z, t.clip z = max (-n) (min n z) := by
    intro z
    rw [clip, h]
    dsimp only
    omega
  cases t
  case i8 => exact Or.inr ⟨_, 127, by decide, signed (by decide) rfl, Or.inr ⟨rfl, rfl⟩⟩
  case i16 => exact Or.inr ⟨_, 32767, by decide, signed (by decide) rfl, Or.inr ⟨rfl, rfl⟩⟩
  case i32 => exact Or.inr ⟨_, 2147483647, by decide, signed (by decide) rfl, Or.inr ⟨rfl, rfl⟩⟩
  case u8 => exact Or.inr ⟨_, 255, by decide, unsigned (by decide) rfl, Or.inl ⟨rfl, rfl⟩⟩
  case u16 => exact Or.inr ⟨_, 65535, by decide, unsigned (by decide) rfl, Or.inl ⟨rfl, rfl⟩⟩
  case u32 => exact Or.inr ⟨_, 4294967295, by decide, unsigned (by decide) rfl, Or.inl ⟨rfl, rfl⟩⟩
  all_goals exact Or.inl ⟨rfl, fun _ => rfl⟩

variable {t : ElementType} {a b p q z : Int}

@[simp] theorem clip_clip (t : ElementType) (z : Int) : t.clip (t.clip z) = t.clip z := by
  rcases t.clip_cases with ⟨-, h⟩ | ⟨l, n, hn, h, -⟩
  · rw [h, h]
  · rw [h, h]
    omega

@[simp] theorem clip_zero (t : ElementType) : t.clip 0 = 0 := by
  rcases t.clip_cases with ⟨-, h⟩ | ⟨l, n, hn, h, hl⟩
  · rw [h]
  · rw [h]
    omega

/-- Nothing changes if a number has been brought into the whole range before. -/
theorem clip_range (h : t.range? = some (a, b)) (z : Int) :
    t.clip (max a (min b z)) = t.clip z := by
  rcases t.clip_cases with ⟨hnone, -⟩ | ⟨l, n, hn, hclip, ⟨hrange, hl⟩ | ⟨hrange, hl⟩⟩
  · cases h.symm.trans hnone
  · cases h.symm.trans hrange
    rw [hclip, hclip]
    omega
  · cases h.symm.trans hrange
    rw [hclip, hclip]
    omega

theorem hasSign_clip (t : ElementType) (z : Int) : t.HasSign (t.clip z) := by
  intro b h
  rw [clip, h]
  dsimp only
  omega

theorem HasSign.mul (hp : t.HasSign p) (hq : t.HasSign q) : t.HasSign (p * q) := fun b h =>
  Int.mul_nonneg (hp b h) (hq b h)

theorem hasSign_of_isSigned (h : t.isSigned) (z : Int) : t.HasSign z := by
  intro b hb
  cases t <;> cases hb <;> cases h

/-- What lies beyond the end of a range stays there when it is multiplied, or beyond the other end, unless
it becomes zero. -/
theorem mul_beyond {n : Int} (hn : 0 < n) (hq : n ≤ q) (p : Int) :
    p = 0 ∨ (n ≤ p * n ∧ n ≤ p * q) ∨ (p * n ≤ -n ∧ p * q ≤ -n) := by
  have hq0 : 0 ≤ q := Int.le_trans (Int.le_of_lt hn) hq
  rcases Int.lt_trichotomy p 0 with h | h | h
  · have hn := Int.mul_le_mul_of_nonneg_right (show p ≤ -1 by omega) (Int.le_of_lt hn)
    have hq := Int.mul_le_mul_of_nonneg_right (show p ≤ -1 by omega) hq0
    exact Or.inr (Or.inr ⟨by omega, by omega⟩)
  · exact Or.inl h
  · have hn := Int.mul_le_mul_of_nonneg_right (show 1 ≤ p by omega) (Int.le_of_lt hn)
    have hq := Int.mul_le_mul_of_nonneg_right (show 1 ≤ p by omega) hq0
    exact Or.inr (Or.inl ⟨by omega, by omega⟩)

/-- **A factor may be clipped before the product is.** -/
theorem clip_mul_clip (p : Int) (hq : t.HasSign q) :
    t.clip (p * t.clip q) = t.clip (p * q) := by
  rcases t.clip_cases with ⟨-, h⟩ | ⟨l, n, hn, h, hcases⟩
  · rw [h, h]
  have hsign : l = -n ∨ l = 0 ∧ 0 ≤ q := by
    rcases hcases with ⟨hrange, hl⟩ | ⟨-, hl⟩
    · exact Or.inr ⟨hl, hq n hrange⟩
    · exact Or.inl hl
  rw [h, h, h]
  rcases Int.lt_or_le n q with hlt | hle
  · rw [show max l (min n q) = n by omega]
    rcases mul_beyond hn (Int.le_of_lt hlt) p with rfl | hbeyond | hbeyond
    · rw [Int.zero_mul, Int.zero_mul]
    · omega
    · omega
  rcases Int.lt_or_le q l with hlt | hge
  · have hl : l = -n := by omega
    have hq : n ≤ -q := by omega
    rw [show max l (min n q) = -n by omega, Int.mul_neg]
    rcases mul_beyond hn hq p with rfl | hbeyond | hbeyond
    · rw [Int.zero_mul, Int.zero_mul, Int.neg_zero]
    · rw [Int.mul_neg] at hbeyond
      omega
    · rw [Int.mul_neg] at hbeyond
      omega
  · rw [show max l (min n q) = q by omega]

/-- A number is the same after it has been clipped in two steps. -/
theorem clip_mul_mul (z : Int) (hp : t.HasSign p) (hq : t.HasSign q) (hz : t.HasSign z) :
    t.clip (t.clip (z * t.clip p) * t.clip q) = t.clip (z * t.clip (p * q)) := by
  calc t.clip (t.clip (z * t.clip p) * t.clip q)
      = t.clip (q * t.clip (z * p)) := by rw [clip_mul_clip z hp, clip_mul_clip _ hq, Int.mul_comm]
    _ = t.clip (z * (p * q)) := by
        rw [clip_mul_clip q (hz.mul hp), Int.mul_comm, Int.mul_assoc]
    _ = t.clip (z * t.clip (p * q)) := (clip_mul_clip z (hp.mul hq)).symm

/-- What a type holds has a sign that the type has. -/
theorem hasSign_integerOf {x : Float} (hx : t.Holds x) : t.HasSign (integerOf x) := by
  intro b h
  obtain ⟨z, hz, hle, -⟩ := exists_isInt_of_holds h hx
  rw [hz.integerOf_eq]
  exact hle

theorem clip_of_range?_eq_none (h : t.range? = none) (z : Int) : t.clip z = 0 := by
  rw [clip, h]

/-- An integer that has been brought into a type is clipped to itself. -/
theorem clip_integerOf_coerce {x : Float} (hx : IsInt x z) :
    t.clip (integerOf (t.coerce x)) = t.clip z := by
  cases h : t.range? with
  | none => rw [clip_of_range?_eq_none h, clip_of_range?_eq_none h]
  | some r => rw [(isInt_coerce h hx).integerOf_eq, clip_range h]

/-- The product of two numbers that a type holds is clipped to their product. -/
theorem clip_integerOf_coerce_mul {x y : Float} (hx : t.Holds x) (hy : t.Holds y) :
    t.clip (integerOf (t.coerce (x * y))) = t.clip (integerOf x * integerOf y) := by
  cases h : t.range? with
  | none => rw [clip_of_range?_eq_none h, clip_of_range?_eq_none h]
  | some r =>
    obtain ⟨p, hp, -⟩ := exists_isInt_of_holds h hx
    obtain ⟨q, hq, -⟩ := exists_isInt_of_holds h hy
    rw [(isInt_coerce_mul h hp hq).integerOf_eq, hp.integerOf_eq, hq.integerOf_eq, clip_range h]

end ElementType

/-- What a binary operation does with integers. -/
def BinaryOp.onIntegers? : BinaryOp → Option (Int → Int → Int)
  | add => some (· + ·)
  | subtract => some (· - ·)
  | multiply => some (· * ·)
  | maximum => some max
  | minimum => some min
  | divide | power => none

/-- What a unary operation does with integers. -/
def UnaryOp.onIntegers? : UnaryOp → Option (Int → Int)
  | negative => some (- ·)
  | relu => some (max · 0)
  | abs => some fun z => z.natAbs
  | exp | sqrt => none

/-! ### Tensors of integers -/

/-- A number of the type for each index of the shape, and zero elsewhere. -/
structure IntTensor extends ExactShape where
  number : Index → Int
  clip_number : ∀ idx, type.clip (number idx) = number idx
  number_outside : ∀ idx, ¬ shape.InBounds idx → number idx = 0

namespace IntTensor

variable {v w u a b c : IntTensor} {s : ExactShape} {f : Int → Int → Int} {idx : Index}
  {rule : Broadcast}

theorem ext_number (hs : v.toExactShape = w.toExactShape)
    (h : ∀ idx, v.shape.InBounds idx → v.number idx = w.number idx) : v = w := by
  obtain ⟨s, number, _, houtside⟩ := v
  obtain ⟨s', number', _, houtside'⟩ := w
  obtain rfl : s = s' := hs
  have hnumber : number = number' := by
    funext idx
    by_cases hidx : s.shape.InBounds idx
    · exact h idx hidx
    · rw [houtside idx hidx, houtside' idx hidx]
  subst hnumber
  rfl

/-- The numbers given by a function, clipped. -/
def ofFn (s : ExactShape) (g : Index → Int) : IntTensor where
  toExactShape := s
  number idx := if s.shape.InBounds idx then s.type.clip (g idx) else 0
  clip_number idx := by
    split
    · exact ElementType.clip_clip _ _
    · exact ElementType.clip_zero _
  number_outside idx h := if_neg h

theorem number_ofFn {g : Index → Int} (h : s.shape.InBounds idx) :
    (ofFn s g).number idx = s.type.clip (g idx) := if_pos h

theorem ofFn_congr {g h : Index → Int}
    (hgh : ∀ idx, s.shape.InBounds idx → s.type.clip (g idx) = s.type.clip (h idx)) :
    ofFn s g = ofFn s h := by
  refine ext_number rfl fun idx (hidx : s.shape.InBounds idx) => ?_
  rw [number_ofFn hidx, number_ofFn hidx, hgh idx hidx]

theorem ofFn_eq {g : Index → Int}
    (h : ∀ idx, v.shape.InBounds idx → v.type.clip (g idx) = v.number idx) :
    ofFn v.toExactShape g = v :=
  ext_number rfl fun idx hidx => (number_ofFn hidx).trans (h idx hidx)

/-- The integer parts of the elements. -/
def ofTensor (t : Tensor) : IntTensor := ofFn (.ofTensor t) fun idx => integerOf (t.get idx)

/-- The number that takes part in the result at `idx`. -/
def repeated (v : IntTensor) (idx : Index) : Int := v.number (v.shape.project idx)

/-- Two operands, combined number by number. -/
def combine (f : Int → Int → Int) (rule : Broadcast) (a b : IntTensor) : Option IntTensor :=
  (ExactShape.combine rule a.toExactShape b.toExactShape).map fun s =>
    ofFn s fun idx => f (a.repeated idx) (b.repeated idx)

theorem combine_of_shape (h : ExactShape.combine rule a.toExactShape b.toExactShape = some s) :
    combine f rule a b = some (ofFn s fun idx => f (a.repeated idx) (b.repeated idx)) := by
  rw [combine, h]
  rfl

theorem combine_eq_some : combine f rule a b = some c ↔
    ExactShape.combine rule a.toExactShape b.toExactShape = some c.toExactShape ∧
      c = ofFn c.toExactShape fun idx => f (a.repeated idx) (b.repeated idx) := by
  rw [combine, Option.map_eq_some_iff]
  constructor
  · rintro ⟨s, hs, rfl⟩
    exact ⟨hs, rfl⟩
  · rintro ⟨hs, hc⟩
    exact ⟨c.toExactShape, hs, hc.symm⟩

theorem hasSign_repeated (v : IntTensor) (idx : Index) : v.type.HasSign (v.repeated idx) := by
  rw [repeated, ← v.clip_number]
  exact ElementType.hasSign_clip _ _

theorem repeated_of_inBounds (h : v.shape.InBounds idx) : v.repeated idx = v.number idx :=
  congrArg v.number (Shape.project_of_inBounds h)

theorem ofTensor_type {t : Tensor} (ht : t.elementType.isStatic) :
    (ofTensor t).type = t.elementType ∧ (ofTensor t).shape = t.shape :=
  Desc.exact_injective (ExactShape.desc_ofTensor ht)

/-- The number of a constant that takes part is the integer part of the element. -/
theorem repeated_ofTensor {t : Tensor} (ht : t.elementType.isStatic) {r : Shape}
    (hr : t.shape.ExpandsTo r) (hidx : r.InBounds idx) :
    (ofTensor t).repeated idx = t.elementType.clip (integerOf (t.repeated idx)) := by
  obtain ⟨htype, hshape⟩ := ofTensor_type ht
  have hin : t.shape.InBounds (t.shape.project idx) :=
    (hr.trailing_project hidx).inBounds hidx hr
  rw [← hshape] at hin
  rw [repeated, ← htype, Tensor.repeated, ← hshape]
  exact number_ofFn hin

/-- The number of a combination that takes part in a further one. -/
theorem repeated_of_combine (h : combine f rule a b = some c) {r : Shape}
    (hr : c.shape.ExpandsTo r) (hidx : r.InBounds idx) :
    c.repeated idx = c.type.clip (f (a.repeated idx) (b.repeated idx)) := by
  obtain ⟨hs, hc⟩ := combine_eq_some.1 h
  obtain ⟨-, -, hstretch⟩ := ExactShape.of_combine hs
  have hin : c.shape.InBounds (c.shape.project idx) :=
    (hr.trailing_project hidx).inBounds hidx hr
  have hnumber := congrArg (fun c : IntTensor => c.number (c.shape.project idx)) hc
  refine hnumber.trans ((number_ofFn hin).trans ?_)
  rw [repeated, repeated, Shape.project_project hstretch.left hr hidx,
    Shape.project_project hstretch.right hr hidx, repeated, repeated]

/-- A constant of one number has this number wherever it takes part. -/
theorem repeated_of_allEqual {t : Tensor} (ht : t.elementType.isStatic) {e : Float} {k : Int}
    (he : IsInt e k) (hall : t.allEqual e) {r : Shape} (hr : t.shape.ExpandsTo r)
    (hidx : r.InBounds idx) : (ofTensor t).repeated idx = t.elementType.clip k := by
  have hin := (hr.trailing_project hidx).inBounds hidx hr
  have hint : IsInt (t.repeated idx) k := he.of_beq (Tensor.beq_get_of_allEqual hall hin)
  rw [repeated_ofTensor ht hr hidx, hint.integerOf_eq]

theorem combine_swap (f : Int → Int → Int) (rule : Broadcast) (a b : IntTensor) :
    combine f rule a b = combine (fun y x => f x y) rule b a := by
  rw [combine, ExactShape.combine_comm]
  rfl

/-- A constant of a neutral number does nothing, unless it broadcasts the value. -/
theorem eq_of_combine_neutral {t : Tensor} (ht : t.elementType.isStatic) {e : Float} {k : Int}
    (he : IsInt e k) (hneutral : ∀ (type : ElementType) z, type.clip (f z (type.clip k)) = type.clip z)
    (hall : t.allEqual e) (hb : PartialShape.broadcast (.ofShape t.shape) (.ofShape v.shape) =
      some (.ofShape v.shape)) (h : combine f rule v (ofTensor t) = some u) : u = v := by
  obtain ⟨htype, hshape⟩ := ofTensor_type ht
  obtain ⟨hs, hu⟩ := combine_eq_some.1 h
  rw [← hshape] at hb
  obtain ⟨-, htype', hstretch⟩ := ExactShape.of_combine hs
  have hsame : u.toExactShape = v.toExactShape := ExactShape.eq_of_combine hb hs
  rw [hsame] at hu hstretch htype'
  refine hu.trans (ofFn_eq fun idx hidx => ?_)
  have hexpands : t.shape.ExpandsTo v.shape := hshape ▸ hstretch.right
  rw [repeated_of_allEqual ht he hall hexpands hidx, ← htype, htype', hneutral,
    repeated_of_inBounds hidx, v.clip_number]

/-- **Two products with constants are one.** -/
theorem multiply_multiply {a b c : Tensor} {type : ElementType} (ha : a.elementType.isStatic)
    (hb : b.elementType.isStatic) (ht : a.elementType.merge b.elementType = some type)
    (hc : a.zipBroadcast b type (· * ·) = some c)
    (hinner : combine (· * ·) rule v (ofTensor a) = some w)
    (houter : combine (· * ·) rule w (ofTensor b) = some u) :
    combine (· * ·) rule v (ofTensor c) = some u := by
  obtain ⟨hw, -⟩ := combine_eq_some.1 hinner
  obtain ⟨hu, hnumber⟩ := combine_eq_some.1 houter
  have hfused := ExactShape.combine_combined ha hb ht hc hw hu
  refine combine_eq_some.2 ⟨hfused, hnumber.trans (ofFn_congr fun idx hidx => ?_)⟩
  have htype : type = a.elementType := (ElementType.isStatic_of_merge ht ha hb).1
  have hstatic := Tensor.isStatic_of_zipBroadcast ha hb ht hc
  obtain ⟨hvw, haw, hstretchw⟩ := ExactShape.of_combine_ofTensor ha hw
  obtain ⟨hwu, hbu, hstretchu⟩ := ExactShape.of_combine_ofTensor hb hu
  obtain ⟨hvu, hcu, hstretchc⟩ := ExactShape.of_combine_ofTensor hstatic hfused
  have hexpandsa : a.shape.ExpandsTo u.shape := hstretchw.right.trans hstretchu.left
  have hx := Tensor.holds_repeated hexpandsa hidx
  have hy := Tensor.holds_repeated hstretchu.right hidx
  have hz := v.hasSign_repeated idx
  rw [haw.trans hwu] at hx
  rw [hbu] at hy
  rw [hvu] at hz
  rw [repeated_of_combine hinner hstretchu.left hidx, repeated_ofTensor ha hexpandsa hidx,
    repeated_ofTensor hb hstretchu.right hidx, repeated_ofTensor hstatic hstretchc.right hidx,
    Tensor.repeated_of_zipBroadcast hc hstretchc.right hidx, htype, haw, hwu, hbu, hcu,
    ElementType.clip_integerOf_coerce_mul hx hy]
  exact ElementType.clip_mul_mul _ (ElementType.hasSign_integerOf hx)
    (ElementType.hasSign_integerOf hy) hz

end IntTensor

/-! ### The interpretation -/

namespace Interpretation

/-- Clipped integers. -/
def saturating : Interpretation where
  Value := IntTensor
  type v := v.type
  shape v := v.shape
  ofTensor := IntTensor.ofTensor
  apply op vs :=
    match op, vs with
    | .binary op rule, [a, b] =>
      op.onIntegers?.bind fun f => (IntTensor.combine f rule a b).map ([·])
    | .unary op, [a] => op.onIntegers?.map fun f => [.ofFn a.toExactShape fun idx => f (a.number idx)]
    | .convert t, [a] => if h : t.isStatic then some [.ofFn ⟨t, a.shape, h⟩ a.number] else none
    | _, _ => none

variable {a b v w u : IntTensor} {outs : List IntTensor} {rule : Broadcast} {op : BinaryOp}
  {f : Int → Int → Int}

theorem apply_binary_eq_some (hf : op.onIntegers? = some f) :
    saturating.apply (.binary op rule) [a, b] = some outs ↔
      ∃ c, IntTensor.combine f rule a b = some c ∧ outs = [c] := by
  show (op.onIntegers?.bind fun f => (IntTensor.combine f rule a b).map ([·])) = some outs ↔ _
  rw [hf, Option.bind_some, Option.map_eq_some_iff]
  exact exists_congr fun c => and_congr_right fun _ => eq_comm

theorem conforms_saturating {op : Op} {ds os : List Desc} {vs : List IntTensor}
    (hds : List.Forall₂ saturating.Describes ds vs) (hinfer : op.infer ds = .ok os)
    (h : saturating.apply op vs = some outs) : List.Forall₂ saturating.Describes os outs := by
  match op, vs, h with
  | .binary op rule, [a, b], h =>
    obtain ⟨f, -, h⟩ := Option.bind_eq_some_iff.1 h
    obtain ⟨c, hc, rfl⟩ := Option.map_eq_some_iff.1 h
    obtain ⟨hc, -⟩ := IntTensor.combine_eq_some.1 hc
    obtain ⟨da, db, type, shape, rfl, htype, -, hshape, rfl⟩ := BinaryOp.infer_eq_ok.1 hinfer
    obtain ⟨ha, hds⟩ := List.forall₂_cons.1 hds
    obtain ⟨hb, -⟩ := List.forall₂_cons.1 hds
    obtain ⟨t, s, ht, -, hs, hc⟩ := BinaryOp.infer_exact_eq_ok.1 (ExactShape.combine_eq_some.1 hc)
    obtain ⟨rfl, rfl⟩ := Desc.exact_injective (List.singleton_injective hc)
    exact .cons ⟨ElementType.admits_merge htype ha.1 hb.1 ht,
      Broadcast.admits_shape? hshape ha.2 hb.2 hs⟩ .nil
  | .unary op, [a], h =>
    obtain ⟨f, -, rfl⟩ := Option.map_eq_some_iff.1 h
    obtain ⟨d, rfl, -, rfl⟩ := UnaryOp.infer_eq_ok.1 hinfer
    exact .cons (List.forall₂_cons.1 hds).1 .nil
  | .convert t, [a], h =>
    obtain ⟨-, ht, rfl⟩ := Op.infer_convert.1 hinfer
    obtain ⟨d, ds, hda, hnil, rfl⟩ := List.forall₂_cons_right_iff.1 hds
    obtain rfl := List.forall₂_nil_right_iff.1 hnil
    obtain rfl := Option.some.inj ((dif_pos ht).symm.trans h)
    exact .cons ⟨ElementType.admits_refl t, hda.2⟩ .nil

/-- A constant of elements `e` does nothing beside a value if its number is neutral. -/
theorem absorbs_saturating {e : Float} {k : Int} (hf : op.onIntegers? = some f) (he : IsInt e k)
    (hright : ∀ (t : ElementType) z, t.clip (f z (t.clip k)) = t.clip z)
    (hleft : ∀ (t : ElementType) z, t.clip (f (t.clip k) z) = t.clip z) :
    saturating.Absorbs op e := by
  intro rule v outs c hc hall hb
  constructor
  · intro h
    obtain ⟨u, hu, rfl⟩ := (apply_binary_eq_some hf).1 h
    exact congrArg ([·]) (IntTensor.eq_of_combine_neutral hc he hright hall hb hu)
  · intro h
    obtain ⟨u, hu, rfl⟩ := (apply_binary_eq_some hf).1 h
    have hu := (IntTensor.combine_swap f rule (.ofTensor c) v).symm.trans hu
    exact congrArg ([·]) (IntTensor.eq_of_combine_neutral hc he hleft hall hb hu)

/-- The negation of a signed number is its product with minus one. -/
theorem combine_minusOne (hsigned : v.type.isSigned) :
    IntTensor.combine (· * ·) .numpy v (.ofTensor (.scalar v.type (-1))) =
      some (.ofFn v.toExactShape fun idx => -v.number idx) := by
  have hbool : v.type ≠ .boolean := by
    intro h
    rw [h] at hsigned
    cases hsigned
  have hs : ExactShape.combine .numpy v.toExactShape (.ofTensor (.scalar v.type (-1))) =
      some v.toExactShape := by
    rw [ExactShape.combine_eq_some, ExactShape.desc_ofTensor v.isStatic]
    exact BinaryOp.infer_exact_eq_ok.2 ⟨_, v.shape, ElementType.merge_self _, hbool,
      PartialShape.broadcast_scalar (.ofShape v.shape), rfl⟩
  refine IntTensor.combine_eq_some.2 ⟨hs, IntTensor.ofFn_congr fun idx hidx => ?_⟩
  have hscalar : (Tensor.scalar v.type (-1)).repeated idx = v.type.coerce (-1) := rfl
  have hminusOne : IsInt (-1) (-1) := ⟨.negative, 1, ⟨by decide, rfl⟩, rfl⟩
  rw [IntTensor.repeated_of_inBounds hidx, IntTensor.repeated_ofTensor v.isStatic
    (Shape.Stretch.scalar_left v.shape).left hidx, hscalar]
  show _ = v.type.clip (v.number idx * v.type.clip (integerOf (v.type.coerce (-1))))
  rw [ElementType.clip_integerOf_coerce hminusOne,
    ElementType.clip_mul_clip _ (ElementType.hasSign_of_isSigned hsigned (-1)), Int.mul_neg_one]

theorem lawful_saturating : saturating.Lawful where
  type_isStatic v := v.isStatic
  desc_ofTensor t ht := ExactShape.desc_ofTensor ht
  conforms op ds os vs outs _ hds hinfer h := conforms_saturating hds hinfer h
  negative v outs hsigned h := by
    obtain rfl := Option.some.inj h
    exact (apply_binary_eq_some rfl).2 ⟨_, combine_minusOne hsigned, rfl⟩
  multiply_multiply rule v w outs outs' a b c type ha hb ht hc hinner houter hfused := by
    obtain ⟨w', hw, hout⟩ := (apply_binary_eq_some rfl).1 hinner
    obtain rfl := List.singleton_injective hout
    obtain ⟨u, hu, rfl⟩ := (apply_binary_eq_some rfl).1 houter
    obtain ⟨u', hu', rfl⟩ := (apply_binary_eq_some rfl).1 hfused
    have hfused := IntTensor.multiply_multiply ha hb ht hc hw hu
    rw [Option.some.inj (hfused.symm.trans hu')]
  convert v outs h := by
    obtain rfl := Option.some.inj ((dif_pos v.isStatic).symm.trans h)
    exact congrArg ([·]) (IntTensor.ofFn_eq fun idx _ => v.clip_number idx)
  multiply_ones := by
    have hone : IsInt 1 1 := ⟨.positive, 1, ⟨by decide, rfl⟩, rfl⟩
    refine absorbs_saturating rfl hone (fun t z => ?_) fun t z => ?_
    · rw [ElementType.clip_mul_clip z fun _ _ => Int.one_nonneg, Int.mul_one]
    · rw [Int.mul_comm, ElementType.clip_mul_clip z fun _ _ => Int.one_nonneg, Int.mul_one]
  add_zeros := by
    refine absorbs_saturating rfl isInt_zero (fun t z => ?_) fun t z => ?_
    · rw [ElementType.clip_zero, Int.add_zero]
    · rw [ElementType.clip_zero, Int.zero_add]

/-- The products are those that inference accepts. -/
theorem combinesProducts_saturating : saturating.CombinesProducts := by
  refine lawful_saturating.combinesProducts_of_infer fun rule a b => ?_
  rw [Option.isSome_iff_exists]
  constructor
  · rintro ⟨outs, h⟩
    obtain ⟨c, hc, -⟩ := (apply_binary_eq_some rfl).1 h
    exact ⟨_, ExactShape.combine_eq_some.1 (IntTensor.combine_eq_some.1 hc).1⟩
  · rintro ⟨os, h⟩
    obtain ⟨s, hs⟩ := ExactShape.exists_combine h
    exact ⟨_, (apply_binary_eq_some rfl).2 ⟨_, IntTensor.combine_of_shape hs, rfl⟩⟩

end Interpretation

end OpGraph
