import Mathlib.Algebra.GroupWithZero.Nat
import OpGraph.Proofs.Op.ConcatConformance
import OpGraph.Proofs.Tensor.Combination

/-!
# Slices of joined tensors

`Tensor.slice` cuts a piece out of a tensor along one axis.  Tensors that have been laid end to end are got
back as slices: the one at position `k` begins where the lengths of those in front of it end, and its
elements are the elements of the original tensor, coerced into the type of the result
(`Tensor.slice_join`).

An element of the joined tensor is looked up by going past the tensors in front of the one that holds it
(`Tensor.getJoined_advance`); an index of a slice is an index of the whole tensor after the start of the slice
has been added (`Index.advance`), and it lies inside the bounds there (`Shape.inBounds_advance`).
-/

namespace OpGraph

/-! ### Indices -/

/-- The index with the position on one axis moved on by `start`. -/
def Index.advance (idx : Index) (axis start : Nat) : Index :=
  idx.set axis (start + idx.getD axis 0)

theorem Index.advance_zero (idx : Index) (axis : Nat) : idx.advance axis 0 = idx := by
  refine List.ext_getElem? fun k => ?_
  rw [advance, List.getElem?_set, Nat.zero_add, List.getD_eq_getElem?_getD]
  split
  next h =>
    subst h
    split
    next hk => rw [List.getElem?_eq_getElem hk, Option.getD_some]
    next hk => exact (List.getElem?_eq_none (Nat.le_of_not_lt hk)).symm
  next => rfl

namespace Shape

theorem InBounds.getD_lt {s : Shape} {idx : Index} (h : s.InBounds idx) {axis : Nat}
    (haxis : axis < s.length) : axis < idx.length ∧ idx.getD axis 0 < s.getD axis 0 := by
  have hall := inBounds_iff_forall₂.1 h
  obtain ⟨i, hi, hlt⟩ := forall₂_getElem? hall (List.getElem?_eq_getElem haxis)
  refine ⟨(List.getElem?_eq_some_iff.1 hi).1, ?_⟩
  rw [List.getD_eq_getElem?_getD, List.getD_eq_getElem?_getD, hi, List.getElem?_eq_getElem haxis]
  exact hlt

/-- An index of a piece lies in the whole after the start of the piece has been added. -/
theorem inBounds_advance {s : Shape} {idx : Index} (h : s.InBounds idx) {axis start n : Nat}
    (haxis : axis < s.length) (hn : start + s.getD axis 0 ≤ n) :
    InBounds (s.set axis n) (idx.advance axis start) := by
  obtain ⟨-, hlt⟩ := h.getD_lt haxis
  refine inBounds_iff_forall₂.2 (forall₂_set_set (inBounds_iff_forall₂.1 h) ?_ axis)
  omega

/-- The shape of the piece of length `n` along `axis` that begins at position `start`, cut short where the
whole ends. -/
def piece (s : Shape) (axis start n : Nat) : Shape := s.set axis (min n (s.getD axis 0 - start))

theorem addressable_piece {s : Shape} (hs : s.addressable) {axis start n : Nat} :
    (s.piece axis start n).addressable :=
  addressable_set hs (by omega)

/-- An index of a piece is an index of the whole after the start of the piece has been added. -/
theorem inBounds_of_piece {s : Shape} {axis start n : Nat} {idx : Index}
    (h : (s.piece axis start n).InBounds idx) : s.InBounds (idx.advance axis start) := by
  by_cases haxis : axis < s.length
  · have hlen : axis < (s.piece axis start n).length := by rwa [piece, List.length_set]
    have hget : (s.piece axis start n).getD axis 0 = min n (s.getD axis 0 - start) := by
      rw [piece, List.getD_eq_getElem?_getD, List.getElem?_set_self haxis, Option.getD_some]
    obtain ⟨-, hlt⟩ := h.getD_lt hlen
    have hin : InBounds ((s.piece axis start n).set axis (s.getD axis 0)) (idx.advance axis start) :=
      inBounds_advance h hlen (by omega)
    rwa [piece, List.set_set, List.getD_eq_getElem?_getD, List.getElem?_eq_getElem haxis,
      Option.getD_some, List.set_getElem_self] at hin
  · rw [piece, List.set_eq_of_length_le (Nat.le_of_not_lt haxis)] at h
    have hlen : idx.length ≤ axis := by
      rw [← (inBounds_iff.1 h).1]
      exact Nat.le_of_not_lt haxis
    rwa [Index.advance, List.set_eq_of_length_le hlen]

end Shape

namespace Tensor

/-! ### Elements -/

/-- Tensors are equal if their elements are. -/
theorem ext_get {t u : Tensor} (htype : t.elementType = u.elementType) (hshape : t.shape = u.shape)
    (h : ∀ idx, t.shape.InBounds idx → t.get idx = u.get idx) : t = u := by
  obtain ⟨type, s, xs, hxs, hsmall, hholds⟩ := t
  obtain ⟨_, _, ys, hys, hsmall', hholds'⟩ := u
  obtain rfl : type = _ := htype
  obtain rfl : s = _ := hshape
  have hvalues : xs = ys := by
    refine Array.ext (hxs.trans hys.symm) fun k hk hk' => ?_
    have hget := h _ (Shape.inBounds_unravel (hxs ▸ hk))
    rwa [get, get, Shape.ravel_unravel (hxs ▸ hk), Array.getElem?_eq_getElem hk,
      Array.getElem?_eq_getElem hk'] at hget
  subst hvalues
  rfl

theorem get_map {t : Tensor} {type : ElementType} {f : Float → Float} {idx : Index}
    (h : t.shape.InBounds idx) : (t.map type f).get idx = type.coerce (f (t.get idx)) := by
  have hlt : t.shape.ravel idx < t.values.size := by
    rw [t.size_values]
    exact Shape.ravel_lt h
  rw [get, get]
  simp [map, hlt]

theorem holds_get {t : Tensor} {idx : Index} (h : t.shape.InBounds idx) :
    t.elementType.Holds (t.get idx) :=
  t.holds _ (Array.mem_of_getElem? (hasElement_get h).2)

/-- The piece of length `n` along `axis` that begins at position `start`, cut short where the tensor
ends. -/
def slice (t : Tensor) (axis start n : Nat) : Tensor where
  elementType := t.elementType
  shape := t.shape.piece axis start n
  values := Array.ofFn fun k : Fin (t.shape.piece axis start n).numel =>
    t.get (Index.advance ((t.shape.piece axis start n).unravel k) axis start)
  size_values := by simp
  addressable := Shape.addressable_piece t.addressable
  holds := by
    intro x hx
    obtain ⟨k, rfl⟩ := Array.mem_ofFn.1 hx
    exact holds_get (Shape.inBounds_of_piece (Shape.inBounds_unravel k.isLt))

theorem get_slice {t : Tensor} {axis start n : Nat} {idx : Index}
    (h : (t.shape.piece axis start n).InBounds idx) :
    (t.slice axis start n).get idx = t.get (idx.advance axis start) := by
  have hlt := Shape.ravel_lt h
  rw [get]
  simp [slice, hlt, Shape.unravel_ravel h]

/-! ### Tensors laid end to end -/

/-- The length of tensors laid end to end along `axis`. -/
def lengthAlong (axis : Nat) (ts : List Tensor) : Nat := (ts.map (·.shape.getD axis 0)).sum

@[simp] theorem lengthAlong_nil (axis : Nat) : lengthAlong axis [] = 0 := rfl

@[simp] theorem lengthAlong_cons (axis : Nat) (t : Tensor) (ts : List Tensor) :
    lengthAlong axis (t :: ts) = t.shape.getD axis 0 + lengthAlong axis ts := by
  simp [lengthAlong]

theorem lengthAlong_eq_foldl (axis : Nat) (ts : List Tensor) :
    lengthAlong axis ts = (ts.map (·.shape)).foldl (fun n s => n + s.getD axis 0) 0 := by
  rw [lengthAlong, List.sum_eq_foldl_nat, List.foldl_map, List.foldl_map]

variable {axis k : Nat} {ts : List Tensor} {u : Tensor}

theorem lengthAlong_take_add_le (hu : ts[k]? = some u) :
    lengthAlong axis (ts.take k) + u.shape.getD axis 0 ≤ lengthAlong axis ts := by
  induction ts generalizing k with
  | nil => cases hu
  | cons t ts ih =>
    cases k with
    | zero =>
      obtain rfl := Option.some.inj hu
      simp
    | succ k =>
      have hle := ih hu
      rw [List.take_succ_cons, lengthAlong_cons, lengthAlong_cons]
      omega

/-- **The elements of a tensor stand behind those of the tensors in front of it.** -/
theorem getJoined_advance (hu : ts[k]? = some u) {idx : Index} (haxis : axis < idx.length)
    (hlt : idx.getD axis 0 < u.shape.getD axis 0) :
    getJoined axis ts (idx.advance axis (lengthAlong axis (ts.take k))) = u.get idx := by
  induction ts generalizing k with
  | nil => cases hu
  | cons t ts ih =>
    have hposition (start : Nat) :
        (idx.advance axis start).getD axis 0 = start + idx.getD axis 0 := by
      simp [Index.advance, List.getElem?_set_self haxis]
    cases k with
    | zero =>
      obtain rfl := Option.some.inj hu
      rw [List.take_zero, lengthAlong_nil, Index.advance_zero, getJoined]
      exact if_pos hlt
    | succ k =>
      have hrest := ih hu
      rw [List.take_succ_cons, lengthAlong_cons, getJoined]
      simp only [hposition]
      rw [if_neg (by omega), ← hrest, Index.advance, Index.advance, List.set_set]
      congr 2
      omega

/-- A joined shape differs from those that it is made of on the axis only. -/
theorem set_of_join {s : Shape} (hs : Shape.join axis (ts.map (·.shape)) = some s) (hu : u ∈ ts) :
    axis < u.shape.length ∧ s = u.shape.set axis (lengthAlong axis ts) := by
  rw [lengthAlong_eq_foldl]
  cases ts with
  | nil => cases hu
  | cons t ts =>
    obtain ⟨haxis, hsame, rfl⟩ := Concat.join_eq_some hs
    obtain ⟨hlength, hoff⟩ := hsame u.shape (List.mem_map_of_mem hu)
    refine ⟨hlength ▸ haxis, List.ext_getElem? fun j => ?_⟩
    rw [List.getElem?_set, List.getElem?_set, hlength]
    split
    next => rfl
    next hj => exact (hoff j (Ne.symm hj)).symm

/-- Lengths are added without a limit.  If the joined shape is addressable, no sum on the way leaves what can
be addressed. -/
theorem lengthAlong_take_le {s : Shape} (hsmall : s.addressable)
    (hs : Shape.join axis (ts.map (·.shape)) = some s) (k : Nat) :
    lengthAlong axis (ts.take k) ≤ Shape.addressLimit := by
  have hsplit : lengthAlong axis (ts.take k) + lengthAlong axis (ts.drop k) =
      lengthAlong axis ts := by
    rw [lengthAlong, lengthAlong, ← List.sum_append, ← List.map_append, List.take_append_drop,
      lengthAlong]
  cases ts with
  | nil => cases hs
  | cons t ts =>
    obtain ⟨haxis, rfl⟩ := set_of_join hs List.mem_cons_self
    have hle := Shape.le_addressLimit hsmall (List.mem_set haxis _)
    omega

/-- **Tensors that are laid end to end are got back as slices.** -/
theorem slice_join {type : ElementType} {s : Shape} (hsmall : s.addressable)
    (hs : Shape.join axis (ts.map (·.shape)) = some s) (hu : ts[k]? = some u) :
    (ofIndex type s (getJoined axis ts) hsmall).slice axis (lengthAlong axis (ts.take k))
      (u.shape.getD axis 0) = u.map type id := by
  obtain ⟨haxis, rfl⟩ := set_of_join hs (List.mem_of_getElem? hu)
  have hle : lengthAlong axis (ts.take k) + u.shape.getD axis 0 ≤ lengthAlong axis ts :=
    lengthAlong_take_add_le hu
  have hshape : Shape.piece (u.shape.set axis (lengthAlong axis ts)) axis
      (lengthAlong axis (ts.take k)) (u.shape.getD axis 0) = u.shape := by
    have hmin : min (u.shape.getD axis 0) (lengthAlong axis ts - lengthAlong axis (ts.take k)) =
        u.shape.getD axis 0 := by omega
    rw [Shape.piece, List.getD_eq_getElem?_getD (l := u.shape.set axis _),
      List.getElem?_set_self haxis, Option.getD_some, hmin, List.set_set, List.getD_eq_getElem?_getD,
      List.getElem?_eq_getElem haxis, Option.getD_some, List.set_getElem_self]
  refine ext_get rfl hshape fun idx hidx => ?_
  have hin : u.shape.InBounds idx := hshape ▸ hidx
  obtain ⟨hlen, hlt⟩ := hin.getD_lt haxis
  rw [get_slice hidx, get_map hin,
    get_ofIndex (Shape.inBounds_advance hin haxis hle),
    getJoined_advance hu hlen hlt, id]

end Tensor

end OpGraph
