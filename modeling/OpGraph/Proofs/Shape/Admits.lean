import Mathlib.Data.Set.List
import OpGraph.Proofs.Shape.Broadcast
import OpGraph.Proofs.Shape.Refines
import OpGraph.Proofs.Pointwise

/-!
# What a description leaves open

A dimension, a shape, an element type and a description admit the lengths, shapes, types and tensors
that a value described by them can have when the graph runs.  Combining descriptions is sound for what
they admit: `PartialShape.admits_merge`, `PartialShape.admits_broadcast`, `ElementType.admits_merge`.

What is admitted is what has a description of its own that refines the given one
(`Dim.refines_static_iff`, `PartialShape.refines_ofShape_iff`).  So these are cases of what is known of
less precise descriptions.
-/

namespace OpGraph

/-- The axis can have the given length. -/
def Dim.Admits : Dim → Nat → Prop
  | dynamic, _ => True
  | static m, n => m = n

/-- The type can be the given one. -/
def ElementType.Admits (t u : ElementType) : Prop := t = dynamic ∨ t = u

/-- The shape can be the given one; an unknown rank can be any rank. -/
def PartialShape.Admits : PartialShape → Shape → Prop
  | unranked, _ => True
  | ranked dims, s => List.Forall₂ Dim.Admits dims s

/-- The value can have the given type and shape. -/
def Desc.Admits (d : Desc) (type : ElementType) (s : Shape) : Prop :=
  d.elementType.Admits type ∧ d.shape.Admits s

/-- The length of the axis with `k` axes behind it; a missing axis has length one. -/
def Shape.fromEnd (s : Shape) (k : Nat) : Nat := s.reverse[k]?.getD 1

theorem fromEnd_map_static (s : Shape) (k : Nat) :
    OpGraph.fromEnd (s.map .static) k = .static (s.fromEnd k) := by
  rw [OpGraph.fromEnd, Shape.fromEnd]
  rw [← List.map_reverse, List.getElem?_map]
  cases s.reverse[k]? <;> rfl

theorem Shape.fromEnd_nil (k : Nat) : Shape.fromEnd [] k = 1 := rfl

theorem Shape.fromEnd_of_length_le {s : Shape} {k : Nat} (h : s.length ≤ k) : s.fromEnd k = 1 := by
  rw [fromEnd]
  rw [List.getElem?_eq_none (by simpa using h), Option.getD_none]

theorem Shape.fromEnd_ext {s r : Shape} (hl : s.length = r.length)
    (h : ∀ k, s.fromEnd k = r.fromEnd k) : s = r := by
  refine List.map_injective_iff.2 (fun _ _ => Dim.static.inj) ?_
  refine OpGraph.fromEnd_ext (by simpa using hl) fun k => ?_
  rw [fromEnd_map_static, fromEnd_map_static, h]

/-! ### Dimensions -/

namespace Dim

theorem admits_merge {a b c : Dim} (h : a.merge b = some c) (n : Nat) :
    c.Admits n ↔ a.Admits n ∧ b.Admits n := by
  cases a with
  | dynamic =>
    obtain rfl := Option.some.inj h
    simp [Admits]
  | static m =>
    cases b with
    | dynamic =>
      obtain rfl := Option.some.inj h
      simp [Admits]
    | static k =>
      simp only [merge, Option.ite_none_right_eq_some, Option.some.injEq] at h
      obtain ⟨rfl, rfl⟩ := h
      simp [Admits]

theorem broadcast_static {m n k : Nat} :
    (static m).broadcast (static n) = some (static k) ↔
      m = 1 ∧ k = n ∨ n = 1 ∧ k = m ∨ m = n ∧ k = m := by
  rw [broadcast]
  simp only [static.injEq, merge]
  split <;> (try split) <;> (try split) <;> simp <;> omega

/-- Known lengths combine to a known length. -/
theorem exists_static_of_broadcast {m n : Nat} {d : Dim}
    (h : (static m).broadcast (static n) = some d) : ∃ k, static k = d := by
  cases d with
  | static k => exact ⟨k, rfl⟩
  | dynamic =>
    simp only [broadcast, merge, static.injEq] at h
    split at h <;> (try split at h) <;> (try split at h) <;> simp at h

theorem refines_static_iff {d : Dim} {n : Nat} : (static n).Refines d ↔ d.Admits n := by
  cases d with
  | dynamic => exact iff_of_true (refines_dynamic _) trivial
  | static m =>
    show static m = dynamic ∨ static n = static m ↔ m = n
    simp [eq_comm]

/-- The lengths of two operands combine to a length that the combined dimension admits. -/
theorem admits_broadcast {a b c : Dim} {m n k : Nat} (h : a.broadcast b = some c)
    (ha : a.Admits m) (hb : b.Admits n) (hk : (static m).broadcast (static n) = some (static k)) :
    c.Admits k := by
  rw [← refines_static_iff] at *
  exact lenient_broadcast.relates ha hb hk h

/-- A known length that leaves a dimension as it is leaves the lengths that the dimension admits as
they are. -/
theorem broadcast_admitted {a : Dim} {m n : Nat} (h : a.broadcast (static n) = some a)
    (ha : a.Admits m) : (static n).broadcast (static m) = some (static m) := by
  rw [broadcast_static]
  cases a with
  | dynamic =>
    by_cases hn : n = 1
    · omega
    · simp [broadcast, hn] at h
  | static x =>
    have hx : x = m := ha
    rw [broadcast_static] at h
    omega

/-- A known length that merges with a dimension without making it more precise is the dimension. -/
theorem eq_of_merge_eq {a : Dim} {n : Nat} (h : a.merge (static n) = some a) : a = static n := by
  cases a with
  | dynamic => exact (Option.some.inj h).symm
  | static x =>
    simp only [merge, Option.ite_none_right_eq_some] at h
    exact congrArg static h.1

end Dim

/-! ### Element types -/

theorem ElementType.admits_refl (t : ElementType) : t.Admits t := Or.inr rfl

theorem ElementType.refines_iff {t u : ElementType} : u.Refines t ↔ t.Admits u :=
  or_congr_right eq_comm

theorem ElementType.admits_merge {a b c ta tb tc : ElementType} (h : a.merge b = some c)
    (ha : a.Admits ta) (hb : b.Admits tb) (ht : ta.merge tb = some tc) : c.Admits tc := by
  rw [← refines_iff] at *
  exact lenient_merge.relates ha hb ht h

/-! ### Shapes -/

namespace PartialShape

theorem admits_ranked {dims : List Dim} {s : Shape} :
    (ranked dims).Admits s ↔
      dims.length = s.length ∧ ∀ k, (OpGraph.fromEnd dims k).Admits (s.fromEnd k) :=
  forall₂_iff_fromEnd rfl

theorem ofShape_injective {s r : Shape} (h : ofShape s = ofShape r) : s = r :=
  List.map_injective_iff.2 (fun _ _ => Dim.static.inj) (ranked.inj h)

theorem admits_ofShape {s r : Shape} : (ofShape s).Admits r ↔ s = r := by
  rw [ofShape]
  rw [admits_ranked]
  constructor
  · intro h'
    rcases h' with ⟨hl, h⟩
    refine Shape.fromEnd_ext (by simpa using hl) fun k => ?_
    have := h k
    rwa [fromEnd_map_static] at this
  · intro heq
    subst heq
    refine ⟨by simp, fun k => ?_⟩
    rw [fromEnd_map_static]
    rfl

/-- **The admitted shapes are those whose description refines the given one.** -/
theorem refines_ofShape_iff {p : PartialShape} {s : Shape} : (ofShape s).Refines p ↔ p.Admits s := by
  cases p with
  | unranked => exact Iff.rfl
  | ranked dims =>
    show List.Forall₂ Dim.Refines (s.map .static) dims ↔ List.Forall₂ Dim.Admits dims s
    simp only [List.forall₂_map_left_iff, Dim.refines_static_iff]
    exact ⟨fun h => h.flip, fun h => h.flip⟩

/-- Static shapes combine to a static shape. -/
theorem broadcast_ofShape_eq_some {a b : Shape} {r : PartialShape} :
    broadcast (ofShape a) (ofShape b) = some r ↔
      ∃ c : Shape, r = ofShape c ∧ c.length = max a.length b.length ∧
        ∀ k, (Dim.static (a.fromEnd k)).broadcast (.static (b.fromEnd k)) =
          some (.static (c.fromEnd k)) := by
  unfold ofShape
  simp only [broadcast_eq_some, fromEnd_map_static, List.length_map]
  constructor
  · intro h
    rcases h with ⟨cs, rfl, hl, hk⟩
    have hstatic : cs ∈ Set.range (List.map Dim.static) := by
      rw [Set.range_list_map]
      intro d hd
      obtain ⟨k, rfl⟩ := exists_fromEnd_of_mem hd
      exact Dim.exists_static_of_broadcast (hk k)
    obtain ⟨c, rfl⟩ := hstatic
    simp only [fromEnd_map_static, List.length_map] at hl hk
    exact ⟨c, rfl, hl, hk⟩
  · intro h
    rcases h with ⟨c, rfl, hl, hk⟩
    refine ⟨_, rfl, by simpa using hl, fun k => ?_⟩
    rw [fromEnd_map_static]
    exact hk k

/-- A shape without axes does not broadcast anything. -/
theorem broadcast_scalar (p : PartialShape) : p.broadcast (ofShape []) = some p := by
  cases p with
  | unranked => rfl
  | ranked dims =>
    refine broadcast_eq_some.2 ⟨dims, rfl, by simp, fun k => ?_⟩
    rw [fromEnd_map_static, Shape.fromEnd_nil, Dim.broadcast_one_right]

theorem merge_ofShape_eq_some {a b : Shape} {r : PartialShape} :
    merge (ofShape a) (ofShape b) = some r ↔ a = b ∧ r = ofShape a := by
  unfold ofShape
  simp only [merge_eq_some, fromEnd_map_static, List.length_map, Dim.merge,
    Option.ite_none_right_eq_some, Option.some.injEq]
  constructor
  · intro h
    rcases h with ⟨cs, rfl, hla, hlb, hk⟩
    refine ⟨Shape.fromEnd_ext (hla.trans hlb.symm) fun k => (hk k).1, congrArg ranked ?_⟩
    refine OpGraph.fromEnd_ext (by simpa using hla.symm) fun k => ?_
    rw [fromEnd_map_static]
    exact (hk k).2.symm
  · intro h
    rcases h with ⟨rfl, rfl⟩
    exact ⟨_, rfl, by simp, by simp, fun k => ⟨rfl, (fromEnd_map_static a k).symm⟩⟩

/-- What both descriptions of a shape admit, the merged one admits. -/
theorem admits_merge {a b c : PartialShape} {s : Shape} (h : a.merge b = some c)
    (ha : a.Admits s) (hb : b.Admits s) : c.Admits s := by
  have hs : merge (ofShape s) (ofShape s) = some (ofShape s) := merge_ofShape_eq_some.2 ⟨rfl, rfl⟩
  rw [← refines_ofShape_iff] at *
  exact lenient_merge.relates ha hb hs h

/-- Shapes that two operands can have combine to a shape that the combined description admits. -/
theorem admits_broadcast {a b c : PartialShape} {s r t : Shape} (h : a.broadcast b = some c)
    (ha : a.Admits s) (hb : b.Admits r)
    (ht : broadcast (ofShape s) (ofShape r) = some (ofShape t)) : c.Admits t := by
  rw [← refines_ofShape_iff] at *
  exact lenient_broadcast.relates ha hb ht h

end PartialShape

/-- Whatever the rule of broadcasting, operands combine to a shape that inference has announced. -/
theorem Broadcast.admits_shape? {rule : Broadcast} {a b c : PartialShape} {s r t : Shape}
    (h : rule.shape? a b = some c) (ha : a.Admits s) (hb : b.Admits r)
    (ht : rule.shape? (.ofShape s) (.ofShape r) = some (.ofShape t)) : c.Admits t := by
  cases rule with
  | none =>
    obtain ⟨rfl, he⟩ := PartialShape.merge_ofShape_eq_some.1 ht
    exact PartialShape.ofShape_injective he ▸ PartialShape.admits_merge h ha hb
  | numpy => exact PartialShape.admits_broadcast h ha hb ht

end OpGraph
