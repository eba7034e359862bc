import OpGraph.Proofs.Op.Conformance

/-!
# Chains of binary operations

Shapes broadcast associatively with static ones, as far as these broadcast, and so do the types merge.
Where a binary operation accepts two constants one after the other, it accepts their combination in their
place (`BinaryOp.infer_combined`).
-/

namespace OpGraph

theorem ElementType.merge_assoc {a b c ab bc r : ElementType} (hab : a.merge b = some ab)
    (hr : ab.merge c = some r) (hbc : b.merge c = some bc) : a.merge bc = some r := by
  rw [merge] at *
  grind

theorem ElementType.isStatic_of_isSigned {t : ElementType} (h : t.isSigned) : t.isStatic := by
  cases t <;> first | rfl | cases h

/-- A static type comes out of a merge with a static type. -/
theorem ElementType.isStatic_of_merge {a b t : ElementType} (h : a.merge b = some t)
    (ha : a.isStatic) (hb : b.isStatic) : t = a ∧ b = a := by
  unfold merge at h
  simp only [isStatic, ne_eq, decide_eq_true_eq] at ha hb
  rw [if_neg ha, if_neg hb, Option.ite_none_right_eq_some, Option.some.injEq] at h
  exact ⟨h.2.symm, h.1.symm⟩

/-- The combination of tensors of known types has a known type. -/
theorem Tensor.isStatic_of_zipBroadcast {a b c : Tensor} {t : ElementType} {f : Float → Float → Float}
    (ha : a.elementType.isStatic) (hb : b.elementType.isStatic)
    (ht : a.elementType.merge b.elementType = some t) (hc : a.zipBroadcast b t f = some c) :
    c.elementType.isStatic := by
  rw [(zipBroadcast_eq_some hc).1, (ElementType.isStatic_of_merge ht ha hb).1]
  exact ha

/-- Two known lengths may be combined before they meet a third one that may be unknown. -/
theorem Dim.broadcast_combined {a b r : Dim} {m n k : Nat}
    (hab : a.broadcast (static m) = some b) (hr : b.broadcast (static n) = some r)
    (hk : (static m).broadcast (static n) = some (static k)) :
    a.broadcast (static k) = some r := by
  rw [broadcast_static] at hk
  cases a <;> cases b <;> cases r <;> simp only [broadcast, merge] at * <;> grind

theorem Dim.eq_static_of_merge {a c : Dim} {n : Nat} (h : a.merge (static n) = some c) :
    c = static n := by
  cases a with
  | dynamic => exact (Option.some.inj h).symm
  | static m =>
    obtain ⟨rfl, hc⟩ := Option.ite_none_right_eq_some.1 h
    exact (Option.some.inj hc).symm

namespace PartialShape

theorem broadcast_combined {p q r : PartialShape} {s t u : Shape}
    (hq : p.broadcast (ofShape s) = some q) (hr : q.broadcast (ofShape t) = some r)
    (hu : broadcast (ofShape s) (ofShape t) = some (ofShape u)) :
    p.broadcast (ofShape u) = some r := by
  cases p with
  | unranked =>
    obtain rfl := Option.some.inj hq
    exact hr
  | ranked as =>
    obtain ⟨bs, rfl, hlb, hkb⟩ := broadcast_eq_some.1 hq
    obtain ⟨cs, rfl, hlc, hkc⟩ := broadcast_eq_some.1 hr
    obtain ⟨v, he, hlv, hkv⟩ := broadcast_ofShape_eq_some.1 hu
    obtain rfl := ofShape_injective he
    refine broadcast_eq_some.2 ⟨cs, rfl, ?_, fun k => ?_⟩
    · simp only [List.length_map] at *
      omega
    · rw [fromEnd_map_static] at *
      exact Dim.broadcast_combined (fromEnd_map_static s k ▸ hkb k) (fromEnd_map_static t k ▸ hkc k)
        (hkv k)

/-- A shape that is known completely is what comes out of a merge with it. -/
theorem eq_of_merge_ofShape {p q : PartialShape} {s : Shape} (h : p.merge (ofShape s) = some q) :
    q = ofShape s := by
  cases p with
  | unranked => exact (Option.some.inj h).symm
  | ranked as =>
    obtain ⟨cs, rfl, -, hl, hk⟩ := merge_eq_some.1 h
    refine congrArg ranked (OpGraph.fromEnd_ext hl.symm fun k => ?_)
    have hk := hk k
    rw [fromEnd_map_static] at hk ⊢
    exact Dim.eq_static_of_merge hk

theorem broadcast_ofShape_self (s : Shape) :
    broadcast (ofShape s) (ofShape s) = some (ofShape s) :=
  broadcast_ofShape_eq_some.2 ⟨s, rfl, by simp, fun k => Dim.broadcast_static.2 (by omega)⟩

end PartialShape

namespace Broadcast

/-- Static shapes combine to a static shape. -/
theorem exists_shape_of_shape? {rule : Broadcast} {a b : Shape} {r : PartialShape}
    (h : rule.shape? (.ofShape a) (.ofShape b) = some r) : ∃ s, r = .ofShape s := by
  cases rule with
  | none => exact ⟨a, (PartialShape.merge_ofShape_eq_some.1 h).2⟩
  | numpy =>
    obtain ⟨s, rfl, -⟩ := PartialShape.broadcast_ofShape_eq_some.1 h
    exact ⟨s, rfl⟩

theorem shape?_combined {rule : Broadcast} {p q r : PartialShape} {s t u : Shape}
    (hq : rule.shape? p (.ofShape s) = some q) (hr : rule.shape? q (.ofShape t) = some r)
    (hu : PartialShape.broadcast (.ofShape s) (.ofShape t) = some (.ofShape u)) :
    rule.shape? p (.ofShape u) = some r := by
  cases rule with
  | none =>
    obtain rfl := PartialShape.eq_of_merge_ofShape hq
    obtain ⟨rfl, rfl⟩ := PartialShape.merge_ofShape_eq_some.1 hr
    rw [PartialShape.broadcast_ofShape_self, Option.some.injEq] at hu
    obtain rfl := PartialShape.ofShape_injective hu
    exact hq
  | numpy => exact PartialShape.broadcast_combined hq hr hu

end Broadcast

/-- The description of a value whose type and shape are known. -/
def Desc.exact (type : ElementType) (shape : Shape) : Desc := ⟨type, .ofShape shape⟩

theorem Desc.exact_injective {t t' : ElementType} {s s' : Shape} (h : exact t s = exact t' s') :
    t = t' ∧ s = s' := by
  unfold exact at h
  obtain ⟨rfl, hs⟩ := Desc.mk.inj h
  exact ⟨rfl, PartialShape.ofShape_injective hs⟩

namespace BinaryOp

theorem infer_exact_eq_ok {rule : Broadcast} {ta tb : ElementType} {a b : Shape}
    {outs : List Desc} :
    infer rule [.exact ta a, .exact tb b] = .ok outs ↔
      ∃ t s, ta.merge tb = some t ∧ t ≠ .boolean ∧
        rule.shape? (.ofShape a) (.ofShape b) = some (.ofShape s) ∧ outs = [.exact t s] := by
  rw [infer_eq_ok]
  constructor
  · intro h
    rcases h with ⟨da, db, t, r, he, ht, hbool, hr, rfl⟩
    cases he
    obtain ⟨s, rfl⟩ := Broadcast.exists_shape_of_shape? hr
    exact ⟨t, s, ht, hbool, hr, rfl⟩
  · intro h
    rcases h with ⟨t, s, ht, hbool, hs, rfl⟩
    exact ⟨_, _, t, _, rfl, ht, hbool, hs, rfl⟩

/-- **What is accepted in two steps is accepted in one**, with the same description. -/
theorem infer_combined {rule : Broadcast} {d e : Desc} {t₁ t₂ t : ElementType} {c₁ c₂ c : Shape}
    {outs : List Desc} (he : infer rule [d, .exact t₁ c₁] = .ok [e])
    (hout : infer rule [e, .exact t₂ c₂] = .ok outs) (ht : t₁.merge t₂ = some t)
    (hc : PartialShape.broadcast (.ofShape c₁) (.ofShape c₂) = some (.ofShape c)) :
    infer rule [d, .exact t c] = .ok outs := by
  obtain ⟨a, b, type, shape, hin, htype, -, hshape, hout'⟩ := infer_eq_ok.1 he
  cases hin
  obtain rfl := List.singleton_injective hout'
  obtain ⟨a, b, type', shape', hin, htype', hbool, hshape', rfl⟩ := infer_eq_ok.1 hout
  cases hin
  exact infer_eq_ok.2 ⟨_, _, type', shape', rfl, ElementType.merge_assoc htype htype' ht, hbool,
    Broadcast.shape?_combined hshape hshape' hc, rfl⟩

end BinaryOp

end OpGraph
