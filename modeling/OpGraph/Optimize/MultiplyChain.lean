import OpGraph.Graph.Fuse
import OpGraph.Pass.Basic

/-!
# Chains of multiplications

`(x * c₁) * c₂` becomes `x * (c₁ * c₂)` for constants `c₁` and `c₂`, if nothing else reads the inner
product.  Run to a fixpoint the rule collapses a whole chain.
-/

namespace OpGraph.MultiplyChain

/-- A product of a product with constants: `0` is the data, `1` the inner constant, `2` the inner
product, `3` the outer constant and `4` the outer product. -/
def pattern : Pattern where
  table :=
    { size := 5
      node := fun
        | 0 => .any .always
        | 1 => .kinds [.constant] [] .always
        | 2 => .kinds [.multiply] [⟨0, by decide⟩, ⟨1, by decide⟩] (.consumersCount 1)
        | 3 => .kinds [.constant] [] .always
        | 4 => .kinds [.multiply] [⟨2, by decide⟩, ⟨3, by decide⟩] .always }
  root := ⟨4, by decide⟩

/-- The broadcasting rule of a node that multiplies. -/
def broadcast? (g : Graph) (id : NodeId) : Option Broadcast :=
  match g.op? id with
  | some (.binary .multiply broadcast) => some broadcast
  | _ => none

/-- The product of two constants together with the broadcasting rule under which one multiplication by
it gives what the two multiplications give.  There is none if the multiplications broadcast
differently, if the constants do not combine, or if the description of the result would change. -/
def scale? (g : Graph) (x c₁ c₂ : Output) (inner : NodeId) (root : Output) :
    Except GraphError (Option (Tensor × Broadcast)) := do
  match g.constantValue? c₁, g.constantValue? c₂, broadcast? g inner, broadcast? g root.node with
  | some a, some b, some innerRule, some rule =>
    if innerRule ≠ rule then
      return none
    let some type := a.elementType.merge b.elementType | return none
    let some scale := a.zipBroadcast b type (· * ·) | return none
    let data ← g.desc x
    let expected ← g.desc root
    match BinaryOp.infer rule [data, scale.desc] with
    | .ok [d] => return if d = expected then some (scale, rule) else none
    | _ => return none
  | _, _, _, _ => return none

/-- Puts one multiplication in the place of two. -/
def apply (m : Match) : Edit Bool := do
  match m.get? 0, m.get? 1, m.get? 3, m.node? 2 with
  | some x, some c₁, some c₂, some inner =>
    match ← Edit.query (scale? · x c₁ c₂ inner m.root) with
    | none => return false
    | some (scale, rule) =>
      let scale ← Edit.addConstant scale
      let fused ← Edit.addNode (.binary .multiply rule) [x, scale]
      Edit.fuse [inner, m.root.node] m.root.node fused
      return true
  | _, _, _, _ => return false

/-- The rule that fuses two multiplications by constants. -/
def rule {σ : Type} : Rule σ := .ofEdit "FuseMultiplyConstants" pattern apply

end OpGraph.MultiplyChain
