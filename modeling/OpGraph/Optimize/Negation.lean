import OpGraph.Graph.Replace
import OpGraph.Pass.Basic

/-!
# Negation as multiplication

`-x` becomes `x * -1`, which exposes negations to the fusion of multiplications.
-/

namespace OpGraph.Negation

/-- A negation of any value. -/
def pattern : Pattern := .unary .negative

/-- Puts the multiplication in the place of the negation, under the same name.  Types that are unknown
or do not hold negative numbers have no minus one and are left alone. -/
def apply (m : Match) : Edit Bool := do
  let some x := m.get? 0 | return false
  let d ← Edit.query (·.desc x)
  if !d.elementType.isSigned then
    return false
  let minusOne ← Edit.addConstant (.scalar d.elementType (-1))
  let product ← Edit.addNode .multiply [x, minusOne]
  let root ← Edit.query (·.node m.root.node)
  Edit.setName product root.friendlyName
  Edit.copyMetadata [root.id] [product, minusOne.node]
  Edit.replaceNode root.id product
  return true

/-- The rule that turns negations into multiplications. -/
def rule {σ : Type} : Rule σ := .ofEdit "ConvertNegative" pattern apply

end OpGraph.Negation
