import OpGraph.Graph.Bypass
import OpGraph.Pass.Basic

/-!
# Operations without effect

Conversions to the type a value already has, products with ones and sums with zeros pass their operand
through and are bypassed.
-/

namespace OpGraph.Identity

/-- A conversion of any value. -/
def conversion : Pattern := .unary .convert

/-- Bypasses a conversion to the type that the value has. -/
def bypassConversion (m : Match) : Edit Bool := do
  match m.get? 0, (← get).op? m.root.node with
  | some x, some (.convert destination) =>
    let d ← Edit.query (·.desc x)
    if d.elementType = destination then Edit.bypass m.root.node 0 else return false
  | _, _ => return false

/-- Bypasses a binary node whose other operand is a constant filled with `identity`. -/
def bypassOperation (identity : Float) (m : Match) : Edit Bool := do
  match (← get).identityOperand? m.root.node identity with
  | some data => Edit.bypass m.root.node data
  | none => return false

variable {σ : Type}

/-- The rule for conversions. -/
def convertRule : Rule σ := .ofEdit "EliminateConvert" conversion bypassConversion

/-- The rule for products with ones. -/
def multiplyRule : Rule σ :=
  .ofEdit "EliminateMultiplyByOne" (.ofKind .multiply) (bypassOperation 1)

/-- The rule for sums with zeros. -/
def addRule : Rule σ := .ofEdit "EliminateAddZero" (.ofKind .add) (bypassOperation 0)

/-- The pass that bypasses all operations without effect. -/
def pass : Pass σ := .group "NopElimination" [convertRule, multiplyRule, addRule] {}

end OpGraph.Identity
