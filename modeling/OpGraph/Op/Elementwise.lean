import OpGraph.Op.Kind
import OpGraph.Tensor.Broadcast

/-!
# Elementwise operations

The unary operations keep the description of their operand.  The binary operations merge the element
types of their operands and combine the shapes as `Broadcast` says.  Neither kind accepts booleans.
-/

namespace OpGraph

/-- Fails unless the operation has exactly `expected` inputs. -/
def checkInputCount (inputs : List Desc) (expected : Nat) : Except InferError Unit :=
  if inputs.length = expected then .ok () else .error (.inputCount expected inputs.length)

/-- How a binary operation combines the shapes of its operands. -/
inductive Broadcast where
  /-- The shapes have to be equal. -/
  | none
  /-- Aligned at the last axis, with axes of length one repeated. -/
  | numpy
  deriving DecidableEq, Repr, Inhabited

/-- The shape of the result of a binary operation. -/
def Broadcast.shape? : Broadcast → PartialShape → PartialShape → Option PartialShape
  | none => PartialShape.merge
  | numpy => PartialShape.broadcast

/-- The larger of two numbers; NaN gives way to the other one. -/
def larger (a b : Float) : Float :=
  if a.isNaN then b else if b.isNaN then a else if a < b then b else a

/-- The smaller of two numbers; NaN gives way to the other one. -/
def smaller (a b : Float) : Float :=
  if a.isNaN then b else if b.isNaN then a else if b < a then b else a

/-- The binary operations. -/
inductive BinaryOp where
  | add | subtract | multiply | divide | maximum | minimum | power
  deriving DecidableEq, Repr, Inhabited

namespace BinaryOp

/-- The kind of a binary operation. -/
def kind : BinaryOp → Kind
  | add => .add
  | subtract => .subtract
  | multiply => .multiply
  | divide => .divide
  | maximum => .maximum
  | minimum => .minimum
  | power => .power

/-- The function that a binary operation applies to each pair of elements. -/
def apply : BinaryOp → Float → Float → Float
  | add => (· + ·)
  | subtract => (· - ·)
  | multiply => (· * ·)
  | divide => (· / ·)
  | maximum => larger
  | minimum => smaller
  | power => Float.pow

/-- The inference rule that all binary operations share. -/
def infer (broadcast : Broadcast) (inputs : List Desc) : Except InferError (List Desc) :=
  match inputs with
  | [a, b] =>
    match a.elementType.merge b.elementType with
    | none => .error (.type
        s!"argument element types are inconsistent: {a.elementType.name} vs {b.elementType.name}")
    | some type =>
      if type = .boolean then .error (.type "arguments cannot have boolean element type")
      else
        match broadcast.shape? a.shape b.shape with
        | none => .error (.shape
            s!"argument shapes are inconsistent: {a.shape.text} vs {b.shape.text}")
        | some shape => .ok [⟨type, shape⟩]
  | _ => .error (.inputCount 2 inputs.length)

/-- The value of a binary operation on tensors. -/
def evaluate (op : BinaryOp) (broadcast : Broadcast) (inputs : List Tensor) :
    Option (List Tensor) :=
  match inputs with
  | [a, b] => do
    let type ← a.elementType.merge b.elementType
    if broadcast = .none ∧ a.shape ≠ b.shape then none
    else
      let t ← a.zipBroadcast b type op.apply
      return [t]
  | _ => none

end BinaryOp

/-- The unary operations. -/
inductive UnaryOp where
  | negative | relu | abs | exp | sqrt
  deriving DecidableEq, Repr, Inhabited

namespace UnaryOp

/-- The kind of a unary operation. -/
def kind : UnaryOp → Kind
  | negative => .negative
  | relu => .relu
  | abs => .abs
  | exp => .exp
  | sqrt => .sqrt

/-- The function that a unary operation applies to each element. -/
def apply : UnaryOp → Float → Float
  | negative => (- ·)
  | relu => (larger · 0)
  | abs => Float.abs
  | exp => Float.exp
  | sqrt => Float.sqrt

/-- The inference rule that all unary operations share. -/
def infer (inputs : List Desc) : Except InferError (List Desc) :=
  match inputs with
  | [a] =>
    if a.elementType = .boolean then .error (.type "argument cannot have boolean element type")
    else .ok [a]
  | _ => .error (.inputCount 1 inputs.length)

/-- The value of a unary operation on tensors. -/
def evaluate (op : UnaryOp) (inputs : List Tensor) : Option (List Tensor) :=
  match inputs with
  | [a] => some [a.map a.elementType op.apply]
  | _ => none

end UnaryOp

end OpGraph
