/-!
# Operation kinds

A kind is the stable tag of an operation: a name and the version of the operation set.  Patterns and
queries compare kinds, never attributes.
-/

namespace OpGraph

/-- The tag of an operation: its name and version. -/
structure Kind where
  name : String
  version : Nat
  deriving DecidableEq, Repr, Inhabited

namespace Kind

/-- The written form, such as `Multiply.v1`. -/
def text (k : Kind) : String := k.name ++ ".v" ++ toString k.version

/-- The input of a graph. -/
def parameter : Kind := ⟨"Parameter", 0⟩

/-- A fixed tensor. -/
def constant : Kind := ⟨"Constant", 0⟩

/-- The output of a graph. -/
def result : Kind := ⟨"Result", 0⟩

/-- Joining along an axis. -/
def concat : Kind := ⟨"Concat", 0⟩

/-- Change of element type. -/
def convert : Kind := ⟨"Convert", 0⟩

/-- The shape of a value, as a value. -/
def shapeOf : Kind := ⟨"ShapeOf", 3⟩

/-- Sliding-window convolution. -/
def convolution : Kind := ⟨"Convolution", 1⟩

/-- Sliding-window maximum. -/
def maxPool : Kind := ⟨"MaxPool", 1⟩

/-- Elementwise sum. -/
def add : Kind := ⟨"Add", 1⟩

/-- Elementwise difference. -/
def subtract : Kind := ⟨"Subtract", 1⟩

/-- Elementwise product. -/
def multiply : Kind := ⟨"Multiply", 1⟩

/-- Elementwise quotient. -/
def divide : Kind := ⟨"Divide", 1⟩

/-- Elementwise maximum. -/
def maximum : Kind := ⟨"Maximum", 1⟩

/-- Elementwise minimum. -/
def minimum : Kind := ⟨"Minimum", 1⟩

/-- Elementwise power. -/
def power : Kind := ⟨"Power", 1⟩

/-- Elementwise negation. -/
def negative : Kind := ⟨"Negative", 1⟩

/-- Elementwise maximum with zero. -/
def relu : Kind := ⟨"Relu", 1⟩

/-- Elementwise absolute value. -/
def abs : Kind := ⟨"Abs", 1⟩

/-- Elementwise natural exponential. -/
def exp : Kind := ⟨"Exp", 1⟩

/-- Elementwise square root. -/
def sqrt : Kind := ⟨"Sqrt", 1⟩

/-- The kinds of the built-in operations. -/
def builtIn : List Kind :=
  [parameter, constant, result, concat, convert, shapeOf, convolution, maxPool, add, subtract,
    multiply, divide, maximum, minimum, power, negative, relu, abs, exp, sqrt]

/-- The built-in kind with the given name. -/
def ofName? (name : String) : Option Kind := builtIn.find? (·.name = name)

end Kind

end OpGraph
