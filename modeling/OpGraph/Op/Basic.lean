import OpGraph.Op.Concat
import OpGraph.Op.Window

/-!
# Operations

An operation is what a node computes: its kind together with its attributes.  `Op.infer` gives the
descriptions of the outputs from those of the inputs, `Op.evaluate` the output tensors from input
tensors, and `Op.fold` the output tensors from what is known at the time of optimization.  Operations
that are not built in are supplied as an `Extension`.
-/

namespace OpGraph

/-- The values, if all of them are known. -/
def allKnown (values : List (Option Tensor)) : Option (List Tensor) := values.mapM id

/-- An operation given by its inference rule and its value on tensors. -/
structure Extension where
  kind : Kind
  infer : List Desc → Except InferError (List Desc)
  /-- There is none on tensors the operation cannot compute. -/
  evaluate : List Tensor → Option (List Tensor) := fun _ => none
  /-- Computed from the inputs that are constant and the descriptions of all inputs. -/
  fold : List (Option Tensor) → List Desc → Option (List Tensor) :=
    fun values _ => (allKnown values).bind evaluate

/-- What a node computes. -/
inductive Op where
  | parameter (elementType : ElementType) (shape : PartialShape)
  | constant (value : Tensor)
  | result
  | binary (op : BinaryOp) (broadcast : Broadcast)
  | unary (op : UnaryOp)
  | concat (axis : Int)
  | convert (destination : ElementType)
  | shapeOf
  | convolution (attributes : Convolution)
  | maxPool (attributes : MaxPool)
  | extension (definition : Extension)

namespace Op

/-- The kind of the operation. -/
def kind : Op → Kind
  | parameter .. => .parameter
  | constant _ => .constant
  | result => .result
  | binary op _ => op.kind
  | unary op => op.kind
  | concat _ => .concat
  | convert _ => .convert
  | shapeOf => .shapeOf
  | convolution _ => .convolution
  | maxPool _ => .maxPool
  | extension e => e.kind

/-- A built-in operation is one that is not an extension. -/
def isBuiltIn : Op → Bool
  | extension _ => false
  | _ => true

theorem kind_mem_builtIn {op : Op} (h : op.isBuiltIn) : op.kind ∈ Kind.builtIn := by
  cases op with
  | binary op _ => cases op <;> simp [kind, BinaryOp.kind, Kind.builtIn]
  | unary op => cases op <;> simp [kind, UnaryOp.kind, Kind.builtIn]
  | extension _ => simp [isBuiltIn] at h
  | _ => simp [kind, Kind.builtIn]

/-- The product with broadcasting. -/
def multiply : Op := binary .multiply .numpy

/-- The descriptions of the outputs.  An operation fails rather than guess when the inputs violate its
preconditions, and every output dimension that hangs on an unknown input dimension is unknown. -/
def infer (op : Op) (inputs : List Desc) : Except InferError (List Desc) :=
  match op with
  | parameter type shape =>
    if inputs.isEmpty then .ok [⟨type, shape⟩]
    else .error (.invalid "parameter takes no inputs")
  | constant value =>
    if inputs.isEmpty then .ok [value.desc]
    else .error (.invalid "constant takes no inputs")
  | result => do
    checkInputCount inputs 1
    return inputs
  | binary _ broadcast => BinaryOp.infer broadcast inputs
  | unary _ => UnaryOp.infer inputs
  | concat axis => Concat.infer axis inputs
  | convert destination => do
    checkInputCount inputs 1
    if destination.isDynamic then
      throw (.type "destination element type must be static")
    return inputs.map fun d => { d with elementType := destination }
  | shapeOf => do
    checkInputCount inputs 1
    return inputs.map fun d =>
      ⟨.i64, .ranked [match d.shape.rank? with
        | some rank => .static rank
        | none => .dynamic]⟩
  | convolution c => c.infer inputs
  | maxPool p => p.infer inputs
  | extension e => e.infer inputs

/-- A shape as a tensor, unless it has too many axes. -/
def shapeTensor? (s : Shape) : Option Tensor := Tensor.vector? .i64 (s.map Float.ofNat)

theorem isSome_shapeTensor? (s : Shape) :
    (shapeTensor? s).isSome = Shape.addressable [s.length] := by
  rw [shapeTensor?, Tensor.isSome_vector?, List.length_map]

theorem desc_of_shapeTensor? {s : Shape} {t : Tensor} (h : shapeTensor? s = some t) :
    t.desc = ⟨.i64, .ranked [.static s.length]⟩ := by
  rw [Tensor.desc_of_vector? h, List.length_map]
  rfl

/-- The output tensors; the operations that only have an inference rule, and inputs of the wrong
count, types or shapes, give none. -/
def evaluate (op : Op) (inputs : List Tensor) : Option (List Tensor) :=
  match op with
  | binary op broadcast => op.evaluate broadcast inputs
  | unary op => op.evaluate inputs
  | concat axis => Concat.evaluate axis inputs
  | convert destination =>
    match inputs with
    | [t] => some [t.map destination id]
    | _ => none
  | shapeOf =>
    match inputs with
    | [t] => (shapeTensor? t.shape).map ([·])
    | _ => none
  | extension e => e.evaluate inputs
  | _ => none

/-- The output tensors as far as they are known before the graph runs.  An operation folds when all
its inputs are constant and it can be evaluated on them; a shape is known as soon as it is static,
whatever the value. -/
def fold (op : Op) (values : List (Option Tensor)) (descs : List Desc) : Option (List Tensor) :=
  match op with
  | shapeOf =>
    match descs with
    | [d] => (d.shape.toShape?.bind shapeTensor?).map ([·])
    | _ => none
  | extension e => e.fold values descs
  | op => (allKnown values).bind op.evaluate

end Op

end OpGraph
