import OpGraph.Shape.Axis
import OpGraph.Tensor.Axis

/-!
# Concatenation

Lays values end to end along one axis.  All inputs have to share a rank and to agree on every other
axis; inputs of unknown rank are taken to agree.  The length along the axis is the sum of those of the
inputs, which has to fit into 64 bits.
-/

namespace OpGraph.Concat

/-- The common element type of the inputs, numbered from `i`, merged into `acc`. -/
def mergeTypes (acc : ElementType) (i : Nat) : List Desc → Except InferError ElementType
  | [] => .ok acc
  | d :: rest =>
    match acc.merge d.elementType with
    | some type => mergeTypes type (i + 1) rest
    | none => .error (.type
        s!"argument {i} element type {d.elementType.name} is inconsistent with {acc.name}")

/-- The common rank of the inputs, if any of them has a known one. -/
def mergeRanks (acc : Option Nat) : List Desc → Except InferError (Option Nat)
  | [] => .ok acc
  | d :: rest =>
    match acc, d.shape.rank? with
    | acc, none => mergeRanks acc rest
    | none, some r => mergeRanks (some r) rest
    | some prev, some r =>
      if prev = r then mergeRanks (some prev) rest
      else .error (.shape s!"argument ranks are inconsistent: {prev} vs {r}")

/-- Merges the dimensions of one input, numbered from `i`, into those found so far; the axis of the
concatenation is left alone. -/
def mergeDims (axis i : Nat) : List Dim → List Dim → Except InferError (List Dim)
  | acc :: accs, d :: ds =>
    if i = axis then do
      let rest ← mergeDims axis (i + 1) accs ds
      return acc :: rest
    else
      match acc.merge d with
      | some m => do
        let rest ← mergeDims axis (i + 1) accs ds
        return m :: rest
      | none => .error (.shape s!"dimension {i} is inconsistent: {acc.text} vs {d.text}")
  | accs, _ => .ok accs

/-- Merges the dimensions of all inputs, in order. -/
def mergeShapes (axis : Nat) (acc : List Dim) : List Desc → Except InferError (List Dim)
  | [] => .ok acc
  | d :: rest =>
    match d.shape with
    | .unranked => mergeShapes axis acc rest
    | .ranked dims => do
      let acc ← mergeDims axis 0 acc dims
      mergeShapes axis acc rest

/-- The length of the result along the axis: the sum over the inputs, unknown as soon as one of them
is. -/
def totalLength (axis : Nat) (inputs : List Desc) : Dim :=
  inputs.foldl (fun n d => n + (d.shape.dim? axis).getD .dynamic) (.static 0)

/-- The inference rule of concatenation. -/
def infer (axis : Int) (inputs : List Desc) : Except InferError (List Desc) := do
  if inputs.isEmpty then
    throw (.invalid "at least one argument required")
  let type ← mergeTypes .dynamic 0 inputs
  match ← mergeRanks none inputs with
  | none => return [⟨type, .unranked⟩]
  | some rank =>
    match normalizeAxis axis rank with
    | none => throw (.invalid s!"axis {axis} is out of range for rank {rank}")
    | some axis =>
      let dims ← mergeShapes axis (List.replicate rank .dynamic) inputs
      return [⟨type, .ranked (dims.set axis (totalLength axis inputs))⟩]

/-- The value of concatenation on tensors. -/
def evaluate (axis : Int) (inputs : List Tensor) : Option (List Tensor) := do
  let first ← inputs.head?
  let axis ← normalizeAxis axis first.shape.length
  let type ← inputs.foldlM (fun acc t => acc.merge t.elementType) ElementType.dynamic
  let t ← Tensor.join type axis inputs
  return [t]

end OpGraph.Concat
