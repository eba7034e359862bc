import OpGraph.Op.Elementwise

/-!
# Sliding windows

Convolution and pooling move a window over the spatial axes of their data.  With explicit padding the
length of a spatial axis becomes

    (input + padBegin + padEnd - effectiveKernel) / stride + 1

where a kernel of length `k` with dilation `d` covers `(k - 1) * d + 1` elements; the `same` modes give
`input / stride`, rounded up, for every kernel.

The padded length, the length that a kernel covers and the offset of a window are numbers without a limit.
They are meant to fit into 64 bits.
-/

namespace OpGraph

/-- How a window operation is padded. -/
inductive AutoPad where
  /-- By the padding attributes. -/
  | explicit
  /-- Not at all. -/
  | valid
  /-- So that the output has one element for each stride; an odd rest goes to the end. -/
  | sameUpper
  /-- So that the output has one element for each stride; an odd rest goes to the beginning. -/
  | sameLower
  deriving DecidableEq, Repr, Inhabited

/-- Whether a last window that does not fit is dropped or kept. -/
inductive Rounding where
  | floor | ceil
  deriving DecidableEq, Repr, Inhabited

/-- The geometry of a window along one axis. -/
structure Window where
  stride : Nat
  dilation : Nat
  padBegin : Nat
  padEnd : Nat
  deriving DecidableEq, Repr

/-- The quotient rounded up. -/
def ceilDiv (a b : Nat) : Nat :=
  if a % b = 0 then a / b else a / b + 1

namespace Window

/-- The number of elements from the first to the last one that a kernel touches. -/
def effectiveKernel (w : Window) (kernel : Nat) : Nat := (kernel - 1) * w.dilation + 1

/-- The number of window positions on an axis of known length. -/
def positions (w : Window) (rounding : Rounding) (input kernel : Nat) : Except InferError Nat :=
  let padded := input + w.padBegin + w.padEnd
  let covered := w.effectiveKernel kernel
  if kernel = 0 then .error (.shape "kernel length must be positive")
  else if covered > padded then
    .error (.shape s!"effective kernel {covered} is larger than padded input {padded}")
  else
    match rounding with
    | .floor => .ok ((padded - covered) / w.stride + 1)
    | .ceil =>
      -- the last window has to start inside the input or the leading padding
      let count := ceilDiv (padded - covered) w.stride + 1
      .ok (if (count - 1) * w.stride ≥ input + w.padBegin then count - 1 else count)

/-- The window without its padding. -/
def unpadded (w : Window) : Window := { w with padBegin := 0, padEnd := 0 }

/-- The output length of one spatial axis. -/
def outputDim (w : Window) (pad : AutoPad) (rounding : Rounding) (input kernel : Dim) :
    Except InferError Dim :=
  let slide (w : Window) : Except InferError Dim :=
    match input, kernel with
    | .static n, .static k => (w.positions rounding n k).map .static
    | _, _ => .ok .dynamic
  match pad with
  | .sameUpper | .sameLower =>
    match input with
    | .static n => .ok (.static (ceilDiv n w.stride))
    | .dynamic => .ok .dynamic
  | .valid => slide w.unpadded
  | .explicit => slide w

end Window

/-- Fails unless an attribute has one value for each spatial axis. -/
def checkAttribute (name : String) (values : List Nat) (spatial : Nat) : Except InferError Unit :=
  if values.length = spatial then .ok ()
  else .error (.invalid s!"{name} has {values.length} value(s), expected {spatial}")

/-- Fails unless all values of an attribute are positive. -/
def checkPositive (name : String) (values : List Nat) : Except InferError Unit :=
  if 0 ∈ values then .error (.invalid s!"{name} must be positive") else .ok ()

/-- The attributes of a convolution, with one value for each spatial axis. -/
structure Convolution where
  strides : List Nat
  dilations : List Nat
  padsBegin : List Nat
  padsEnd : List Nat
  autoPad : AutoPad
  deriving DecidableEq, Repr

namespace Convolution

/-- Moves by one element in every direction, without dilation or padding. -/
def unit (spatial : Nat) : Convolution where
  strides := List.replicate spatial 1
  dilations := List.replicate spatial 1
  padsBegin := List.replicate spatial 0
  padsEnd := List.replicate spatial 0
  autoPad := .explicit

/-- The window along one spatial axis. -/
def window (c : Convolution) (axis : Nat) : Window where
  stride := c.strides.getD axis 1
  dilation := c.dilations.getD axis 1
  padBegin := c.padsBegin.getD axis 0
  padEnd := c.padsEnd.getD axis 0

/-- Fails unless the attributes fit the number of spatial axes. -/
def check (c : Convolution) (spatial : Nat) : Except InferError Unit := do
  checkAttribute "strides" c.strides spatial
  checkAttribute "dilations" c.dilations spatial
  checkPositive "strides" c.strides
  checkPositive "dilations" c.dilations
  if c.autoPad = .explicit then
    checkAttribute "pads_begin" c.padsBegin spatial
    checkAttribute "pads_end" c.padsEnd spatial

/-- The common rank of data and filters, if either is known. -/
def rank? (data filters : PartialShape) : Except InferError (Option Nat) :=
  match data.rank?, filters.rank? with
  | some a, some b =>
    if a = b then .ok (some a)
    else .error (.shape s!"data rank {a} and filter rank {b} differ")
  | some a, none => .ok (some a)
  | none, b => .ok b

/-- The inference rule of convolution: data of shape `[N, C, spatial…]` with filters of shape
`[K, C, kernel…]` gives `[N, K, windows…]`. -/
def infer (c : Convolution) (inputs : List Desc) : Except InferError (List Desc) :=
  match inputs with
  | [data, filters] => do
    let type ← match data.elementType.merge filters.elementType with
      | some type => pure type
      | none =>
        let (a, b) := (data.elementType.name, filters.elementType.name)
        throw (.type s!"data and filter element types are inconsistent: {a} vs {b}")
    if type = .boolean then
      throw (.type "arguments cannot have boolean element type")
    match ← rank? data.shape filters.shape with
    | none => return [⟨type, .unranked⟩]
    | some rank =>
      if rank < 3 then
        throw (.shape s!"expected rank of at least 3, got {rank}")
      let spatial := rank - 2
      c.check spatial
      let input := data.shape.dimsOfRank rank
      let kernel := filters.shape.dimsOfRank rank
      let channels := input.getD 1 .dynamic
      let filterChannels := kernel.getD 1 .dynamic
      if (channels.merge filterChannels).isNone then
        let (a, b) := (channels.text, filterChannels.text)
        throw (.shape s!"data channels {a} and filter input channels {b} differ")
      let windows ← (List.range spatial).mapM fun i =>
        (c.window i).outputDim c.autoPad .floor
          (input.getD (i + 2) .dynamic) (kernel.getD (i + 2) .dynamic)
      return [⟨type, .ranked (input.getD 0 .dynamic :: kernel.getD 0 .dynamic :: windows)⟩]
  | _ => .error (.inputCount 2 inputs.length)

end Convolution

/-- The attributes of max pooling, with one value for each spatial axis. -/
structure MaxPool where
  strides : List Nat
  padsBegin : List Nat
  padsEnd : List Nat
  kernel : List Nat
  rounding : Rounding
  autoPad : AutoPad
  deriving DecidableEq, Repr

namespace MaxPool

/-- The window along one spatial axis. -/
def window (p : MaxPool) (axis : Nat) : Window where
  stride := p.strides.getD axis 1
  dilation := 1
  padBegin := p.padsBegin.getD axis 0
  padEnd := p.padsEnd.getD axis 0

/-- Fails unless the attributes fit the number of spatial axes. -/
def check (p : MaxPool) (spatial : Nat) : Except InferError Unit := do
  if spatial = 0 then
    throw (.invalid "kernel must not be empty")
  checkAttribute "strides" p.strides spatial
  checkPositive "strides" p.strides
  checkPositive "kernel" p.kernel
  if p.autoPad = .explicit then
    checkAttribute "pads_begin" p.padsBegin spatial
    checkAttribute "pads_end" p.padsEnd spatial

/-- The inference rule of max pooling: data of shape `[N, C, spatial…]` gives `[N, C, windows…]`. -/
def infer (p : MaxPool) (inputs : List Desc) : Except InferError (List Desc) :=
  match inputs with
  | [data] => do
    let spatial := p.kernel.length
    if let some r := data.shape.rank? then
      if r ≠ spatial + 2 then
        throw (.shape s!"data rank {r} does not match kernel rank {spatial}")
    p.check spatial
    let input := data.shape.dimsOfRank (spatial + 2)
    let windows ← (List.range spatial).mapM fun i =>
      (p.window i).outputDim p.autoPad p.rounding
        (input.getD (i + 2) .dynamic) (.static (p.kernel.getD i 0))
    return [⟨data.elementType,
      .ranked (input.getD 0 .dynamic :: input.getD 1 .dynamic :: windows)⟩]
  | _ => .error (.inputCount 1 inputs.length)

end MaxPool

end OpGraph
