import OpGraph.Handle

/-!
# Errors

`InferError` is what the inference rule of an operation reports; it knows nothing of the graph.
`GraphError` is what building, checking and changing a graph report.  `InferError.at` names the node
an inference error belongs to, and `passFailed` records the pass that was running.
-/

namespace OpGraph

/-- The failure of an inference rule: incompatible shapes, incompatible element types, or an
attribute or input count that the operation does not accept. -/
inductive InferError where
  | shape (message : String)
  | type (message : String)
  | invalid (message : String)
  deriving DecidableEq, Repr

/-- What an inference error says. -/
def InferError.message : InferError → String
  | shape m | type m | invalid m => m

/-- An operation with the wrong number of inputs. -/
def InferError.inputCount (expected got : Nat) : InferError :=
  .invalid s!"expected {expected} input(s), got {got}"

/-- The two sides of a node. -/
inductive Side where
  | input | output
  deriving DecidableEq, Repr

/-- The word for one side of a node. -/
def Side.text : Side → String
  | input => "input"
  | output => "output"

/-- The failure of a graph operation. -/
inductive GraphError where
  | structuralViolation (message : String)
  | indexOutOfRange (node : String) (side : Side) (index size : Nat)
  | nodeNotFound (id : NodeId)
  | shapeMismatch (node message : String)
  | typeMismatch (node message : String)
  | validationFailed (node message : String)
  | unsupportedPattern (message : String)
  | passFailed (pass : String) (source : GraphError)
  | internal (message : String)
  deriving DecidableEq, Repr, Inhabited

namespace GraphError

/-- What a graph error says. -/
def message : GraphError → String
  | structuralViolation m => s!"Structural violation: {m}"
  | indexOutOfRange node side index size =>
    s!"Index out of range: {side.text} {index} of {node} (node has {size})"
  | nodeNotFound id => s!"Node not found: {NodeId.text id}"
  | shapeMismatch node m => s!"Shape mismatch at {node}: {m}"
  | typeMismatch node m => s!"Type mismatch at {node}: {m}"
  | validationFailed node m => s!"Validation failed at {node}: {m}"
  | unsupportedPattern m => s!"Unsupported pattern: {m}"
  | passFailed pass source => "Pass `" ++ pass ++ "` failed: " ++ source.message
  | internal m => s!"Internal error: {m}"

/-- The error below all records of running passes. -/
def rootCause : GraphError → GraphError
  | passFailed _ source => source.rootCause
  | e => e

/-- An error is structural when it reports a bad handle or an edit that would break the edges. -/
def isStructural : GraphError → Bool
  | structuralViolation _ | indexOutOfRange .. | nodeNotFound _ => true
  | passFailed _ source => source.isStructural
  | _ => false

theorem isStructural_rootCause (e : GraphError) : e.rootCause.isStructural = e.isStructural := by
  induction e with
  | passFailed pass source ih => simpa [rootCause, isStructural] using ih
  | _ => rfl

theorem rootCause_rootCause (e : GraphError) : e.rootCause.rootCause = e.rootCause := by
  induction e with
  | passFailed pass source ih => simpa [rootCause] using ih
  | _ => rfl

end GraphError

/-- An inference error at the node described by `node`. -/
def InferError.at (node : String) : InferError → GraphError
  | shape m => .shapeMismatch node m
  | type m => .typeMismatch node m
  | invalid m => .validationFailed node m

end OpGraph
