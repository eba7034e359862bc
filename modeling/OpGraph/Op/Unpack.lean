import OpGraph.Op.Basic

/-!
# Unpacking

An operation with one output for each position of the leading axis, defined as an extension.  It is
the only operation whose number of outputs depends on the description of its input.
-/

namespace OpGraph

/-- Takes its input apart along the leading axis.  With `short` the evaluation withholds the last
slice, so it has one value less than inference has announced. -/
def unpack (short : Bool) : Extension where
  kind := ⟨"Unpack", 7⟩
  infer inputs := do
    checkInputCount inputs 1
    match inputs with
    | ⟨type, .ranked (.static n :: rest)⟩ :: _ => return List.replicate n ⟨type, .ranked rest⟩
    | _ => throw (.invalid "leading dimension must be static")
  evaluate inputs :=
    match inputs with
    | [t] =>
      if t.shape.isEmpty then none
      else some (if short then t.slices.dropLast else t.slices)
    | _ => none

end OpGraph
