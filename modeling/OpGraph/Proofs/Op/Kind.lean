import OpGraph.Op.Basic

/-!
# Operations by kind

No two families of built-in operations share a kind, so the kind of a built-in operation tells what it
does up to its attributes.
-/

namespace OpGraph

theorem BinaryOp.kind_injective {a b : BinaryOp} (h : a.kind = b.kind) : a = b := by
  cases a <;> cases b <;> first | rfl | exact absurd h (by decide)

theorem UnaryOp.kind_injective {a b : UnaryOp} (h : a.kind = b.kind) : a = b := by
  cases a <;> cases b <;> first | rfl | exact absurd h (by decide)

theorem BinaryOp.kind_ne_unary (a : BinaryOp) (b : UnaryOp) : a.kind ≠ b.kind := by
  cases a <;> cases b <;> decide

namespace Op

/-- The kinds of operations that are neither unary nor binary. -/
def structuralKinds : List Kind :=
  [.parameter, .constant, .result, .concat, .convert, .shapeOf, .convolution, .maxPool]

theorem unary_kind_notMem (u : UnaryOp) : u.kind ∉ structuralKinds := by
  cases u <;> decide

theorem binary_kind_notMem (b : BinaryOp) : b.kind ∉ structuralKinds := by
  cases b <;> decide

variable {op : Op}

theorem eq_unary_of_kind (hop : op.isBuiltIn) {u : UnaryOp} (h : op.kind = u.kind) :
    op = .unary u := by
  cases op with
  | unary u' => exact congrArg unary (UnaryOp.kind_injective h)
  | binary b rule => exact absurd h (BinaryOp.kind_ne_unary b u)
  | extension e => cases hop
  | _ => exact absurd (h ▸ (by simp [kind, structuralKinds])) (unary_kind_notMem u)

theorem eq_binary_of_kind (hop : op.isBuiltIn) {b : BinaryOp} (h : op.kind = b.kind) :
    ∃ rule, op = .binary b rule := by
  cases op with
  | unary u => exact absurd h.symm (BinaryOp.kind_ne_unary b u)
  | binary b' rule => exact ⟨rule, congrArg (binary · rule) (BinaryOp.kind_injective h)⟩
  | extension e => cases hop
  | _ => exact absurd (h ▸ (by simp [kind, structuralKinds])) (binary_kind_notMem b)

theorem eq_result_of_kind (hop : op.isBuiltIn) (h : op.kind = .result) : op = .result := by
  cases op with
  | unary u => cases u <;> exact absurd h (by decide)
  | binary b rule =>
    have hb : b.kind = .result := h
    cases b <;> exact absurd hb (by decide)
  | extension e => cases hop
  | result => rfl
  | _ =>
    exact absurd h (by simp [kind, Kind.convert, Kind.parameter, Kind.constant, Kind.result,
      Kind.concat, Kind.shapeOf, Kind.convolution, Kind.maxPool])

end Op

end OpGraph
