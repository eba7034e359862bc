import OpGraph.Pattern.Basic

/-!
# Matching

A pattern is matched from its root down.  The match binds pattern nodes to values of the graph and
only reads the graph.

Among alternatives the first one is chosen whose own test accepts the value; the choice is not
revised when its sub-patterns fail later.
-/

namespace OpGraph

namespace PatternTable

/-- The test of a pattern node on its own: kind and predicate, without a look at the inputs. -/
def accepts (g : Graph) (t : PatternTable) (i : Nat) (h : i < t.size) (v : Output) : Bool :=
  match t.node ⟨i, h⟩ with
  | .any p => p g v
  | .kinds kinds _ p => (g.op? v.node).any (·.kind ∈ kinds) && p g v
  | .either alternatives =>
    alternatives.any fun j => accepts g t j.val (Nat.lt_trans j.isLt h) v
termination_by i
decreasing_by exact j.isLt

end PatternTable

/-- The values bound to pattern nodes, the latest first, and the nodes that produce them in the order
in which they were visited. -/
structure Bindings where
  values : List (Nat × Output) := []
  visited : List NodeId := []
  deriving DecidableEq

namespace Bindings

/-- The value bound to a pattern node. -/
def get? (b : Bindings) (i : Nat) : Option Output := b.values.lookup i

/-- Binds a pattern node to a value. -/
def record (b : Bindings) (i : Nat) (v : Output) : Bindings :=
  { b with values := (i, v) :: b.values }

/-- Binds a pattern node to a value and visits the node that produces it. -/
def bind (b : Bindings) (i : Nat) (v : Output) : Bindings :=
  { b.record i v with
    visited := if v.node ∈ b.visited then b.visited else b.visited ++ [v.node] }

end Bindings

namespace PatternTable

/-- Matches a pattern node against a value and extends the bindings.  A node that is bound already
accepts only the value it is bound to. -/
def extend (g : Graph) (t : PatternTable) (i : Nat) (h : i < t.size) (v : Output) (b : Bindings) :
    Option Bindings :=
  match b.get? i with
  | some bound => if bound = v then some b else none
  | none =>
    if !g.hasOutput v then none
    else
      match t.node ⟨i, h⟩ with
      | .any p => if p g v then some (b.bind i v) else none
      | .kinds _ inputs _ =>
        if !t.accepts g i h v then none
        else if inputs.isEmpty then some (b.bind i v)
        else do
          let n ← g.node? v.node
          if n.inputs.length ≠ inputs.length then none
          else
            (inputs.zip n.inputs).foldlM
              (fun b (j, source) => extend g t j.val (Nat.lt_trans j.isLt h) source b)
              (b.bind i v)
      | .either alternatives => do
        let j ← alternatives.find? fun j => t.accepts g j.val (Nat.lt_trans j.isLt h) v
        let b ← extend g t j.val (Nat.lt_trans j.isLt h) v b
        return b.record i v
termination_by i
decreasing_by all_goals exact j.isLt

end PatternTable

/-- A successful match: the value that the root stands for and the bindings. -/
structure Match where
  root : Output
  bindings : Bindings
  deriving DecidableEq

namespace Match

/-- The value bound to a pattern node. -/
def get? (m : Match) (i : Nat) : Option Output := m.bindings.get? i

/-- The node that produces the value bound to a pattern node. -/
def node? (m : Match) (i : Nat) : Option NodeId := (m.get? i).map (·.node)

/-- The nodes that produce the bound values, each once, in the order in which they were visited. -/
def visited (m : Match) : List NodeId := m.bindings.visited

end Match

namespace Pattern

/-- Matches the root of the pattern against a value. -/
def matchValue? (p : Pattern) (g : Graph) (v : Output) : Option Match :=
  (p.table.extend g p.root.val p.root.isLt v {}).map (⟨v, ·⟩)

/-- Matches the root of the pattern against the outputs of a node; the first that matches counts. -/
def matchNode? (p : Pattern) (g : Graph) (id : NodeId) : Option Match := do
  let n ← g.node? id
  n.values.findSome? (p.matchValue? g)

end Pattern

end OpGraph
