import OpGraph.Pattern.Predicate

/-!
# Patterns

A pattern is a small directed acyclic graph that describes the surroundings of a value.  Its nodes are
numbered and each refers only to nodes with smaller numbers; a node that is referred to more than once
has to be bound to the same value each time.
-/

namespace OpGraph

/-- The node with number `i` of a pattern.  It can refer to the nodes before it. -/
inductive PatternNode (i : Nat) where
  /-- Any value that the predicate accepts. -/
  | any (accepts : Predicate)
  /-- A value produced by an operation of one of the kinds.  Unless the list of sub-patterns is empty
  there has to be one for each input of the operation. -/
  | kinds (kinds : List Kind) (inputs : List (Fin i)) (accepts : Predicate)
  /-- The first alternative that accepts the value. -/
  | either (alternatives : List (Fin i))

/-- The nodes of a pattern. -/
structure PatternTable where
  size : Nat
  node : (i : Fin size) → PatternNode i

/-- A pattern: its nodes and the one that stands for the value to match. -/
structure Pattern where
  table : PatternTable
  root : Fin table.size

namespace PatternTable

/-- The table without nodes. -/
def empty : PatternTable := ⟨0, nofun⟩

/-- Adds a node at the end. -/
def push (t : PatternTable) (n : PatternNode t.size) : PatternTable where
  size := t.size + 1
  node i :=
    if h : i.val < t.size then t.node ⟨i.val, h⟩
    else cast (congrArg PatternNode (by omega)) n

/-- References to nodes of the table. -/
def references (t : PatternTable) (ids : List Nat) : Except GraphError (List (Fin t.size)) :=
  ids.mapM fun j =>
    if h : j < t.size then .ok ⟨j, h⟩
    else .error (.unsupportedPattern s!"reference to the undefined sub-pattern {j}")

/-- Adds a node for values of any kind. -/
def addAny (t : PatternTable) (accepts : Predicate) : PatternTable := t.push (.any accepts)

/-- Adds a node for values produced by an operation of one of the kinds; a union of no kinds could
never match and is refused. -/
def addKinds (t : PatternTable) (kinds : List Kind) (inputs : List Nat) (accepts : Predicate) :
    Except GraphError PatternTable := do
  if kinds.isEmpty then
    throw (.unsupportedPattern "type union without any operation type")
  let inputs ← t.references inputs
  return t.push (.kinds kinds inputs accepts)

/-- Adds a node with alternatives; there has to be one. -/
def addEither (t : PatternTable) (alternatives : List Nat) : Except GraphError PatternTable := do
  if alternatives.isEmpty then
    throw (.unsupportedPattern "Or pattern without alternatives")
  let alternatives ← t.references alternatives
  return t.push (.either alternatives)

/-- The sub-patterns for the inputs of an operation; other nodes have none. -/
def inputs (t : PatternTable) (i : Fin t.size) : List Nat :=
  match t.node i with
  | .kinds _ inputs _ => inputs.map (·.val)
  | _ => []

/-- The pattern with the given root. -/
def toPattern (t : PatternTable) (root : Nat) : Except GraphError Pattern :=
  if h : root < t.size then .ok ⟨t, ⟨root, h⟩⟩
  else .error (.unsupportedPattern s!"reference to the undefined sub-pattern {root}")

end PatternTable

namespace Pattern

/-- Any value produced by an operation of the given kind. -/
def ofKind (kind : Kind) : Pattern where
  table := { size := 1, node := fun _ => .kinds [kind] [] .always }
  root := ⟨0, Nat.zero_lt_one⟩

/-- An operation of the given kind that reads one value: `0` is the value and `1` the result. -/
def unary (kind : Kind) : Pattern where
  table :=
    { size := 2
      node := fun
        | 0 => .any .always
        | 1 => .kinds [kind] [⟨0, by decide⟩] .always }
  root := ⟨1, Nat.one_lt_two⟩

end Pattern

end OpGraph
