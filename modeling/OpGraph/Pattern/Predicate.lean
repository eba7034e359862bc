import OpGraph.Graph.Basic

/-!
# Predicates on values

A predicate looks at one value of a graph as the graph is at the time of the match: at the number of
its consumers and at its description.  A value that does not exist has no consumers and no
description, so it fails every test of a shape or element type.
-/

namespace OpGraph

/-- A test of one value of a graph. -/
abbrev Predicate := Graph → Output → Bool

namespace Predicate

/-- Accepts every value. -/
def always : Predicate := fun _ _ => true

/-- The value has exactly `n` consumers. -/
def consumersCount (n : Nat) : Predicate := fun g v => g.consumerCount v == n

/-- The value exists and its description passes a test. -/
def ofDesc (p : Desc → Bool) : Predicate := fun g v =>
  match g.desc v with
  | .ok d => p d
  | .error _ => false

/-- The rank and all lengths are known. -/
def hasStaticShape : Predicate := ofDesc (·.shape.isStatic)

/-- The rank is known. -/
def hasStaticRank : Predicate := ofDesc (·.shape.isRanked)

/-- The lengths of all the listed axes are known. -/
def hasStaticDims (axes : List Nat) : Predicate :=
  ofDesc fun d => axes.all fun axis => (d.shape.dim? axis).any Dim.isStatic

/-- The length of one axis is known. -/
def hasStaticDim (axis : Nat) : Predicate := hasStaticDims [axis]

/-- The rank is known to be `n`. -/
def rankEquals (n : Nat) : Predicate := ofDesc fun d => d.shape.rank? = some n

/-- The length of one axis is known to be `n`. -/
def dimEquals (axis n : Nat) : Predicate := ofDesc fun d => d.shape.dim? axis = some (.static n)

/-- The element type is one of the listed ones. -/
def typeMatchesAny (types : List ElementType) : Predicate := ofDesc (·.elementType ∈ types)

/-- The element type is `t`. -/
def typeMatches (t : ElementType) : Predicate := typeMatchesAny [t]

/-- All of the predicates accept the value. -/
def allOf (ps : List Predicate) : Predicate := fun g v => ps.all (· g v)

/-- One of the predicates accepts the value. -/
def anyOf (ps : List Predicate) : Predicate := fun g v => ps.any (· g v)

/-- The predicate refuses the value. -/
def negation (p : Predicate) : Predicate := fun g v => !p g v

end Predicate

end OpGraph
