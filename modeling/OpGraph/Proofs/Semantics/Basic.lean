import OpGraph.Proofs.Graph.Reachable
import OpGraph.Proofs.Pointwise

/-!
# What a graph computes

A semantics says which values a node produces from those it reads.  `Computes v a` says that the value
`a` stands at the output `v` when every node on which `v` hangs does what the semantics says, and
`Arrives r a` that `a` is what the result `r` reads.  Nodes that the semantics gives no values, and
nodes that hang on themselves, compute nothing; nothing computes two values (`Computes.unique`).
-/

namespace OpGraph

/-- The values that the node at a position produces by an operation from the values it reads, if it
produces any. -/
abbrev Semantics (V : Type) := NodeId → Op → List V → Option (List V)

/-- One use of an operation: the values it has read and those it has produced. -/
structure Firing (V : Type) where
  op : Op
  args : List V
  outs : List V

namespace Graph

variable {V : Type}

/-- The value stands at an output of the graph. -/
inductive Computes {V : Type} (S : Semantics V) (g : Graph) : Output → V → Prop
  | intro {v : Output} {w : Node.View} {args outs : List V} {a : V} :
    g.view? v.node = some w → w.inputs.length = args.length →
    (∀ (k : Nat) u b, w.inputs[k]? = some u → args[k]? = some b → Computes S g u b) →
    S v.node w.op args = some outs → outs[v.index]? = some a → Computes S g v a

/-- The node produces values from those that its inputs compute. -/
def Fires (S : Semantics V) (g : Graph) (id : NodeId) (fr : Firing V) : Prop :=
  ∃ w, g.view? id = some w ∧ w.op = fr.op ∧ List.Forall₂ (g.Computes S) w.inputs fr.args ∧
    S id fr.op fr.args = some fr.outs

/-- The values fit the parameters that the boundary hangs on. -/
def AcceptsInputs (describes : Desc → V → Prop) (g : Graph) (inputs : NodeId → V) : Prop :=
  ∀ id type shape, g.Reachable id → g.op? id = some (.parameter type shape) →
    describes ⟨type, shape⟩ (inputs id)

/-- The value is what the first input of a node reads. -/
def Arrives (S : Semantics V) (g : Graph) (id : NodeId) (a : V) : Prop :=
  ∃ v, g.source? ⟨id, 0⟩ = some v ∧ g.Computes S v a

variable {S : Semantics V} {g : Graph}

theorem computes_iff {v : Output} {a : V} :
    g.Computes S v a ↔ ∃ fr, g.Fires S v.node fr ∧ fr.outs[v.index]? = some a := by
  constructor
  · intro h
    rcases h with ⟨hw, hl, hargs, hfire, ha⟩
    exact ⟨⟨_, _, _⟩, ⟨_, hw, rfl, forall₂_iff_getElem?.2 ⟨hl, hargs⟩, hfire⟩, ha⟩
  · intro h
    rcases h with ⟨⟨op, args, outs⟩, ⟨w, hw, rfl, hargs, hfire⟩, ha⟩
    obtain ⟨hl, hargs⟩ := forall₂_iff_getElem?.1 hargs
    exact ⟨hw, hl, hargs, hfire, ha⟩

theorem Computes.unique {v : Output} {a b : V} (ha : g.Computes S v a) (hb : g.Computes S v b) :
    a = b := by
  induction ha generalizing b with
  | @intro v w args outs a hw hl hargs hfire hout ih =>
    cases hb with
    | @intro _ _ args' _ _ hw' hl' hargs' hfire' hout' =>
    obtain rfl := Option.some.inj (hw.symm.trans hw')
    have hsame : args = args' := by
      refine List.ext_getElem (hl.symm.trans hl') fun k hk hk' => ?_
      have hu := List.getElem?_eq_getElem (hl ▸ hk)
      have hc := List.getElem?_eq_getElem hk
      exact ih k _ _ hu hc (hargs' k _ _ hu (List.getElem?_eq_getElem hk'))
    obtain rfl := hsame
    obtain rfl := Option.some.inj (hfire.symm.trans hfire')
    exact Option.some.inj (hout.symm.trans hout')

theorem Fires.op?_eq {id : NodeId} {fr : Firing V} (h : g.Fires S id fr) :
    g.op? id = some fr.op := by
  obtain ⟨w, hw, hop, -⟩ := h
  rw [op?_of_view? hw, hop]

theorem Fires.unique {id : NodeId} {fr fr' : Firing V} (h : g.Fires S id fr)
    (h' : g.Fires S id fr') : fr = fr' := by
  obtain ⟨op, args, outs⟩ := fr
  obtain ⟨op', args', outs'⟩ := fr'
  obtain ⟨w, hw, rfl, hargs, hfire⟩ := h
  obtain ⟨w', hw', rfl, hargs', hfire'⟩ := h'
  obtain rfl := Option.some.inj (hw.symm.trans hw')
  have hunique : Relator.RightUnique (g.Computes S) := fun _ _ _ => Computes.unique
  have hsame : args = args' := List.right_unique_forall₂' hunique hargs hargs'
  obtain rfl := hsame
  obtain rfl := Option.some.inj (hfire.symm.trans hfire')
  rfl

theorem Arrives.unique {id : NodeId} {a b : V} (ha : g.Arrives S id a) (hb : g.Arrives S id b) :
    a = b := by
  obtain ⟨v, hv, ha⟩ := ha
  obtain ⟨u, hu, hb⟩ := hb
  obtain rfl := Option.some.inj (hv.symm.trans hu)
  exact ha.unique hb

end Graph

end OpGraph
