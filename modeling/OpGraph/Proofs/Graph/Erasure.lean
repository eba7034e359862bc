import OpGraph.Proofs.Graph.Order

/-!
# Changing every node at once

`Graph.mapNodes` applies one function to all nodes.  Two graphs that become equal when part of every node
is erased differ in that part only; `node?_mapNodes` and `order_eq_of_mapNodes_eq` say what such graphs
still have in common.
-/

namespace OpGraph.Graph

/-- The graph with the same change made to every node. -/
def mapNodes (g : Graph) (f : Node → Node) : Graph :=
  { g with nodes := g.nodes.map (Option.map f) }

variable {g g' : Graph} {f : Node → Node}

@[simp] theorem size_mapNodes (g : Graph) (f : Node → Node) :
    (g.mapNodes f).nodes.size = g.nodes.size := by
  simp [mapNodes]

@[simp] theorem node?_mapNodes (g : Graph) (f : Node → Node) (id : NodeId) :
    (g.mapNodes f).node? id = (g.node? id).map f := by
  rw [node?, node?, mapNodes, Array.getElem?_map]
  cases g.nodes[id]? <;> rfl

@[simp] theorem contains_mapNodes (g : Graph) (f : Node → Node) (id : NodeId) :
    (g.mapNodes f).contains id = g.contains id := by
  rw [contains, contains, node?_mapNodes, Option.isSome_map]

/-- A change of one node that the function does not see. -/
theorem mapNodes_modifyNode_eq {id : NodeId} {k : Node → Node}
    (h : ∀ n, g.node? id = some n → f (k n) = f n) : (g.modifyNode id k).mapNodes f = g.mapNodes f := by
  have hnodes : (g.nodes.modify id (Option.map k)).map (Option.map f) = g.nodes.map (Option.map f) := by
    refine Array.ext (by simp) fun j hj _ => ?_
    have hlt : j < g.nodes.size := by simpa using hj
    rw [Array.getElem_map, Array.getElem_map, Array.getElem_modify]
    split
    next hid =>
      subst hid
      cases hn : g.nodes[id] with
      | none => rfl
      | some n =>
        have hnode : g.node? id = some n := by rw [node?, Array.getElem?_eq_getElem hlt, hn]; rfl
        rw [Option.map_some, Option.map_some, Option.map_some, h n hnode]
    next => rfl
  rw [mapNodes, mapNodes, modifyNode, hnodes]

/-- A change of one node commutes with the change of all. -/
theorem mapNodes_modifyNode (g : Graph) (id : NodeId) {k k' : Node → Node}
    (h : ∀ n, f (k n) = k' (f n)) :
    (g.modifyNode id k).mapNodes f = (g.mapNodes f).modifyNode id k' := by
  have hnodes : (g.nodes.modify id (Option.map k)).map (Option.map f) =
      (g.nodes.map (Option.map f)).modify id (Option.map k') := by
    refine Array.ext (by simp) fun j hj _ => ?_
    have hlt : j < g.nodes.size := by simpa using hj
    rw [Array.getElem_map, Array.getElem_modify, Array.getElem_modify, Array.getElem_map]
    split
    next => cases g.nodes[j] <;> simp [h]
    next => rfl
  rw [mapNodes, mapNodes, modifyNode, modifyNode, hnodes]

section Eq

variable (h : g.mapNodes f = g'.mapNodes f)

include h

theorem parameters_eq_of_mapNodes_eq : g.parameters = g'.parameters := by
  show (g.mapNodes f).parameters = (g'.mapNodes f).parameters
  rw [h]

theorem results_eq_of_mapNodes_eq : g.results = g'.results := by
  show (g.mapNodes f).results = (g'.mapNodes f).results
  rw [h]

theorem map_node?_eq_of_mapNodes_eq (id : NodeId) : (g.node? id).map f = (g'.node? id).map f := by
  rw [← node?_mapNodes, ← node?_mapNodes, h]

theorem contains_eq_of_mapNodes_eq (id : NodeId) : g.contains id = g'.contains id := by
  rw [← contains_mapNodes, h, contains_mapNodes]

/-- A node of one graph has a counterpart in the other. -/
theorem exists_node?_of_mapNodes_eq {id : NodeId} {n : Node} (hn : g.node? id = some n) :
    ∃ n', g'.node? id = some n' ∧ f n = f n' := by
  have hmap := map_node?_eq_of_mapNodes_eq h id
  rw [hn] at hmap
  obtain ⟨n', hn', heq⟩ := Option.map_eq_some_iff.1 hmap.symm
  exact ⟨n', hn', heq.symm⟩

theorem node?_eq_none_of_mapNodes_eq {id : NodeId} (hn : g.node? id = none) :
    g'.node? id = none := by
  have hmap := map_node?_eq_of_mapNodes_eq h id
  rw [hn] at hmap
  exact Option.map_eq_none_iff.1 hmap.symm

variable (hf : ∀ n, (f n).inputs = n.inputs)

include hf

theorem sourcesOf_eq_of_mapNodes_eq (id : NodeId) : g.sourcesOf id = g'.sourcesOf id := by
  rw [sourcesOf, sourcesOf]
  cases hn : g.node? id with
  | none => rw [node?_eq_none_of_mapNodes_eq h hn]
  | some n =>
    obtain ⟨n', hn', heq⟩ := exists_node?_of_mapNodes_eq h hn
    rw [hn']
    show n.inputs.map (·.node) = n'.inputs.map (·.node)
    rw [← hf n, heq, hf n']

theorem produces_iff_of_mapNodes_eq {p id : NodeId} : g.Produces p id ↔ g'.Produces p id := by
  rw [Produces, Produces, sourcesOf_eq_of_mapNodes_eq h hf]

theorem reachable_iff_of_mapNodes_eq {id : NodeId} : g.Reachable id ↔ g'.Reachable id := by
  have hproduces : g.Produces = g'.Produces := by
    funext p id
    exact propext (produces_iff_of_mapNodes_eq h hf)
  rw [reachable_iff, reachable_iff, parameters_eq_of_mapNodes_eq h, results_eq_of_mapNodes_eq h,
    hproduces]

/-- Graphs with the same edges have the same order. -/
theorem order_eq_of_mapNodes_eq : g.order = g'.order :=
  order_congr_of_sources (parameters_eq_of_mapNodes_eq h) (results_eq_of_mapNodes_eq h)
    fun {id} _ => ⟨contains_eq_of_mapNodes_eq h id, sourcesOf_eq_of_mapNodes_eq h hf id⟩

end Eq

end OpGraph.Graph
