import OpGraph.Proofs.Graph.Reachable

/-!
# Graphs that have lost nodes

`g'.Restricts g` says that the nodes of `g'` are nodes of `g` and compute the same from the same inputs.
Names, metadata and readers are left open.  Renaming and releasing nodes lead to such graphs
(`restricts_modifyNode`, `restricts_releaseStack`, `restricts_collectGarbage`).
-/

namespace OpGraph.Graph

/-- The graph has nodes of another one, and these compute what they computed there. -/
structure Restricts (g' g : Graph) : Prop where
  wellFormed : g'.WellFormed
  size_eq : g'.nodes.size = g.nodes.size
  parameters_eq : g'.parameters = g.parameters
  results_eq : g'.results = g.results
  view_eq : ∀ {id w}, g'.view? id = some w → g.view? id = some w

theorem WellFormed.restricts {g : Graph} (h : g.WellFormed) : g.Restricts g :=
  ⟨h, rfl, rfl, rfl, id⟩

theorem Restricts.trans {g g' g'' : Graph} (h' : g''.Restricts g') (h : g'.Restricts g) :
    g''.Restricts g :=
  ⟨h'.wellFormed, h'.size_eq.trans h.size_eq, h'.parameters_eq.trans h.parameters_eq,
    h'.results_eq.trans h.results_eq, fun hw => h.view_eq (h'.view_eq hw)⟩

theorem Restricts.contains {g g' : Graph} (h : g'.Restricts g) {id : NodeId}
    (hid : g'.contains id) : g.contains id := by
  obtain ⟨w, hw⟩ := contains_iff_view.1 hid
  exact contains_of_view? (h.view_eq hw)

theorem restricts_modifyNode {g : Graph} (h : g.WellFormed) {id : NodeId} {f : Node → Node}
    (hf : ∀ n, (f n).id = n.id ∧ (f n).op = n.op ∧ (f n).inputs = n.inputs ∧
      (f n).outputs = n.outputs) : (g.modifyNode id f).Restricts g where
  wellFormed := by
    refine wellFormed_modifyNode h fun n _ => ?_
    obtain ⟨hid, hop, hin, hout⟩ := hf n
    exact ⟨hid, by rw [Node.kind, hop, Node.kind], hin, by rw [hout]⟩
  size_eq := size_nodes_modifyNode ..
  parameters_eq := rfl
  results_eq := rfl
  view_eq := by
    intro j w hw
    rwa [view?_relabel hf] at hw

theorem restricts_detach {g : Graph} (h : g.WellFormed) {id : NodeId} (hid : g.isReleasable id) :
    (g.detach id).Restricts g where
  wellFormed := wellFormed_detach h hid
  size_eq := size_detach ..
  parameters_eq := parameters_detach ..
  results_eq := results_detach ..
  view_eq := by
    intro j w hw
    rw [view?_detach] at hw
    split at hw
    next => cases hw
    next => exact hw

theorem restricts_releaseStack {g : Graph} (h : g.WellFormed) (stack : List NodeId) :
    (g.releaseStack stack).Restricts g := by
  fun_induction releaseStack g stack with
  | case1 => exact h.restricts
  | case2 g id stack hid ih =>
    have hd := restricts_detach h hid
    exact (ih hd.wellFormed).trans hd
  | case3 g id stack _ ih => exact ih h

theorem restricts_collectGarbage {g : Graph} (h : g.WellFormed) :
    g.collectGarbage.Restricts g := by
  obtain ⟨hparameters, hresults, hsize, -⟩ := counts_foldl_detach g.garbage g
  refine ⟨wellFormed_collectGarbage h, hsize, hparameters, hresults, fun {id w} hw => ?_⟩
  rw [collectGarbage, view?_foldl_detach] at hw
  split at hw
  next => cases hw
  next => exact hw

end OpGraph.Graph
