import OpGraph.Proofs.Graph.Restriction

/-!
# Removing nodes

`g.without gone` is what is left of a graph when some nodes are gone: their slots are empty, and what
stays is as it was except that it is not read by them any more.  Detaching nodes one by one leads there
(`detach_without`, `foldl_detach_without`), and it does not matter in which order (`without_congr`).
-/

namespace OpGraph

namespace Node

/-- What is known of a node besides what it computes and who reads it. -/
def label (n : Node) : NodeId × Option String × Metadata := (n.id, n.givenName, n.metadata)

theorem zipWith_descs_targets (n : Node) :
    n.descs.zipWith Slot.mk (n.outputs.map (·.targets)) = n.outputs := by
  rw [descs, List.zipWith_map, List.zipWith_self]
  exact List.map_id _

theorem eq_of_view {n m : Node} (hview : n.view = m.view)
    (htargets : n.outputs.map (·.targets) = m.outputs.map (·.targets)) (hlabel : n.label = m.label) :
    n = m := by
  obtain ⟨hop, hinputs, hdescs⟩ := View.mk.inj hview
  have houtputs : n.outputs = m.outputs := by
    rw [← n.zipWith_descs_targets, hdescs, htargets, m.zipWith_descs_targets]
  simp only [label, Prod.mk.injEq] at hlabel
  cases n
  cases m
  simp_all only

/-- The node with the removed nodes struck from its target lists. -/
def withoutReaders (n : Node) (gone : List NodeId) : Node :=
  { n with outputs := n.outputs.map fun s => { s with targets := s.targets.filter (·.node ∉ gone) } }

theorem view_withoutReaders (n : Node) (gone : List NodeId) :
    (n.withoutReaders gone).view = n.view := by
  simp [view, descs, withoutReaders, Function.comp_def]

end Node

namespace Graph

variable {g g' : Graph} {gone gone' : List NodeId} {id : NodeId}

/-- Two graphs are equal if they agree in both views and in what these leave out. -/
theorem eq_of_views (hname : g.name = g'.name) (hsize : g.nodes.size = g'.nodes.size)
    (hparameters : g.parameters = g'.parameters) (hresults : g.results = g'.results)
    (hreleased : g.released = g'.released) (hview : ∀ id, g.view? id = g'.view? id)
    (htargets : ∀ v, g.targets? v = g'.targets? v)
    (hlabel : ∀ id, (g.node? id).map Node.label = (g'.node? id).map Node.label) : g = g' := by
  have hnode : ∀ id, g.node? id = g'.node? id := by
    intro id
    have hv := hview id
    have hl := hlabel id
    have ht : ∀ k, g.targets? ⟨id, k⟩ = g'.targets? ⟨id, k⟩ := fun k => htargets ⟨id, k⟩
    simp only [view?, targets?] at hv ht
    cases hn : g.node? id with
    | none =>
      rw [hn, Option.map_none] at hv
      exact (Option.map_eq_none_iff.1 hv.symm).symm
    | some n =>
      cases hm : g'.node? id with
      | none => simp [hn, hm] at hv
      | some m =>
        simp only [hn, hm, Option.map_some, Option.some.injEq, Option.bind_some] at hv hl ht
        refine congrArg some (Node.eq_of_view hv (List.ext_getElem? fun k => ?_) hl)
        rw [List.getElem?_map, List.getElem?_map]
        exact ht k
  have hnodes : g.nodes = g'.nodes := by
    refine Array.ext hsize fun k hk hk' => ?_
    have hk'' := hnode k
    rwa [node?, node?, Array.getElem?_eq_getElem hk, Array.getElem?_eq_getElem hk'] at hk''
  cases g
  cases g'
  simp_all only

/-! ### Without some nodes -/

/-- The graph without some nodes, and without their inputs in the target lists of the others. -/
def without (g : Graph) (gone : List NodeId) : Graph :=
  { g with
    nodes := g.nodes.mapIdx fun id n? =>
      if id ∈ gone then none else n?.map (·.withoutReaders gone)
    released := g.released + gone.length }

@[simp] theorem size_without (g : Graph) (gone : List NodeId) :
    (g.without gone).nodes.size = g.nodes.size :=
  Array.size_mapIdx

theorem node?_without (g : Graph) (gone : List NodeId) (id : NodeId) :
    (g.without gone).node? id =
      if id ∈ gone then none else (g.node? id).map (·.withoutReaders gone) := by
  rw [without, node?, node?, Array.getElem?_mapIdx]
  cases g.nodes[id]? with
  | none => simp
  | some n? =>
    rw [Option.map_some, Option.join_some, Option.join_some]

theorem view?_without (g : Graph) (gone : List NodeId) (id : NodeId) :
    (g.without gone).view? id = if id ∈ gone then none else g.view? id := by
  rw [view?, node?_without]
  split
  · rfl
  · rw [Option.map_map, view?]
    exact congrArg (Option.map · _) (funext fun n => n.view_withoutReaders gone)

theorem targets?_without (g : Graph) (gone : List NodeId) (v : Output) :
    (g.without gone).targets? v =
      if v.node ∈ gone then none else (g.targets? v).map (·.filter (·.node ∉ gone)) := by
  rw [targets?, node?_without, targets?]
  split
  · rfl
  · cases g.node? v.node with
    | none => rfl
    | some n =>
      rw [Option.map_some, Option.bind_some, Option.bind_some, Node.withoutReaders,
        List.getElem?_map, Option.map_map, Option.map_map]
      rfl

theorem label_without (g : Graph) (gone : List NodeId) (id : NodeId) :
    ((g.without gone).node? id).map Node.label =
      if id ∈ gone then none else (g.node? id).map Node.label := by
  rw [node?_without]
  split
  · rfl
  · rw [Option.map_map]
    rfl

theorem source?_without (g : Graph) (gone : List NodeId) (i : Input) :
    (g.without gone).source? i = if i.node ∈ gone then none else g.source? i := by
  rw [source?_eq_view, source?_eq_view, view?_without]
  split <;> rfl

theorem contains_without : (g.without gone).contains id ↔ id ∉ gone ∧ g.contains id := by
  rw [contains_eq_view, contains_eq_view, view?_without]
  split
  next h => simp [h]
  next h => simp [h]

theorem produces_without {p : NodeId} :
    (g.without gone).Produces p id ↔ id ∉ gone ∧ g.Produces p id := by
  rw [produces_iff_view, produces_iff_view, view?_without]
  split
  next h => simp [h]
  next h => simp [h]

theorem without_nil (g : Graph) : g.without [] = g := by
  refine eq_of_views rfl (size_without ..) rfl rfl rfl (fun id => ?_) (fun v => ?_) fun id => ?_
  · rw [view?_without, if_neg List.not_mem_nil]
  · rw [targets?_without, if_neg List.not_mem_nil]
    cases g.targets? v <;> simp
  · rw [label_without, if_neg List.not_mem_nil]

/-- It does not matter in which order nodes are removed. -/
theorem without_congr (hmem : ∀ id, id ∈ gone ↔ id ∈ gone') (hlength : gone.length = gone'.length) :
    g.without gone = g.without gone' := by
  refine eq_of_views rfl ?_ rfl rfl ?_ (fun id => ?_) (fun v => ?_) fun id => ?_
  · rw [size_without, size_without]
  · rw [without, without, hlength]
  · simp only [view?_without, hmem]
  · simp only [targets?_without, hmem]
  · simp only [label_without, hmem]

/-! ### One node after the other -/

/-- What a node has besides its readers stays. -/
theorem map_node?_detach {α : Type} {φ : Node → α}
    (hφ : ∀ n outputs, φ { n with outputs := outputs } = φ n) (g : Graph) (id j : NodeId) :
    ((g.detach id).node? j).map φ = if j = id then none else (g.node? j).map φ := by
  cases hn : g.node? id with
  | none =>
    rw [detach_of_gone hn]
    split
    next hj => rw [hj, hn, Option.map_none]
    next => rfl
  | some n =>
    have hdrop : ∀ (g : Graph) (v : Output) (i : Input),
        ((g.dropTarget v i).node? j).map φ = (g.node? j).map φ := fun g v i =>
      map_modifyNode (fun n => hφ n _) g v.node j
    rw [detach_eq hn, foldl_dropTarget_keeps (φ := fun g => (g.node? j).map φ) hdrop,
      node?_vacate]
    split <;> rfl

@[simp] theorem name_detach (g : Graph) (id : NodeId) : (g.detach id).name = g.name :=
  detach_keeps (φ := Graph.name) (fun _ _ _ => rfl) fun _ => rfl

/-- One more node is removed. -/
theorem detach_without (h : g.WellFormed) (hid : id ∉ gone) (hlive : g.contains id) :
    (g.without gone).detach id = g.without (id :: gone) := by
  have hlive' : (g.without gone).contains id := contains_without.2 ⟨hid, hlive⟩
  refine eq_of_views ?_ ?_ ?_ ?_ ?_ (fun j => ?_) (fun v => ?_) fun j => ?_
  · exact name_detach ..
  · rw [size_detach, size_without, size_without]
  · exact parameters_detach ..
  · exact results_detach ..
  · rw [released_detach hlive']
    simp only [without, List.length_cons, Nat.add_assoc]
  · rw [view?_detach, view?_without, view?_without]
    by_cases hj : j = id <;> simp [hj]
  · obtain ⟨n, hn⟩ := contains_iff.1 hlive'
    rw [targets?_detach hn, targets?_without, targets?_without]
    by_cases hv : v.node = id
    · simp [hv]
    by_cases hv' : v.node ∈ gone
    · simp [hv, hv']
    · rw [if_neg hv, if_neg hv', if_neg (by simp [hv, hv'])]
      cases hts : g.targets? v with
      | none => rfl
      | some ts =>
        rw [Option.map_some, Option.map_some, Option.map_some, List.filter_filter]
        refine congrArg some (List.filter_congr fun t ht => ?_)
        have hread : g.source? t = some v := h.target_reads hts ht
        rw [source?_without, ← Bool.decide_and, decide_eq_decide, List.mem_cons, not_or]
        by_cases htid : t.node = id
        · simp [htid, hid, ← hread]
        · simp [htid]
  · rw [map_node?_detach fun _ _ => rfl, label_without, label_without]
    by_cases hj : j = id <;> simp [hj]

/-- Several more nodes are removed. -/
theorem foldl_detach_without (h : g.WellFormed) {l : List NodeId} (hl : l.Nodup)
    (hmem : ∀ id ∈ l, id ∉ gone ∧ g.contains id) :
    l.foldl detach (g.without gone) = g.without (l ++ gone) := by
  induction l generalizing gone with
  | nil => rfl
  | cons id l ih =>
    obtain ⟨hidl, hl⟩ := List.nodup_cons.1 hl
    obtain ⟨hid, hmem⟩ := List.forall_mem_cons.1 hmem
    have hmem' : ∀ j ∈ l, j ∉ id :: gone ∧ g.contains j := by
      intro j hj
      have hne : j ≠ id := fun heq => hidl (heq ▸ hj)
      exact ⟨by simp [hne, (hmem j hj).1], (hmem j hj).2⟩
    rw [List.foldl_cons, detach_without h hid.1 hid.2, ih hl hmem']
    have hperm : (l ++ id :: gone).Perm (id :: l ++ gone) := List.perm_middle
    exact without_congr (fun _ => hperm.mem_iff) hperm.length_eq

end Graph

end OpGraph
