import OpGraph.Proofs.Edit.Steps
import OpGraph.Proofs.Graph.Restriction

/-!
# Invariants of edits

Whatever handles an edit is given, and whether it answers or fails on the way, it makes a few kinds of changes
only.  A property that passes on through those of the nodes that are there is `Persistent`, and every edit that
makes no node keeps it (`Persistent.keeps_connect`, `Persistent.keeps_revalidate` and their companions below).  One
that passes on when a node comes as well is an `Invariant`, and every edit keeps it.  Being well-formed is one
(`invariant_wellFormed`).
-/

namespace OpGraph.Edit

variable {α β : Type} {P : Graph → Prop}

/-- The property is about well-formed graphs and passes on through the changes that edits make to the nodes
that are there. -/
structure Persistent (P : Graph → Prop) : Prop where
  wellFormed : ∀ {g}, P g → g.WellFormed
  /-- A reader moves to another node. -/
  rewire : ∀ {g i old new}, P g → g.source? i = some old → old ≠ new → new.node ≠ i.node →
    (∃ ts, g.targets? new = some ts) → P (g.rewire i old new)
  /-- A node changes in all but its position, its kind, and its edges. -/
  modifyNode : ∀ {g id} {f : Node → Node}, P g → (∀ n, g.node? id = some n → (f n).id = n.id ∧
    (f n).kind = n.kind ∧ (f n).inputs = n.inputs ∧
    (f n).outputs.map (·.targets) = n.outputs.map (·.targets)) → P (g.modifyNode id f)
  /-- Nodes go, or the boundary or the name of the graph changes. -/
  reduce : ∀ {g g'}, P g → g'.WellFormed → g'.nodes.size = g.nodes.size →
    (∀ {id w}, g'.view? id = some w → g.view? id = some w) → P g'

/-- The property passes on through all changes that edits make. -/
structure Invariant (P : Graph → Prop) : Prop extends Persistent P where
  /-- A node comes. -/
  insert : ∀ {g op inputs descs}, P g → g.inferNew op inputs = .ok descs → P (g.insert op inputs descs)

/-- Edits keep graphs well-formed. -/
theorem invariant_wellFormed : Invariant Graph.WellFormed where
  wellFormed := id
  insert hg hd := Graph.wellFormed_insert hg fun _ hv => exists_targets_of_inferNew hd hv
  rewire hg hi hne hnode hnew := Graph.wellFormed_rewire hg hi hne hnode hnew
  modifyNode hg hf := Graph.wellFormed_modifyNode hg hf
  reduce _ hg' _ _ := hg'

theorem keeps_of_cases {e : Edit α}
    (h : ∀ g, P g → (∃ err, e g = .error err g) ∨ ∃ a g', e g = .ok a g' ∧ P g') :
    Keeps P P e := by
  intro g hg
  obtain ⟨err, he⟩ | ⟨a, g', he, hg'⟩ := h g hg
  · rw [he]
    exact hg
  · rw [he]
    exact hg'

theorem keeps_ask (f : Graph → Except GraphError α) : Keeps P P (query f) :=
  keeps_query (fun _ hg => hg) f

theorem map_targets_withDescs {n : Node} {descs : List Desc}
    (h : descs.length = n.outputs.length) :
    (n.withDescs descs).outputs.map (·.targets) = n.outputs.map (·.targets) := by
  show (n.outputs.zipWith (fun s d => { s with desc := d }) descs).map (·.targets) = _
  rw [List.map_zipWith]
  refine List.ext_getElem (by simp [h]) fun k hk₁ hk₂ => ?_
  rw [List.getElem_zipWith, List.getElem_map]

/-- The graph may get another name, and fewer of its results may be declared. -/
theorem wellFormed_redeclare {g : Graph} (hg : g.WellFormed) (name : String) {results : List NodeId}
    (h : results.Sublist g.results) : ({ g with name, results }).WellFormed where
  id_eq := hg.id_eq
  source_exists := hg.source_exists
  count_targets := hg.count_targets
  parameters_nodup := hg.parameters_nodup
  mem_parameters := hg.mem_parameters
  results_nodup := hg.results_nodup.sublist h
  kind_of_mem_results hr := hg.kind_of_mem_results (h.subset hr)
  nodeCount_add_released := hg.nodeCount_add_released

namespace Persistent

variable (hP : Persistent P)

include hP

theorem restrict {g g' : Graph} (hg : P g) (h : g'.Restricts g) : P g' :=
  hP.reduce hg h.wellFormed h.size_eq h.view_eq

/-! ### Single steps -/

theorem keeps_connect (i : Input) (new : Output) : Keeps P P (connect i new) := by
  refine keeps_of_cases fun g hg => ?_
  obtain herr | ⟨old, hold, hnew, hnode, hok⟩ := connect_cases i new g
  · exact Or.inl herr
  refine Or.inr ⟨_, _, hok, ?_⟩
  split
  next => exact hg
  next hne => exact hP.rewire hg hold hne hnode hnew

theorem keeps_updateNode (id : NodeId) {f : Node → Node}
    (hf : ∀ n, (f n).id = n.id ∧ (f n).kind = n.kind ∧ (f n).inputs = n.inputs ∧
      (f n).outputs.map (·.targets) = n.outputs.map (·.targets)) : Keeps P P (updateNode id f) := by
  refine keeps_of_cases fun g hg => ?_
  obtain herr | ⟨-, hok⟩ := updateNode_cases id f g
  · exact Or.inl herr
  · exact Or.inr ⟨_, _, hok, hP.modifyNode hg fun n _ => hf n⟩

theorem keeps_setName (id : NodeId) (name : String) : Keeps P P (setName id name) :=
  hP.keeps_updateNode id fun _ => ⟨rfl, rfl, rfl, rfl⟩

theorem keeps_setMetadata (id : NodeId) (key : String) (value : MetaValue) :
    Keeps P P (setMetadata id key value) :=
  hP.keeps_updateNode id fun _ => ⟨rfl, rfl, rfl, rfl⟩

/-- An operation may change if its kind does not. -/
theorem keeps_updateOp (id : NodeId) {f : Op → Option Op}
    (hf : ∀ op op', f op = some op' → op'.kind = op.kind) : Keeps P P (updateOp id f) := by
  intro g hg
  rw [updateOp]
  rw [get_bind]
  cases h : (g.op? id).bind f with
  | none => exact hg
  | some op =>
    refine hP.modifyNode hg fun n hn => ⟨rfl, ?_, rfl, rfl⟩
    rw [Graph.op?, hn, Option.map_some, Option.bind_some] at h
    exact hf n.op op h

theorem keeps_rename (name : String) : Keeps P P (rename name) :=
  keeps_modify fun _ hg => hP.reduce hg (wellFormed_redeclare (hP.wellFormed hg) name (.refl _)) rfl fun hw => hw

theorem keeps_revalidate (id : NodeId) : Keeps P P (revalidate id) := by
  refine keeps_of_cases fun g hg => ?_
  obtain herr | ⟨outs, changed, houts, hok⟩ := revalidate_cases id g
  · exact Or.inl herr
  refine Or.inr ⟨_, _, hok, hP.modifyNode hg fun n hn => ?_⟩
  obtain ⟨m, ds, hm, -, -, hlen⟩ := reinfer_eq_ok.1 houts
  rw [hn, Option.some.injEq] at hm
  subst hm
  exact ⟨rfl, rfl, rfl, map_targets_withDescs hlen⟩

theorem keeps_validate : Keeps P P validate :=
  keeps_bind keeps_get fun _ => keeps_forM fun id _ => keeps_discard (hP.keeps_revalidate id)

/-! ### Replacement -/

theorem keeps_replaceOutput (old new : Output) : Keeps P P (replaceOutput old new) := by
  rw [replaceOutput]
  refine keeps_bind (keeps_ask _) fun _ => keeps_bind (keeps_ask _) fun targets => ?_
  split
  · refine keeps_bind (keeps_ask _) fun _ => keeps_bind (keeps_ask _) fun _ => ?_
    refine keeps_bind (keeps_forM fun i _ => hP.keeps_connect i new) fun _ => ?_
    split
    · exact hP.keeps_setName new.node _
    · exact keeps_pure _
  · exact keeps_pure _

theorem keeps_replaceNodeWith (old : NodeId) (values : List Output) :
    Keeps P P (replaceNodeWith old values) := by
  rw [replaceNodeWith]
  refine keeps_bind (keeps_ask _) fun n => ?_
  dsimp only
  have hrest : Keeps P P (do
      values.forM fun v => discard (query (·.desc v))
      values.zipIdx.forM fun e => replaceOutput ⟨old, e.2⟩ e.1) := by
    refine keeps_bind (keeps_forM fun v _ => keeps_discard (keeps_ask _)) fun _ => ?_
    exact keeps_forM fun e _ => hP.keeps_replaceOutput ⟨old, e.2⟩ e.1
  split
  · exact keeps_bind (keeps_throw (fun _ hg => hg) _) fun _ => hrest
  · exact hrest

theorem keeps_replaceNode (old new : NodeId) : Keeps P P (replaceNode old new) := by
  rw [replaceNode]
  dsimp only
  have hrest : Keeps P P (do
      let n ← query (·.node new)
      replaceNodeWith old n.values) :=
    keeps_bind (keeps_ask _) fun n => hP.keeps_replaceNodeWith old n.values
  split
  · exact keeps_bind (keeps_ask _) fun _ =>
      keeps_bind (keeps_throw (fun _ hg => hg) _) fun _ => hrest
  · exact hrest

theorem keeps_copyMetadata (sources targets : List NodeId) :
    Keeps P P (copyMetadata sources targets) := by
  rw [copyMetadata]
  refine keeps_bind (keeps_mapM fun _ _ => keeps_ask _) fun nodes => ?_
  refine keeps_bind (keeps_forM fun _ _ => keeps_discard (keeps_ask _)) fun _ => ?_
  exact keeps_forM fun id _ => hP.keeps_updateNode id fun _ => ⟨rfl, rfl, rfl, rfl⟩

theorem keeps_fuse (group : List NodeId) (root fused : NodeId) :
    Keeps P P (fuse group root fused) := by
  rw [fuse]
  refine keeps_bind (keeps_mapM fun _ _ => keeps_ask _) fun sets => ?_
  refine keeps_bind (keeps_ask _) fun rootNode => ?_
  refine keeps_bind (hP.keeps_copyMetadata group [fused]) fun _ => ?_
  refine keeps_bind (hP.keeps_replaceNode root fused) fun _ => ?_
  refine keeps_bind (hP.keeps_setMetadata fused _ _) fun _ => ?_
  refine keeps_bind (keeps_ask _) fun n => ?_
  split
  · exact hP.keeps_setName fused _
  · exact keeps_pure _

/-! ### Release -/

theorem keeps_release (ids : List NodeId) : Keeps P P (release ids) :=
  keeps_modifyGet fun _ hg => hP.restrict hg (Graph.restricts_releaseStack (hP.wellFormed hg) _)

theorem keeps_collectGarbage : Keeps P P collectGarbage :=
  keeps_modifyGet fun _ hg => hP.restrict hg (Graph.restricts_collectGarbage (hP.wellFormed hg))

theorem keeps_removeResult (id : NodeId) : Keeps P P (removeResult id) := by
  rw [removeResult]
  refine keeps_bind keeps_get fun g => ?_
  have hrest : Keeps P P (do
      modify fun g => { g with results := g.results.erase id }
      let _ ← release [id]) :=
    keeps_bind
      (keeps_modify fun _ hg =>
        hP.reduce hg (wellFormed_redeclare (hP.wellFormed hg) _ List.erase_sublist) rfl fun hw => hw)
      fun _ => keeps_bind (hP.keeps_release [id]) fun _ => keeps_pure _
  dsimp only
  split
  · exact hrest
  · exact keeps_bind (keeps_throw (fun _ hg => hg) _) fun _ => hrest

/-! ### Bypassing -/

theorem keeps_bypass (id : NodeId) (index : Nat) : Keeps P P (bypass id index) := by
  rw [bypass]
  refine keeps_bind (keeps_ask _) fun allowed => ?_
  dsimp only
  split
  swap
  · exact keeps_pure _
  refine keeps_bind (keeps_ask _) fun n => keeps_bind (keeps_ask _) fun source => ?_
  refine keeps_bind (keeps_ask _) fun feeds => keeps_bind (keeps_ask _) fun targets => ?_
  refine keeps_bind (keeps_forM fun i _ => hP.keeps_connect i source) fun _ => ?_
  have hrest : Keeps P P (do
      let _ ← release [id]
      return true) :=
    keeps_bind (hP.keeps_release [id]) fun _ => keeps_pure true
  split
  · refine keeps_bind (hP.keeps_setName _ _) fun _ => ?_
    exact keeps_bind (hP.keeps_copyMetadata _ _) fun _ => hrest
  · exact hrest

end Persistent

end OpGraph.Edit
