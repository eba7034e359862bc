import OpGraph.Proofs.Edit.Annotation
import OpGraph.Proofs.Edit.Atomic

/-!
# What a fusion does

`Edit.fuse` reads the names that a group stands for, and then it merges metadata, moves readers and labels the
new node.  The group, the root and the new node may overlap, and every step changes what the others could read.
`Graph.Unites` says what has become of the graph in the end, in terms of the graph before.

Nothing can go wrong after the first reader has moved.  What a fusion leaves when it is refused is the graph
as it was or, once the metadata has been merged, the graph with other metadata at the new node
(`eq_annotate_of_fuse_error`).
-/

namespace OpGraph

open OpGraph.Graph

namespace Graph

variable {g g' : Graph} {group : List NodeId} {root fused : NodeId}

/-- The names that the nodes of a list stand for. -/
def namesOf (g : Graph) (ids : List NodeId) : List String :=
  ids.flatMap fun id => ((g.node? id).map (·.fusedNames.names)).getD []

theorem flatMap_fusedNames {ids : List NodeId} {nodes : List Node}
    (h : List.Forall₂ (fun id n => g.node? id = some n) ids nodes) :
    (nodes.map (·.fusedNames)).flatMap (·.names) = g.namesOf ids := by
  induction h with
  | nil => rfl
  | cons hn _ ih =>
    rw [List.map_cons, List.flatMap_cons, ih, namesOf, namesOf, List.flatMap_cons, hn]
    rfl

/-- `g'` is `g` after `fused` has taken the place of `root` and come to stand for a group of nodes. -/
structure Unites (g : Graph) (group : List NodeId) (root fused : NodeId) (g' : Graph) : Prop where
  header_eq : g'.header = g.header
  /-- What has read the root reads the output of the new node with the same number, unless it belongs to the
  new node. -/
  source : ∀ i, g'.source? i = (g.source? i).map fun v =>
    if v.node = root ∧ i.node ≠ fused then ⟨fused, v.index⟩ else v
  /-- The readers that move come behind those that the new node has had. -/
  targets : ∀ v, g'.targets? v = (g.targets? v).map fun ts =>
    if v.node = fused then ts ++ (g.readers ⟨root, v.index⟩).filter (·.node ≠ fused)
    else if v.node = root then ts.filter (·.node = fused)
    else ts
  /-- The new node keeps its name, or it gets the one that the root goes by.  It inherits the metadata of the
  group, and it lists the names that the group has stood for. -/
  label : ∀ {n m}, g.node? root = some n → g.node? fused = some m →
    ∃ (inherited : Metadata) (names : NameSet), inherited.Inherits m.metadata (g.metadataOf group) ∧
      names.names = (g.namesOf group).eraseDups ∧
      g'.content? fused = some { m.content with
        givenName := some (m.givenName.getD n.friendlyName)
        metadata := inherited.insert Metadata.fusedNames (.names names) }
  others : ∀ id, id ≠ fused → g'.content? id = g.content? id

theorem source?_annotate (g : Graph) (id : NodeId) (gathered : Metadata) (i : Input) :
    (g.annotate id gathered).source? i = g.source? i := by
  rw [annotate, source?_relabel]
  exact fun _ => ⟨rfl, rfl, rfl, rfl⟩

theorem targets?_annotate (g : Graph) (id : NodeId) (gathered : Metadata) (v : Output) :
    (g.annotate id gathered).targets? v = g.targets? v := by
  apply targets?_modifyNode_eq
  exact fun _ _ => rfl

end Graph

namespace Edit

variable {g g' : Graph} {group : List NodeId} {root fused : NodeId}

/-! ### Fusions that are made -/

/-- The new node can be any node with as many outputs as the root, also one of the group. -/
theorem exists_unites (hwf : g.WellFormed) (hgroup : ∀ id ∈ group, g.contains id) (hne : root ≠ fused)
    {n m : Node} (hroot : g.node? root = some n) (hfused : g.node? fused = some m)
    (hlen : n.outputs.length = m.outputs.length) :
    ∃ g', fuse group root fused g = .ok () g' ∧ g.Unites group root fused g' := by
  obtain ⟨nodes, hnodes, hmeta⟩ := exists_nodes hgroup
  obtain ⟨g₁, hrelieves, hok⟩ := fuse_of_nodes hwf hnodes hne hroot hfused hlen
  have hcontent := content?_of_fuse hwf hnodes hne hroot hfused hlen hok
  have hwf₁ := hwf.annotate fused (Metadata.gather (nodes.map (·.metadata)))
  have hroot₁ := (node?_annotate_of_ne hne (Metadata.gather (nodes.map (·.metadata)))).trans hroot
  have hfused₁ := node?_annotate_self hfused (Metadata.gather (nodes.map (·.metadata)))
  refine ⟨_, hok, ?_⟩
  constructor
  case header_eq => rw [header_modifyNode, hrelieves.header_eq, annotate, header_modifyNode]
  case source =>
    intro i
    rw [source?_relabel, hrelieves.source_eq hwf₁ hroot₁, source?_annotate]
    exact fun _ => ⟨rfl, rfl, rfl, rfl⟩
  case targets =>
    intro v
    rw [targets?_modifyNode_eq, hrelieves.targets_eq hne hroot₁ hfused₁ hlen, targets?_annotate,
      readers, targets?_annotate, ← readers]
    exact fun _ _ => rfl
  case label =>
    intro n' m' hn hm
    obtain rfl := Option.some.inj (hroot.symm.trans hn)
    obtain rfl := Option.some.inj (hfused.symm.trans hm)
    refine ⟨_, _, Metadata.merge_gather_inherits m.metadata (g.metadataOf group),
      (NameSet.names_foldl_union (nodes.map (·.fusedNames))).trans
        (congrArg _ (flatMap_fusedNames hnodes)), ?_⟩
    rw [hcontent, content?_of_node? hfused, Option.map_some, if_pos rfl, hmeta]
  case others =>
    intro id hid
    rw [hcontent]
    cases g.content? id <;> simp [hid]

/-! ### Fusions that are refused -/

/-- A replacement keeps every node. -/
theorem contains_of_replaceNode (hwf : g.WellFormed) {old new id : NodeId} (hid : g.contains id)
    (h : replaceNode old new g = .ok () g') : g'.contains id := by
  have hrenamable : Renamable fun g => g.WellFormed ∧ g.contains id :=
    { wellFormed := fun h => h.1
      rename := fun h hf =>
        ⟨(restricts_modifyNode h.1 hf).wellFormed, (contains_modifyNode ..).trans h.2⟩ }
  have hmovable (k : Nat) : Movable (fun g => g.WellFormed ∧ g.contains id) ⟨old, k⟩ ⟨new, k⟩ := by
    intro g i hg hi hne hnode hlive
    refine ⟨wellFormed_rewire hg.1 hi hne hnode hlive, ?_⟩
    rw [contains_iff_mem_ids, ids_rewire]
    exact contains_iff_mem_ids.1 hg.2
  exact ((keeps_replaceNode_of_movable hrenamable hmovable).of_ok ⟨hwf, hid⟩ h).2

/-- **A fusion that is refused has at most merged metadata into the new node.** -/
theorem eq_annotate_of_fuse_error (hwf : g.WellFormed) {err : GraphError}
    (h : fuse group root fused g = .error err g') :
    g' = g ∨ ∃ gathered, g' = g.annotate fused gathered := by
  obtain hnames | ⟨sets, g₁, hnames, h⟩ := bind_eq_error.1 h
  · have hasked : Keeps (· = g) (· = g) (group.mapM fun id => query (·.fusedNames id)) :=
      keeps_mapM fun _ _ => keeps_query (fun _ h => h) _
    exact Or.inl ((hasked g rfl).of_error hnames)
  obtain ⟨-, rfl⟩ := mapM_query_eq_ok hnames
  obtain hroot | ⟨n, g₁, hroot, h⟩ := bind_eq_error.1 h
  · have hasked : Keeps (· = g) (· = g) (query (·.node root)) := keeps_query (fun _ h => h) _
    exact Or.inl ((hasked g rfl).of_error hroot)
  obtain ⟨-, rfl⟩ := query_eq_ok.1 hroot
  obtain hcopy | ⟨u, g₁, hcopy, h⟩ := bind_eq_error.1 h
  · exact Or.inl ((ends_copyMetadata_guarded hwf group [fused]).of_error hcopy)
  obtain ⟨hlive, gathered, rfl⟩ := copyMetadata_singleton_eq_ok hcopy
  have hwf₁ := hwf.annotate fused gathered
  obtain hreplace | ⟨u, g₂, hreplace, h⟩ := bind_eq_error.1 h
  · exact Or.inr ⟨gathered, (ends_replaceNode_guarded hwf₁ root fused).of_error hreplace⟩
  -- the new node is still there, so it can be labelled
  have hlive₂ : g₂.contains fused :=
    contains_of_replaceNode hwf₁ ((contains_modifyNode ..).trans hlive) hreplace
  cases h.symm.trans (label_of_contains hlive₂)

/-- **Fusions unite or change nothing but metadata.**  A group of live nodes can be fused into any live node
but the root that has as many outputs as the root.  A fusion that is refused leaves every node with its edges,
its name and its descriptions, and all but the new node with their metadata. -/
theorem fuse_unites (hwf : g.WellFormed) (group : List NodeId) (root fused : NodeId) :
    ((∀ id ∈ group, g.contains id) → root ≠ fused →
      ∀ n m, g.node? root = some n → g.node? fused = some m → n.outputs.length = m.outputs.length →
        ∃ g', fuse group root fused g = .ok () g' ∧ g.Unites group root fused g') ∧
    ∀ err g', fuse group root fused g = .error err g' →
      g'.header = g.header ∧ (∀ id, id ≠ fused → g'.node? id = g.node? id) ∧
        ∃ metadata, g'.node? fused = (g.node? fused).map fun n => { n with metadata } := by
  refine ⟨fun hgroup hne n m hroot hfused hlen => exists_unites hwf hgroup hne hroot hfused hlen,
    fun err g' h => ?_⟩
  obtain rfl | ⟨gathered, rfl⟩ := eq_annotate_of_fuse_error hwf h
  · refine ⟨rfl, fun _ _ => rfl, ?_⟩
    cases hfused : g'.node? fused with
    | none => exact ⟨∅, rfl⟩
    | some n => exact ⟨n.metadata, rfl⟩
  · refine ⟨header_modifyNode .., fun id hid => node?_annotate_of_ne hid gathered, ?_⟩
    cases hfused : g.node? fused with
    | none => exact ⟨∅, by rw [annotate, node?_modifyNode, if_pos rfl, hfused]; rfl⟩
    | some n => exact ⟨n.metadata.merge gathered, node?_annotate_self hfused gathered⟩

/-- The second of two operations stands for another node already. -/
def stacked : Graph :=
  tandem.modifyNode 3 fun n => { n with
    metadata := .ofList [(Metadata.fusedNames, .names (.ofList ["inner", "first"]))] }

theorem wellFormed_stacked : stacked.WellFormed :=
  wellFormed_modifyNode wellFormed_tandem fun _ _ => ⟨rfl, rfl, rfl, rfl⟩

/-- The second operation, which is one of the group and reads the root, takes the place of the root.  No
operation takes its own place. -/
theorem fuse_unites_stacked :
    stacked.WellFormed ∧ (∃ g', fuse [3, 0, 1] 1 3 stacked = .ok () g' ∧
      g'.source? ⟨2, 0⟩ = some ⟨3, 0⟩ ∧ g'.source? ⟨3, 0⟩ = some ⟨1, 0⟩ ∧
      ∃ c, g'.content? 3 = some c ∧ c.givenName = some "first" ∧
        c.metadata.fusedNames?.map (·.names) = some ["inner", "first", "Parameter_0"]) ∧
    ∃ err g', fuse [3] 1 1 stacked = .error err g' ∧ g'.node? 3 = stacked.node? 3 := by
  have hgroup : ∀ id ∈ [3, 0, 1], stacked.contains id := by decide
  obtain ⟨g', hok, h⟩ :=
    (fuse_unites wellFormed_stacked [3, 0, 1] 1 3).1 hgroup (by decide) _ _ rfl rfl rfl
  obtain ⟨inherited, names, -, hnames, hcontent⟩ := h.label rfl rfl
  obtain ⟨err, g'', herr⟩ : ∃ err g'', fuse [3] 1 1 stacked = .error err g'' := ⟨_, _, rfl⟩
  obtain ⟨-, hother, -⟩ := (fuse_unites wellFormed_stacked [3] 1 1).2 err g'' herr
  refine ⟨wellFormed_stacked, ⟨g', hok, ?_, ?_, _, hcontent, rfl, ?_⟩, err, g'', herr, hother 3 (by decide)⟩
  · rw [h.source]
    rfl
  · rw [h.source]
    rfl
  · rw [Metadata.fusedNames?, Metadata.get?_insert, if_pos rfl]
    exact congrArg some (hnames.trans (by decide))

end Edit

end OpGraph
