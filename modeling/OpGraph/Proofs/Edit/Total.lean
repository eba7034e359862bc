import OpGraph.Proofs.Edit.Moves

/-!
# Edits that cannot fail

An edit is refused for handles that are gone or out of range, for a count of values that does not fit,
and for a node that would read itself.  `g'.Retains g` says that the nodes of `g` are still there with
as many inputs and outputs, so that handles which are good for `g` are good for `g'`.  From such graphs,
and with such handles, the edits of replacement, fusion and bypassing always answer and again lead to
such a graph (`keeps_replaceNodeWith_of_retains` and its companions below).
-/

namespace OpGraph

/-- No state at all; an action that ends with `Never` where it fails does not fail. -/
abbrev Edit.Never : Graph → Prop := fun _ => False

namespace Graph

/-- The nodes of `g` are there, and they have as many inputs and outputs as in `g`. -/
structure Retains (g' g : Graph) : Prop where
  wellFormed : g'.WellFormed
  view : ∀ {id w}, g.view? id = some w → ∃ w', g'.view? id = some w' ∧
    w'.inputs.length = w.inputs.length ∧ w'.descs.length = w.descs.length

theorem WellFormed.retains {g : Graph} (h : g.WellFormed) : g.Retains g :=
  ⟨h, fun hw => ⟨_, hw, rfl, rfl⟩⟩

theorem Retains.trans {g g' g'' : Graph} (h' : g''.Retains g') (h : g'.Retains g) :
    g''.Retains g where
  wellFormed := h'.wellFormed
  view hw := by
    obtain ⟨w₁, hw₁, hin, hdescs⟩ := h.view hw
    obtain ⟨w₂, hw₂, hin', hdescs'⟩ := h'.view hw₁
    exact ⟨w₂, hw₂, hin'.trans hin, hdescs'.trans hdescs⟩

theorem exists_targets?_iff {g : Graph} {v : Output} :
    (∃ ts, g.targets? v = some ts) ↔ ∃ d, g.desc? v = some d := by
  rw [targets?, desc?, view?]
  cases g.node? v.node with
  | none => simp
  | some n =>
    simp only [Option.bind_some, Option.map_some, Node.view, Node.descs, List.getElem?_map]
    cases n.outputs[v.index]? <;> simp

namespace Retains

variable {g g' : Graph} (h : g'.Retains g)

include h

theorem contains {id : NodeId} (hid : g.contains id) : g'.contains id := by
  obtain ⟨w, hw⟩ := contains_iff_view.1 hid
  obtain ⟨w', hw', -⟩ := h.view hw
  exact contains_of_view? hw'

theorem source {i : Input} (hi : ∃ v, g.source? i = some v) : ∃ v, g'.source? i = some v := by
  obtain ⟨v, hv⟩ := hi
  rw [source?_eq_view] at hv
  obtain ⟨w, hw, hv⟩ := Option.bind_eq_some_iff.1 hv
  obtain ⟨w', hw', hlen, -⟩ := h.view hw
  have hlt : i.index < w'.inputs.length := hlen ▸ (List.getElem?_eq_some_iff.1 hv).1
  exact ⟨w'.inputs[i.index], (source?_of_view? hw').trans (List.getElem?_eq_getElem hlt)⟩

theorem desc {v : Output} (hv : ∃ d, g.desc? v = some d) : ∃ d, g'.desc? v = some d := by
  obtain ⟨d, hd⟩ := hv
  obtain ⟨w, hw, hd⟩ := Option.bind_eq_some_iff.1 hd
  obtain ⟨w', hw', -, hlen⟩ := h.view hw
  have hlt : v.index < w'.descs.length := hlen ▸ (List.getElem?_eq_some_iff.1 hd).1
  exact ⟨w'.descs[v.index], (desc?_of_view? hw').trans (List.getElem?_eq_getElem hlt)⟩

theorem rewire {i : Input} {old new : Output} (hi : g'.source? i = some old) (hne : old ≠ new)
    (hnode : new.node ≠ i.node) (hnew : ∃ ts, g'.targets? new = some ts) :
    (g'.rewire i old new).Retains g where
  wellFormed := wellFormed_rewire h.wellFormed hi hne hnode hnew
  view := by
    intro id w hw
    obtain ⟨w', hw', hin, hdescs⟩ := h.view hw
    rw [view?_rewire, hw']
    split
    next => exact ⟨_, rfl, (List.length_set ..).trans hin, hdescs⟩
    next => exact ⟨w', rfl, hin, hdescs⟩

theorem insert {op : Op} {inputs : List Output} {descs : List Desc}
    (hin : ∀ v ∈ inputs, ∃ ts, g'.targets? v = some ts) : (g'.insert op inputs descs).Retains g where
  wellFormed := wellFormed_insert h.wellFormed hin
  view := by
    intro id w hw
    obtain ⟨w', hw', hlen⟩ := h.view hw
    exact ⟨w', view?_insert_of_view? _ _ _ _ hw', hlen⟩

theorem modifyNode {id : NodeId} {f : Node → Node}
    (hf : ∀ n, (f n).id = n.id ∧ (f n).op = n.op ∧ (f n).inputs = n.inputs ∧
      (f n).outputs = n.outputs) : (g'.modifyNode id f).Retains g where
  wellFormed := (restricts_modifyNode h.wellFormed hf).wellFormed
  view := by
    intro j w hw
    rw [view?_relabel hf]
    exact h.view hw

end Retains

end Graph

namespace Edit

variable {α β : Type} {g₀ g : Graph}

/-- A query that has an answer. -/
theorem ends_bind_of_query {P E : Graph → Prop} {f : Graph → Except GraphError α} {k : α → Edit β}
    {a : α} (h : f g = .ok a) (hk : Ends P E (k a g)) : Ends P E ((query f >>= k) g) := by
  rw [bind_of_ok (query_of_ok h)]
  exact hk

/-- Asking for what is always there. -/
theorem keeps_query_of_exists {P E : Graph → Prop} {f : Graph → Except GraphError α}
    (h : ∀ g, P g → ∃ a, f g = .ok a) : Keeps P E (query f) := by
  intro g hg
  obtain ⟨a, ha⟩ := h g hg
  rw [query_of_ok ha]
  exact hg

theorem keeps_queryNode_of_retains {id : NodeId} (h : g₀.contains id) :
    Keeps (·.Retains g₀) Never (query (·.node id)) :=
  keeps_query_of_exists fun _ hg => node_of_contains (hg.contains h)

theorem keeps_queryDesc_of_retains {v : Output} (h : ∃ d, g₀.desc? v = some d) :
    Keeps (·.Retains g₀) Never (query (·.desc v)) :=
  keeps_query_of_exists fun g hg => by
    obtain ⟨d, hd⟩ := hg.desc h
    exact ⟨d, Graph.desc_eq_ok_iff_desc?.2 hd⟩

theorem keeps_queryFusedNames_of_retains {id : NodeId} (h : g₀.contains id) :
    Keeps (·.Retains g₀) Never (query (·.fusedNames id)) :=
  keeps_query_of_exists fun g hg => by
    obtain ⟨n, hn⟩ := node_of_contains (hg.contains h)
    refine ⟨n.fusedNames, ?_⟩
    rw [Graph.fusedNames, hn]
    rfl

/-! ### Single steps -/

theorem connect_of_source? {i : Input} {old new : Output} (hi : g.source? i = some old)
    (hnew : ∃ ts, g.targets? new = some ts) (hne : new.node ≠ i.node) :
    connect i new g = .ok () (if old = new then g else g.rewire i old new) := by
  obtain ⟨ts, hts⟩ := hnew
  obtain ⟨n, hn, hs⟩ := Option.bind_eq_some_iff.1 hts
  obtain ⟨s, hs, -⟩ := Option.map_eq_some_iff.1 hs
  rw [connect, bind_of_ok (query_of_ok (Graph.source_eq_ok.2 hi)),
    bind_of_ok (query_of_ok (Graph.slot_eq_ok.2 ⟨n, hn, hs⟩))]
  dsimp only
  rw [if_neg hne]
  by_cases he : old = new
  · simp only [he, ne_eq, not_true_eq_false, if_false, if_true]
    rfl
  · simp only [he, ne_eq, not_false_eq_true, if_true, if_false]
    rfl

theorem keeps_connect_of_retains {i : Input} {new : Output} (hi : ∃ v, g₀.source? i = some v)
    (hnew : ∃ d, g₀.desc? new = some d) (hne : new.node ≠ i.node) :
    Keeps (·.Retains g₀) Never (connect i new) := by
  intro g hg
  obtain ⟨old, hold⟩ := hg.source hi
  have hts := Graph.exists_targets?_iff.2 (hg.desc hnew)
  rw [connect_of_source? hold hts hne]
  show Graph.Retains (if old = new then g else g.rewire i old new) g₀
  split
  next => exact hg
  next he => exact hg.rewire hold he hne hts

theorem keeps_updateNode_of_retains {id : NodeId} (h : g₀.contains id) {f : Node → Node}
    (hf : ∀ n, (f n).id = n.id ∧ (f n).op = n.op ∧ (f n).inputs = n.inputs ∧
      (f n).outputs = n.outputs) : Keeps (·.Retains g₀) Never (updateNode id f) := by
  intro g hg
  rw [updateNode_of_contains (hg.contains h)]
  exact hg.modifyNode hf

theorem keeps_setName_of_retains {id : NodeId} (h : g₀.contains id) (name : String) :
    Keeps (·.Retains g₀) Never (setName id name) :=
  keeps_updateNode_of_retains h fun _ => ⟨rfl, rfl, rfl, rfl⟩

theorem keeps_setMetadata_of_retains {id : NodeId} (h : g₀.contains id) (key : String)
    (value : MetaValue) : Keeps (·.Retains g₀) Never (setMetadata id key value) :=
  keeps_updateNode_of_retains h fun _ => ⟨rfl, rfl, rfl, rfl⟩

theorem keeps_copyMetadata_of_retains {sources targets : List NodeId}
    (hs : ∀ id ∈ sources, g₀.contains id) (ht : ∀ id ∈ targets, g₀.contains id) :
    Keeps (·.Retains g₀) Never (copyMetadata sources targets) := by
  rw [copyMetadata]
  refine keeps_bind (keeps_mapM fun id hid => keeps_queryNode_of_retains (hs id hid)) fun nodes => ?_
  refine keeps_bind (keeps_forM fun id hid =>
    keeps_discard (keeps_queryNode_of_retains (ht id hid))) fun _ => ?_
  exact keeps_forM fun id hid =>
    keeps_updateNode_of_retains (ht id hid) fun _ => ⟨rfl, rfl, rfl, rfl⟩

/-! ### Replacement, fusion, bypassing -/

/-- Readers of a value that are not in the way of a cycle move one after the other. -/
theorem ends_forM_connect_of_retains (hg : g.Retains g₀) {targets : List Input} {old new : Output}
    (hsrc : ∀ i ∈ targets, g.source? i = some old) (hne : ∀ i ∈ targets, new.node ≠ i.node)
    (hnew : ∃ d, g₀.desc? new = some d) :
    Ends (·.Retains g₀) Never (targets.forM (connect · new) g) := by
  have hkeeps : Keeps (·.Retains g) Never (targets.forM (connect · new)) :=
    keeps_forM fun i hi => keeps_connect_of_retains ⟨old, hsrc i hi⟩ (hg.desc hnew) (hne i hi)
  exact (hkeeps g hg.wellFormed.retains).imp fun _ hg' => hg'.trans hg

theorem keeps_replaceOutput_of_retains {old new : Output} (hold : ∃ d, g₀.desc? old = some d)
    (hnew : ∃ d, g₀.desc? new = some d) : Keeps (·.Retains g₀) Never (replaceOutput old new) := by
  intro g hg
  obtain ⟨e, he⟩ := hg.desc hold
  obtain ⟨d, hd⟩ := hg.desc hnew
  obtain ⟨targets, hts⟩ := Graph.exists_targets?_iff.2 ⟨e, he⟩
  rw [replaceOutput]
  refine ends_bind_of_query (Graph.desc_eq_ok_iff_desc?.2 hd) ?_
  refine ends_bind_of_query (Graph.targets_eq_ok.2 hts) ?_
  split
  next =>
    obtain ⟨oldNode, holdNode⟩ := node_of_contains (Graph.contains_of_desc? he)
    obtain ⟨newNode, hnewNode⟩ := node_of_contains (Graph.contains_of_desc? hd)
    refine ends_bind_of_query holdNode (ends_bind_of_query hnewNode ?_)
    refine ends_bind (ends_forM_connect_of_retains hg
      (fun i hi => hg.wellFormed.target_reads hts (List.mem_of_mem_filter hi)) (fun i hi => ?_)
      hnew) fun _ => ?_
    · exact Ne.symm (by simpa using (List.mem_filter.1 hi).2)
    split
    · obtain ⟨_, hnew⟩ := hnew
      exact keeps_setName_of_retains (Graph.contains_of_desc? hnew) _
    · exact keeps_pure _
  next => exact hg

/-- The outputs of a node are replaced one after the other. -/
theorem keeps_forM_replaceOutput_of_retains {old : NodeId} {values : List Output} {w : Node.View}
    (hold : g₀.view? old = some w) (hlen : values.length = w.descs.length)
    (hvalues : ∀ v ∈ values, ∃ d, g₀.desc? v = some d) :
    Keeps (·.Retains g₀) Never (values.zipIdx.forM fun e => replaceOutput ⟨old, e.2⟩ e.1) := by
  refine keeps_forM fun e he => ?_
  obtain ⟨v, k⟩ := e
  have hv := List.mk_mem_zipIdx_iff_getElem?.1 he
  have hk : k < w.descs.length := hlen ▸ (List.getElem?_eq_some_iff.1 hv).1
  refine keeps_replaceOutput_of_retains ⟨w.descs[k], ?_⟩ (hvalues v (List.mem_of_getElem? hv))
  exact (Graph.desc?_of_view? hold).trans (List.getElem?_eq_getElem hk)

theorem keeps_replaceNodeWith_of_retains {old : NodeId} {values : List Output} {w : Node.View}
    (hold : g₀.view? old = some w) (hlen : values.length = w.descs.length)
    (hvalues : ∀ v ∈ values, ∃ d, g₀.desc? v = some d) :
    Keeps (·.Retains g₀) Never (replaceNodeWith old values) := by
  intro g hg
  obtain ⟨w', hw', -, hlen'⟩ := hg.view hold
  obtain ⟨n, hn, rfl⟩ := Graph.view?_eq_some.1 hw'
  have hcount : n.outputs.length = values.length := by
    rw [hlen, ← hlen', Node.length_descs]
  rw [replaceNodeWith]
  refine ends_bind_of_query (Graph.node_eq_ok.2 hn) ?_
  dsimp only
  rw [if_neg (not_not.2 hcount)]
  refine keeps_bind (keeps_forM fun v hv =>
    keeps_discard (keeps_queryDesc_of_retains (hvalues v hv))) (fun _ => ?_) g hg
  exact keeps_forM_replaceOutput_of_retains hold hlen hvalues

theorem keeps_replaceNode_of_retains {old new : NodeId} (hne : old ≠ new) {w w' : Node.View}
    (hold : g₀.view? old = some w) (hnew : g₀.view? new = some w')
    (hlen : w'.descs.length = w.descs.length) :
    Keeps (·.Retains g₀) Never (replaceNode old new) := by
  intro g hg
  obtain ⟨w₁, hw₁, -, hlen₁⟩ := hg.view hnew
  obtain ⟨n, hn, rfl⟩ := Graph.view?_eq_some.1 hw₁
  have hcount : n.outputs.length = w'.descs.length := by
    rw [← hlen₁, Node.length_descs]
  rw [replaceNode, if_neg hne]
  refine ends_bind_of_query (Graph.node_eq_ok.2 hn) ?_
  refine keeps_replaceNodeWith_of_retains hold ?_ (fun v hv => ?_) g hg
  · rw [Node.values, List.length_map, List.length_range, hcount, hlen]
  · obtain ⟨k, hk, rfl⟩ := List.mem_map.1 hv
    have hk : k < w'.descs.length := hcount ▸ List.mem_range.1 hk
    rw [hg.wellFormed.id_eq hn]
    exact ⟨w'.descs[k], (Graph.desc?_of_view? hnew).trans (List.getElem?_eq_getElem hk)⟩

theorem keeps_fuse_of_retains {group : List NodeId} {root fused : NodeId}
    (hgroup : ∀ id ∈ group, g₀.contains id) (hne : root ≠ fused) {w w' : Node.View}
    (hroot : g₀.view? root = some w) (hfused : g₀.view? fused = some w')
    (hlen : w'.descs.length = w.descs.length) :
    Keeps (·.Retains g₀) Never (fuse group root fused) := by
  have hroot' : g₀.contains root := Graph.contains_of_view? hroot
  have hfused' : g₀.contains fused := Graph.contains_of_view? hfused
  rw [fuse]
  refine keeps_bind (keeps_mapM fun id hid =>
    keeps_queryFusedNames_of_retains (hgroup id hid)) fun sets => ?_
  refine keeps_bind (keeps_queryNode_of_retains hroot') fun rootNode => ?_
  refine keeps_bind (keeps_copyMetadata_of_retains hgroup fun id hid => ?_) fun _ => ?_
  · exact List.mem_singleton.1 hid ▸ hfused'
  refine keeps_bind (keeps_replaceNode_of_retains hne hroot hfused hlen) fun _ => ?_
  refine keeps_bind (keeps_setMetadata_of_retains hfused' _ _) fun _ => ?_
  refine keeps_bind (keeps_queryNode_of_retains hfused') fun n => ?_
  split
  · exact keeps_setName_of_retains hfused' _
  · exact keeps_pure _

/-- A node that can be bypassed without a cycle. -/
theorem ends_bypass_of_wellFormed (hg : g.WellFormed) {id : NodeId} {index : Nat} {source : Output}
    {d : Desc} (hsource : g.source? ⟨id, index⟩ = some source) (hd : g.desc? ⟨id, 0⟩ = some d)
    (hne : ∀ i, g.source? i = some ⟨id, 0⟩ → source.node ≠ i.node) :
    Ends Anything Never (bypass id index g) := by
  obtain ⟨n, hn, hin⟩ := Option.bind_eq_some_iff.1 hsource
  obtain ⟨targets, hts⟩ := Graph.exists_targets?_iff.2 ⟨d, hd⟩
  obtain ⟨-, hlive⟩ := hg.source_exists hsource
  have hdesc := Graph.exists_targets?_iff.1 hlive
  have hsourceNode : g.contains source.node := by
    obtain ⟨ts, hts⟩ := hlive
    exact Graph.contains_of_targets? hts
  have hid : g.contains id := Graph.contains_of_source? hsource
  obtain ⟨feeds, hfeeds⟩ : ∃ feeds, g.feedsResult id = .ok feeds := by
    rw [Graph.feedsResult, Graph.targets_eq_ok.2 hts]
    exact ⟨_, rfl⟩
  obtain ⟨allowed, hallowed⟩ : ∃ allowed, g.canBypass id index = .ok allowed := by
    have hsrc : n.source index = .ok source := by rw [Node.source, hin]
    rw [Graph.canBypass, Graph.node_eq_ok.2 hn]
    simp only [bind, Except.bind, hsrc, hfeeds]
    split
    · exact ⟨_, rfl⟩
    · cases feeds <;> exact ⟨_, rfl⟩
  rw [bypass]
  refine ends_bind_of_query hallowed ?_
  dsimp only
  split
  swap
  · trivial
  refine ends_bind_of_query (Graph.node_eq_ok.2 hn) ?_
  refine ends_bind_of_query (Graph.source_eq_ok.2 hsource) (ends_bind_of_query hfeeds ?_)
  refine ends_bind_of_query (Graph.targets_eq_ok.2 hts) ?_
  refine ends_then (ends_forM_connect_of_retains hg.retains (fun i hi => hg.target_reads hts hi)
    (fun i hi => hne i (hg.target_reads hts hi)) hdesc) fun _ g₁ hg₁ => ?_
  split
  · refine ends_then (keeps_setName_of_retains hsourceNode _ g₁ hg₁) fun _ g₂ hg₂ => ?_
    refine ends_then (keeps_copyMetadata_of_retains (fun j hj => ?_) (fun j hj => ?_) g₂ hg₂)
      fun _ _ _ => trivial
    · rcases List.mem_pair.1 hj with rfl | rfl
      · exact hsourceNode
      · exact hid
    · exact List.mem_singleton.1 hj ▸ hsourceNode
  · trivial

end Edit

end OpGraph
