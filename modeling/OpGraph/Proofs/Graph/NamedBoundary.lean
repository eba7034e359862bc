import OpGraph.Proofs.Edit.WellFormed
import OpGraph.Proofs.Graph.Consistent
import OpGraph.Proofs.Graph.Removal
import OpGraph.Proofs.Op.Infer

/-!
# The named boundary

`g'.Presents g` says that the boundary of `g'` looks like that of `g`: the parameters and the results are
the same, and each result reads a node with the name that it has read in `g`.  Releases and inference do
not change that (`presents_releaseStack`, `presents_collectGarbage`, `presents_withDescs`).
-/

namespace OpGraph

namespace Node

/-- What the name of a node depends on. -/
def signature (n : Node) : NodeId × Kind × Option String := (n.id, n.kind, n.givenName)

variable {n n' : Node}

theorem kind_eq_of_signature (h : n'.signature = n.signature) : n'.kind = n.kind :=
  congrArg (·.2.1) h

theorem givenName_eq_of_signature (h : n'.signature = n.signature) : n'.givenName = n.givenName :=
  congrArg (·.2.2) h

theorem friendlyName_eq_of_signature (h : n'.signature = n.signature) :
    n'.friendlyName = n.friendlyName :=
  congrArg (fun s => s.2.2.getD (generatedName s.2.1 s.1)) h

theorem friendlyName_of_givenName {name : String} (h : n.givenName = some name) :
    n.friendlyName = name := by
  rw [friendlyName, h, Option.getD_some]

end Node

namespace Graph

variable {g g' : Graph} {id : NodeId}

/-! ### Signatures -/

/-- The signature of the node at a position. -/
def signature? (g : Graph) (id : NodeId) : Option (NodeId × Kind × Option String) :=
  (g.node? id).map Node.signature

theorem exists_of_signature? {n' : Node} (h : g'.signature? id = g.signature? id)
    (hn' : g'.node? id = some n') : ∃ n, g.node? id = some n ∧ n'.signature = n.signature := by
  rw [signature?, signature?, hn', Option.map_some] at h
  obtain ⟨n, hn, hs⟩ := Option.map_eq_some_iff.1 h.symm
  exact ⟨n, hn, hs.symm⟩

theorem signature?_modifyNode_eq {f : Node → Node} (hf : ∀ n, (f n).signature = n.signature)
    (g : Graph) (j id : NodeId) : (g.modifyNode j f).signature? id = g.signature? id :=
  map_modifyNode hf g j id

theorem signature?_modifyNode_of_ne {j : NodeId} (h : j ≠ id) (f : Node → Node) (g : Graph) :
    (g.modifyNode j f).signature? id = g.signature? id := by
  rw [signature?, node?_modifyNode, if_neg h, signature?]

theorem signature?_addTarget (g : Graph) (v : Output) (i : Input) (id : NodeId) :
    (g.addTarget v i).signature? id = g.signature? id := by
  apply signature?_modifyNode_eq
  intro n
  rfl

theorem signature?_rewire (g : Graph) (i : Input) (old new : Output) (id : NodeId) :
    (g.rewire i old new).signature? id = g.signature? id := by
  have hset (g : Graph) : (g.modifyNode i.node fun n =>
      { n with inputs := n.inputs.set i.index new }).signature? id = g.signature? id := by
    apply signature?_modifyNode_eq
    intro n
    rfl
  have hdrop : (g.dropTarget old i).signature? id = g.signature? id := by
    apply signature?_modifyNode_eq
    intro n
    rfl
  rw [rewire, signature?_addTarget, hset, hdrop]

theorem signature?_insert {op : Op} {inputs : List Output} {descs : List Desc}
    (h : id ≠ g.nodes.size) : (g.insert op inputs descs).signature? id = g.signature? id := by
  rw [signature?, node?_insert, if_neg h]
  exact foldl_addTarget_keeps (φ := fun g => g.signature? id)
    (fun g v i => signature?_addTarget g v i id) g.nodes.size inputs.zipIdx g

theorem signature?_foldl_detach (l : List NodeId) (g : Graph) (id : NodeId) :
    (l.foldl detach g).signature? id = if id ∈ l then none else g.signature? id := by
  induction l generalizing g with
  | nil => rfl
  | cons j l ih =>
    rw [List.foldl_cons, ih, signature?, map_node?_detach fun _ _ => rfl]
    by_cases hj : id = j <;> by_cases hl : id ∈ l <;> simp [hj, hl, signature?]

/-! ### Built-in operations -/

/-- All operations are built in.  Such an operation has a single output, and a node has as many outputs
as its operation when it is made. -/
def BuiltIn (g : Graph) : Prop :=
  ∀ ⦃id w⦄, g.view? id = some w → w.op.isBuiltIn ∧ w.descs.length = 1

theorem BuiltIn.restrict (h : g.BuiltIn) (hr : g'.Restricts g) : g'.BuiltIn := fun _ _ hw =>
  h (hr.view_eq hw)

theorem BuiltIn.rewire (h : g.BuiltIn) (i : Input) (old new : Output) :
    (g.rewire i old new).BuiltIn := by
  intro id w hw
  rcases view?_of_view?_rewire hw with hw | ⟨w', -, hw', rfl⟩
  · exact h hw
  · have hbuilt := h hw'
    exact hbuilt

theorem BuiltIn.insert (h : g.BuiltIn) {op : Op} (hop : op.isBuiltIn) {inputs : List Output}
    {descs : List Desc} (hinfer : g.inferNew op inputs = .ok descs) :
    (g.insert op inputs descs).BuiltIn := by
  intro id w hw
  rcases view?_of_view?_insert _ _ _ _ hw with ⟨-, rfl⟩ | hw
  · obtain ⟨ds, -, hd⟩ := Edit.inferNew_eq_ok.1 hinfer
    obtain ⟨d, rfl⟩ := Op.infer_singleton hop hd
    exact ⟨hop, rfl⟩
  · exact h hw

/-! ### What a boundary presents -/

/-- The boundary looks like that of another graph: the same parameters and results, and what each result
reads comes from a node with the same name, which is a parameter only if it was one there. -/
structure Presents (g' g : Graph) : Prop where
  wellFormed : g'.WellFormed
  builtIn : g'.BuiltIn
  parameters_eq : g'.parameters = g.parameters
  results_eq : g'.results = g.results
  feeds : ∀ {r k v}, r ∈ g.results → g.source? ⟨r, k⟩ = some v → ∃ v' n n',
    g'.source? ⟨r, k⟩ = some v' ∧ g.node? v.node = some n ∧ g'.node? v'.node = some n' ∧
      n'.friendlyName = n.friendlyName ∧ (n'.kind = .parameter → n.kind = .parameter)

theorem Presents.trans {g'' : Graph} (h' : g''.Presents g') (h : g'.Presents g) :
    g''.Presents g where
  wellFormed := h'.wellFormed
  builtIn := h'.builtIn
  parameters_eq := h'.parameters_eq.trans h.parameters_eq
  results_eq := h'.results_eq.trans h.results_eq
  feeds := by
    intro r k v hr hv
    obtain ⟨v₁, n, n₁, hv₁, hn, hn₁, hname, hkind⟩ := h.feeds hr hv
    obtain ⟨v₂, m, n₂, hv₂, hm, hn₂, hname', hkind'⟩ := h'.feeds (h.results_eq ▸ hr) hv₁
    obtain rfl := Option.some.inj (hn₁.symm.trans hm)
    exact ⟨v₂, n, n₂, hv₂, hn, hn₂, hname'.trans hname, fun hp => hkind (hkind' hp)⟩

/-- What a result reads comes from a live node. -/
theorem WellFormed.exists_node_of_source? (h : g.WellFormed) {i : Input} {v : Output}
    (hv : g.source? i = some v) : ∃ n, g.node? v.node = some n :=
  contains_iff.1 (h.contains_of_read hv)

/-- A change that leaves the nodes what the results read, and leaves names alone. -/
theorem presents_of_signature (hwf : g'.WellFormed) (hbuilt : g'.BuiltIn)
    (hparameters : g'.parameters = g.parameters) (hresults : g'.results = g.results)
    (hsource : ∀ {r k v}, r ∈ g.results → g.source? ⟨r, k⟩ = some v →
      g'.source? ⟨r, k⟩ = some v)
    (hsignature : ∀ {id}, g'.contains id → g'.signature? id = g.signature? id) :
    g'.Presents g where
  wellFormed := hwf
  builtIn := hbuilt
  parameters_eq := hparameters
  results_eq := hresults
  feeds := by
    intro r k v hr hv
    have hv' := hsource hr hv
    obtain ⟨n', hn'⟩ := hwf.exists_node_of_source? hv'
    obtain ⟨n, hn, hs⟩ := exists_of_signature? (hsignature (contains_iff.2 ⟨n', hn'⟩)) hn'
    refine ⟨v, n, n', hv', hn, hn', Node.friendlyName_eq_of_signature hs, fun hp => ?_⟩
    exact (Node.kind_eq_of_signature hs).symm.trans hp

theorem WellFormed.presents (h : g.WellFormed) (hb : g.BuiltIn) : g.Presents g :=
  presents_of_signature h hb rfl rfl (fun _ hv => hv) fun _ => rfl

/-! ### Releases and inference -/

theorem Restricts.source?_result (h : g'.Restricts g) {r : NodeId} (hr : r ∈ g.results) (k : Nat) :
    g'.source? ⟨r, k⟩ = g.source? ⟨r, k⟩ := by
  obtain ⟨w, hw⟩ := contains_iff_view.1
    (h.wellFormed.contains_of_mem_results (h.results_eq.symm ▸ hr))
  rw [source?_of_view? hw, source?_of_view? (h.view_eq hw)]

/-- Nodes may go that the results do not hang on. -/
theorem Restricts.presents (h : g'.Restricts g) (hb : g.BuiltIn)
    (hsignature : ∀ {id}, g'.contains id → g'.signature? id = g.signature? id) :
    g'.Presents g :=
  presents_of_signature h.wellFormed (hb.restrict h) h.parameters_eq h.results_eq
    (fun hr hv => (h.source?_result hr _).trans hv) hsignature

theorem presents_detach (hwf : g.WellFormed) (hb : g.BuiltIn) (hid : g.isReleasable id) :
    (g.detach id).Presents g := by
  refine (restricts_detach hwf hid).presents hb fun {j} hj => ?_
  have hsignature := signature?_foldl_detach [id] g j
  rw [List.foldl_cons, List.foldl_nil] at hsignature
  rw [hsignature, if_neg]
  intro hmem
  rw [contains_eq_view, view?_detach, if_pos (List.mem_singleton.1 hmem)] at hj
  cases hj

theorem presents_releaseStack (hwf : g.WellFormed) (hb : g.BuiltIn) (stack : List NodeId) :
    (g.releaseStack stack).Presents g := by
  fun_induction releaseStack g stack with
  | case1 g => exact hwf.presents hb
  | case2 g id stack hid ih =>
    have hstep := presents_detach hwf hb hid
    exact (ih hstep.wellFormed hstep.builtIn).trans hstep
  | case3 g id stack _ ih => exact ih hwf hb

theorem presents_collectGarbage (hwf : g.WellFormed) (hb : g.BuiltIn) :
    g.collectGarbage.Presents g := by
  refine (restricts_collectGarbage hwf).presents hb fun {j} hj => ?_
  rw [collectGarbage, signature?_foldl_detach, if_neg]
  intro hmem
  rw [collectGarbage, contains_eq_view, view?_foldl_detach, if_pos hmem] at hj
  cases hj

theorem source?_withDescs (g : Graph) (id : NodeId) (outs : List Desc) (i : Input) :
    (g.modifyNode id (·.withDescs outs)).source? i = g.source? i := by
  rw [source?, source?, node?_modifyNode]
  split
  · cases g.node? i.node <;> rfl
  · rfl

theorem BuiltIn.withDescs (h : g.BuiltIn) {outs : List Desc} (houts : g.reinfer id = .ok outs) :
    (g.modifyNode id (·.withDescs outs)).BuiltIn := by
  intro j w hw
  rw [view?_modifyNode] at hw
  split at hw
  next hj =>
    subst hj
    obtain ⟨n, hn, rfl⟩ := Option.map_eq_some_iff.1 hw
    have hlen := length_of_reinfer houts hn
    obtain ⟨hop, hsingle⟩ := h (view?_eq_some.2 ⟨n, hn, rfl⟩)
    rw [view_withDescs hlen]
    rw [Node.length_descs] at hsingle
    exact ⟨hop, hlen.trans hsingle⟩
  next => exact h hw

theorem presents_withDescs (hwf : g.WellFormed) (hb : g.BuiltIn) {outs : List Desc}
    (houts : g.reinfer id = .ok outs) : (g.modifyNode id (·.withDescs outs)).Presents g := by
  refine presents_of_signature ?_ (hb.withDescs houts) rfl rfl (fun _ hv => ?_) fun _ => ?_
  · exact wellFormed_modifyNode hwf fun n hn =>
      ⟨rfl, rfl, rfl, Edit.map_targets_withDescs (length_of_reinfer houts hn)⟩
  · rwa [source?_withDescs]
  · apply signature?_modifyNode_eq
    intro n
    rfl

theorem WellFormed.notMem_results (h : g.WellFormed) {w : Node.View} (hw : g.view? id = some w)
    (hkind : w.op.kind ≠ .result) : id ∉ g.results := by
  intro hmem
  have hresult := h.kind_of_mem_results hmem
  rw [kind?_eq_view, hw, Option.map_some] at hresult
  exact hkind (Option.some.inj hresult)

end Graph

namespace Edit

variable {g₀ : Graph} {E : Graph → Prop}

theorem keeps_release_presents (ids : List NodeId) : Keeps (·.Presents g₀) E (release ids) :=
  keeps_modifyGet fun _ h =>
    (Graph.presents_releaseStack h.wellFormed h.builtIn ids.reverse).trans h

theorem keeps_collectGarbage_presents : Keeps (·.Presents g₀) E collectGarbage :=
  keeps_modifyGet fun _ h => (Graph.presents_collectGarbage h.wellFormed h.builtIn).trans h

theorem keeps_revalidate_presents (hE : ∀ g, E g) (id : NodeId) :
    Keeps (·.Presents g₀) E (revalidate id) := by
  intro g h
  obtain ⟨err, he⟩ | ⟨outs, changed, houts, hok⟩ := revalidate_cases id g
  · rw [he]
    exact hE g
  · rw [hok]
    exact (Graph.presents_withDescs h.wellFormed h.builtIn houts).trans h

theorem keeps_validate_presents (hE : ∀ g, E g) : Keeps (·.Presents g₀) E validate := by
  rw [validate]
  refine keeps_bind keeps_get fun g => ?_
  exact keeps_forM fun id _ => keeps_discard (keeps_revalidate_presents hE id)

end Edit

end OpGraph
