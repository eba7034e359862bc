import OpGraph.Graph.Bypass
import OpGraph.Graph.Fuse
import OpGraph.Graph.Infer
import OpGraph.Proofs.Edit.Outcome
import OpGraph.Proofs.Graph.Edges
import OpGraph.Proofs.Pointwise

/-!
# What the steps of an edit do

Each edit is made of queries and of four steps that change the graph: `addNode`, `connect`,
`updateNode` and `revalidate`.  Such a step either fails and leaves the graph as it was, or it answers
and makes exactly one change; `addNode_cases` and its companions say which.
-/

namespace OpGraph.Edit

variable {g : Graph}

theorem query_of_ok {α : Type} {f : Graph → Except GraphError α} {a : α} (h : f g = .ok a) :
    query f g = .ok a g := by
  rw [query]
  rw [h]

theorem query_of_error {α : Type} {f : Graph → Except GraphError α} {err : GraphError}
    (h : f g = .error err) : query f g = .error err g := by
  rw [query]
  rw [h]

theorem bind_of_ok {α β : Type} {e : Edit α} {f : α → Edit β} {g' : Graph} {a : α}
    (h : e g = .ok a g') : (e >>= f) g = f a g' := by
  show EStateM.bind e f g = _
  rw [EStateM.bind]
  rw [h]

theorem bind_of_error {α β : Type} {e : Edit α} {f : α → Edit β} {g' : Graph} {err : GraphError}
    (h : e g = .error err g') : (e >>= f) g = .error err g' := by
  show EStateM.bind e f g = _
  rw [EStateM.bind]
  rw [h]

/-- A query fails and changes nothing, or what follows it goes on with the answer. -/
theorem query_bind_cases {α β : Type} (f : Graph → Except GraphError α) (k : α → Edit β)
    (g : Graph) :
    (∃ err, (query f >>= k) g = .error err g) ∨ ∃ a, f g = .ok a ∧ (query f >>= k) g = k a g := by
  cases h : f g with
  | error err => exact Or.inl ⟨err, bind_of_error (query_of_error h)⟩
  | ok a => exact Or.inr ⟨a, rfl, bind_of_ok (query_of_ok h)⟩

theorem addNode_cases (op : Op) (inputs : List Output) (g : Graph) :
    (∃ err, addNode op inputs g = .error err g) ∨
      ∃ descs, g.inferNew op inputs = .ok descs ∧
        addNode op inputs g = .ok g.nodes.size (g.insert op inputs descs) := by
  rw [addNode]
  obtain herr | ⟨descs, hd, hk⟩ := query_bind_cases (·.inferNew op inputs) _ g
  · exact Or.inl herr
  · exact Or.inr ⟨descs, hd, hk⟩

theorem endState_addNode (op : Op) (inputs : List Output) (g : Graph) :
    endState (addNode op inputs) g = g ∨ ∃ descs, g.inferNew op inputs = .ok descs ∧
      endState (addNode op inputs) g = g.insert op inputs descs := by
  rw [endState]
  obtain ⟨err, he⟩ | ⟨descs, hd, hok⟩ := addNode_cases op inputs g
  · rw [he]
    exact Or.inl rfl
  · rw [hok]
    exact Or.inr ⟨descs, hd, rfl⟩

theorem endState_cloneNode (id : NodeId) (inputs : List Output) (g : Graph) :
    endState (cloneNode id inputs) g = g ∨
      ∃ n : Node, endState (cloneNode id inputs) g = endState (addNode n.op inputs) g := by
  rw [endState]
  obtain ⟨err, he⟩ | ⟨n, -, hk⟩ :=
    query_bind_cases (·.node id) (fun n => addNode n.op inputs) g
  · rw [cloneNode, he]
    exact Or.inl rfl
  · rw [cloneNode, hk]
    exact Or.inr ⟨n, rfl⟩

theorem connect_cases (i : Input) (new : Output) (g : Graph) :
    (∃ err, connect i new g = .error err g) ∨
      ∃ old, g.source? i = some old ∧ (∃ ts, g.targets? new = some ts) ∧ new.node ≠ i.node ∧
        connect i new g = .ok () (if old = new then g else g.rewire i old new) := by
  rw [connect]
  obtain herr | ⟨old, hold, hk⟩ := query_bind_cases (·.source i) _ g
  · exact Or.inl herr
  rw [hk]
  obtain herr | ⟨s, hs, hk⟩ := query_bind_cases (·.slot new) _ g
  · exact Or.inl herr
  rw [hk]
  obtain ⟨n, hn, hslot⟩ := Graph.slot_eq_ok.1 hs
  dsimp only
  split
  next =>
    obtain herr | ⟨m, hm, hk⟩ := query_bind_cases (·.node i.node) _ g
    · exact Or.inl herr
    · rw [hk]
      exact Or.inl ⟨_, rfl⟩
  next hne =>
    refine Or.inr ⟨old, Graph.source_eq_ok.1 hold, ⟨s.targets, ?_⟩, hne, ?_⟩
    · simp [Graph.targets?, hn, hslot]
    · by_cases he : old = new
      · simp only [he, ne_eq, not_true_eq_false, if_false, if_true]
        rfl
      · simp only [he, ne_eq, not_false_eq_true, if_true, if_false]
        rfl

theorem node_of_contains {id : NodeId} (h : g.contains id) : ∃ n, g.node id = .ok n := by
  obtain ⟨n, hn⟩ := Graph.contains_iff.1 h
  exact ⟨n, Graph.node_eq_ok.2 hn⟩

theorem updateNode_of_contains {id : NodeId} (h : g.contains id) (f : Node → Node) :
    updateNode id f g = .ok () (g.modifyNode id f) := by
  obtain ⟨n, hn⟩ := node_of_contains h
  rw [updateNode, bind_of_ok (query_of_ok hn)]
  rfl

theorem updateNode_cases (id : NodeId) (f : Node → Node) (g : Graph) :
    (∃ err, updateNode id f g = .error err g) ∨
      g.contains id ∧ updateNode id f g = .ok () (g.modifyNode id f) := by
  rw [updateNode]
  obtain herr | ⟨n, hn, hk⟩ := query_bind_cases (·.node id) _ g
  · exact Or.inl herr
  · exact Or.inr ⟨Graph.contains_iff.2 ⟨n, Graph.node_eq_ok.1 hn⟩, hk⟩

theorem revalidate_cases (id : NodeId) (g : Graph) :
    (∃ err, revalidate id g = .error err g) ∨
      ∃ outs changed, g.reinfer id = .ok outs ∧
        revalidate id g = .ok changed (g.modifyNode id (·.withDescs outs)) := by
  rw [revalidate]
  obtain herr | ⟨outs, houts, hk⟩ := query_bind_cases (·.reinfer id) _ g
  · exact Or.inl herr
  rw [hk]
  obtain herr | ⟨n, -, hk⟩ := query_bind_cases (·.node id) _ g
  · exact Or.inl herr
  · exact Or.inr ⟨outs, _, houts, hk⟩

theorem addNode_eq_ok {op : Op} {inputs : List Output} {id : NodeId} {g' : Graph} :
    addNode op inputs g = .ok id g' ↔
      ∃ descs, g.inferNew op inputs = .ok descs ∧ g.nodes.size = id ∧
        g.insert op inputs descs = g' := by
  rw [addNode]
  simp only [bind_eq_ok, query_eq_ok, modifyGet_eq_ok]
  constructor
  · intro h
    rcases h with ⟨descs, g₁, ⟨hd, rfl⟩, hid, hg⟩
    exact ⟨descs, hd, hid, hg⟩
  · intro h
    rcases h with ⟨descs, hd, hid, hg⟩
    exact ⟨descs, g, ⟨hd, rfl⟩, hid, hg⟩

theorem addNode_of_inferNew {op : Op} {inputs : List Output} {descs : List Desc}
    (h : g.inferNew op inputs = .ok descs) :
    addNode op inputs g = .ok g.nodes.size (g.insert op inputs descs) :=
  addNode_eq_ok.2 ⟨descs, h, rfl, rfl⟩

/-- A constant becomes a node that reads nothing. -/
theorem addConstant_eq (t : Tensor) (g : Graph) :
    addConstant t g = .ok ⟨g.nodes.size, 0⟩ (g.insert (.constant t) [] [t.desc]) := by
  have hnew : g.inferNew (.constant t) [] = .ok [t.desc] := rfl
  have hout : (g.insert (.constant t) [] [t.desc]).output g.nodes.size 0 = .ok ⟨g.nodes.size, 0⟩ := by
    have hslot : (g.insert (.constant t) [] [t.desc]).slot ⟨g.nodes.size, 0⟩ = .ok ⟨t.desc, []⟩ :=
      Graph.slot_eq_ok.2 ⟨_, (Graph.node?_insert g _ _ _ _).trans (if_pos rfl), rfl⟩
    rw [Graph.output, hslot]
    rfl
  unfold addConstant addOp
  rw [bind_of_ok (addNode_of_inferNew hnew), query_of_ok hout]

theorem addConstant_eq_ok {t : Tensor} {v : Output} {g' : Graph}
    (h : addConstant t g = .ok v g') :
    v = ⟨g.nodes.size, 0⟩ ∧ g' = g.insert (.constant t) [] [t.desc] := by
  rw [addConstant_eq] at h
  cases h
  exact ⟨rfl, rfl⟩

/-! ### What the queries of a step have checked -/

theorem inferNew_eq_ok {op : Op} {inputs : List Output} {descs : List Desc} :
    g.inferNew op inputs = .ok descs ↔
      ∃ ds, List.Forall₂ (fun v d => g.desc v = .ok d) inputs ds ∧ op.infer ds = .ok descs := by
  simp only [← mapM_eq_ok]
  rw [Graph.inferNew]
  cases h : inputs.mapM g.desc with
  | error e => simp [bind, Except.bind]
  | ok ds =>
    simp only [bind, Except.bind, Except.ok.injEq, exists_eq_left']
    cases op.infer ds <;> simp [pure, Except.pure, throw, throwThe, MonadExceptOf.throw]

/-- What a new node reads exists. -/
theorem exists_targets_of_inferNew {op : Op} {inputs : List Output} {descs : List Desc}
    (h : g.inferNew op inputs = .ok descs) {v : Output} (hv : v ∈ inputs) :
    ∃ ts, g.targets? v = some ts := by
  obtain ⟨ds, hds, -⟩ := inferNew_eq_ok.1 h
  obtain ⟨d, -, hvd⟩ := forall₂_exists_of_mem hds hv
  obtain ⟨n, s, hn, hs, -⟩ := Graph.desc_eq_ok.1 hvd
  exact ⟨s.targets, by simp [Graph.targets?, hn, hs]⟩

theorem inputDescs_eq_ok {id : NodeId} {ds : List Desc} :
    g.inputDescs id = .ok ds ↔
      ∃ n, g.node? id = some n ∧ List.Forall₂ (fun v d => g.desc v = .ok d) n.inputs ds := by
  simp only [← mapM_eq_ok]
  rw [Graph.inputDescs, Graph.node]
  cases g.node? id <;> simp [bind, Except.bind]

theorem reinfer_eq_ok {id : NodeId} {outs : List Desc} :
    g.reinfer id = .ok outs ↔
      ∃ n ds, g.node? id = some n ∧ List.Forall₂ (fun v d => g.desc v = .ok d) n.inputs ds ∧
        n.op.infer ds = .ok outs ∧ outs.length = n.outputs.length := by
  rw [Graph.reinfer]
  cases hds : g.inputDescs id with
  | error e =>
    refine ⟨fun h => by simp [bind, Except.bind] at h, ?_⟩
    intro h'
    rcases h' with ⟨n, ds, hn, hd, -⟩
    rw [inputDescs_eq_ok.2 ⟨n, hn, hd⟩] at hds
    cases hds
  | ok ds =>
    obtain ⟨n, hn, hd⟩ := inputDescs_eq_ok.1 hds
    have hunique : ∀ ds', List.Forall₂ (fun v d => g.desc v = .ok d) n.inputs ds' → ds' = ds := by
      intro ds' hd'
      rw [inputDescs_eq_ok.2 ⟨n, hn, hd'⟩, Except.ok.injEq] at hds
      exact hds
    simp only [bind, Except.bind, Graph.node_eq_ok.2 hn]
    constructor
    · intro h
      cases ho : n.op.infer ds with
      | error e =>
        rw [ho] at h
        cases h
      | ok outs' =>
        simp only [ho] at h
        split at h
        next => cases h
        next hlen =>
          cases h
          exact ⟨n, ds, hn, hd, ho, not_not.1 hlen⟩
    · intro h'
      rcases h' with ⟨m, ds', hm, hd', ho, hlen⟩
      rw [hn, Option.some.injEq] at hm
      subst hm
      rw [hunique ds' hd'] at ho
      simp [ho, hlen, pure, Except.pure]

end OpGraph.Edit
