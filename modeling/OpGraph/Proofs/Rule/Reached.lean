import OpGraph.Proofs.Graph.NamedBoundary
import OpGraph.Proofs.Rule.Traversal

/-!
# Graphs that can be built

`Call` lists the edits through which a graph is built and changed.  `Program` are the actions that can
be put together from them: they may look at the graph, remember earlier calls, fail, catch errors, and
run rules whose actions are programs again.  `Reached` are the graphs that come out of a new graph by
running programs one after the other, whether they answer or fail.

A call keeps what is `Edit.Persistent`, or it makes one node (`Edit.Persistent.keeps_call`), and programs keep every
`Edit.Invariant`.  So what can be built is well-formed (`wellFormed_of_reached`), and the number of outputs of a node
is settled when the node is made (`outputs_length_of_program`).  `Assembled` are the graphs that come out of calls
while all operations are built in; each node of such a graph has a single output (`Assembled.builtIn`).
-/

namespace OpGraph

/-- The calls that change a graph, with any handles. -/
inductive Call : {α : Type} → Edit α → Prop
  | addNode (op : Op) (inputs : List Output) : Call (Edit.addNode op inputs)
  | cloneNode (id : NodeId) (inputs : List Output) : Call (Edit.cloneNode id inputs)
  | connect (i : Input) (new : Output) : Call (Edit.connect i new)
  | replaceOutput (old new : Output) : Call (Edit.replaceOutput old new)
  | replaceNode (old new : NodeId) : Call (Edit.replaceNode old new)
  | replaceNodeWith (old : NodeId) (values : List Output) : Call (Edit.replaceNodeWith old values)
  | copyMetadata (sources targets : List NodeId) : Call (Edit.copyMetadata sources targets)
  | bypass (id : NodeId) (index : Nat) : Call (Edit.bypass id index)
  | fuse (group : List NodeId) (root fused : NodeId) : Call (Edit.fuse group root fused)
  | release (ids : List NodeId) : Call (Edit.release ids)
  | collectGarbage : Call Edit.collectGarbage
  | removeResult (id : NodeId) : Call (Edit.removeResult id)
  | revalidate (id : NodeId) : Call (Edit.revalidate id)
  | validate : Call Edit.validate
  | rename (name : String) : Call (Edit.rename name)
  | setName (id : NodeId) (name : String) : Call (Edit.setName id name)
  | setMetadata (id : NodeId) (key : String) (value : MetaValue) :
    Call (Edit.setMetadata id key value)
  | updateOp (id : NodeId) {f : Op → Option Op}
    (hf : ∀ op op', f op = some op' → op'.kind = op.kind) : Call (Edit.updateOp id f)

/-- The actions that are made of calls. -/
inductive Program {σ : Type} : {α : Type} → Action σ α → Prop
  | call {α : Type} {e : Edit α} : Call e → Program (.edit e)
  | graph : Program Action.graph
  | remember {α : Type} (f : σ → α × σ) : Program (.remember f)
  | pure {α : Type} (a : α) : Program (pure a)
  | throw {α : Type} (err : GraphError) : Program (throw err : Action σ α)
  | bind {α β : Type} {a : Action σ α} {f : α → Action σ β} :
    Program a → (∀ x, Program (f x)) → Program (a >>= f)
  | tryCatch {α : Type} {a : Action σ α} {f : GraphError → Action σ α} :
    Program a → (∀ err, Program (f err)) → Program (tryCatch a f)
  | applyAt {r : Rule σ} (id : NodeId) : (∀ m, Program (r.action m)) → Program (r.applyAt id)
  | runRules {rules : List (Rule σ)} (config : TraversalConfig) (filter : PassFilter) :
    (∀ r ∈ rules, ∀ m, Program (r.action m)) → Program (runRules rules config filter)

/-- The graphs that programs make of a new graph.  What the rules remember may be anything at the
start of each program. -/
inductive Reached : Graph → Prop
  | new (name : String) : Reached { name }
  | step {g : Graph} {σ α : Type} {a : Action σ α} (memory : σ) :
    Reached g → Program a → Reached (endState a ⟨g, memory⟩).graph

/-! ### What programs keep -/

namespace Edit

variable {σ α : Type} {P : Graph → Prop} {g : Graph}

/-- **A call keeps what persists, or it makes one node.** -/
theorem Persistent.keeps_call (hP : Persistent P) {e : Edit α} (h : Call e) (hg : P g) :
    P (endState e g) ∨ ∃ op inputs descs, g.inferNew op inputs = .ok descs ∧
      endState e g = g.insert op inputs descs := by
  have hadd (op : Op) (inputs : List Output) : P (endState (addNode op inputs) g) ∨
      ∃ op' inputs' descs, g.inferNew op' inputs' = .ok descs ∧
        endState (addNode op inputs) g = g.insert op' inputs' descs := by
    obtain hend | ⟨descs, hd, hend⟩ := endState_addNode op inputs g
    · exact Or.inl (hend.symm ▸ hg)
    · exact Or.inr ⟨op, inputs, descs, hd, hend⟩
  cases h with
  | addNode op inputs => exact hadd op inputs
  | cloneNode id inputs =>
    obtain hend | ⟨n, hend⟩ := endState_cloneNode id inputs g
    · exact Or.inl (hend.symm ▸ hg)
    · rw [hend]
      exact hadd n.op inputs
  | connect i new => exact Or.inl ((hP.keeps_connect i new).endState hg)
  | replaceOutput old new => exact Or.inl ((hP.keeps_replaceOutput old new).endState hg)
  | replaceNode old new => exact Or.inl ((hP.keeps_replaceNode old new).endState hg)
  | replaceNodeWith old values => exact Or.inl ((hP.keeps_replaceNodeWith old values).endState hg)
  | copyMetadata sources targets =>
    exact Or.inl ((hP.keeps_copyMetadata sources targets).endState hg)
  | bypass id index => exact Or.inl ((hP.keeps_bypass id index).endState hg)
  | fuse group root fused => exact Or.inl ((hP.keeps_fuse group root fused).endState hg)
  | release ids => exact Or.inl ((hP.keeps_release ids).endState hg)
  | collectGarbage => exact Or.inl (hP.keeps_collectGarbage.endState hg)
  | removeResult id => exact Or.inl ((hP.keeps_removeResult id).endState hg)
  | revalidate id => exact Or.inl ((hP.keeps_revalidate id).endState hg)
  | validate => exact Or.inl (hP.keeps_validate.endState hg)
  | rename name => exact Or.inl ((hP.keeps_rename name).endState hg)
  | setName id name => exact Or.inl ((hP.keeps_setName id name).endState hg)
  | setMetadata id key value => exact Or.inl ((hP.keeps_setMetadata id key value).endState hg)
  | updateOp id hf => exact Or.inl ((hP.keeps_updateOp id hf).endState hg)

namespace Invariant

variable (hP : Invariant P)

include hP

theorem keeps_call {e : Edit α} (h : Call e) : Keeps P P e := by
  refine keeps_of_endState fun g hg => ?_
  obtain hend | ⟨op, inputs, descs, hd, hend⟩ := hP.toPersistent.keeps_call h hg
  · exact hend
  · rw [hend]
    exact hP.insert hg hd

theorem keeps_program {a : Action σ α} (h : Program a) :
    Keeps (fun s => P s.graph) (fun s => P s.graph) a := by
  have hrelease (ids : List NodeId) : Keeps (fun s => P s.graph) (fun s => P s.graph)
      (Action.edit (Edit.release ids) : Action σ Nat) :=
    Action.keeps_edit (hP.keeps_release ids)
  have hrevalidate (id : NodeId) : Keeps (fun s => P s.graph) (fun s => P s.graph)
      (Action.edit (Edit.revalidate id) : Action σ Bool) :=
    Action.keeps_edit (hP.keeps_revalidate id)
  induction h with
  | call he => exact Action.keeps_edit (hP.keeps_call he)
  | graph => exact Action.keeps_graph
  | remember f => exact fun s hs => hs
  | pure a => exact keeps_pure a
  | throw err => exact keeps_throw (fun s hs => hs) err
  | bind _ _ iha ihf => exact keeps_bind iha ihf
  | tryCatch _ _ iha ihf => exact keeps_tryCatch iha ihf
  | applyAt id _ ih =>
    exact keeps_applyAt (V := fun _ => True) hrelease (fun s _ m _ hs _ => ih m s hs) trivial
  | runRules config filter _ ih =>
    exact keeps_runRules hrelease hrevalidate (fun r hr s _ m hs _ => ih r hr m s hs) config filter

end Invariant

end Edit

/-- **Every graph that can be built is well-formed**, also where a call on the way has failed. -/
theorem wellFormed_of_reached {g : Graph} (h : Reached g) : g.WellFormed := by
  induction h with
  | new name => exact Graph.wellFormed_empty name
  | step memory _ ha ih => exact (Edit.invariant_wellFormed.keeps_program ha).endState ih

/-- A parameter is added, a negation of it, and then the negation is to read itself, which fails. -/
theorem wellFormed_after_refused_loop :
    (endState (do
      let x ← Action.edit (Edit.addNode (.parameter .f32 .unranked) [])
      let y ← Action.edit (Edit.addNode (.unary .negative) [⟨x, 0⟩])
      Action.edit (Edit.connect ⟨y, 0⟩ ⟨y, 0⟩) : Action Unit Unit)
      ⟨{ name := "loop" }, ()⟩).graph.WellFormed :=
  wellFormed_of_reached <| .step () (.new "loop") <|
    .bind (.call (.addNode ..)) fun _ => .bind (.call (.addNode ..)) fun y =>
      .call (.connect ⟨y, 0⟩ ⟨y, 0⟩)

/-! ### Numbers of outputs -/

/-- The nodes of `g₀` that are still there have as many outputs as they had, and nothing has taken the place
of one that has gone. -/
structure Graph.CountsOutputs (g₀ g : Graph) : Prop where
  wellFormed : g.WellFormed
  size_le : g₀.nodes.size ≤ g.nodes.size
  length_eq : ∀ {id w}, g.view? id = some w → id < g₀.nodes.size →
    ∃ w₀, g₀.view? id = some w₀ ∧ w.descs.length = w₀.descs.length

theorem Graph.WellFormed.countsOutputs {g : Graph} (hwf : g.WellFormed) : g.CountsOutputs g :=
  ⟨hwf, Nat.le_refl _, fun hw _ => ⟨_, hw, rfl⟩⟩

theorem Edit.invariant_countsOutputs (g₀ : Graph) : Invariant g₀.CountsOutputs where
  wellFormed := Graph.CountsOutputs.wellFormed
  insert h hd :=
    { wellFormed := invariant_wellFormed.insert h.wellFormed hd
      size_le := (Graph.size_insert ..).symm ▸ Nat.le_succ_of_le h.size_le
      length_eq hw hid :=
        h.length_eq (Graph.view?_insert_of_lt _ _ _ _ (Nat.lt_of_lt_of_le hid h.size_le) ▸ hw) hid }
  rewire h hi hne hnode hnew :=
    { wellFormed := Graph.wellFormed_rewire h.wellFormed hi hne hnode hnew
      size_le := by
        rw [Graph.size_rewire]
        exact h.size_le
      length_eq := by
        intro id w hw hid
        obtain hw | ⟨w', rfl, hw', rfl⟩ := Graph.view?_of_view?_rewire hw
        · exact h.length_eq hw hid
        · exact h.length_eq (w := w') hw' hid }
  modifyNode {g _ f} h hf :=
    { wellFormed := Graph.wellFormed_modifyNode h.wellFormed hf
      size_le := (Graph.size_nodes_modifyNode ..).symm ▸ h.size_le
      length_eq := by
        intro j w hw hj
        rw [Graph.view?_modifyNode] at hw
        split at hw
        next hid =>
          subst hid
          obtain ⟨n, hn, rfl⟩ := Option.map_eq_some_iff.1 hw
          have hlen : (f n).view.descs.length = n.view.descs.length := by
            rw [Node.length_descs, Node.length_descs]
            simpa using congrArg List.length (hf n hn).2.2.2
          rw [hlen]
          exact h.length_eq (Graph.view?_eq_some.2 ⟨n, hn, rfl⟩) hj
        next => exact h.length_eq hw hj }
  reduce h hwf hsize hview :=
    { wellFormed := hwf
      size_le := hsize ▸ h.size_le
      length_eq hw hid := h.length_eq (hview hw) hid }

/-- **A node keeps the number of its outputs**, whatever is called. -/
theorem outputs_length_of_program {σ α : Type} {a : Action σ α} (h : Program a) {s : Session σ}
    (hwf : s.graph.WellFormed) {id : NodeId} {n n' : Node} (hn : s.graph.node? id = some n)
    (hn' : (endState a s).graph.node? id = some n') : n'.outputs.length = n.outputs.length := by
  have hend := ((Edit.invariant_countsOutputs s.graph).keeps_program h).endState hwf.countsOutputs
  obtain ⟨w, hw, hlen⟩ := hend.length_eq (Graph.view?_eq_some.2 ⟨n', hn', rfl⟩)
    (Graph.lt_size_of_node? hn)
  obtain rfl : n.view = w := by
    obtain ⟨m, hm, rfl⟩ := Graph.view?_eq_some.1 hw
    rw [Option.some.inj (hn.symm.trans hm)]
  rwa [Node.length_descs, Node.length_descs] at hlen

/-- **A node that is made of a built-in operation has a single output**, whatever is called afterwards. -/
theorem single_output_of_program {σ α : Type} {a : Action σ α} (h : Program a) {op : Op}
    (hop : op.isBuiltIn) {inputs : List Output} {id : NodeId} {g g' : Graph} (hwf : g.WellFormed)
    (hadd : Edit.addNode op inputs g = .ok id g') {memory : σ} {n : Node}
    (hn : (endState a ⟨g', memory⟩).graph.node? id = some n) : n.outputs.length = 1 := by
  obtain ⟨descs, hinfer, rfl, rfl⟩ := Edit.addNode_eq_ok.1 hadd
  obtain ⟨ds, -, hd⟩ := Edit.inferNew_eq_ok.1 hinfer
  obtain ⟨d, rfl⟩ := Op.infer_singleton hop hd
  have hwf' := Edit.invariant_wellFormed.insert hwf hinfer
  have hnew := (Graph.node?_insert g op inputs [d] g.nodes.size).trans (if_pos rfl)
  exact outputs_length_of_program (s := ⟨_, memory⟩) h hwf' hnew hn

/-! ### Built-in operations -/

/-- The graphs that calls make of a new graph, one after the other, while all operations are built in. -/
inductive Assembled : Graph → Prop
  | new (name : String) : Assembled { name }
  | call {g : Graph} {α : Type} {e : Edit α} : Assembled g → Call e →
    (∀ id op, (endState e g).op? id = some op → op.isBuiltIn) → Assembled (endState e g)

/-- Where no node comes, the number of nodes stays what it is. -/
theorem Edit.Persistent.sized {P : Graph → Prop} (hP : Persistent P) (n : Nat) :
    Persistent fun g => P g ∧ g.nodes.size = n where
  wellFormed h := hP.wellFormed h.1
  rewire h hi hne hnode hnew :=
    ⟨hP.rewire h.1 hi hne hnode hnew, (Graph.size_rewire ..).trans h.2⟩
  modifyNode h hf := ⟨hP.modifyNode h.1 hf, (Graph.size_nodes_modifyNode ..).trans h.2⟩
  reduce h hwf hsize hview := ⟨hP.reduce h.1 hwf hsize hview, hsize.trans h.2⟩

namespace Assembled

variable {g : Graph}

theorem reached (h : Assembled g) : Reached g := by
  induction h with
  | new name => exact .new name
  | @call g α e _ he _ ih =>
    have hend : (endState (Action.edit e : Action Unit α) ⟨g, ()⟩).graph = endState e g := by
      rw [endState, endState, Action.edit]
      cases e g <;> rfl
    rw [← hend]
    exact .step () ih (.call he)

/-- **Each node of an assembled graph has a single output.**  It has had one when it was made. -/
theorem builtIn (h : Assembled g) : g.BuiltIn := by
  induction h with
  | new name =>
    intro id w hw
    cases hw
  | @call g α e hg he hbuilt ih =>
    have hstart : g.CountsOutputs g := (wellFormed_of_reached hg.reached).countsOutputs
    obtain ⟨hkept, hsize⟩ | ⟨op, inputs, descs, hd, hend⟩ :=
      ((Edit.invariant_countsOutputs g).toPersistent.sized g.nodes.size).keeps_call he
        ⟨hstart, rfl⟩
    · intro id w hw
      obtain ⟨w₀, hw₀, hlen⟩ := hkept.length_eq hw (hsize ▸ Graph.lt_size_of_view? hw)
      exact ⟨hbuilt id w.op (Graph.op?_of_view? hw), hlen.trans (ih hw₀).2⟩
    · rw [hend] at hbuilt ⊢
      have hop : (g.insert op inputs descs).op? g.nodes.size = some op := by
        rw [Graph.op?, Graph.node?_insert, if_pos rfl, Option.map_some]
      exact ih.insert (hbuilt _ op hop) hd

end Assembled

end OpGraph
