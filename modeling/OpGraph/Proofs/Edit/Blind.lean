import OpGraph.Graph.Fuse
import OpGraph.Proofs.Graph.Anonymous

/-!
# Edits do not look at names

In alike graphs the queries of an edit have the same answers, up to the texts of their errors
(`Graph.Alike.agree_node` and its companions).  An edit is blind when it does the same to alike graphs: it
answers the same or fails for the same cause, and it leaves alike graphs.  All edits of the passes are.

Names are read in few places, and there the two runs may take different branches: a name moves along only
where one was given.  What such a branch does is quiet: it answers, and it changes nothing but names and
metadata.
-/

namespace OpGraph

namespace Node

variable {n n' : Node} (h : n.anonymous = n'.anonymous)

include h

theorem agree_slot (index : Nat) : Agree Eq (n.slot index) (n'.slot index) := by
  rw [slot, slot, outputs_eq_of_anonymous h]
  cases n'.outputs[index]? <;> exact rfl

theorem agree_source (index : Nat) : Agree Eq (n.source index) (n'.source index) := by
  rw [source, source, inputs_eq_of_anonymous h]
  cases n'.inputs[index]? <;> exact rfl

theorem values_eq_of_anonymous : n.values = n'.values := by
  rw [values, values, outputs_eq_of_anonymous h, id_eq_of_anonymous h]

end Node

/-! ### Queries -/

namespace Graph.Alike

variable {g g' : Graph} (h : g.Alike g')

include h

theorem size_eq : g.nodes.size = g'.nodes.size := h.congr (·.nodes.size) size_anonymous

theorem op?_eq (id : NodeId) : g.op? id = g'.op? id :=
  h.congr (·.op? id) fun g => op?_anonymous g id

theorem isKind_eq (id : NodeId) (kind : Kind) : g.isKind id kind = g'.isKind id kind :=
  h.congr (·.isKind id kind) fun g => isKind_anonymous g id kind

theorem constantValue?_eq : g.constantValue? = g'.constantValue? :=
  funext fun v => h.congr (·.constantValue? v) fun g => constantValue?_anonymous g v

/-- A node is gone from both graphs, or both have one there. -/
theorem node?_cases (id : NodeId) :
    (g.node? id = none ∧ g'.node? id = none) ∨
      ∃ n n', g.node? id = some n ∧ g'.node? id = some n' ∧ n.anonymous = n'.anonymous := by
  have hmap : (g.node? id).map Node.anonymous = (g'.node? id).map Node.anonymous := by
    rw [← node?_anonymous, ← node?_anonymous, show g.anonymous = g'.anonymous from h]
  cases hn : g.node? id <;> cases hn' : g'.node? id <;> rw [hn, hn'] at hmap
  · exact Or.inl ⟨rfl, rfl⟩
  · cases hmap
  · cases hmap
  · exact Or.inr ⟨_, _, rfl, rfl, Option.some.inj hmap⟩

theorem agree_node (id : NodeId) :
    Agree (fun n n' => n.anonymous = n'.anonymous) (g.node id) (g'.node id) := by
  obtain ⟨hn, hn'⟩ | ⟨n, n', hn, hn', hsame⟩ := h.node?_cases id
  · rw [node, node, hn, hn']
    rfl
  · rw [node_eq_ok.2 hn, node_eq_ok.2 hn']
    exact hsame

theorem agree_slot (v : Output) : Agree Eq (g.slot v) (g'.slot v) :=
  agree_bind (h.agree_node v.node) fun _ _ hn => Node.agree_slot hn v.index

theorem agree_desc (v : Output) : Agree Eq (g.desc v) (g'.desc v) :=
  agree_bind (h.agree_slot v) fun _ _ hs => congrArg Slot.desc hs

theorem agree_targets (v : Output) : Agree Eq (g.targets v) (g'.targets v) :=
  agree_bind (h.agree_slot v) fun _ _ hs => congrArg Slot.targets hs

theorem agree_source (i : Input) : Agree Eq (g.source i) (g'.source i) :=
  agree_bind (h.agree_node i.node) fun _ _ hn => Node.agree_source hn i.index

theorem agree_output (id : NodeId) (index : Nat) :
    Agree Eq (g.output id index) (g'.output id index) :=
  agree_bind (h.agree_slot ⟨id, index⟩) fun _ _ _ => rfl

theorem agree_inputDescs (id : NodeId) : Agree Eq (g.inputDescs id) (g'.inputDescs id) := by
  refine agree_bind (h.agree_node id) fun n n' hn => ?_
  rw [Node.inputs_eq_of_anonymous hn]
  exact agree_mapM_eq fun v _ => h.agree_desc v

theorem agree_inferNew (op : Op) (inputs : List Output) :
    Agree Eq (g.inferNew op inputs) (g'.inferNew op inputs) := by
  refine agree_bind (agree_mapM_eq fun v _ => h.agree_desc v) fun descs _ hdescs => ?_
  subst hdescs
  dsimp only
  cases op.infer descs with
  | ok outs => exact rfl
  | error e => exact e.cause_at _ _

theorem agree_reinfer (id : NodeId) : Agree Eq (g.reinfer id) (g'.reinfer id) := by
  refine agree_bind (h.agree_inputDescs id) fun descs _ hdescs => ?_
  subst hdescs
  refine agree_bind (h.agree_node id) fun n n' hn => ?_
  rw [Node.op_eq_of_anonymous hn, Node.outputs_eq_of_anonymous hn]
  cases n'.op.infer descs with
  | error e => exact e.cause_at _ _
  | ok outs =>
    dsimp only
    split
    · exact rfl
    · exact rfl

theorem consumerCount_eq (v : Output) : g.consumerCount v = g'.consumerCount v := by
  have hts := h.agree_targets v
  rw [consumerCount, consumerCount]
  cases ht : g.targets v <;> cases ht' : g'.targets v <;> rw [ht, ht'] at hts
  · exact hts.elim
  · exact hts.elim
  · exact congrArg List.length hts

theorem agree_feedsResult (id : NodeId) : Agree Eq (g.feedsResult id) (g'.feedsResult id) := by
  refine agree_bind (h.agree_targets ⟨id, 0⟩) fun ts _ hts => ?_
  subst hts
  exact congrArg ts.any (funext fun i => h.isKind_eq i.node .result)

theorem agree_canBypass (id : NodeId) (index : Nat) :
    Agree Eq (g.canBypass id index) (g'.canBypass id index) := by
  refine agree_bind (h.agree_node id) fun n n' hn => ?_
  rw [Node.outputs_eq_of_anonymous hn]
  split
  · exact rfl
  refine agree_bind (Node.agree_source hn index) fun source _ hsource => ?_
  subst hsource
  refine agree_bind (h.agree_feedsResult id) fun feeds _ hfeeds => ?_
  subst hfeeds
  rw [h.isKind_eq, h.consumerCount_eq]
  split <;> exact rfl

theorem identityOperand?_eq (id : NodeId) (identity : Float) :
    g.identityOperand? id identity = g'.identityOperand? id identity := by
  have hfilled : g.isConstantFilledWith = g'.isConstantFilledWith := by
    funext v x
    rw [isConstantFilledWith, isConstantFilledWith, h.constantValue?_eq]
  rw [identityOperand?, identityOperand?, hfilled]
  obtain ⟨hn, hn'⟩ | ⟨n, n', hn, hn', hsame⟩ := h.node?_cases id
  · rw [hn, hn']
    rfl
  rw [hn, hn']
  simp only [Option.bind_eq_bind, Option.bind_some, Node.inputs_eq_of_anonymous hsame,
    Node.outputs_eq_of_anonymous hsame]
  split
  · rename_i a b out _ _
    obtain ⟨d, _, hd, hd', rfl⟩ | ⟨e, e', he, he', -⟩ := (h.agree_desc a).exists_cases <;>
    obtain ⟨d', _, hd₁, hd₁', rfl⟩ | ⟨e₁, e₁', he₁, he₁', -⟩ := (h.agree_desc b).exists_cases <;>
    simp only [*]
  · rfl

theorem agree_fusedNames (id : NodeId) :
    Agree (fun _ _ => True) (g.fusedNames id) (g'.fusedNames id) :=
  agree_bind (h.agree_node id) fun _ _ _ => trivial

end Graph.Alike

/-! ### Single steps -/

namespace Edit

open OpGraph.Graph (Alike)

variable {α : Type}

/-- The edit does the same to graphs that are equal except for names and metadata. -/
def Blind (e : Edit α) : Prop := Couples Alike Eq e e

theorem blind_addNode (op : Op) (inputs : List Output) : Blind (addNode op inputs) := by
  rw [Blind, addNode]
  refine couples_bind (couples_query fun g g' h => h.agree_inferNew op inputs) fun descs _ hd => ?_
  subst hd
  exact couples_modifyGet fun g g' h =>
    ⟨h.size_eq, h.map (·.insert op inputs descs) fun g => g.anonymous_insert op inputs descs⟩

theorem blind_addOp (op : Op) (inputs : List Output) : Blind (addOp op inputs) := by
  rw [Blind, addOp]
  refine couples_bind (blind_addNode op inputs) fun id _ hid => ?_
  subst hid
  exact couples_query fun g g' h => h.agree_output id 0

theorem blind_addConstant (value : Tensor) : Blind (addConstant value) := blind_addOp _ []

theorem blind_connect (i : Input) (new : Output) : Blind (connect i new) := by
  rw [Blind, connect]
  refine couples_bind (couples_query fun g g' h => h.agree_source i) fun old _ hold => ?_
  subst hold
  refine couples_bind (couples_query fun g g' h => h.agree_slot new) fun _ _ _ => ?_
  have hmove : Couples Alike Eq (if old ≠ new then modify (·.rewire i old new) else pure () : Edit Unit)
      (if old ≠ new then modify (·.rewire i old new) else pure ()) :=
    couples_ite (fun _ => couples_modify fun g g' h =>
      h.map (·.rewire i old new) fun g => g.anonymous_rewire i old new) fun _ => couples_pure rfl
  refine couples_ite (fun _ => ?_) fun _ => hmove
  exact couples_bind (couples_query fun g g' h => h.agree_node i.node) fun n n' _ =>
    couples_throw_bind (by rfl)

/-- New names and metadata, which may be different ones. -/
theorem couples_updateNode (id : NodeId) {f f' : Node → Node}
    (h : ∀ n, (f n).anonymous = n.anonymous) (h' : ∀ n, (f' n).anonymous = n.anonymous) :
    Couples Alike Eq (updateNode id f) (updateNode id f') := by
  rw [updateNode, updateNode]
  refine couples_bind (couples_query fun g g' hg => hg.agree_node id) fun _ _ _ => ?_
  refine couples_modify fun g g' hg => ?_
  rw [Alike, Graph.anonymous_modifyNode_eq g id h, Graph.anonymous_modifyNode_eq g' id h']
  exact hg

theorem couples_setName (id : NodeId) (name name' : String) :
    Couples Alike Eq (setName id name) (setName id name') :=
  couples_updateNode id (fun _ => rfl) fun _ => rfl

theorem couples_setMetadata (id : NodeId) (key : String) (value value' : MetaValue) :
    Couples Alike Eq (setMetadata id key value) (setMetadata id key value') :=
  couples_updateNode id (fun _ => rfl) fun _ => rfl

theorem blind_copyMetadata (sources targets : List NodeId) :
    Blind (copyMetadata sources targets) := by
  rw [Blind, copyMetadata]
  refine couples_then (couples_mapM fun id _ => couples_query fun g g' h => h.agree_node id)
    fun nodes nodes' => ?_
  refine couples_then (couples_forM fun id _ => couples_discard (couples_query fun g g' h =>
    h.agree_node id)) fun _ _ => ?_
  exact couples_forM fun id _ => couples_updateNode id (fun _ => rfl) fun _ => rfl

theorem blind_release (ids : List NodeId) : Blind (release ids) := by
  refine couples_modifyGet fun g g' h => ?_
  have hrelease : (g.release ids).Alike (g'.release ids) :=
    h.map (·.release ids) fun g => g.anonymous_releaseStack ids.reverse
  refine ⟨?_, hrelease⟩
  show (g.release ids).released - g.released = (g'.release ids).released - g'.released
  rw [hrelease.congr (·.released) fun _ => rfl, h.congr (·.released) fun _ => rfl]

theorem blind_collectGarbage : Blind collectGarbage :=
  couples_modifyGet fun _ _ h =>
    ⟨h.congr (·.garbage.length) fun g => congrArg _ g.garbage_anonymous,
      h.map Graph.collectGarbage Graph.anonymous_collectGarbage⟩

theorem blind_revalidate (id : NodeId) : Blind (revalidate id) := by
  rw [Blind, revalidate]
  refine couples_bind (couples_query fun g g' h => h.agree_reinfer id) fun outs _ houts => ?_
  subst houts
  refine couples_bind (couples_query fun g g' h => h.agree_node id) fun n n' hn => ?_
  refine couples_then (couples_modify fun _ _ h => h.map (·.modifyNode id (·.withDescs outs))
    fun g => g.anonymous_modifyNode id fun _ => rfl) fun _ _ => ?_
  rw [Node.descs, Node.descs, Node.outputs_eq_of_anonymous hn]
  exact couples_pure rfl

theorem blind_validate : Blind validate := by
  rw [Blind, validate]
  refine couples_bind couples_get fun g g' h => ?_
  rw [h.congr (·.order) Graph.order_anonymous]
  exact couples_forM fun id _ => couples_discard (blind_revalidate id)

/-! ### Names that move along -/

/-- Where the node is live, the edit answers and changes nothing but names and metadata. -/
def Quiet (id : NodeId) (e : Edit Unit) : Prop :=
  ∀ g : Graph, g.contains id → ∃ g', e g = .ok () g' ∧ g'.anonymous = g.anonymous

theorem quiet_pure (id : NodeId) : Quiet id (pure ()) := fun g _ => ⟨g, rfl, rfl⟩

theorem quiet_setName (id : NodeId) (name : String) : Quiet id (setName id name) := fun _ hid =>
  ⟨_, updateNode_of_contains hid _, Graph.anonymous_modifyNode_eq _ id fun _ => rfl⟩

/-- The branches of two runs may differ in what is quiet. -/
theorem Quiet.couples {id : NodeId} {e e' : Edit Unit} (h : Quiet id e) (h' : Quiet id e') :
    Couples (fun g g' => g.Alike g' ∧ g.contains id) Eq e e' := by
  intro g g' hg
  have hcontains : g'.contains id :=
    (hg.1.congr (·.contains id) fun g => g.contains_anonymous id).symm.trans hg.2
  obtain ⟨g₁, hok, hsame⟩ := h g hg.2
  obtain ⟨g₁', hok', hsame'⟩ := h' g' hcontains
  rw [hok, hok']
  have hcontains₁ := Graph.contains_anonymous g₁ id
  rw [hsame, Graph.contains_anonymous] at hcontains₁
  exact ⟨rfl, (hsame.trans hg.1).trans hsame'.symm, hcontains₁.symm.trans hg.2⟩

/-! ### Replacement, fusion, bypassing -/

theorem keeps_connect_contains (i : Input) (new : Output) (id : NodeId) :
    Keeps (fun g => g.contains id) (fun g => g.contains id) (connect i new) := by
  intro g hg
  obtain ⟨err, he⟩ | ⟨old, -, -, -, hok⟩ := connect_cases i new g
  · rw [he]
    exact hg
  · rw [hok]
    show (if old = new then g else g.rewire i old new).contains id
    split
    · exact hg
    · rw [Graph.contains_eq_view, Graph.view?_rewire]
      split
      · rwa [Option.isSome_map, ← Graph.contains_eq_view]
      · rwa [← Graph.contains_eq_view]

theorem blind_replaceOutput (old new : Output) : Blind (replaceOutput old new) := by
  rw [Blind, replaceOutput]
  refine couples_then (couples_query fun g g' h => h.agree_desc new) fun _ _ => ?_
  refine couples_bind (couples_query fun g g' h => h.agree_targets old) fun targets _ hts => ?_
  subst hts
  refine couples_ite (fun _ => ?_) fun _ => couples_pure rfl
  refine couples_then (couples_query fun g g' h => h.agree_node old.node) fun oldNode oldNode' => ?_
  refine couples_query_bind (fun g g' h => h.agree_node new.node)
    (fun g n hn => Graph.contains_iff.2 ⟨n, Graph.node_eq_ok.1 hn⟩) fun newNode newNode' _ => ?_
  refine couples_then (couples_forM fun i _ => (blind_connect i new).and_keeps
    (keeps_connect_contains i new new.node)) fun _ _ => ?_
  -- one of the two may have a name to hand on where the other one has none
  refine Quiet.couples (?_ : Quiet new.node _) (?_ : Quiet new.node _)
  · split
    · exact quiet_setName new.node _
    · exact quiet_pure new.node
  · split
    · exact quiet_setName new.node _
    · exact quiet_pure new.node

theorem blind_replaceNodeWith (old : NodeId) (values : List Output) :
    Blind (replaceNodeWith old values) := by
  rw [Blind, replaceNodeWith]
  refine couples_bind (couples_query fun g g' h => h.agree_node old) fun n n' hn => ?_
  rw [Node.outputs_eq_of_anonymous hn]
  have hmove : Couples Alike Eq
      (do values.forM fun v => discard (query (·.desc v))
          values.zipIdx.forM fun e => replaceOutput ⟨old, e.2⟩ e.1 : Edit Unit)
      (do values.forM fun v => discard (query (·.desc v))
          values.zipIdx.forM fun e => replaceOutput ⟨old, e.2⟩ e.1) :=
    couples_then (couples_forM fun v _ => couples_discard (couples_query fun g g' h =>
      h.agree_desc v)) fun _ _ => couples_forM fun e _ => blind_replaceOutput ⟨old, e.2⟩ e.1
  exact couples_ite (fun _ => couples_throw_bind (by rfl)) fun _ => hmove

theorem blind_replaceNode (old new : NodeId) : Blind (replaceNode old new) := by
  rw [Blind, replaceNode]
  have hmove : Couples Alike Eq
      (do let n ← query (·.node new)
          replaceNodeWith old n.values : Edit Unit)
      (do let n ← query (·.node new)
          replaceNodeWith old n.values) := by
    refine couples_bind (couples_query fun g g' h => h.agree_node new) fun n n' hn => ?_
    rw [Node.values_eq_of_anonymous hn]
    exact blind_replaceNodeWith old n'.values
  refine couples_ite (fun _ => ?_) fun _ => hmove
  exact couples_then (couples_query fun g g' h => h.agree_node old) fun _ _ =>
    couples_throw_bind (by rfl)

theorem blind_fuse (group : List NodeId) (root fused : NodeId) :
    Blind (fuse group root fused) := by
  rw [Blind, fuse]
  refine couples_then (couples_mapM fun id _ => couples_query fun g g' h =>
    h.agree_fusedNames id) fun sets sets' => ?_
  refine couples_then (couples_query fun g g' h => h.agree_node root) fun rootNode rootNode' => ?_
  refine couples_then (blind_copyMetadata group [fused]) fun _ _ => ?_
  refine couples_then (blind_replaceNode root fused) fun _ _ => ?_
  refine couples_then (couples_setMetadata fused _ _ _) fun _ _ => ?_
  refine couples_query_bind (fun g g' h => h.agree_node fused)
    (fun g n hn => Graph.contains_iff.2 ⟨n, Graph.node_eq_ok.1 hn⟩) fun n n' _ => ?_
  have hquiet (n : Node) (name : String) : Quiet fused
      (if n.givenName = none then setName fused name else pure ()) := by
    split
    · exact quiet_setName fused name
    · exact quiet_pure fused
  exact (hquiet n rootNode.friendlyName).couples (hquiet n' rootNode'.friendlyName)

theorem blind_bypass (id : NodeId) (index : Nat) : Blind (bypass id index) := by
  rw [Blind, bypass]
  refine couples_bind (couples_query fun g g' h => h.agree_canBypass id index)
    fun allowed _ hallowed => ?_
  subst hallowed
  refine couples_ite (fun _ => ?_) fun _ => couples_pure rfl
  refine couples_then (couples_query fun g g' h => h.agree_node id) fun n n' => ?_
  refine couples_bind (couples_query fun g g' h => h.agree_source ⟨id, index⟩)
    fun source _ hsource => ?_
  subst hsource
  refine couples_bind (couples_query fun g g' h => h.agree_feedsResult id) fun feeds _ hfeeds => ?_
  subst hfeeds
  refine couples_bind (couples_query fun g g' h => h.agree_targets ⟨id, 0⟩) fun targets _ hts => ?_
  subst hts
  refine couples_then (couples_forM fun i _ => blind_connect i source) fun _ _ => ?_
  have hrelease : Couples Alike Eq
      (do let _ ← release [id]
          return true : Edit Bool)
      (do let _ ← release [id]
          return true) := couples_then (blind_release [id]) fun _ _ => couples_pure rfl
  refine couples_ite (fun _ => ?_) fun _ => hrelease
  exact couples_then (couples_setName source.node _ _) fun _ _ =>
    couples_then (blind_copyMetadata _ _) fun _ _ => hrelease

end Edit

end OpGraph
