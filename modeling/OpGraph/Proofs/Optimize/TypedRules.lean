import OpGraph.Optimize.Identity
import OpGraph.Proofs.Edit.Total
import OpGraph.Proofs.Graph.Typing
import OpGraph.Proofs.Op.Chain
import OpGraph.Proofs.Optimize.IdentityShape
import OpGraph.Proofs.Optimize.MultiplyChain
import OpGraph.Proofs.Optimize.Negation

/-!
# Rules keep the descriptions and do not fail

On a graph that keeps to a typing the rules of the standard passes do not fail, and they lead to such a
graph again, when they are tried at a node that matters.  What takes the place of a node has the very
description of the node.

Two edits are behind all rules: a product with a constant takes the place of a node
(`Typed.ends_scaled`), and a node is bypassed (`Typed.ends_bypass`).  The main statement is
`keeps_runRules_conserves`.
-/

namespace OpGraph

namespace Graph.Typed

open Edit

variable {g₀ g : Graph} {τ : Typing} {rank : NodeId → Nat}

/-- From a graph that keeps to a typing, an edit that keeps typings and does not fail. -/
theorem ends_conserves {α : Type} {r : EStateM.Result GraphError Graph α}
    (h : Ends (Typed g₀ τ rank) Anything r) {Q : Graph → Prop} (htotal : Ends Q Never r) :
    Ends (Conserves g₀) Never r :=
  (h.of_total htotal).imp fun _ hg => ⟨τ, rank, hg⟩

/-- A new constant. -/
theorem insert_constant (h : Typed g₀ τ rank g) (t : Tensor) :
    Typed g₀ (Function.update τ g.nodes.size [t.desc]) (Function.update rank g.nodes.size 0)
      (g.insert (.constant t) [] [t.desc]) := by
  obtain ⟨hp, hr⟩ := Op.constant_declares_nothing t
  exact h.insert rfl rfl hp hr (by simp) (by simp)

/-- A new node with the descriptions of another one, which reads lower nodes than the other one, can be
read in its place. -/
theorem ends_addNode (h : Typed g₀ τ rank g) {old : NodeId} {w : Node.View}
    (hw : g.view? old = some w) {op : Op} {inputs : List Output}
    (hnew : g.inferNew op inputs = .ok w.descs) (hbuilt : op.isBuiltIn)
    (hp : op.kind ≠ .parameter) (hr : op.kind ≠ .result)
    (hin : ∀ v ∈ inputs, g₀.Relevant v.node ∧ rank v.node < rank old) {rest : NodeId → Edit Bool}
    (hkeeps : ∀ {P : Graph → Prop} {new}, Hereditary P → (∀ k, Movable P ⟨old, k⟩ ⟨new, k⟩) →
      Keeps P Anything (rest new))
    (htotal : ∀ {g' : Graph} {new w'}, g'.Retains g → old ≠ new → g'.view? old = some w →
      g'.view? new = some w' → w'.descs.length = w.descs.length →
        Keeps (·.Retains g') Never (rest new)) :
    Ends (Conserves g₀) Never ((addNode op inputs >>= rest) g) := by
  have hold : old ≠ g.nodes.size := Nat.ne_of_lt (lt_size_of_view? hw)
  have h' := h.insert hnew hbuilt hp hr (fun v hv => (hin v hv).1) fun v hv => (hin v hv).2
  have hret : (g.insert op inputs w.descs).Retains g :=
    h.wellFormed.retains.insert fun v hv => exists_targets_of_inferNew hnew hv
  have hview : (g.insert op inputs w.descs).view? g.nodes.size = some ⟨op, inputs, w.descs⟩ := by
    rw [view?_insert, if_pos rfl]
  rw [bind_of_ok (addNode_of_inferNew hnew)]
  refine ends_conserves (hkeeps hereditary_typed (fun k => movable_typed ?_ ?_ ?_) _ h')
    (htotal hret hold (view?_insert_of_view? _ _ _ _ hw) hview rfl _ h'.wellFormed.retains)
  · rw [Typing.desc?, Typing.desc?, Function.update_self, Function.update_of_ne hold,
      ← h.descs_eq hw]
  · rw [Function.update_self, Function.update_of_ne hold]
  · exact Or.inr h.size_le

/-- A product with a new constant is read in the place of a node with the description of the product. -/
theorem ends_scaled (h : Typed g₀ τ rank g) {old : NodeId} {w : Node.View}
    (hw : g.view? old = some w) {x : Output} {d out : Desc} (hx : g.desc? x = some d)
    (hrel : g₀.Relevant x.node) (hlt : rank x.node < rank old) {t : Tensor} {rule : Broadcast}
    (hinfer : BinaryOp.infer rule [d, t.desc] = .ok [out]) (hdescs : w.descs = [out])
    {rest : Output → NodeId → Edit Bool}
    (hkeeps : ∀ {P : Graph → Prop} {c new}, Hereditary P →
      (∀ k, Movable P ⟨old, k⟩ ⟨new, k⟩) → Keeps P Anything (rest c new))
    (htotal : ∀ {g' : Graph} {c new w'}, g'.Retains g → g'.contains c.node → old ≠ new →
      g'.view? old = some w → g'.view? new = some w' → w'.descs.length = w.descs.length →
        Keeps (·.Retains g') Never (rest c new)) :
    Ends (Conserves g₀) Never ((do
      let c ← addConstant t
      let new ← addNode (.binary .multiply rule) [x, c]
      rest c new) g) := by
  have hold : old ≠ g.nodes.size := Nat.ne_of_lt (lt_size_of_view? hw)
  have hxne : x.node ≠ g.nodes.size := Nat.ne_of_lt (lt_size_of_contains (contains_of_desc? hx))
  have hret : (g.insert (.constant t) [] [t.desc]).Retains g :=
    h.wellFormed.retains.insert (by simp)
  have hc := desc?_insert_size g (.constant t) [] [t.desc] 0
  have hnew : (g.insert (.constant t) [] [t.desc]).inferNew (.binary .multiply rule)
      [x, ⟨g.nodes.size, 0⟩] = .ok w.descs := by
    refine inferNew_eq_ok.2 ⟨[d, t.desc], .cons ?_ (.cons ?_ .nil), hdescs ▸ hinfer⟩
    · exact desc_eq_ok_iff_desc?.2 (desc?_insert_of_desc? _ _ _ _ hx)
    · exact desc_eq_ok_iff_desc?.2 hc
  obtain ⟨hp, hr⟩ := Op.binary_declares_nothing .multiply rule
  rw [bind_of_ok (addConstant_eq t g)]
  refine (h.insert_constant t).ends_addNode (view?_insert_of_view? _ _ _ _ hw) hnew rfl hp hr
    (fun v hv => ?_) (hkeeps (c := ⟨g.nodes.size, 0⟩)) fun hret' hne hw₁ hw₂ hlen =>
      htotal (hret'.trans hret) (hret'.contains (contains_of_desc? hc)) hne hw₁ hw₂ hlen
  rw [Function.update_of_ne hold]
  rcases List.mem_pair.1 hv with rfl | rfl
  · exact ⟨hrel, by rwa [Function.update_of_ne hxne]⟩
  · exact ⟨Or.inr h.size_le, by rw [Function.update_self]; exact Nat.zero_lt_of_lt hlt⟩

/-- A node is bypassed to an input with its description. -/
theorem ends_bypass (h : Typed g₀ τ rank g) {id : NodeId} (hid : g₀.Relevant id) {w : Node.View}
    (hw : g.view? id = some w) {index : Nat} {source : Output} (hs : w.inputs[index]? = some source)
    {d : Desc} (hd : g.desc? source = some d) (hdescs : w.descs = [d]) :
    Ends (Conserves g₀) Never (bypass id index g) := by
  have hsource : g.source? ⟨id, index⟩ = some source := (source?_of_view? hw).trans hs
  have hdesc : g.desc? ⟨id, 0⟩ = some d := by
    rw [desc?_of_view? hw, hdescs]
    rfl
  have hlt : rank source.node < rank id := h.rank_lt (produces_of_source? hsource)
  refine ends_conserves (Edit.ends_bypass hereditary_typed h fun v hv => ?_)
    (ends_bypass_of_wellFormed h.wellFormed hsource hdesc fun i hi => ?_)
  · obtain rfl := Option.some.inj (hsource.symm.trans hv)
    refine movable_typed ?_ (Nat.le_of_lt hlt) (h.relevant hid hw _ (List.mem_of_getElem? hs))
    rw [h.typing_desc? hdesc, h.typing_desc? hd]
  · have hi : rank id < rank i.node := h.rank_lt (produces_of_source? hi)
    exact fun he => Nat.lt_asymm hlt (he ▸ hi)

/-- A match at a node that matters has a root that matters. -/
theorem relevant_root (h : Typed g₀ τ rank g) {id : NodeId} (hid : g₀.Relevant id) {p : Pattern}
    {m : Match} (hm : p.matchNode? g id = some m) : g₀.Relevant m.root.node := by
  obtain ⟨-, n, hn, hroot⟩ := Pattern.root_of_matchNode? hm
  rwa [hroot, h.wellFormed.id_eq hn]

end Graph.Typed

variable {g₀ g : Graph} {τ : Typing} {rank : NodeId → Nat}

/-! ### The rules -/

theorem Negation.ends_apply_of_typed (h : Graph.Typed g₀ τ rank g) {id : NodeId}
    (hid : g₀.Relevant id) {m : Match} (hm : pattern.matchNode? g id = some m) :
    Ends (Graph.Conserves g₀) Edit.Never (apply m g) := by
  obtain ⟨x, w, hx, hw, hkind, hin⟩ := Pattern.view?_of_match_unary hm
  have hroot := h.relevant_root hid hm
  have hneg : w.op = .unary .negative := Op.eq_unary_of_kind (h.isBuiltIn hroot hw) hkind
  obtain ⟨d, hd, hrel, hlt, hinfer⟩ := h.reads_single hroot hw hin
  rw [hneg] at hinfer
  obtain ⟨a, ha, hbool, hdescs⟩ := UnaryOp.infer_eq_ok.1 (show UnaryOp.infer [d] = _ from hinfer)
  obtain rfl : d = a := List.singleton_injective ha
  rw [apply, hx]
  refine Edit.ends_bind_of_query (Graph.desc_eq_ok_iff_desc?.2 hd) ?_
  split
  next => exact ⟨τ, rank, h⟩
  next =>
  have hscaled : BinaryOp.infer .numpy [d, (Tensor.scalar d.elementType (-1)).desc] = .ok [d] :=
    BinaryOp.infer_eq_ok.2 ⟨_, _, _, _, rfl, ElementType.merge_self _, hbool,
      PartialShape.broadcast_scalar _, rfl⟩
  refine h.ends_scaled hw hd hrel hlt hscaled hdescs
    (fun hP hm => keeps_takeover hP.renamable hm _)
    fun {g' c new w'} hret hc hne hold hnew hlen g'' hg'' => ?_
  have hroot' := Graph.contains_of_view? hold
  have hproduct := Graph.contains_of_view? hnew
  obtain ⟨root, hroot⟩ := Edit.node_of_contains (hg''.contains hroot')
  refine Edit.ends_bind_of_query hroot ?_
  rw [hg''.wellFormed.id_eq (Graph.node_eq_ok.1 hroot)]
  refine keeps_bind (Edit.keeps_setName_of_retains hproduct _) (fun _ => ?_) g'' hg''
  refine keeps_bind (Edit.keeps_copyMetadata_of_retains (fun j hj => ?_) fun j hj => ?_)
    fun _ => ?_
  · exact List.mem_singleton.1 hj ▸ hroot'
  · rcases List.mem_pair.1 hj with rfl | rfl
    · exact hproduct
    · exact hc
  · exact keeps_bind (Edit.keeps_replaceNode_of_retains hne hold hnew hlen) fun _ =>
      keeps_pure true

namespace MultiplyChain

/-- The search for a combined constant has an answer if the data and the result have descriptions. -/
theorem exists_scale? {x root : Output} (c₁ c₂ : Output) (inner : NodeId) {d e : Desc}
    (hx : g.desc? x = some d) (hroot : g.desc? root = some e) :
    ∃ r, scale? g x c₁ c₂ inner root = .ok r := by
  unfold scale?
  rw [Graph.desc_eq_ok_iff_desc?.2 hx, Graph.desc_eq_ok_iff_desc?.2 hroot]
  dsimp only [bind, Except.bind]
  split
  next =>
    split
    · exact ⟨_, rfl⟩
    split
    next =>
      split
      next =>
        split
        · exact ⟨_, rfl⟩
        · exact ⟨_, rfl⟩
      next => exact ⟨_, rfl⟩
    next => exact ⟨_, rfl⟩
  next => exact ⟨_, rfl⟩

theorem ends_apply_of_typed (h : Graph.Typed g₀ τ rank g) {id : NodeId} (hid : g₀.Relevant id)
    {m : Match} (hm : pattern.matchNode? g id = some m) :
    Ends (Graph.Conserves g₀) Edit.Never (apply m g) := by
  obtain ⟨x, y, c₁, c₂, inner, outer, hx, hc₁, hy, hc₂, houter, hin, hinner, hin'⟩ :=
    exists_of_match hm
  have hroot := h.relevant_root hid hm
  obtain ⟨hout, -⟩ := Pattern.root_of_matchNode? hm
  obtain ⟨e, he⟩ := Graph.exists_desc?_of_hasOutput hout
  -- the inner product and the data
  obtain ⟨ds, hds, hinfer⟩ := h.reads hroot houter
  rw [hin] at hds
  obtain ⟨dy, l, ⟨-, hrely, hlty⟩, hl, rfl⟩ := List.forall₂_cons_left_iff.1 hds
  obtain ⟨ds', hds', -⟩ := h.reads hrely hinner
  rw [hin'] at hds'
  obtain ⟨d, -, ⟨hd, hrel, hlt⟩, -⟩ := List.forall₂_cons_left_iff.1 hds'
  have hnode : m.node? 2 = some y.node := by rw [Match.node?, hy, Option.map_some]
  rw [apply, hx, hc₁, hc₂, hnode]
  obtain ⟨r, hr⟩ := exists_scale? c₁ c₂ y.node hd he
  refine Edit.ends_bind_of_query hr ?_
  cases r with
  | none => exact ⟨τ, rank, h⟩
  | some p =>
  obtain ⟨t, rule⟩ := p
  obtain ⟨a, b, type, data, expected, -, -, -, hop, -, -, hdata, hexpected, hscaled⟩ :=
    scale?_eq_some hr
  obtain rfl := Option.some.inj (hdata.symm.trans hd)
  -- the outer product has a single output, so it is the one that the rule has looked at
  have hdescs : outer.descs = [expected] := by
    rw [Graph.op_eq_of_view? houter hop] at hinfer
    obtain ⟨-, -, type, shape, -, -, -, -, houts⟩ := BinaryOp.infer_eq_ok.1
      (show BinaryOp.infer rule _ = _ from hinfer)
    rw [Graph.desc?_of_view? houter, houts] at hexpected
    rw [houts, List.mem_singleton.1 (List.mem_of_getElem? hexpected)]
  refine h.ends_scaled houter hd hrel (Nat.lt_trans hlt hlty) hscaled hdescs (fun hP hm => ?_)
    fun {g' c new w'} hret hc hne hold hnew hlen => ?_
  · exact keeps_bind (Edit.keeps_fuse_of_movable hP.renamable hm) fun _ => keeps_pure true
  · refine keeps_bind (Edit.keeps_fuse_of_retains (fun j hj => ?_) hne hold hnew hlen)
      fun _ => keeps_pure true
    rcases List.mem_pair.1 hj with rfl | rfl
    · exact hret.contains (Graph.contains_of_view? hinner)
    · exact Graph.contains_of_view? hold

end MultiplyChain

namespace Identity

theorem ends_bypassConversion_of_typed (h : Graph.Typed g₀ τ rank g) {id : NodeId}
    (hid : g₀.Relevant id) {m : Match} (hm : conversion.matchNode? g id = some m) :
    Ends (Graph.Conserves g₀) Edit.Never (bypassConversion m g) := by
  obtain ⟨x, w, hx, hw, -, hin⟩ := Pattern.view?_of_match_unary hm
  have hroot := h.relevant_root hid hm
  obtain ⟨d, hd, -, -, hinfer⟩ := h.reads_single hroot hw hin
  rw [bypassConversion, get_bind, hx]
  cases hop : g.op? m.root.node with
  | none => exact ⟨τ, rank, h⟩
  | some op =>
  cases op with
  | convert destination =>
    refine Edit.ends_bind_of_query (Graph.desc_eq_ok_iff_desc?.2 hd) ?_
    split
    next htype =>
      rw [Graph.op_eq_of_view? hw hop, ← htype] at hinfer
      obtain ⟨-, -, hdescs⟩ := Op.infer_convert.1 hinfer
      exact h.ends_bypass hroot hw (by rw [hin]; rfl) hd hdescs
    next => exact ⟨τ, rank, h⟩
  | _ => exact ⟨τ, rank, h⟩

theorem ends_bypassOperation_of_typed (h : Graph.Typed g₀ τ rank g) {id : NodeId}
    (hid : g₀.Relevant id) {p : Pattern} {m : Match} (hm : p.matchNode? g id = some m)
    (identity : Float) : Ends (Graph.Conserves g₀) Edit.Never (bypassOperation identity m g) := by
  rw [bypassOperation, get_bind]
  cases hi : g.identityOperand? m.root.node identity with
  | none => exact ⟨τ, rank, h⟩
  | some index =>
    obtain ⟨w, data, other, c, d, hw, hin, -, -, hd, hdescs⟩ := Graph.identityOperand?_eq_some hi
    refine h.ends_bypass (h.relevant_root hid hm) hw ?_ hd hdescs
    rcases hin with ⟨rfl, hin⟩ | ⟨rfl, hin⟩ <;> rw [hin] <;> rfl

end Identity

/-! ### The rules in a run -/

/-- A rule neither fails nor changes descriptions, where it is tried at a node that matters. -/
abbrev Rule.Conserving {σ : Type} (g₀ : Graph) (r : Rule σ) : Prop :=
  r.RespectsOn g₀.Relevant (fun s => g₀.Conserves s.graph) (fun s => Edit.Never s.graph)

variable {σ : Type}

theorem Rule.conserving_ofEdit {name : String} {pattern : Pattern} {action : Match → Edit Bool}
    (h : ∀ {τ rank g id m}, Graph.Typed g₀ τ rank g → g₀.Relevant id →
      pattern.matchNode? g id = some m → Ends (Graph.Conserves g₀) Edit.Never (action m g)) :
    (Rule.ofEdit name pattern action : Rule σ).Conserving g₀ := by
  intro s id m hid hs hm
  obtain ⟨τ, rank, ht⟩ := hs
  exact Action.ends_edit (h ht hid hm)

/-- **A run of such rules neither fails nor changes descriptions.** -/
theorem keeps_runRules_conserves {rules : List (Rule σ)} (hrules : ∀ r ∈ rules, r.Conserving g₀)
    (config : TraversalConfig) (filter : PassFilter) :
    Keeps (fun s => g₀.Conserves s.graph) (fun s => Edit.Never s.graph)
      (runRules rules config filter) := by
  refine keeps_runRules_on (V := g₀.Relevant) (fun ids => Action.keeps_edit
    (Edit.keeps_release_of_hereditary Graph.hereditary_conserves ids)) ?_ ?_ hrules config filter
  · intro s hs id hid
    obtain ⟨τ, rank, h⟩ := hs
    exact h.relevant_of_reachable (Graph.reachable_of_mem_order hid)
  · -- inference finds nothing to do
    intro s id hid hs hlive
    refine Action.ends_edit ?_
    obtain ⟨τ, rank, h⟩ := hs
    rw [Edit.revalidate_of_consistentAt (h.consistentAt hid hlive)]
    exact ⟨τ, rank, h⟩

end OpGraph
