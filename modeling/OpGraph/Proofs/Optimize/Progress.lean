import OpGraph.Proofs.Optimize.Folding
import OpGraph.Proofs.Optimize.Scaled
import OpGraph.Proofs.Rule.Progress

/-!
# The standard passes report exactly what they do

Where a rule reports a change, the root of the match has lost its readers, so the release after the
action takes it; a folded or bypassed node is released on the spot.  Where a rule or the folding of a
node reports no change, it has only looked at the graph.

The main statement is `passes_report_exactly`.
-/

namespace OpGraph

open OpGraph.Graph (Orderly)

variable {σ : Type} {g g' g₁ : Graph} {root : NodeId}

/-! ### The rules -/

/-- Where the action reports a change in a graph, the release after it takes something. -/
theorem Rule.frees_ofEdit {name : String} {pattern : Pattern} {action : Match → Edit Bool}
    (hlocal : (Rule.ofEdit name pattern action : Rule σ).Local)
    (h : ∀ {g g' : Graph} {id : NodeId} {m : Match}, g.Orderly → pattern.matchNode? g id = some m →
      action m g = .ok true g' → g.released < (g'.release m.visited).released) :
    (Rule.ofEdit name pattern action : Rule σ).Frees := by
  intro s s' id m changed hs hm haction
  have hchange := hlocal hs.wellFormed hm haction
  obtain ⟨g', hok, rfl⟩ := Action.edit_eq_ok.1 haction
  cases changed with
  | true => exact h hs hm hok
  | false =>
    obtain rfl : g' = s.graph := hchange
    rfl

namespace Graph

/-- The release from a node that is read no more takes something. -/
theorem Diverts.released_lt {ρ : Output → Output} (h : g₁.Diverts root ρ g')
    (hleave : ∀ i v, g₁.source? i = some v → v.node = root → (ρ v).node ≠ root)
    (hroot : g₁.Internal root) {ids : List NodeId} (hmem : root ∈ ids) :
    g₁.released < (g'.release ids).released := by
  rw [← h.released_eq]
  exact released_lt_release h.wellFormed (h.expendable hleave hroot hmem)

/-- So does the release from a node in whose place a new product is read. -/
theorem released_lt_of_scaled {rule : Broadcast} {x : Output} {t : Tensor} {descs : List Desc}
    {w : Node.View} (hw : g.view? root = some w) (hp : w.op.kind ≠ .parameter)
    (hr : w.op.kind ≠ .result) (hwf : (g.scaled rule x t descs).WellFormed)
    (h : (g.scaled rule x t descs).Diverts root (Edit.outputsOf g.product) g') {ids : List NodeId}
    (hmem : root ∈ ids) : g.released < (g'.release ids).released := by
  have hne : g.product ≠ root := Nat.ne_of_gt (Nat.lt_succ_of_lt (lt_size_of_view? hw))
  have hlt := h.released_lt (fun _ _ _ _ => hne) (hwf.internal (view?_scaled_of_view? hw) hp hr) hmem
  rwa [released_scaled] at hlt

theorem released_lt_of_bypass (hwf : g.WellFormed) {w : Node.View} (hw : g.view? root = some w)
    (hp : w.op.kind ≠ .parameter) (hr : w.op.kind ≠ .result) {index : Nat}
    (h : Edit.bypass root index g = .ok true g') : g.released < g'.released := by
  obtain ⟨source, g₁, hread, hdiverts, rfl⟩ := Edit.bypass_eq_ok hwf h
  exact hdiverts.released_lt (fun _ _ _ _ => (hwf.source_exists hread).1) (hwf.internal hw hp hr)
    List.mem_cons_self

end Graph

theorem Negation.frees_rule : (Negation.rule : Rule σ).Frees := by
  refine Rule.frees_ofEdit Negation.local_rule fun hg hm hok => ?_
  obtain ⟨x, w, d, hw, hkind, -, -, -, descs, hwf, hdiverts⟩ := apply_eq_ok hg.wellFormed hm hok
  exact Graph.released_lt_of_scaled hw (by rw [hkind]; decide) (by rw [hkind]; decide) hwf hdiverts
    (Pattern.root_mem_visited hm)

theorem MultiplyChain.frees_rule : (MultiplyChain.rule : Rule σ).Frees := by
  refine Rule.frees_ofEdit MultiplyChain.local_rule fun hg hm hok => ?_
  obtain ⟨x, y, c₁, c₂, inner, outer, r, -, houter, -, -, -, hscale, hend⟩ :=
    apply_eq_ok hg.wellFormed hg.acyclic hm hok
  cases r with
  | none => cases hend.1
  | some p =>
    obtain ⟨t, rule⟩ := p
    obtain ⟨-, descs, hwf, hdiverts, -⟩ := hend
    obtain ⟨-, -, -, -, -, -, -, -, hop, -⟩ := scale?_eq_some hscale
    obtain ⟨hp, hr⟩ := Op.binary_declares_nothing .multiply rule
    have hwop := Graph.op_eq_of_view? houter hop
    exact Graph.released_lt_of_scaled houter (hwop ▸ hp) (hwop ▸ hr) hwf hdiverts
      (Pattern.root_mem_visited hm)

namespace Identity

/-- What an action that bypasses the root has released stays released. -/
theorem frees_of_bypass {name : String} {pattern : Pattern} {action : Match → Edit Bool}
    (hlocal : (Rule.ofEdit name pattern action : Rule σ).Local)
    (hkind : ∀ {g : Graph} {id : NodeId} {m : Match}, pattern.matchNode? g id = some m →
      ∃ w, g.view? m.root.node = some w ∧ w.op.kind ≠ .parameter ∧ w.op.kind ≠ .result)
    (hbypass : ∀ {g g' : Graph} {m : Match}, action m g = .ok true g' →
      ∃ index, Edit.bypass m.root.node index g = .ok true g') :
    (Rule.ofEdit name pattern action : Rule σ).Frees := by
  refine Rule.frees_ofEdit hlocal fun {g g' id m} hg hm hok => ?_
  obtain ⟨w, hw, hp, hr⟩ := hkind hm
  obtain ⟨index, hok⟩ := hbypass hok
  have hwf : g'.WellFormed := (Edit.invariant_wellFormed.keeps_bypass _ index).of_ok hg.wellFormed hok
  exact Nat.lt_of_lt_of_le (Graph.released_lt_of_bypass hg.wellFormed hw hp hr hok)
    (Graph.released_le_release hwf m.visited)

/-- What is bypassed converts a value to the type that the value has. -/
theorem bypassConversion_eq_ok {m : Match} (h : bypassConversion m g = .ok true g') :
    ∃ x d, m.get? 0 = some x ∧ g.op? m.root.node = some (.convert d.elementType) ∧
      g.desc? x = some d ∧ Edit.bypass m.root.node 0 g = .ok true g' := by
  rw [bypassConversion, get_bind] at h
  cases hx : m.get? 0 with
  | none =>
    rw [hx] at h
    cases (pure_eq_ok.1 h).1
  | some x =>
    cases hop : g.op? m.root.node with
    | none =>
      rw [hx, hop] at h
      cases (pure_eq_ok.1 h).1
    | some op =>
      rw [hx, hop] at h
      cases op with
      | convert destination =>
        obtain ⟨d, g₁, hd, h⟩ := bind_eq_ok.1 h
        obtain ⟨hdesc, rfl⟩ := Edit.query_eq_ok.1 hd
        split at h
        next htype => exact ⟨x, d, rfl, by rw [htype], Graph.desc_eq_ok_iff_desc?.1 hdesc, h⟩
        next => cases (pure_eq_ok.1 h).1
      | _ => cases (pure_eq_ok.1 h).1

theorem bypass_of_bypassConversion {m : Match} (h : bypassConversion m g = .ok true g') :
    ∃ index, Edit.bypass m.root.node index g = .ok true g' := by
  obtain ⟨x, d, -, -, -, h⟩ := bypassConversion_eq_ok h
  exact ⟨0, h⟩

theorem bypass_of_bypassOperation {identity : Float} {m : Match}
    (h : bypassOperation identity m g = .ok true g') :
    ∃ index, Edit.bypass m.root.node index g = .ok true g' := by
  rw [bypassOperation, get_bind] at h
  cases hindex : g.identityOperand? m.root.node identity with
  | none =>
    rw [hindex] at h
    cases (pure_eq_ok.1 h).1
  | some index =>
    rw [hindex] at h
    exact ⟨index, h⟩

theorem frees_convertRule : (convertRule : Rule σ).Frees := by
  refine frees_of_bypass local_convertRule (fun hm => ?_) bypass_of_bypassConversion
  obtain ⟨-, w, -, hw, hkind, -⟩ := Pattern.view?_of_match_unary hm
  exact ⟨w, hw, by rw [hkind]; decide, by rw [hkind]; decide⟩

theorem frees_bypassOperation (name : String) {kind : Kind} (hp : kind ≠ .parameter)
    (hr : kind ≠ .result) (identity : Float) :
    (Rule.ofEdit name (.ofKind kind) (bypassOperation identity) : Rule σ).Frees := by
  refine frees_of_bypass (local_bypassOperation _ _ _) (fun hm => ?_) bypass_of_bypassOperation
  obtain ⟨w, hw, hkind⟩ := Pattern.view?_of_match_ofKind hm
  exact ⟨w, hw, hkind ▸ hp, hkind ▸ hr⟩

end Identity

/-- **The rules of the standard passes free the root where they report a change.** -/
theorem Rule.frees_of_mem_lawfulRules {r : Rule σ} (h : r ∈ lawfulRules) : r.Frees := by
  simp only [lawfulRules, List.mem_cons, List.not_mem_nil, or_false] at h
  rcases h with rfl | rfl | rfl | rfl | rfl
  · exact Negation.frees_rule
  · exact MultiplyChain.frees_rule
  · exact Identity.frees_convertRule
  · exact Identity.frees_bypassOperation _ (by decide) (by decide) 1
  · exact Identity.frees_bypassOperation _ (by decide) (by decide) 0

/-! ### Folding -/

namespace Graph

/-- Constants with tensors in `T` have been added to the graph, and nothing else has changed. -/
structure Augments (g : Graph) (T : Tensor → Prop) (g₁ : Graph) : Prop where
  rewrites : ∀ root, g.Rewrites root g₁
  size_le : g.nodes.size ≤ g₁.nodes.size
  parameters_eq : g₁.parameters = g.parameters
  results_eq : g₁.results = g.results
  released_eq : g₁.released = g.released
  view_eq : ∀ {id}, id < g.nodes.size → g₁.view? id = g.view? id
  view_new : ∀ {id w}, g.nodes.size ≤ id → g₁.view? id = some w →
    ∃ t, T t ∧ w = ⟨.constant t, [], [t.desc]⟩

theorem view?_named (g : Graph) (id : NodeId) (name : String) (j : NodeId) :
    (g.modifyNode id fun n => { n with givenName := some name }).view? j = g.view? j := by
  rw [view?_relabel]
  exact fun _ => ⟨rfl, rfl, rfl, rfl⟩

namespace Augments

variable {T : Tensor → Prop}

theorem refl (g : Graph) : g.Augments T g :=
  ⟨fun _ => .refl, Nat.le_refl _, rfl, rfl, rfl, fun _ => rfl, fun hid hw =>
    absurd (lt_size_of_view? hw) (Nat.not_lt_of_le hid)⟩

theorem addNamedConstant (h : g.Augments T g₁) (hwf : g.WellFormed) {name : String} {t : Tensor}
    (ht : T t) {v : Output} (hok : Edit.addNamedConstant name t g₁ = .ok v g') :
    g.Augments T g' ∧ g.nodes.size ≤ v.node := by
  obtain ⟨rfl, hname⟩ := addNamedConstant_eq_ok hok
  obtain ⟨err, he⟩ | ⟨-, hset⟩ := Edit.updateNode_cases g₁.nodes.size
    (fun n => { n with givenName := some name }) (g₁.insert (.constant t) [] [t.desc])
  · rw [Edit.setName, he] at hname
    cases hname
  rw [Edit.setName, hset] at hname
  cases hname
  obtain ⟨hp, hr⟩ := Op.constant_declares_nothing t
  have hinfer : g₁.inferNew (.constant t) [] = .ok [t.desc] := rfl
  have hinsert (root : NodeId) : g.Rewrites root (g₁.insert (.constant t) [] [t.desc]) :=
    (h.rewrites root).insert hinfer (by simp)
  refine ⟨?_, h.size_le⟩
  exact
    { rewrites := fun root => (hinsert root).restrict (restricts_modifyNode
        ((hinsert root).wellFormed hwf) fun _ => ⟨rfl, rfl, rfl, rfl⟩)
      size_le := by
        rw [size_nodes_modifyNode, size_insert]
        exact Nat.le_succ_of_le h.size_le
      parameters_eq := (parameters_insert g₁ [] [t.desc] hp).trans h.parameters_eq
      results_eq := (results_insert g₁ [] [t.desc] hr).trans h.results_eq
      released_eq := (released_insert g₁ (.constant t) [] [t.desc]).trans h.released_eq
      view_eq := fun hid => by
        rw [view?_named, view?_insert_of_lt _ _ _ _ (Nat.lt_of_lt_of_le hid h.size_le), h.view_eq hid]
      view_new := fun hid hw => by
        rw [view?_named] at hw
        obtain ⟨-, rfl⟩ | hw := view?_of_view?_insert _ _ _ _ hw
        · exact ⟨t, ht, rfl⟩
        · exact h.view_new hid hw }

/-- Constants are added one after the other, all of them as new nodes. -/
theorem mapM_addNamedConstant (h : g.Augments T g₁) (hwf : g.WellFormed)
    {f : Tensor × Nat → Edit Output} (hf : ∀ e, ∃ name, f e = Edit.addNamedConstant name e.1)
    {l : List (Tensor × Nat)} (hl : ∀ e ∈ l, T e.1) {vs : List Output} (hok : l.mapM f g₁ = .ok vs g') :
    g.Augments T g' ∧ ∀ v ∈ vs, g.nodes.size ≤ v.node := by
  induction l generalizing g₁ vs with
  | nil =>
    obtain ⟨rfl, rfl⟩ := pure_eq_ok.1 hok
    exact ⟨h, by simp⟩
  | cons e l ih =>
    obtain ⟨he, hl⟩ := List.forall_mem_cons.1 hl
    rw [List.mapM_cons] at hok
    obtain ⟨v, g₂, hv, hok⟩ := bind_eq_ok.1 hok
    obtain ⟨name, hname⟩ := hf e
    rw [hname] at hv
    obtain ⟨h₂, hnew⟩ := h.addNamedConstant hwf he hv
    obtain ⟨vs', g₃, hvs, hok⟩ := bind_eq_ok.1 hok
    obtain ⟨rfl, rfl⟩ := pure_eq_ok.1 hok
    obtain ⟨h₃, hnews⟩ := ih h₂ hl hvs
    exact ⟨h₃, List.forall_mem_cons.2 ⟨hnew, hnews⟩⟩

end Augments

/-- Constants with the tensors `values` have been added in `g₁`, and in `g₂` these are read in the place of
`root`, up to names and metadata. -/
structure Folds (g : Graph) (root : NodeId) (values : List Tensor) (ρ : Output → Output)
    (g₁ g₂ : Graph) : Prop where
  fold?_eq : g.fold? root = .ok (some values)
  augments : g.Augments (· ∈ values) g₁
  diverts : g₁.Diverts root ρ g₂
  leave : ∀ i v, g₁.source? i = some v → v.node = root → (ρ v).node ≠ root
  internal : g₁.Internal root
  rewrites : g.Rewrites root (g₂.release [root])

end Graph

/-- What the folding of a node does. -/
theorem Edit.foldNode_eq_ok {folded : Bool} (hwf : g.WellFormed)
    (h : Edit.foldNode root g = .ok folded g') :
    if folded then ∃ values ρ g₁ g₂, g.Folds root values ρ g₁ g₂ ∧ g' = g₂.release [root]
    else g.fold? root = .ok none ∧ g' = g := by
  rw [Edit.foldNode] at h
  obtain ⟨n, g₀, hn, h⟩ := bind_eq_ok.1 h
  obtain ⟨-, rfl⟩ := Edit.query_eq_ok.1 hn
  obtain ⟨r, g₀, hr, h⟩ := bind_eq_ok.1 h
  obtain ⟨hfold, rfl⟩ := Edit.query_eq_ok.1 hr
  cases r with
  | none =>
    obtain ⟨rfl, rfl⟩ := pure_eq_ok.1 h
    exact ⟨hfold, rfl⟩
  | some values =>
  obtain ⟨vs, g₁, hmap, h⟩ := bind_eq_ok.1 h
  obtain ⟨u, g₂, hreplace, h⟩ := bind_eq_ok.1 h
  obtain ⟨u, g₃, hinherit, h⟩ := bind_eq_ok.1 h
  obtain ⟨count, g₄, hrelease, h⟩ := bind_eq_ok.1 h
  obtain ⟨-, rfl⟩ := modifyGet_eq_ok.1 hrelease
  obtain ⟨rfl, rfl⟩ := pure_eq_ok.1 h
  obtain ⟨w, -, hw, hp, hres, -⟩ := Graph.fold?_eq_some hfold
  have hlt := Graph.lt_size_of_view? hw
  -- the constants are added
  have hvalues : ∀ e ∈ values.zipIdx, e.1 ∈ values := fun e he => by
    obtain ⟨-, hk⟩ := List.mem_zipIdx' he
    exact hk ▸ List.getElem_mem _
  obtain ⟨haugments, hnew⟩ := (Graph.Augments.refl g).mapM_addNamedConstant hwf
    (fun e => ⟨_, rfl⟩) hvalues hmap
  have hwf₁ := (haugments.rewrites root).wellFormed hwf
  -- what read the node reads them
  have hmove : ∀ k v, vs[k]? = some v →
      Edit.Movable (fun g' => g'.WellFormed ∧ g.Rewrites root g') ⟨root, k⟩ v := fun k v hv =>
    Graph.movable_rewrites k (Or.inr (hnew v (List.mem_of_getElem? hv)))
  have hrewrites := (Edit.keeps_replaceNodeWith_of_movable
    Graph.hereditary_rewrites.renamable hmove).of_ok ⟨hwf₁, haugments.rewrites root⟩ hreplace
  obtain ⟨hdiverts, hleave⟩ := (Edit.ends_replaceNodeWith_diverts hwf₁
    (fun v hv => Nat.ne_of_gt (Nat.lt_of_lt_of_le hlt (hnew v hv))) fun v hv hread => by
      obtain ⟨w', hw', u, hu, -⟩ := Graph.produces_iff_view.1 hread
      obtain ⟨t, -, rfl⟩ := haugments.view_new (hnew v hv) hw'
      cases hu).of_ok hreplace
  -- names and metadata move without consequence
  have hrewrites := (keeps_forM fun v _ => keeps_inheritMetadata
    Graph.hereditary_rewrites.renamable root v).of_ok hrewrites hinherit
  have hdiverts := (keeps_forM fun v _ => keeps_inheritMetadata
    Graph.renamable_diverts root v).of_ok hdiverts hinherit
  exact ⟨values, Edit.listed vs, g₁, g₃,
    { fold?_eq := hfold
      augments := haugments
      diverts := hdiverts
      leave := hleave
      internal := hwf₁.internal ((haugments.view_eq hlt).trans hw) hp hres
      rewrites := hrewrites.2.restrict (Graph.restricts_releaseStack hrewrites.1 [root].reverse) }, rfl⟩

/-- What has been folded is released, and what has not been folded has only been looked at. -/
theorem exact_foldNode (root : NodeId) : Exact id (Edit.foldNode root) := by
  intro g folded g' hg h
  have hfolded := Edit.foldNode_eq_ok hg.wellFormed h
  cases folded with
  | false =>
    obtain ⟨-, rfl⟩ := hfolded
    exact ⟨hg, .start g'⟩
  | true =>
    obtain ⟨values, ρ, g₁, g₂, hfolds, rfl⟩ := hfolded
    obtain ⟨w, -, hw, -⟩ := Graph.fold?_eq_some hfolds.fold?_eq
    refine ⟨hfolds.rewrites.orderly hg (Graph.contains_of_view? hw), ?_⟩
    have hlt := hfolds.diverts.released_lt hfolds.leave hfolds.internal (List.mem_singleton_self root)
    rwa [hfolds.augments.released_eq] at hlt

/-- The folding of all nodes adds what it reports at the nodes to what was reported before. -/
theorem reported_foldNodes {P : Graph → Prop} {R : Graph → Graph → Prop} [IsTrans Graph R]
    {ids : List NodeId} (habides : ∀ id ∈ ids, Abides P R (Edit.revalidate id))
    (hfold : ∀ id ∈ ids, Reports P R (Edit.foldNode id)) {g₀ : Graph} {changed c : Bool} (hg : P g)
    (hstart : Reported R changed g₀ g) (h : Edit.foldNodes ids changed g = .ok c g') :
    P g' ∧ Reported R c g₀ g' := by
  induction ids generalizing changed g with
  | nil =>
    obtain ⟨rfl, rfl⟩ := pure_eq_ok.1 h
    exact ⟨hg, hstart⟩
  | cons j ids ih =>
    obtain ⟨hj, hids⟩ := List.forall_mem_cons.1 habides
    obtain ⟨hfoldj, hfold⟩ := List.forall_mem_cons.1 hfold
    have hrest {g₁ : Graph} (hg₁ : P g₁) (hstart₁ : Reported R changed g₀ g₁)
        (h : (do
          let folded ← Edit.foldNode j
          Edit.foldNodes ids (changed || folded) : Edit Bool) g₁ = .ok c g') :
        P g' ∧ Reported R c g₀ g' := by
      obtain ⟨folded, g₂, hfold₂, h⟩ := bind_eq_ok.1 h
      obtain ⟨hg₂, hfolded⟩ := hfoldj hg₁ hfold₂
      exact ih hids hfold hg₂ (hstart₁.or hfolded) h
    rw [Edit.foldNodes, get_bind] at h
    split at h
    next =>
      split at h
      next hchanged =>
        subst hchanged
        obtain ⟨b, g₁, hre, h⟩ := bind_eq_ok.1 h
        obtain ⟨hg₁, hkeeps⟩ := hj hg hre
        exact hrest hg₁ (hkeeps g₀ hstart) h
      next => exact hrest hg hstart h
    next => exact ih hids hfold hg hstart h

theorem exact_foldConstants : Exact id Edit.foldConstants := fun _ _ _ hg h =>
  reported_foldNodes (fun id _ => abides_revalidate id) (fun id _ => exact_foldNode id) hg (.start _) h

/-! ### The passes -/

theorem Pass.exact_run {config : TraversalConfig} {pass : Pass σ}
    (hpass : pass ∈ [.rule { (Negation.rule : Rule σ) with config }, .constantFolding,
      .rule { (MultiplyChain.rule : Rule σ) with config },
      .group "NopElimination" [Identity.convertRule, Identity.multiplyRule, Identity.addRule] config])
    (filter : PassFilter) : Exact Session.graph (pass.run filter) := by
  have hmember {r : Rule σ} (hr : r ∈ lawfulRules) : r.Local ∧ r.Frees :=
    ⟨Rule.local_of_mem_lawfulRules hr, Rule.frees_of_mem_lawfulRules hr⟩
  simp only [List.mem_cons, List.not_mem_nil, or_false] at hpass
  rcases hpass with rfl | rfl | rfl | rfl
  · exact exact_runRules (fun r hr => List.mem_singleton.1 hr ▸
      ⟨Negation.local_rule, Negation.frees_rule⟩) config filter
  · exact exact_foldConstants.edit
  · exact exact_runRules (fun r hr => List.mem_singleton.1 hr ▸
      ⟨MultiplyChain.local_rule, MultiplyChain.frees_rule⟩) config filter
  · refine exact_runRules (fun r hr => hmember ?_) config filter
    simp only [List.mem_cons, List.not_mem_nil, or_false] at hr
    rcases hr with rfl | rfl | rfl <;> simp [lawfulRules]

/-- **What a standard pass reports is exact**: after a pass that has reported a change nodes have been
released, and a pass that has reported none has left the graph as it was, with all descriptions, names and
metadata.  The filter and the configuration of the traversals may be any. -/
theorem passes_report_exactly (hwf : g.WellFormed) (hacyclic : g.Acyclic) {config : TraversalConfig}
    {pass : Pass σ}
    (hpass : pass ∈ [.rule { (Negation.rule : Rule σ) with config }, .constantFolding,
      .rule { (MultiplyChain.rule : Rule σ) with config },
      .group "NopElimination" [Identity.convertRule, Identity.multiplyRule, Identity.addRule] config])
    {filter : PassFilter} {memory : σ} {changed : Bool} {s : Session σ}
    (hrun : pass.run filter ⟨g, memory⟩ = .ok changed s) :
    if changed then g.released < s.graph.released else s = ⟨g, memory⟩ := by
  have hg : (Session.mk g memory).graph.Orderly := ⟨hwf, hacyclic⟩
  exact (Pass.exact_run hpass filter hg hrun).2

/-- The negation of a pair is released. -/
theorem passes_report_exactly_negatedPair :
    (Pass.rule Negation.rule).run {} (⟨Graph.negatedPair, ()⟩ : Session Unit) =
        .ok true ⟨Graph.negatedPairRewritten, ()⟩ ∧
      Graph.negatedPair.released < Graph.negatedPairRewritten.released :=
  ⟨Graph.run_negatedPair, passes_report_exactly (Graph.wellFormed_single _ _ _)
    (Graph.acyclic_single _ _ _)
    (List.mem_cons_self : Pass.rule { (Negation.rule : Rule Unit) with config := {} } ∈ _)
    Graph.run_negatedPair⟩

end OpGraph
