import OpGraph.Proofs.Edit.Succession
import OpGraph.Proofs.Edit.Total
import OpGraph.Proofs.Graph.Single

/-!
# Edits that fail as a whole

The edits of construction, rewiring, replacement and inference look at all their handles before the
first change.  Each of them therefore falls into a part that only asks, after which the graph is what it
was, and a part that cannot fail once all questions have been answered; the second part is that of
`Edit.keeps_replaceOutput_of_retains` and its companions.  `Edit.Guarded` lists these edits, and
`Edit.unchanged_of_error` says that one of them that is refused has changed nothing.
-/

namespace OpGraph.Edit

open OpGraph.Graph (WellFormed)

variable {α β : Type} {g : Graph}

/-! ### Asking first -/

theorem ends_of_never {P E : Graph → Prop} {r : EStateM.Result GraphError Graph α}
    (h : Ends P Never r) : Ends Anything E r := by
  cases r with
  | ok a s => trivial
  | error err s => exact h.elim

/-- A query that fails has changed nothing; what follows may use the answer. -/
theorem ends_ask_bind {P : Graph → Prop} {f : Graph → Except GraphError α} {k : α → Edit β}
    (h : ∀ a, f g = .ok a → Ends P (· = g) (k a g)) : Ends P (· = g) ((query f >>= k) g) := by
  obtain ⟨err, he⟩ | ⟨a, ha, hk⟩ := query_bind_cases f k g
  · rw [he]
    rfl
  · rw [hk]
    exact h a ha

/-- A question is put for each element of a list. -/
theorem ends_forM_ask {f : β → Graph → Except GraphError α} {C : β → Prop} {l : List β}
    (h : ∀ b ∈ l, ∀ a, f b g = .ok a → C b) :
    Ends (fun g' => g' = g ∧ ∀ b ∈ l, C b) (· = g) (l.forM (fun b => discard (query (f b))) g) := by
  induction l with
  | nil => exact ⟨rfl, by simp⟩
  | cons b l ih =>
    obtain ⟨hb, hl⟩ := List.forall_mem_cons.1 h
    refine ends_then (Q := fun g' => g' = g ∧ C b) ?_ fun _ g' hg' => ?_
    · show Ends _ _ ((discard (query (f b)) : Edit PUnit) g)
      rw [discard_eq]
      exact ends_ask_bind fun a ha => ⟨rfl, hb a ha⟩
    obtain ⟨rfl, hC⟩ := hg'
    exact (ih hl).imp fun _ hg => ⟨hg.1, List.forall_mem_cons.2 ⟨hC, hg.2⟩⟩

/-! ### The edits one by one -/

theorem ends_addNode_guarded (op : Op) (inputs : List Output) :
    Ends Anything (· = g) (addNode op inputs g) := by
  obtain ⟨err, he⟩ | ⟨descs, -, hok⟩ := addNode_cases op inputs g
  · rw [he]
    rfl
  · rw [hok]
    trivial

theorem ends_connect_guarded (i : Input) (new : Output) :
    Ends Anything (· = g) (connect i new g) := by
  obtain ⟨err, he⟩ | ⟨old, -, -, -, hok⟩ := connect_cases i new g
  · rw [he]
    rfl
  · rw [hok]
    trivial

theorem ends_revalidate_guarded (id : NodeId) : Ends Anything (· = g) (revalidate id g) := by
  obtain ⟨err, he⟩ | ⟨outs, changed, -, hok⟩ := revalidate_cases id g
  · rw [he]
    rfl
  · rw [hok]
    trivial

theorem ends_removeResult_guarded (id : NodeId) : Ends Anything (· = g) (removeResult id g) := by
  rw [removeResult, get_bind]
  dsimp only
  split
  · trivial
  · rfl

theorem ends_replaceOutput_guarded (hg : g.WellFormed) (old new : Output) :
    Ends Anything (· = g) (replaceOutput old new g) := by
  rw [replaceOutput]
  refine ends_ask_bind fun d hd => ends_ask_bind fun targets htargets => ?_
  have hnew := Graph.desc_eq_ok_iff_desc?.1 hd
  have hold := Graph.exists_targets?_iff.1 ⟨targets, Graph.targets_eq_ok.1 htargets⟩
  -- both values exist, so the whole edit answers
  have hrest := keeps_replaceOutput_of_retains hold ⟨d, hnew⟩ g hg.retains
  rw [replaceOutput, bind_of_ok (query_of_ok hd), bind_of_ok (query_of_ok htargets)] at hrest
  exact ends_of_never hrest

theorem ends_replaceNodeWith_guarded (hg : g.WellFormed) (old : NodeId) (values : List Output) :
    Ends Anything (· = g) (replaceNodeWith old values g) := by
  rw [replaceNodeWith]
  refine ends_ask_bind fun n hn => ?_
  dsimp only
  split
  · rfl
  next hcount =>
  have hold : g.view? old = some n.view := Graph.view?_eq_some.2 ⟨n, Graph.node_eq_ok.1 hn, rfl⟩
  have hlen : values.length = n.view.descs.length := by
    rw [Node.length_descs]
    exact (not_not.1 hcount).symm
  refine ends_then (ends_forM_ask (C := fun v => ∃ d, g.desc? v = some d) fun v _ d hd =>
    ⟨d, Graph.desc_eq_ok_iff_desc?.1 hd⟩) fun _ g' hg' => ?_
  obtain ⟨rfl, hvalues⟩ := hg'
  exact ends_of_never (keeps_forM_replaceOutput_of_retains hold hlen hvalues g' hg.retains)

theorem ends_replaceNode_guarded (hg : g.WellFormed) (old new : NodeId) :
    Ends Anything (· = g) (replaceNode old new g) := by
  rw [replaceNode]
  dsimp only
  split
  · exact ends_ask_bind fun n _ => rfl
  · exact ends_ask_bind fun n _ => ends_replaceNodeWith_guarded hg old n.values

theorem ends_copyMetadata_guarded (hg : g.WellFormed) (sources targets : List NodeId) :
    Ends Anything (· = g) (copyMetadata sources targets g) := by
  rw [copyMetadata]
  refine ends_then (keeps_mapM (P := (· = g)) (fun _ _ => keeps_query (fun _ h => h) _) g rfl)
    fun nodes g' hg' => ?_
  subst hg'
  refine ends_then (ends_forM_ask (C := fun id => g'.contains id) fun id _ n hn =>
    Graph.contains_iff.2 ⟨n, Graph.node_eq_ok.1 hn⟩) fun _ g'' hg'' => ?_
  obtain ⟨rfl, htargets⟩ := hg''
  have hrest : Keeps (·.Retains g'') Never (targets.forM fun id => updateNode id fun n =>
      { n with metadata := n.metadata.merge (Metadata.gather (nodes.map (·.metadata))) }) :=
    keeps_forM fun id hid =>
      keeps_updateNode_of_retains (htargets id hid) fun _ => ⟨rfl, rfl, rfl, rfl⟩
  exact ends_of_never (hrest g'' hg.retains)

/-- No reader of a node is the node behind it, so all of them can move there. -/
theorem ends_bypass_guarded (hg : g.WellFormed) (ha : g.Acyclic) (id : NodeId) (index : Nat) :
    Ends Anything (· = g) (bypass id index g) := by
  cases hallowed : g.canBypass id index with
  | error err =>
    rw [bypass, bind_of_error (query_of_error hallowed)]
    rfl
  | ok allowed =>
    cases allowed with
    | false =>
      rw [bypass, bind_of_ok (query_of_ok hallowed)]
      trivial
    | true =>
      obtain ⟨source, feeds, hsource, hfeeds, -⟩ := Graph.canBypass_eq_ok hallowed
      obtain ⟨targets, htargets, -⟩ := except_bind_eq_ok.1 hfeeds
      obtain ⟨d, hd⟩ := Graph.exists_targets?_iff.1 ⟨targets, Graph.targets_eq_ok.1 htargets⟩
      refine ends_of_never (ends_bypass_of_wellFormed hg hsource hd fun i hi hloop => ?_)
      have hread : g.Produces source.node id := Graph.produces_of_source? hsource
      have hreader : g.Produces id i.node := Graph.produces_of_source? hi
      exact ha i.node ((Relation.TransGen.single (hloop ▸ hread)).tail hreader)

/-! ### All of them -/

/-- The edits that look at everything before they change anything, with any handles.  That a node can be
bypassed is known in advance only where there is no cycle. -/
inductive Guarded (g : Graph) : {α : Type} → Edit α → Prop
  | addNode (op : Op) (inputs : List Output) : Guarded g (Edit.addNode op inputs)
  | cloneNode (id : NodeId) (inputs : List Output) : Guarded g (Edit.cloneNode id inputs)
  | connect (i : Input) (new : Output) : Guarded g (Edit.connect i new)
  | replaceOutput (old new : Output) : Guarded g (Edit.replaceOutput old new)
  | replaceNode (old new : NodeId) : Guarded g (Edit.replaceNode old new)
  | replaceNodeWith (old : NodeId) (values : List Output) :
    Guarded g (Edit.replaceNodeWith old values)
  | copyMetadata (sources targets : List NodeId) : Guarded g (Edit.copyMetadata sources targets)
  | revalidate (id : NodeId) : Guarded g (Edit.revalidate id)
  | removeResult (id : NodeId) : Guarded g (Edit.removeResult id)
  | bypass (id : NodeId) (index : Nat) : g.Acyclic → Guarded g (Edit.bypass id index)

/-- **A guarded edit that is refused leaves the graph exactly as it was.** -/
theorem unchanged_of_error (hg : g.WellFormed) {e : Edit α} (he : Guarded g e) {err : GraphError}
    {g' : Graph} (h : e g = .error err g') : g' = g := by
  have hends : Ends Anything (· = g) (e g) := by
    cases he with
    | addNode op inputs => exact ends_addNode_guarded op inputs
    | cloneNode id inputs => exact ends_ask_bind fun n _ => ends_addNode_guarded n.op inputs
    | connect i new => exact ends_connect_guarded i new
    | replaceOutput old new => exact ends_replaceOutput_guarded hg old new
    | replaceNode old new => exact ends_replaceNode_guarded hg old new
    | replaceNodeWith old values => exact ends_replaceNodeWith_guarded hg old values
    | copyMetadata sources targets => exact ends_copyMetadata_guarded hg sources targets
    | revalidate id => exact ends_revalidate_guarded id
    | removeResult id => exact ends_removeResult_guarded id
    | bypass id index ha => exact ends_bypass_guarded hg ha id index
  rw [h] at hends
  exact hends

/-- A negation has no second input that it could be bypassed through. -/
theorem unchanged_of_error_secondInput :
    ∃ err, bypass 1 1 (Graph.single (.unary .negative) ⟨.f32, .unranked⟩ ⟨.f32, .unranked⟩) =
      .error err (Graph.single (.unary .negative) ⟨.f32, .unranked⟩ ⟨.f32, .unranked⟩) := by
  obtain ⟨err, g', h⟩ : ∃ err g', bypass 1 1 (Graph.single (.unary .negative) ⟨.f32, .unranked⟩
      ⟨.f32, .unranked⟩) = .error err g' := ⟨_, _, rfl⟩
  have hg' := unchanged_of_error (Graph.wellFormed_single ..)
    (.bypass 1 1 (Graph.acyclic_single _ _ _)) h
  exact ⟨err, hg' ▸ h⟩

end OpGraph.Edit
