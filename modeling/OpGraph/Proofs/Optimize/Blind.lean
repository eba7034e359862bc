import OpGraph.Proofs.Optimize.Pipeline
import OpGraph.Proofs.Rule.Blind

/-!
# Names do not steer the optimizer

Two graphs that are equal except for names and metadata are optimized in step: each standard pass, and
every pipeline, answers the same on both or fails for the same cause, and leaves graphs that are equal
except for names and metadata.

The actions of the rules and the folding of a node are blind, since the edits that they consist of are;
then the passes are (`couples_pass`), and the manager adds only blind edits of its own
(`Manager.sameRun_runFrom`).  The main statement is `optimization_ignores_names`.
-/

namespace OpGraph

open OpGraph.Graph (Alike)

/-! ### The actions of the rules -/

theorem Negation.blind_apply (m : Match) : Edit.Blind (apply m) := by
  rw [Edit.Blind, apply]
  split
  swap
  · exact couples_pure rfl
  rename_i x _
  refine couples_bind (Edit.couples_query fun g g' h => h.agree_desc x) fun d _ hd => ?_
  subst hd
  refine couples_ite (fun _ => couples_pure rfl) fun _ => ?_
  refine couples_bind (Edit.blind_addConstant _) fun minusOne _ hone => ?_
  subst hone
  refine couples_bind (Edit.blind_addNode .multiply [x, minusOne]) fun product _ hproduct => ?_
  subst hproduct
  refine couples_bind (Edit.couples_query fun g g' h => h.agree_node m.root.node)
    fun root root' hroot => ?_
  refine couples_then (Edit.couples_setName product _ _) fun _ _ => ?_
  rw [Node.id_eq_of_anonymous hroot]
  refine couples_then (Edit.blind_copyMetadata _ _) fun _ _ => ?_
  exact couples_then (Edit.blind_replaceNode root'.id product) fun _ _ => couples_pure rfl

namespace MultiplyChain

theorem blind_pattern : pattern.table.Blind :=
  show ∀ i : Fin 5, (pattern.table.node i).Blind from fun
    | 0 => Predicate.blind_always
    | 1 => Predicate.blind_always
    | 2 => Predicate.blind_consumersCount 1
    | 3 => Predicate.blind_always
    | 4 => Predicate.blind_always

theorem agree_scale? {g g' : Graph} (h : g.Alike g') (x c₁ c₂ : Output) (inner : NodeId) (root : Output) :
    Agree Eq (scale? g x c₁ c₂ inner root) (scale? g' x c₁ c₂ inner root) := by
  have hbroadcast : broadcast? g = broadcast? g' := by
    funext id
    rw [broadcast?, broadcast?, h.op?_eq]
  rw [scale?, scale?, h.constantValue?_eq, hbroadcast]
  split
  swap
  · exact rfl
  split
  · exact rfl
  split
  swap
  · exact rfl
  split
  swap
  · exact rfl
  refine agree_bind (h.agree_desc x) fun data _ hdata => ?_
  subst hdata
  refine agree_bind (h.agree_desc root) fun expected _ hexpected => ?_
  subst hexpected
  split <;> exact rfl

theorem blind_apply (m : Match) : Edit.Blind (apply m) := by
  rw [Edit.Blind, apply]
  split
  swap
  · exact couples_pure rfl
  rename_i x c₁ c₂ inner _ _ _ _
  refine couples_bind (Edit.couples_query fun g g' h => agree_scale? h x c₁ c₂ inner m.root)
    fun found _ hfound => ?_
  subst hfound
  cases found with
  | none => exact couples_pure rfl
  | some found =>
    obtain ⟨scale, rule⟩ := found
    refine couples_bind (Edit.blind_addConstant scale) fun c _ hc => ?_
    subst hc
    refine couples_bind (Edit.blind_addNode (.binary .multiply rule) [x, c]) fun fused _ hf => ?_
    subst hf
    exact couples_then (Edit.blind_fuse _ _ _) fun _ _ => couples_pure rfl

end MultiplyChain

namespace Identity

theorem blind_bypassConversion (m : Match) : Edit.Blind (bypassConversion m) := by
  refine couples_bind couples_get fun g g' h => ?_
  rw [h.op?_eq]
  split
  swap
  · exact couples_pure rfl
  rename_i x destination _ _
  refine couples_bind (Edit.couples_query fun g g' h => h.agree_desc x) fun d _ hd => ?_
  subst hd
  exact couples_ite (fun _ => Edit.blind_bypass m.root.node 0) fun _ => couples_pure rfl

theorem blind_bypassOperation (identity : Float) (m : Match) :
    Edit.Blind (bypassOperation identity m) := by
  refine couples_bind couples_get fun g g' h => ?_
  rw [h.identityOperand?_eq]
  split
  · exact Edit.blind_bypass m.root.node _
  · exact couples_pure rfl

end Identity

/-! ### Folding -/

namespace Graph

theorem Alike.agree_fold? {g g' : Graph} (h : g.Alike g') (id : NodeId) : Agree Eq (g.fold? id) (g'.fold? id) := by
  refine agree_bind (h.agree_node id) fun n n' hn => ?_
  rw [Node.kind, Node.kind, Node.op_eq_of_anonymous hn, Node.inputs_eq_of_anonymous hn,
    Node.outputs_eq_of_anonymous hn, h.constantValue?_eq]
  split
  · exact rfl
  · refine agree_bind (h.agree_inputDescs id) fun descs _ hdescs => ?_
    subst hdescs
    cases n'.op.fold (n'.inputs.map g'.constantValue?) descs <;> exact rfl

end Graph

namespace Edit

/-- The constants that stand for a folded node may get different names. -/
theorem couples_addNamedConstant (name name' : String) (value : Tensor) :
    Couples Alike Eq (addNamedConstant name value) (addNamedConstant name' value) := by
  refine couples_bind (blind_addConstant value) fun v _ hv => ?_
  subst hv
  exact couples_then (couples_setName v.node name name') fun _ _ => couples_pure rfl

theorem blind_inheritMetadata (id : NodeId) (replacement : Output) :
    Blind (inheritMetadata id replacement) := by
  refine couples_bind (couples_query fun g g' h => h.agree_targets replacement)
    fun targets _ hts => ?_
  subst hts
  exact couples_forM fun i _ => blind_copyMetadata [id, i.node] [i.node]

theorem blind_foldNode (id : NodeId) : Blind (foldNode id) := by
  refine couples_then (couples_query fun g g' h => h.agree_node id) fun n n' => ?_
  refine couples_bind (couples_query fun g g' h => h.agree_fold? id) fun values _ hvalues => ?_
  subst hvalues
  cases values with
  | none => exact couples_pure rfl
  | some values =>
    refine couples_bind (couples_mapM fun e _ => couples_addNamedConstant
      (foldedName n.friendlyName e.2 values.length) (foldedName n'.friendlyName e.2 values.length)
      e.1) fun replacements replacements' hsame => ?_
    rw [List.forall₂_eq_eq_eq] at hsame
    subst hsame
    refine couples_then (blind_replaceNodeWith id replacements) fun _ _ => ?_
    refine couples_then (couples_forM fun v _ => blind_inheritMetadata id v) fun _ _ => ?_
    exact couples_then (blind_release [id]) fun _ _ => couples_pure rfl

theorem blind_foldNodes (ids : List NodeId) (changed : Bool) : Blind (foldNodes ids changed) := by
  induction ids generalizing changed with
  | nil => exact couples_pure rfl
  | cons id ids ih =>
    have hfold : Blind (do
        let folded ← foldNode id
        foldNodes ids (changed || folded)) := by
      refine couples_bind (blind_foldNode id) fun folded _ hfolded => ?_
      subst hfolded
      exact ih (changed || folded)
    refine couples_bind couples_get fun g g' h => ?_
    rw [h.congr (·.contains id) fun g => g.contains_anonymous id]
    refine couples_ite (fun _ => couples_ite (fun _ => ?_) fun _ => hfold) fun _ => ih changed
    exact couples_then (blind_revalidate id) fun _ _ => hfold

theorem blind_foldConstants : Blind foldConstants := by
  refine couples_bind couples_get fun g g' h => ?_
  rw [h.congr (·.order) Graph.order_anonymous]
  exact blind_foldNodes g'.order false

end Edit

/-! ### Passes and managers -/

variable {σ : Type}

theorem Rule.blind_of_mem_lawfulRules {r : Rule σ} (hr : r ∈ lawfulRules) : r.Blind := by
  simp only [lawfulRules, List.mem_cons, List.not_mem_nil, or_false] at hr
  rcases hr with rfl | rfl | rfl | rfl | rfl
  · exact blind_ofEdit (Pattern.blind_unary .negative) Negation.blind_apply
  · exact blind_ofEdit MultiplyChain.blind_pattern MultiplyChain.blind_apply
  · exact blind_ofEdit (Pattern.blind_unary .convert) Identity.blind_bypassConversion
  · exact blind_ofEdit (Pattern.blind_ofKind .multiply) (Identity.blind_bypassOperation 1)
  · exact blind_ofEdit (Pattern.blind_ofKind .add) (Identity.blind_bypassOperation 0)

theorem couples_pass {pass : Pass σ}
    (hpass : pass ∈ [.rule Negation.rule, .constantFolding, .rule MultiplyChain.rule,
      Identity.pass])
    (filter : PassFilter) : InStep (pass.run filter) (pass.run filter) := by
  obtain ⟨rules, config, hrules, hrun⟩ | hrun := Pass.run_standard_cases hpass filter
  · rw [hrun]
    exact couples_runRules (fun r hr => Rule.blind_of_mem_lawfulRules (hrules r hr)) config filter
  · rw [hrun]
    exact Action.couples_edit Edit.blind_foldConstants

/-- Two runs of the manager have the same outcome, up to the text of an error, and the same counts, and
they leave graphs that are equal except for names and metadata. -/
structure SameRun (r r' : RunReport × Session σ) : Prop where
  outcome : Agree Eq r.1.outcome r'.1.outcome
  stats : r.1.stats = r'.1.stats
  session : Session.Lift Alike r.2 r'.2

namespace Manager

variable {s s' : Session σ}

theorem blind_afterChange (config : ManagerConfig) : Edit.Blind (afterChange config) := by
  have hvalidate : Edit.Blind (do if config.perPassValidation then Edit.validate) :=
    couples_ite (fun _ => Edit.blind_validate) fun _ => couples_pure rfl
  exact couples_ite (fun _ => couples_then Edit.blind_collectGarbage fun _ _ => hvalidate)
    fun _ => hvalidate

theorem couples_runPass (m : Manager σ) {p : Pass σ} (hp : InStep (p.run m.filter) (p.run m.filter)) :
    InStep (m.runPass p) (m.runPass p) := by
  refine couples_bind hp fun changed _ hchanged => ?_
  subst hchanged
  exact couples_ite (fun _ => couples_then (Action.couples_edit (blind_afterChange m.config))
    fun _ _ => couples_pure rfl) fun _ => couples_pure rfl

theorem sameRun_finish (m : Manager σ) (released : Nat) (stats : RunStats)
    (hs : Session.Lift Alike s s') :
    SameRun (m.finish released stats s) (m.finish released stats s') := by
  have hlast : Couples (Session.Lift Alike) Eq
      (if m.config.finalValidation then .edit Edit.validate else pure () : Action σ Unit)
      (if m.config.finalValidation then .edit Edit.validate else pure () : Action σ Unit) :=
    couples_ite (fun _ => Action.couples_edit Edit.blind_validate) fun _ => couples_pure rfl
  have hpaired := hlast s s' hs
  unfold finish
  extract_lets last
  change Paired (Session.Lift Alike) Eq (last s) (last s') at hpaired
  cases hr : last s <;> cases hr' : last s' <;> rw [hr, hr'] at hpaired
  · refine ⟨rfl, ?_, hpaired.2⟩
    dsimp only
    rw [hpaired.2.1.congr (·.released) fun _ => rfl]
  · exact hpaired.elim
  · exact hpaired.elim
  · exact ⟨hpaired.1, rfl, hpaired.2⟩

/-- Passes that do not look at names make a run that does not. -/
theorem sameRun_runFrom (m : Manager σ) {passes : List (Pass σ)}
    (hpasses : ∀ p ∈ passes, InStep (p.run m.filter) (p.run m.filter)) (released : Nat)
    (stats : RunStats) (hs : Session.Lift Alike s s') :
    SameRun (m.runFrom released passes stats s) (m.runFrom released passes stats s') := by
  induction passes generalizing stats s s' with
  | nil => exact sameRun_finish m released stats hs
  | cons p passes ih =>
    obtain ⟨hp, hpasses⟩ := List.forall_mem_cons.1 hpasses
    have hpaired := couples_runPass m hp s s' hs
    rw [runFrom, runFrom]
    split
    · exact ih hpasses stats hs
    · cases hr : m.runPass p s <;> cases hr' : m.runPass p s' <;> rw [hr, hr'] at hpaired
      · obtain ⟨rfl, hs⟩ := hpaired
        exact ih hpasses _ hs
      · exact hpaired.elim
      · exact hpaired.elim
      · exact ⟨hpaired.1, rfl, hpaired.2⟩

end Manager

/-- **Names and metadata do not influence the optimizer.**  On two graphs that are equal except for
them, each standard pass answers the same or fails for the same cause, and so does every pipeline,
whatever is switched on or left out; the graphs that are left are equal except for names and metadata. -/
theorem optimization_ignores_names {g g' : Graph} (h : g.Alike g') (memory : σ) :
    (∀ pass ∈ [.rule Negation.rule, .constantFolding, .rule MultiplyChain.rule, Identity.pass],
      ∀ filter : PassFilter, Paired (Session.Lift Alike) Eq (pass.run filter ⟨g, memory⟩)
        (pass.run filter ⟨g', memory⟩)) ∧
    ∀ (p : Pipeline) (filter : PassFilter),
      SameRun (({ (p.build : Manager σ) with filter } : Manager σ).run ⟨g, memory⟩)
        (({ (p.build : Manager σ) with filter } : Manager σ).run ⟨g', memory⟩) := by
  have hstart : Session.Lift Alike ⟨g, memory⟩ ⟨g', memory⟩ := ⟨h, rfl⟩
  refine ⟨fun pass hpass filter => couples_pass hpass filter _ _ hstart, fun p filter => ?_⟩
  have hreleased : g.released = g'.released := h.congr (·.released) fun _ => rfl
  rw [Manager.run, Manager.run]
  dsimp only
  rw [hreleased]
  exact Manager.sameRun_runFrom _ (fun pass hpass => couples_pass (Pipeline.mem_standard hpass) filter)
    g'.released {} hstart

namespace Graph

/-- The negated pair under another name, with a name and a note for the negation. -/
def namedNegatedPair : Graph :=
  { negatedPair.modifyNode 1 fun n =>
      { n with givenName := some "minus", metadata := .ofList [("origin", .text "draft")] } with
    name := "named" }

/-- The negation that has a name of its own is turned into a product as well. -/
theorem optimization_ignores_names_negatedPair :
    (negatedPair.node? 1).map (·.friendlyName) ≠ (namedNegatedPair.node? 1).map (·.friendlyName) ∧
    negatedPair.Alike namedNegatedPair ∧
    ∃ s : Session Unit,
      (Pass.rule Negation.rule).run {} ⟨namedNegatedPair, ()⟩ = .ok true s ∧
        negatedPairRewritten.Alike s.graph := by
  have hnode : namedNegatedPair.anonymous = (negatedPair.modifyNode 1 _).anonymous := rfl
  have halike : negatedPair.Alike namedNegatedPair :=
    (hnode.trans (anonymous_modifyNode_eq negatedPair 1 fun _ => rfl)).symm
  have hpaired := (optimization_ignores_names halike ()).1 _ List.mem_cons_self {}
  rw [run_negatedPair] at hpaired
  refine ⟨by decide, halike, ?_⟩
  cases hrun : (Pass.rule Negation.rule).run {} (⟨namedNegatedPair, ()⟩ : Session Unit) with
  | error err s =>
    rw [hrun] at hpaired
    exact hpaired.elim
  | ok changed s =>
    rw [hrun] at hpaired
    obtain ⟨rfl, hs, -⟩ := hpaired
    exact ⟨s, rfl, hs⟩

end Graph

end OpGraph
