import OpGraph.Proofs.Graph.Incremental
import OpGraph.Proofs.Optimize.Rewriting

/-!
# Local rules

A rule is local when its action, where it reports a change, rewrites the graph at the root of the match as
`Graph.Rewrites` says, and otherwise leaves the graph alone.  Then so does an offer to a list of rules,
with the release after the action (`rewrites_of_offer`).

The rules of the standard passes are local (`Rule.local_of_mem_lawfulRules`): they put a product that
reads an operand of the root in its place, or they bypass the root.
-/

namespace OpGraph

open Relation (TransGen)

variable {σ : Type} {rules : List (Rule σ)} {filter : PassFilter} {id : NodeId}
  {s s' : Session σ}

/-- Where the action of the rule reports a change it has rewritten the graph at the root of the match,
and where it reports none it has left the graph alone. -/
def Rule.Local (r : Rule σ) : Prop :=
  ∀ ⦃s s' : Session σ⦄ ⦃id : NodeId⦄ ⦃m : Match⦄ ⦃changed : Bool⦄, s.graph.WellFormed →
    r.pattern.matchNode? s.graph id = some m → r.action m s = .ok changed s' →
      if changed then s.graph.Rewrites m.root.node s'.graph else s'.graph = s.graph

theorem rewrites_of_applyAt {r : Rule σ} (hr : r.Local) (hwf : s.graph.WellFormed) {hit : Bool}
    (h : r.applyAt id s = .ok hit s') :
    if hit then s.graph.Rewrites id s'.graph else s'.graph = s.graph := by
  obtain ⟨-, rfl, rfl⟩ | ⟨m, s₁, hm, haction, rfl⟩ := applyAt_eq_ok h
  · rfl
  have hlocal := hr hwf hm haction
  cases hit with
  | false => exact hlocal
  | true =>
    obtain ⟨-, n, hn, hroot⟩ := Pattern.root_of_matchNode? hm
    rw [hwf.id_eq hn] at hroot
    have hchange : s.graph.Rewrites id s₁.graph := hroot ▸ hlocal
    exact hchange.restrict (Graph.restricts_releaseStack (hchange.wellFormed hwf) _)

/-- The rules that a node is offered to change nothing, or one of them rewrites the graph at the node. -/
theorem rewrites_of_offer (hrules : ∀ r ∈ rules, r.Local) (hwf : s.graph.WellFormed) {hit : Bool}
    (h : offer filter id rules s = .ok hit s') :
    if hit then s.graph.Rewrites id s'.graph else s'.graph = s.graph := by
  induction rules generalizing s with
  | nil =>
    obtain ⟨rfl, rfl⟩ := pure_eq_ok.1 h
    rfl
  | cons r rules ih =>
    obtain ⟨hr, hrules⟩ := List.forall_mem_cons.1 hrules
    rw [offer] at h
    split at h
    next => exact ih hrules hwf h
    next =>
      obtain ⟨changed, s₁, happly, h⟩ := bind_eq_ok.1 h
      have hfirst := rewrites_of_applyAt hr hwf happly
      cases changed with
      | true =>
        obtain ⟨rfl, rfl⟩ := pure_eq_ok.1 h
        exact hfirst
      | false =>
        have hsame : s₁.graph = s.graph := hfirst
        rw [← hsame]
        exact ih hrules (hsame ▸ hwf) h

/-! ### The standard rules -/

namespace Graph

variable {g g' : Graph} {root : NodeId}

theorem hereditary_rewrites : Edit.Hereditary fun g' => g'.WellFormed ∧ g.Rewrites root g' where
  wellFormed h := h.1
  restrict h hr := ⟨hr.wellFormed, h.2.restrict hr⟩

/-- Readers of the root may move to what supplies it. -/
theorem movable_rewrites (k : Nat) {new : Output} (hnew : g.Supplies root new.node) :
    Edit.Movable (fun g' => g'.WellFormed ∧ g.Rewrites root g') ⟨root, k⟩ new :=
  fun _ _ h hi hne hnode hlive =>
    ⟨wellFormed_rewire h.1 hi hne hnode hlive, h.2.rewire hi rfl hnew hne hnode hlive⟩

/-- A product of what the root hangs on and a new constant takes the place of the root. -/
theorem ends_scaled_rewrites (hwf : g.WellFormed) {x : Output}
    (hx : TransGen g.Produces x.node root) {t : Tensor} {rule : Broadcast}
    {rest : Output → NodeId → Edit Bool}
    (hkeeps : ∀ {P : Graph → Prop} {c new}, Edit.Renamable P →
      (∀ k, Edit.Movable P ⟨root, k⟩ ⟨new, k⟩) → Keeps P Edit.Anything (rest c new)) :
    Ends (fun g' => g'.WellFormed ∧ g.Rewrites root g') Edit.Anything ((do
      let c ← Edit.addConstant t
      let new ← Edit.addNode (.binary .multiply rule) [x, c]
      rest c new) g) := by
  rw [Edit.bind_of_ok (Edit.addConstant_eq t g)]
  refine ends_bind_of_ok (fun _ => trivial) fun new g₂ hnew => ?_
  obtain ⟨descs, hinfer, rfl, rfl⟩ := Edit.addNode_eq_ok.1 hnew
  have hconstant : g.Rewrites root (g.insert (.constant t) [] [t.desc]) :=
    .insert .refl rfl (by simp)
  have hproduct := hconstant.insert hinfer fun v hv => by
    rcases List.mem_cons.1 hv with rfl | hv
    · exact Or.inl hx
    · rw [List.mem_singleton.1 hv]
      exact Or.inr (Nat.le_refl _)
  refine hkeeps hereditary_rewrites.renamable (fun k => movable_rewrites k (Or.inr ?_)) _
    ⟨hproduct.wellFormed hwf, hproduct⟩
  rw [size_insert]
  exact Nat.le_succ _

theorem rewrites_of_bypass (hwf : g.WellFormed) {index : Nat} {changed : Bool}
    (h : Edit.bypass root index g = .ok changed g') :
    if changed then g.Rewrites root g' else g' = g := by
  cases changed with
  | true =>
    refine (Ends.of_ok (Edit.ends_bypass hereditary_rewrites ⟨hwf, .refl⟩ fun source hs => ?_) h).2
    refine movable_rewrites 0 (Or.inl (.single (produces_iff_source.2 ?_)))
    exact ⟨⟨root, index⟩, source, rfl, hs, rfl⟩
  | false =>
    rw [Edit.bypass] at h
    obtain ⟨allowed, g₁, hallowed, h⟩ := bind_eq_ok.1 h
    obtain ⟨-, rfl⟩ := Edit.query_eq_ok.1 hallowed
    cases allowed with
    | false => exact (pure_eq_ok.1 h).2.symm
    | true =>
      have hanswer : false = true := by
        refine answers_bind (fun n => answers_bind fun source => answers_bind fun feeds =>
          answers_bind fun targets => answers_bind fun _ => ?_) g false g' h
        split
        · exact answers_bind fun _ => answers_bind fun _ => answers_bind fun _ => answers_pure true
        · exact answers_bind fun _ => answers_pure true
      cases hanswer

end Graph

theorem Rule.local_ofEdit {name : String} {pattern : Pattern} {action : Match → Edit Bool}
    (h : ∀ {g g' : Graph} {id : NodeId} {m : Match} {changed : Bool}, g.WellFormed →
      pattern.matchNode? g id = some m → action m g = .ok changed g' →
        if changed then g.Rewrites m.root.node g' else g' = g) :
    (Rule.ofEdit name pattern action : Rule σ).Local := by
  intro s s' id m changed hwf hm haction
  obtain ⟨g', hok, rfl⟩ := Action.edit_eq_ok.1 haction
  exact h hwf hm hok

/-- Where a rule that edits the graph reports a change, the node is the root of a match, and what the match has
visited has been released after the edit. -/
theorem Rule.applyAt_ofEdit_eq_ok {name : String} {pattern : Pattern} {action : Match → Edit Bool}
    (hwf : s.graph.WellFormed)
    (h : (Rule.ofEdit name pattern action : Rule σ).applyAt id s = .ok true s') :
    ∃ m g', pattern.matchNode? s.graph id = some m ∧ m.root.node = id ∧
      action m s.graph = .ok true g' ∧ s' = { s with graph := g'.release m.visited } := by
  obtain ⟨-, hfalse, -⟩ | ⟨m, s₁, hm, haction, rfl⟩ := applyAt_eq_ok h
  · cases hfalse
  obtain ⟨g', hedit, rfl⟩ := Action.edit_eq_ok.1 haction
  obtain ⟨-, n, hn, hroot⟩ := Pattern.root_of_matchNode? hm
  rw [hwf.id_eq hn] at hroot
  exact ⟨m, g', hm, hroot, hedit, rfl⟩

theorem Negation.local_rule : (Negation.rule : Rule σ).Local := by
  refine Rule.local_ofEdit fun {g g' id m changed} hwf hm hok => ?_
  obtain ⟨x, w, d, hw, -, hin, -, -, hdone⟩ := apply_cases hm hok
  cases changed with
  | false => exact hdone
  | true =>
    have hproduces : g.Produces x.node m.root.node := Graph.produces_of_view? hw (by simp [hin])
    exact (Ends.of_ok (Graph.ends_scaled_rewrites hwf (.single hproduces) fun hP hm =>
      keeps_takeover hP hm _) hdone).2

theorem MultiplyChain.local_rule : (MultiplyChain.rule : Rule σ).Local := by
  refine Rule.local_ofEdit fun {g g' id m changed} hwf hm hok => ?_
  obtain ⟨x, y, c₁, c₂, inner, outer, r, -, houter, hin, hinner, hin', -, hdone⟩ :=
    apply_cases hm hok
  cases r with
  | none =>
    obtain ⟨rfl, rfl⟩ := hdone
    rfl
  | some p =>
    obtain ⟨rfl, hdone⟩ := hdone
    have hinnermost : g.Produces x.node y.node := Graph.produces_of_view? hinner (by simp [hin'])
    have houtermost : g.Produces y.node m.root.node := Graph.produces_of_view? houter (by simp [hin])
    refine (Ends.of_ok (Graph.ends_scaled_rewrites hwf (.tail (.single hinnermost) houtermost)
      fun hP hm => ?_) hdone).2
    exact keeps_bind (Edit.keeps_fuse_of_movable hP hm) fun _ => keeps_pure true

namespace Identity

theorem local_convertRule : (convertRule : Rule σ).Local := by
  refine Rule.local_ofEdit fun {g g' id m changed} hwf hm hok => ?_
  obtain ⟨x, w, hx, -⟩ := Pattern.view?_of_match_unary hm
  rw [bypassConversion, get_bind, hx] at hok
  have hunchanged (h : (pure false : Edit Bool) g = .ok changed g') :
      if changed then g.Rewrites m.root.node g' else g' = g := by
    obtain ⟨rfl, rfl⟩ := pure_eq_ok.1 h
    rfl
  cases hop : g.op? m.root.node with
  | none =>
    rw [hop] at hok
    exact hunchanged hok
  | some op =>
    rw [hop] at hok
    cases op with
    | convert destination =>
      obtain ⟨d, g₁, hd, hok⟩ := bind_eq_ok.1 hok
      obtain ⟨-, rfl⟩ := Edit.query_eq_ok.1 hd
      split at hok
      next => exact Graph.rewrites_of_bypass hwf hok
      next => exact hunchanged hok
    | _ => exact hunchanged hok

theorem local_bypassOperation (name : String) (pattern : Pattern) (identity : Float) :
    (Rule.ofEdit name pattern (bypassOperation identity) : Rule σ).Local := by
  refine Rule.local_ofEdit fun {g g' id m changed} hwf hm hok => ?_
  rw [bypassOperation, get_bind] at hok
  cases hi : g.identityOperand? m.root.node identity with
  | some index =>
    rw [hi] at hok
    exact Graph.rewrites_of_bypass hwf hok
  | none =>
    rw [hi] at hok
    obtain ⟨rfl, rfl⟩ := pure_eq_ok.1 hok
    rfl

end Identity

/-- **The rules of the standard passes are local.** -/
theorem Rule.local_of_mem_lawfulRules {r : Rule σ} (h : r ∈ lawfulRules) : r.Local := by
  simp only [lawfulRules, List.mem_cons, List.not_mem_nil, or_false] at h
  rcases h with rfl | rfl | rfl | rfl | rfl
  · exact Negation.local_rule
  · exact MultiplyChain.local_rule
  · exact Identity.local_convertRule
  · exact Identity.local_bypassOperation _ _ 1
  · exact Identity.local_bypassOperation _ _ 0

end OpGraph
