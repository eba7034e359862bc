import OpGraph.Proofs.Rule.Settled

/-!
# Runs that come to an end

On graphs that are up to date inference has nothing to do, so what a run does is what its rules do where they
change the graph.  `r.Advances g₀ R` says that the sessions before and after a change by the rule `r` are
related by `R`.  If `R` is transitive, this holds of traversals (`reports_traverse_of_advances`) and of whole
runs (`reports_runRules_of_advances`).

If every traversal that changes something makes a number smaller (`reports_traverse_of_first`), and the number
has not been larger than the number of repetitions, then nothing is left that could change
(`declined_of_iterate`): either the last traversal has reported no change, or the number is zero and cannot
become smaller.
-/

namespace OpGraph

variable {σ : Type} {R : Session σ → Session σ → Prop} {rules : List (Rule σ)} {filter : PassFilter}
  {config : TraversalConfig} {g₀ : Graph} {id : NodeId} {s s' : Session σ} {changed c : Bool}

/-- The rule neither fails nor changes descriptions, and where it changes the graph, the sessions before and
after the change are related. -/
structure Rule.Advances (g₀ : Graph) (R : Session σ → Session σ → Prop) (r : Rule σ) : Prop where
  local_rule : r.Local
  frees : r.Frees
  conserving : r.Conserving g₀
  after_hit : ∀ {s s' : Session σ} {id : NodeId}, g₀.Conserves s.graph → g₀.Relevant id →
    r.applyAt id s = .ok true s' → R s s'

theorem Rule.Advances.reports_applyAt {r : Rule σ} (hr : r.Advances g₀ R) (hid : g₀.Relevant id) :
    Reports (fun s => g₀.Conserves s.graph) R (r.applyAt id) := by
  intro s hit s' hs h
  refine ⟨(Rule.keeps_applyAt_conserves hr.conserving hid).of_ok hs h, ?_⟩
  cases hit with
  | true => exact hr.after_hit hs hid h
  | false =>
    obtain ⟨τ, rank, ht⟩ := hs
    exact (exact_applyAt hr.local_rule hr.frees id ⟨ht.wellFormed, ht.acyclic⟩ h).2

/-- Inference at a node that matters finds nothing to do. -/
theorem Graph.Conserves.revalidate_eq {g g' : Graph} (h : g₀.Conserves g) (hid : g₀.Relevant id) {b : Bool}
    (hre : Edit.revalidate id g = .ok b g') : g' = g := by
  have hlive : g.contains id := by
    obtain ⟨err, he⟩ | ⟨outs, b', houts, -⟩ := Edit.revalidate_cases id g
    · rw [he] at hre
      cases hre
    · obtain ⟨w, -, hw, -⟩ := Graph.reinfer_eq_ok_iff_view.1 houts
      exact Graph.contains_of_view? hw
  obtain ⟨τ, rank, ht⟩ := h
  rw [Edit.revalidate_of_consistentAt (ht.consistentAt hid hlive)] at hre
  cases hre
  rfl

theorem abides_conserves (hid : g₀.Relevant id) :
    Abides (fun s : Session σ => g₀.Conserves s.graph) R (Action.edit (Edit.revalidate id)) := by
  intro s b s₁ hs hre
  obtain ⟨g₁, hok, rfl⟩ := Action.edit_eq_ok.1 hre
  obtain rfl : g₁ = s.graph := hs.revalidate_eq hid hok
  exact ⟨hs, fun _ h => h⟩

section Runs

variable [IsTrans (Session σ) R]

theorem reports_traverse_of_advances (hrules : ∀ r ∈ rules, r.Advances g₀ R) (filter : PassFilter)
    (inference : Bool) :
    Reports (fun s => g₀.Conserves s.graph) R (traverse rules filter inference) := by
  refine reports_traverse (V := g₀.Relevant) (fun s hs id hid => ?_) (fun id hid => abides_conserves hid)
    (fun r hr id hid => (hrules r hr).reports_applyAt hid) filter inference
  obtain ⟨τ, rank, ht⟩ := hs
  exact ht.relevant_of_reachable (Graph.reachable_of_mem_order hid)

/-- **What holds of every change holds of a run that has changed something.** -/
theorem reports_runRules_of_advances (hrules : ∀ r ∈ rules, r.Advances g₀ R) (config : TraversalConfig)
    (filter : PassFilter) :
    Reports (fun s => g₀.Conserves s.graph) R (runRules rules config filter) := by
  have hstep := reports_traverse_of_advances hrules filter config.shapeInference
  intro s c s' hs h
  rw [runRules] at h
  split at h
  · exact reported_iterate hstep hs (.start s) h
  · exact hstep hs h

end Runs

/-! ### Changes that make a number smaller -/

variable {P : Session σ → Prop} {μ : Session σ → Nat}

/-- An offer that reports a change has gone to a rule that has fired, and the rules before it have left
everything as it was. -/
theorem fired_of_offer (hrules : ∀ r ∈ rules, ∀ {s'}, r.applyAt id s = .ok false s' → s' = s)
    (h : offer filter id rules s = .ok true s') : ∃ r ∈ rules, r.applyAt id s = .ok true s' := by
  induction rules with
  | nil => cases (pure_eq_ok.1 h).1
  | cons r rules ih =>
    obtain ⟨hr, hrules⟩ := List.forall_mem_cons.1 hrules
    rw [offer] at h
    split at h
    next =>
      obtain ⟨r', hr', hfired⟩ := ih hrules h
      exact ⟨r', List.mem_cons_of_mem r hr', hfired⟩
    next =>
      obtain ⟨hit, s₁, happly, hrest⟩ := bind_eq_ok.1 h
      cases hit with
      | true =>
        obtain ⟨-, rfl⟩ := pure_eq_ok.1 hrest
        exact ⟨r, List.mem_cons_self, happly⟩
      | false =>
        rw [hr happly] at hrest
        obtain ⟨r', hr', hfired⟩ := ih hrules hrest
        exact ⟨r', List.mem_cons_of_mem r hr', hfired⟩

/-- A walk does not forget a change. -/
theorem true_of_walk {inference : Bool} {ids : List NodeId}
    (h : walk rules filter inference ids true s = .ok c s') : c = true := by
  induction ids generalizing s with
  | nil => exact (pure_eq_ok.1 h).1.symm
  | cons id ids ih =>
    have hstep := walk_cons_eq_ok h
    split at hstep
    · obtain ⟨s₁, hit, s₂, -, -, hrest⟩ := hstep
      exact ih hrest
    · exact ih hstep

/-- **If the first change of a traversal makes a number smaller and the others do not make it larger, a
traversal that changes something makes it smaller.**  The first change is made at a node that the boundary
hangs on; after it, nodes may be offered that it does not hang on any more. -/
theorem reports_traverse_of_first (hinfer : ∀ id,
      Abides P (fun s s' => μ s' ≤ μ s) (Action.edit (Edit.revalidate id)))
    (hrules : ∀ r ∈ rules, ∀ id, Reports P (fun s s' => μ s' ≤ μ s) (r.applyAt id))
    (hfirst : ∀ r ∈ rules, ∀ {id s s'}, P s → s.graph.Reachable id → r.applyAt id s = .ok true s' →
      μ s' < μ s) (filter : PassFilter) (inference : Bool) :
    Reports P (fun s s' => μ s' < μ s) (traverse rules filter inference) := by
  have : IsTrans (Session σ) fun s s' => μ s' ≤ μ s := ⟨fun _ _ _ h h' => Nat.le_trans h' h⟩
  intro s c s' hs h
  have hwalk : walk rules filter inference s.graph.order false s = .ok c s' := h
  have hreach : ∀ id ∈ s.graph.order, s.graph.Reachable id := fun id => Graph.reachable_of_mem_order
  generalize s.graph.order = ids at hwalk hreach
  induction ids with
  | nil =>
    obtain ⟨rfl, rfl⟩ := pure_eq_ok.1 hwalk
    exact ⟨hs, .start s⟩
  | cons id ids ih =>
    obtain ⟨hid, hids⟩ := List.forall_mem_cons.1 hreach
    have hstep := walk_cons_eq_ok hwalk
    split at hstep
    swap
    · exact ih hstep hids
    obtain ⟨s₁, hit, s₂, hprepares, hoffer, hrest⟩ := hstep
    obtain rfl : s₁ = s := hprepares
    obtain ⟨hs₂, hhit⟩ := reports_offer (fun r hr => hrules r hr id) filter hs hoffer
    cases hit with
    | false =>
      obtain rfl : s₂ = s₁ := hhit
      exact ih hrest hids
    | true =>
      obtain ⟨r, hr, hfired⟩ := fired_of_offer
        (fun r hr {s'} happly => (hrules r hr id hs happly).2) hoffer
      have hstart : Reported (fun s s' => μ s' ≤ μ s) true s₂ s₂ := Nat.le_refl _
      obtain ⟨hs', hreported⟩ := reported_walk (fun id _ => hinfer id)
        (fun r hr id _ => hrules r hr id) hs₂ hstart hrest
      obtain rfl := true_of_walk hrest
      have hle : μ s' ≤ μ s₂ := hreported
      exact ⟨hs', Nat.lt_of_le_of_lt hle (hfirst r hr hs hid hfired)⟩

/-- **Repeated often enough, an action has nothing left to change.** -/
theorem declined_of_iterate {step : Action σ Bool} (hstep : Reports P (fun s s' => μ s' < μ s) step)
    (hend : ∀ {s}, P s → μ s = 0 → ∃ b s', step s = .ok b s') {n : Nat} (hs : P s) (hn : μ s ≤ n)
    (h : iterate step n changed s = .ok c s') : step s' = .ok false s' := by
  induction n generalizing changed s with
  | zero =>
    obtain ⟨rfl, rfl⟩ := pure_eq_ok.1 h
    obtain ⟨b, s', hlast⟩ := hend hs (Nat.le_zero.1 hn)
    obtain ⟨-, hreported⟩ := hstep hs hlast
    cases b with
    | false =>
      obtain rfl : s' = s := hreported
      exact hlast
    | true =>
      have hlt : μ s' < μ s := hreported
      omega
  | succ n ih =>
    rw [iterate] at h
    obtain ⟨hit, s₁, hfirst, h⟩ := bind_eq_ok.1 h
    obtain ⟨hs₁, hreported⟩ := hstep hs hfirst
    cases hit with
    | true =>
      have hlt : μ s₁ < μ s := hreported
      exact ih hs₁ (by omega) h
    | false =>
      obtain ⟨rfl, rfl⟩ := pure_eq_ok.1 h
      obtain rfl : s₁ = s := hreported
      exact hfirst

/-- **A run to the fixpoint reaches it if the number at the start is within the bound on traversals.** -/
theorem runRules_of_dwindling (hfixpoint : config.runToFixpoint)
    (hstep : Reports P (fun s s' => μ s' < μ s) (traverse rules filter config.shapeInference))
    (hend : ∀ {s}, P s → μ s = 0 → ∃ b s', traverse rules filter config.shapeInference s = .ok b s')
    (hs : P s) (hn : μ s ≤ max 1 config.maxIterations)
    (h : runRules rules config filter s = .ok c s') : runRules rules config filter s' = .ok false s' := by
  rw [runRules, if_pos hfixpoint] at h ⊢
  exact iterate_of_declined (declined_of_iterate hstep hend hs hn h) _ false

end OpGraph
