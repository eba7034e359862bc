import OpGraph.Proofs.Graph.Release
import OpGraph.Proofs.Rule.Incremental

/-!
# Exact reports

`Reports P R a` says that the report of the action `a` is true: where it reports a change, the states before
and after it are related by `R`, and where it reports none, everything is as it was.  If `R` is transitive,
the reports of one action after the other add up (`Reported.or`): this is how a walk, a traversal and their
repetition count what the rules report (`reports_traverse`, `reports_iterate`).  Inference reports nothing,
and it comes by only after a change.

A report is exact if nodes have been released where it tells of a change (`Exact`).
-/

namespace OpGraph

variable {S σ : Type} {P : S → Prop} {R : S → S → Prop} {graph : S → Graph}

/-- A well-formed graph without cycles. -/
structure Graph.Orderly (g : Graph) : Prop where
  wellFormed : g.WellFormed
  acyclic : g.Acyclic

theorem Graph.Rewrites.orderly {g g' : Graph} {root : NodeId} (h : g.Rewrites root g')
    (hg : g.Orderly) (hroot : g.contains root) : g'.Orderly :=
  have hparting := h.parting hg.wellFormed hg.acyclic hroot
  ⟨hparting.wellFormed, hparting.acyclic⟩

/-- What was reported between two states is true: they are related, or nothing has changed. -/
def Reported (R : S → S → Prop) (changed : Bool) (s s' : S) : Prop :=
  if changed then R s s' else s' = s

/-- The action keeps `P`, and what is related to the state before it is related to the state after it. -/
def Abides (P : S → Prop) (R : S → S → Prop) (a : EStateM GraphError S Bool) : Prop :=
  ∀ ⦃s b s'⦄, P s → a s = .ok b s' → P s' ∧ ∀ s₀, R s₀ s → R s₀ s'

/-- The action keeps `P` and reports what is true. -/
def Reports (P : S → Prop) (R : S → S → Prop) (a : EStateM GraphError S Bool) : Prop :=
  ∀ ⦃s changed s'⦄, P s → a s = .ok changed s' → P s' ∧ Reported R changed s s'

namespace Reported

theorem start (s : S) : Reported R false s s := rfl

theorem or [IsTrans S R] {b c : Bool} {s s₁ s₂ : S} (h : Reported R b s s₁)
    (h' : Reported R c s₁ s₂) : Reported R (b || c) s s₂ := by
  cases b with
  | false =>
    obtain rfl : s₁ = s := h
    exact h'
  | true =>
    cases c with
    | false =>
      obtain rfl : s₂ = s₁ := h'
      exact h
    | true => exact IsTrans.trans (r := R) s s₁ s₂ h h'

end Reported

/-! ### Groups of rules -/

section Groups

variable {P : Session σ → Prop} {R : Session σ → Session σ → Prop} [IsTrans (Session σ) R]
  {rules : List (Rule σ)} {filter : PassFilter} {s₀ s s' : Session σ}

theorem reports_offer {id : NodeId} (hrules : ∀ r ∈ rules, Reports P R (r.applyAt id))
    (filter : PassFilter) : Reports P R (offer filter id rules) := by
  induction rules with
  | nil =>
    intro s changed s' hs h
    obtain ⟨rfl, rfl⟩ := pure_eq_ok.1 h
    exact ⟨hs, .start s⟩
  | cons r rules ih =>
    obtain ⟨hr, hrules⟩ := List.forall_mem_cons.1 hrules
    intro s changed s' hs h
    rw [offer] at h
    split at h
    next => exact ih hrules hs h
    next =>
      obtain ⟨hit, s₁, happly, h⟩ := bind_eq_ok.1 h
      obtain ⟨hs₁, hfirst⟩ := hr hs happly
      cases hit with
      | true =>
        obtain ⟨rfl, rfl⟩ := pure_eq_ok.1 h
        exact ⟨hs₁, hfirst⟩
      | false =>
        obtain ⟨hs', hrest⟩ := ih hrules hs₁ h
        exact ⟨hs', hfirst.or hrest⟩

/-- A walk adds what the rules report to what was reported before it. -/
theorem reported_walk {inference : Bool} {ids : List NodeId} {changed c : Bool}
    (habides : ∀ id ∈ ids, Abides P R (Action.edit (Edit.revalidate id)))
    (hrules : ∀ r ∈ rules, ∀ id ∈ ids, Reports P R (r.applyAt id)) (hs : P s)
    (hstart : Reported R changed s₀ s) (h : walk rules filter inference ids changed s = .ok c s') :
    P s' ∧ Reported R c s₀ s' := by
  induction ids generalizing changed s with
  | nil =>
    obtain ⟨rfl, rfl⟩ := pure_eq_ok.1 h
    exact ⟨hs, hstart⟩
  | cons id ids ih =>
    obtain ⟨hid, hids⟩ := List.forall_mem_cons.1 habides
    have ih {changed : Bool} {s : Session σ} (hs : P s) (hstart : Reported R changed s₀ s) :=
      ih hids (fun r hr j hj => hrules r hr j (List.mem_cons_of_mem id hj)) hs hstart
    have hstep := walk_cons_eq_ok h
    split at hstep
    swap
    · exact ih hs hstart hstep
    obtain ⟨s₁, hit, s₂, hprepares, hoffer, hrest⟩ := hstep
    obtain ⟨hs₁, hstart₁⟩ : P s₁ ∧ Reported R changed s₀ s₁ := by
      rw [Prepares] at hprepares
      split at hprepares
      next hinfer =>
        obtain ⟨b, hre⟩ := hprepares
        obtain rfl : changed = true := (Bool.and_eq_true_iff.1 hinfer).1
        obtain ⟨hs₁, hkeeps⟩ := hid hs hre
        exact ⟨hs₁, hkeeps s₀ hstart⟩
      next => exact hprepares ▸ ⟨hs, hstart⟩
    obtain ⟨hs₂, hhit⟩ := reports_offer (fun r hr => hrules r hr id List.mem_cons_self) filter hs₁
      hoffer
    exact ih hs₂ (hstart₁.or hhit) hrest

/-- A traversal reports what its rules report at the nodes that an order can list. -/
theorem reports_traverse {V : NodeId → Prop} (horder : ∀ s, P s → ∀ id ∈ s.graph.order, V id)
    (habides : ∀ id, V id → Abides P R (Action.edit (Edit.revalidate id)))
    (hrules : ∀ r ∈ rules, ∀ id, V id → Reports P R (r.applyAt id)) (filter : PassFilter)
    (inference : Bool) : Reports P R (traverse rules filter inference) := by
  intro s c s' hs h
  exact reported_walk (fun id hid => habides id (horder s hs id hid))
    (fun r hr id hid => hrules r hr id (horder s hs id hid)) hs (.start s) h

theorem reported_iterate {step : Action σ Bool} (hstep : Reports P R step) {n : Nat}
    {changed c : Bool} (hs : P s) (hstart : Reported R changed s₀ s)
    (h : iterate step n changed s = .ok c s') : P s' ∧ Reported R c s₀ s' := by
  induction n generalizing changed s with
  | zero =>
    obtain ⟨rfl, rfl⟩ := pure_eq_ok.1 h
    exact ⟨hs, hstart⟩
  | succ n ih =>
    rw [iterate] at h
    obtain ⟨hit, s₁, hfirst, h⟩ := bind_eq_ok.1 h
    obtain ⟨hs₁, hhit⟩ := hstep hs hfirst
    have hsum := hstart.or hhit
    cases hit with
    | true =>
      rw [Bool.or_true] at hsum
      exact ih hs₁ hsum h
    | false =>
      rw [Bool.or_false] at hsum
      obtain ⟨rfl, rfl⟩ := pure_eq_ok.1 h
      exact ⟨hs₁, hsum⟩

end Groups

/-! ### Releases -/

/-- The action reports exactly whether nodes are released. -/
def Exact (graph : S → Graph) (a : EStateM GraphError S Bool) : Prop :=
  Reports (fun s => (graph s).Orderly) (fun s s' => (graph s).released < (graph s').released) a

instance (graph : S → Graph) :
    IsTrans S fun s s' => (graph s).released < (graph s').released where
  trans _ _ _ := Nat.lt_trans

theorem Exact.edit {e : Edit Bool} (h : Exact id e) :
    Exact Session.graph (Action.edit e : Action σ Bool) := by
  intro s changed s' hs hok
  obtain ⟨g', hg', rfl⟩ := Action.edit_eq_ok.1 hok
  obtain ⟨horderly, hreported⟩ := h hs hg'
  refine ⟨horderly, ?_⟩
  cases changed with
  | false =>
    obtain rfl : g' = s.graph := hreported
    rfl
  | true => exact hreported

/-- Inference releases nothing. -/
theorem abides_revalidate (id : NodeId) :
    Abides Graph.Orderly (fun g g' => g.released < g'.released) (Edit.revalidate id) := by
  intro g b g' hg h
  obtain ⟨err, he⟩ | ⟨outs, b', houts, hok⟩ := Edit.revalidate_cases id g
  · rw [he] at h
    cases h
  · have hwf := (Edit.invariant_wellFormed.keeps_revalidate id).of_ok hg.wellFormed h
    rw [hok] at h
    cases h
    exact ⟨⟨hwf, hg.acyclic.of_produces fun _ _ => Graph.produces_withDescs.1⟩, fun _ hlt => hlt⟩

/-- Where the action reports a change, the release after it takes something, and where it reports none
everything is as it was. -/
def Rule.Frees (r : Rule σ) : Prop :=
  ∀ ⦃s s' : Session σ⦄ ⦃id : NodeId⦄ ⦃m : Match⦄ ⦃changed : Bool⦄, s.graph.Orderly →
    r.pattern.matchNode? s.graph id = some m → r.action m s = .ok changed s' →
      if changed then s.graph.released < (s'.graph.release m.visited).released else s' = s

theorem exact_applyAt {r : Rule σ} (hlocal : r.Local) (hfrees : r.Frees) (id : NodeId) :
    Exact Session.graph (r.applyAt id) := by
  intro s hit s' hs h
  have hchange := rewrites_of_applyAt hlocal hs.wellFormed h
  obtain ⟨-, rfl, rfl⟩ | ⟨m, s₁, hm, haction, rfl⟩ := applyAt_eq_ok h
  · exact ⟨hs, .start s'⟩
  have hfreed := hfrees hs hm haction
  cases hit with
  | false =>
    obtain rfl : s₁ = s := hfreed
    exact ⟨hs, .start s₁⟩
  | true =>
    obtain ⟨-, n, hn, hroot⟩ := Pattern.root_of_matchNode? hm
    exact ⟨hchange.orderly hs (Graph.contains_iff.2 ⟨n, hn⟩), hfreed⟩

/-- **A run of a group of rules reports exactly what its rules report exactly.** -/
theorem exact_runRules {rules : List (Rule σ)} (hrules : ∀ r ∈ rules, r.Local ∧ r.Frees)
    (config : TraversalConfig) (filter : PassFilter) :
    Exact Session.graph (runRules rules config filter) := by
  have habides (id : NodeId) : Abides (fun s : Session σ => s.graph.Orderly)
      (fun s s' => s.graph.released < s'.graph.released) (Action.edit (Edit.revalidate id)) := by
    intro s b s₁ hs hre
    obtain ⟨g₁, hok, rfl⟩ := Action.edit_eq_ok.1 hre
    obtain ⟨horderly, hkeeps⟩ := abides_revalidate id hs hok
    exact ⟨horderly, fun s₀ => hkeeps s₀.graph⟩
  have hstep : Exact Session.graph (traverse rules filter config.shapeInference) :=
    reports_traverse (V := fun _ => True) (fun _ _ _ _ => trivial) (fun id _ => habides id)
      (fun r hr id _ => exact_applyAt (hrules r hr).1 (hrules r hr).2 id) filter _
  intro s c s' hs h
  rw [runRules] at h
  split at h
  · exact reported_iterate hstep hs (.start s) h
  · exact hstep hs h

end OpGraph
