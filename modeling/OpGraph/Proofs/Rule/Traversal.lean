import OpGraph.Pass.Basic
import OpGraph.Proofs.Edit.Outcome

/-!
# Invariants of traversals

A group of rules changes the graph through three things only: the actions of the rules, the release
after an action, and the inference before a node is offered.  What these keep is kept by a whole run
(`keeps_runRules`).  They have to keep it only where the run comes by, at the nodes that are listed in
the order at the start of a traversal (`keeps_runRules_on`).
-/

namespace OpGraph

variable {σ : Type} {P E : Session σ → Prop}

/-- Where the pattern of the rule matches in a session with `P`, the action keeps `P`. -/
def Rule.Respects (P E : Session σ → Prop) (r : Rule σ) : Prop :=
  ∀ s id m, P s → r.pattern.matchNode? s.graph id = some m → Ends P E (r.action m s)

/-- The same for matches at the nodes in `V`. -/
def Rule.RespectsOn (V : NodeId → Prop) (P E : Session σ → Prop) (r : Rule σ) : Prop :=
  ∀ s id m, V id → P s → r.pattern.matchNode? s.graph id = some m → Ends P E (r.action m s)

theorem Rule.Respects.on {r : Rule σ} (h : r.Respects P E) (V : NodeId → Prop) :
    r.RespectsOn V P E := fun s id m _ hs hm => h s id m hs hm

theorem applyAt_eq (r : Rule σ) (id : NodeId) (s : Session σ) :
    r.applyAt id s = (match r.pattern.matchNode? s.graph id with
      | none => return false
      | some m => do
        if ← r.action m then
          let _ ← Action.edit (Edit.release m.visited)
          return true
        else return false : Action σ Bool) s := rfl

theorem keeps_applyAt {V : NodeId → Prop}
    (hrelease : ∀ ids, Keeps P E (Action.edit (Edit.release ids) : Action σ Nat)) {r : Rule σ}
    (hr : r.RespectsOn V P E) {id : NodeId} (hid : V id) : Keeps P E (r.applyAt id) := by
  intro s hs
  rw [applyAt_eq]
  cases hm : r.pattern.matchNode? s.graph id with
  | none => exact hs
  | some m =>
    refine ends_bind (hr s id m hid hs hm) fun changed => ?_
    split
    · exact keeps_bind (hrelease m.visited) fun _ => keeps_pure true
    · exact keeps_pure false

theorem keeps_offer {rules : List (Rule σ)} {id : NodeId}
    (hrules : ∀ r ∈ rules, Keeps P E (r.applyAt id)) (filter : PassFilter) :
    Keeps P E (offer filter id rules) := by
  induction rules with
  | nil => exact keeps_pure false
  | cons r rules ih =>
    have hrest := ih fun x hx => hrules x (List.mem_cons_of_mem r hx)
    rw [offer]
    split
    · exact hrest
    · refine keeps_bind (hrules r List.mem_cons_self) fun changed => ?_
      split
      · exact keeps_pure true
      · exact hrest

theorem keeps_walk {V : NodeId → Prop}
    (hrevalidate : ∀ s id, V id → P s → s.graph.contains id →
      Ends P E ((Action.edit (Edit.revalidate id) : Action σ Bool) s))
    {rules : List (Rule σ)} (hrules : ∀ r ∈ rules, ∀ id, V id → Keeps P E (r.applyAt id))
    (filter : PassFilter) (inference : Bool) {ids : List NodeId} (hids : ∀ id ∈ ids, V id)
    (changed : Bool) : Keeps P E (walk rules filter inference ids changed) := by
  induction ids generalizing changed with
  | nil => exact keeps_pure changed
  | cons id ids ih =>
    have hid := hids id List.mem_cons_self
    have hrest := ih fun x hx => hids x (List.mem_cons_of_mem id hx)
    have hoffer : Keeps P E (do
        let hit ← offer filter id rules
        walk rules filter inference ids (changed || hit)) :=
      keeps_bind (keeps_offer (fun r hr => hrules r hr id hid) filter) fun hit =>
        hrest (changed || hit)
    intro s hs
    rw [walk]
    show Ends P E ((if s.graph.contains id then _ else _ : Action σ Bool) s)
    split
    next hlive =>
      split
      · exact ends_bind (hrevalidate s id hid hs hlive) fun _ => hoffer
      · exact hoffer s hs
    next => exact hrest changed s hs

/-- A walk over a list goes on with the second part of the list where it has ended with the first. -/
theorem walk_append (rules : List (Rule σ)) (filter : PassFilter) (inference : Bool)
    (done rest : List NodeId) (changed : Bool) :
    walk rules filter inference (done ++ rest) changed =
      walk rules filter inference done changed >>= walk rules filter inference rest := by
  induction done generalizing changed with
  | nil => rfl
  | cons id done ih =>
    rw [List.cons_append, walk, walk, bind_assoc]
    refine congrArg _ (funext fun g => ?_)
    split
    · split
      · simp only [bind_assoc, ih]
      · simp only [bind_assoc, ih]
    · exact ih changed

/-! ### Whether a rule matches -/

theorem applyAt_of_unmatched {r : Rule σ} {id : NodeId} {s : Session σ}
    (h : r.pattern.matchNode? s.graph id = none) : r.applyAt id s = .ok false s := by
  rw [applyAt_eq, h]
  rfl

theorem applyAt_of_match {r : Rule σ} {id : NodeId} {s s' : Session σ} {m : Match}
    (h : r.pattern.matchNode? s.graph id = some m) (ha : r.action m s = .ok true s') :
    r.applyAt id s = .ok true { s' with graph := s'.graph.release m.visited } := by
  rw [applyAt_eq, h]
  exact bind_eq_ok.2 ⟨true, s', ha, rfl⟩

/-- What the action at a match has answered is the answer, and what it reports is followed by a
release. -/
theorem applyAt_eq_ok {r : Rule σ} {id : NodeId} {s s' : Session σ} {hit : Bool}
    (h : r.applyAt id s = .ok hit s') :
    (r.pattern.matchNode? s.graph id = none ∧ hit = false ∧ s' = s) ∨
    ∃ m s₁, r.pattern.matchNode? s.graph id = some m ∧ r.action m s = .ok hit s₁ ∧
      s' = if hit then { s₁ with graph := s₁.graph.release m.visited } else s₁ := by
  rw [applyAt_eq] at h
  cases hm : r.pattern.matchNode? s.graph id with
  | none =>
    rw [hm] at h
    obtain ⟨rfl, rfl⟩ := pure_eq_ok.1 h
    exact Or.inl ⟨rfl, rfl, rfl⟩
  | some m =>
    rw [hm] at h
    obtain ⟨changed, s₁, haction, h⟩ := bind_eq_ok.1 h
    refine Or.inr ⟨m, s₁, rfl, ?_⟩
    cases changed with
    | false =>
      obtain ⟨rfl, rfl⟩ := pure_eq_ok.1 h
      exact ⟨haction, rfl⟩
    | true =>
      obtain ⟨count, s₂, hedit, h⟩ := bind_eq_ok.1 h
      obtain ⟨rfl, rfl⟩ := pure_eq_ok.1 h
      obtain ⟨g', hrelease, rfl⟩ := Action.edit_eq_ok.1 hedit
      obtain ⟨-, rfl⟩ := modifyGet_eq_ok.1 hrelease
      exact ⟨haction, rfl⟩

theorem offer_of_unmatched {rules : List (Rule σ)} {filter : PassFilter} {id : NodeId}
    {s : Session σ} (h : ∀ r ∈ rules, r.pattern.matchNode? s.graph id = none) :
    offer filter id rules s = .ok false s := by
  induction rules with
  | nil => rfl
  | cons r rules ih =>
    have hrest := ih fun x hx => h x (List.mem_cons_of_mem r hx)
    rw [offer]
    split
    · exact hrest
    · exact bind_eq_ok.2 ⟨false, s, applyAt_of_unmatched (h r List.mem_cons_self), hrest⟩

/-- A walk on which every node is declined changes nothing. -/
theorem walk_of_declined {rules : List (Rule σ)} {filter : PassFilter} {inference : Bool}
    {ids : List NodeId} {s : Session σ}
    (h : ∀ id ∈ ids, s.graph.contains id → offer filter id rules s = .ok false s) :
    walk rules filter inference ids false s = .ok false s := by
  induction ids with
  | nil => rfl
  | cons id ids ih =>
    have hrest := ih fun x hx => h x (List.mem_cons_of_mem id hx)
    rw [walk]
    refine bind_eq_ok.2 ⟨s.graph, s, rfl, ?_⟩
    split
    next hlive => exact bind_eq_ok.2 ⟨false, s, h id List.mem_cons_self hlive, hrest⟩
    next => exact hrest

/-- A walk on which no pattern matches changes nothing. -/
theorem walk_of_unmatched {rules : List (Rule σ)} {filter : PassFilter} {inference : Bool}
    {ids : List NodeId} {s : Session σ}
    (h : ∀ id ∈ ids, ∀ r ∈ rules, r.pattern.matchNode? s.graph id = none) :
    walk rules filter inference ids false s = .ok false s :=
  walk_of_declined fun id hid _ => offer_of_unmatched (h id hid)

/-! ### Groups that answer alike -/

/-- A walk depends on the rules and the filter through what nodes are offered. -/
theorem walk_congr {rules rules' : List (Rule σ)} {filter filter' : PassFilter}
    (h : ∀ id, offer filter id rules = offer filter' id rules') (inference : Bool)
    (ids : List NodeId) (changed : Bool) :
    walk rules filter inference ids changed = walk rules' filter' inference ids changed := by
  induction ids generalizing changed with
  | nil => rfl
  | cons id ids ih => simp only [walk, h, ih]

theorem traverse_congr {rules rules' : List (Rule σ)} {filter filter' : PassFilter}
    (h : ∀ id, offer filter id rules = offer filter' id rules') (inference : Bool) :
    traverse rules filter inference = traverse rules' filter' inference := by
  simp only [traverse, walk_congr h]

theorem runRules_congr {rules rules' : List (Rule σ)} {filter filter' : PassFilter}
    (h : ∀ id, offer filter id rules = offer filter' id rules') (config : TraversalConfig) :
    runRules rules config filter = runRules rules' config filter' := by
  simp only [runRules, traverse_congr h]

/-! ### Repetition -/

theorem keeps_iterate {step : Action σ Bool} (h : Keeps P E step) (n : Nat) (changed : Bool) :
    Keeps P E (iterate step n changed) := by
  induction n generalizing changed with
  | zero => exact keeps_pure changed
  | succ n ih =>
    rw [iterate]
    refine keeps_bind h fun hit => ?_
    split
    · exact ih true
    · exact keeps_pure changed

/-- A run of a group of rules keeps what the rules keep together with the releases after them, and what
inference keeps. -/
theorem keeps_runRules_of_applyAt {V : NodeId → Prop}
    (horder : ∀ s, P s → ∀ id ∈ s.graph.order, V id)
    (hrevalidate : ∀ s id, V id → P s → s.graph.contains id →
      Ends P E ((Action.edit (Edit.revalidate id) : Action σ Bool) s))
    {rules : List (Rule σ)} (hrules : ∀ r ∈ rules, ∀ id, V id → Keeps P E (r.applyAt id))
    (config : TraversalConfig) (filter : PassFilter) :
    Keeps P E (runRules rules config filter) := by
  have hstep : Keeps P E (traverse rules filter config.shapeInference) := fun s hs =>
    keeps_walk hrevalidate hrules filter config.shapeInference (horder s hs) false s hs
  unfold runRules
  dsimp only
  split
  · exact keeps_iterate hstep _ false
  · exact hstep

/-- **A run of a group of rules keeps what its rules, releases and inferences keep** at the nodes that
an order can list. -/
theorem keeps_runRules_on {V : NodeId → Prop}
    (hrelease : ∀ ids, Keeps P E (Action.edit (Edit.release ids) : Action σ Nat))
    (horder : ∀ s, P s → ∀ id ∈ s.graph.order, V id)
    (hrevalidate : ∀ s id, V id → P s → s.graph.contains id →
      Ends P E ((Action.edit (Edit.revalidate id) : Action σ Bool) s))
    {rules : List (Rule σ)} (hrules : ∀ r ∈ rules, r.RespectsOn V P E) (config : TraversalConfig)
    (filter : PassFilter) : Keeps P E (runRules rules config filter) :=
  keeps_runRules_of_applyAt horder hrevalidate
    (fun r hr _ hid => keeps_applyAt hrelease (hrules r hr) hid) config filter

/-- What rules, releases and inferences keep everywhere is kept by a run. -/
theorem keeps_runRules (hrelease : ∀ ids, Keeps P E (Action.edit (Edit.release ids) : Action σ Nat))
    (hrevalidate : ∀ id, Keeps P E (Action.edit (Edit.revalidate id) : Action σ Bool))
    {rules : List (Rule σ)} (hrules : ∀ r ∈ rules, r.Respects P E) (config : TraversalConfig)
    (filter : PassFilter) : Keeps P E (runRules rules config filter) :=
  keeps_runRules_on (V := fun _ => True) hrelease (fun _ _ _ _ => trivial)
    (fun s id _ hs _ => hrevalidate id s hs) (fun r hr => (hrules r hr).on _) config filter

end OpGraph
