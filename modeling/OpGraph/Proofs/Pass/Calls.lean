import Mathlib.Data.List.Forall2
import OpGraph.Proofs.Pass.Enabled

/-!
# Which actions are called

A manager can be made to note every call of an action in the memory, with the names of the pass and of
the rule (`Manager.noting`).  Without the notes, a run of the noting manager is a run of the manager
(`Manager.plain_run_noting`): each construct of a traversal mirrors itself.  The notes are about rules
that are not switched off, in passes that are not (`Manager.obeys_run_noting`).
-/

namespace OpGraph

variable {σ τ α β : Type}

/-- A note that a rule of a pass has called its action.  A pass that is an action itself stands for its
rule. -/
structure Note where
  pass : String
  rule : String
  deriving DecidableEq

/-- A session without the second part of its memory. -/
def Session.plain (s : Session (σ × τ)) : Session σ := ⟨s.graph, s.memory.1⟩

namespace Action

/-- Does what the action does, and leaves a note, even if the action fails. -/
def noting (note : Note) (a : Action σ α) : Action (σ × List Note) α := fun s =>
  match a s.plain with
  | .ok x s' => .ok x ⟨s'.graph, s'.memory, s.memory.2 ++ [note]⟩
  | .error e s' => .error e ⟨s'.graph, s'.memory, s.memory.2 ++ [note]⟩

end Action

/-- The rule notes the calls of its action. -/
def Rule.noting (pass : String) (r : Rule σ) : Rule (σ × List Note) where
  name := r.name
  pattern := r.pattern
  action m := (r.action m).noting ⟨pass, r.name⟩
  config := r.config

/-- The pass notes the calls of all its actions. -/
def Pass.noting : Pass σ → Pass (σ × List Note)
  | rule r => rule (r.noting r.name)
  | group name rules config => group name (rules.map (·.noting name)) config
  | whole name action => whole name (action.noting ⟨name, name⟩)

/-- The manager notes the calls of all actions of its passes. -/
def Manager.noting (m : Manager σ) : Manager (σ × List Note) where
  passes := m.passes.map Pass.noting
  config := m.config
  filter := m.filter

/-! ### Notes do not matter -/

/-- The outcome, without the second part of the memory. -/
def plainResult : EStateM.Result GraphError (Session (σ × τ)) α → EStateM.Result GraphError (Session σ) α
  | .ok x s => .ok x s.plain
  | .error e s => .error e s.plain

/-- Without the second part of the memory, the one action does what the other one does. -/
def Mirrors (a' : Action (σ × τ) α) (a : Action σ α) : Prop := ∀ s, a s.plain = plainResult (a' s)

theorem mirrors_pure (x : α) :
    Mirrors (pure x : Action (σ × τ) α) (pure x : Action σ α) := fun _ => rfl

theorem mirrors_bind {a' : Action (σ × τ) α} {a : Action σ α} {f' : α → Action (σ × τ) β}
    {f : α → Action σ β} (h : Mirrors a' a) (hf : ∀ x, Mirrors (f' x) (f x)) :
    Mirrors (a' >>= f') (a >>= f) := by
  intro s
  show EStateM.bind a f s.plain = plainResult (EStateM.bind a' f' s)
  rw [EStateM.bind, EStateM.bind, h s]
  cases a' s with
  | error e s' => rfl
  | ok x s' => exact hf x s'

theorem mirrors_ite {p : Prop} [Decidable p] {a' b' : Action (σ × τ) α} {a b : Action σ α}
    (ha : Mirrors a' a) (hb : Mirrors b' b) :
    Mirrors (if p then a' else b') (if p then a else b) := by
  split
  · exact ha
  · exact hb

theorem mirrors_edit (e : Edit α) : Mirrors (Action.edit e : Action (σ × τ) α) (Action.edit e) := by
  intro s
  have hgraph : s.plain.graph = s.graph := rfl
  rw [Action.edit, Action.edit, hgraph]
  cases e s.graph <;> rfl

theorem mirrors_graph : Mirrors (Action.graph : Action (σ × τ) Graph) Action.graph := fun _ => rfl

theorem mirrors_noting (note : Note) (a : Action σ α) : Mirrors (a.noting note) a := by
  intro s
  rw [Action.noting]
  cases ha : a s.plain <;> rfl

/-- The rules do the same at every node. -/
structure Rule.Mirrors (r' : Rule (σ × τ)) (r : Rule σ) : Prop where
  name_eq : r'.name = r.name
  applyAt : ∀ id, OpGraph.Mirrors (r'.applyAt id) (r.applyAt id)

theorem Rule.mirrors_noting (pass : String) (r : Rule σ) : (r.noting pass).Mirrors r := by
  refine ⟨rfl, fun id => mirrors_bind mirrors_graph fun g => ?_⟩
  have hpattern : (r.noting pass).pattern = r.pattern := rfl
  rw [hpattern]
  cases r.pattern.matchNode? g id with
  | none => exact mirrors_pure false
  | some m =>
    refine mirrors_bind (OpGraph.mirrors_noting _ _) fun changed => mirrors_ite ?_ (mirrors_pure false)
    exact mirrors_bind (mirrors_edit _) fun _ => mirrors_pure true

variable {rules' : List (Rule (σ × τ))} {rules : List (Rule σ)}

theorem mirrors_offer (h : List.Forall₂ Rule.Mirrors rules' rules) (filter : PassFilter)
    (id : NodeId) : Mirrors (offer filter id rules') (offer filter id rules) := by
  induction h with
  | nil => exact mirrors_pure false
  | cons hr _ ih =>
    rw [offer, offer, hr.name_eq]
    refine mirrors_ite ih (mirrors_bind (hr.applyAt id) fun hit => ?_)
    exact mirrors_ite (mirrors_pure true) ih

theorem mirrors_walk (h : List.Forall₂ Rule.Mirrors rules' rules) (filter : PassFilter)
    (inference : Bool) (ids : List NodeId) (changed : Bool) :
    Mirrors (walk rules' filter inference ids changed) (walk rules filter inference ids changed) := by
  induction ids generalizing changed with
  | nil => exact mirrors_pure changed
  | cons id ids ih =>
    have hoffer := mirrors_bind (mirrors_offer h filter id) fun hit => ih (changed || hit)
    refine mirrors_bind mirrors_graph fun g => mirrors_ite (mirrors_ite ?_ hoffer) (ih changed)
    exact mirrors_bind (mirrors_edit _) fun _ => hoffer

theorem mirrors_iterate {step' : Action (σ × τ) Bool} {step : Action σ Bool} (h : Mirrors step' step)
    (n : Nat) (changed : Bool) : Mirrors (iterate step' n changed) (iterate step n changed) := by
  induction n generalizing changed with
  | zero => exact mirrors_pure changed
  | succ n ih => exact mirrors_bind h fun hit => mirrors_ite (ih true) (mirrors_pure changed)

theorem mirrors_runRules (h : List.Forall₂ Rule.Mirrors rules' rules) (config : TraversalConfig)
    (filter : PassFilter) :
    Mirrors (runRules rules' config filter) (runRules rules config filter) := by
  have htraverse : Mirrors (traverse rules' filter config.shapeInference)
      (traverse rules filter config.shapeInference) :=
    mirrors_bind mirrors_graph fun g => mirrors_walk h filter _ _ false
  exact mirrors_ite (mirrors_iterate htraverse _ false) htraverse

theorem mirrors_run_noting (filter : PassFilter) (p : Pass σ) :
    Mirrors (p.noting.run filter) (p.run filter) := by
  cases p with
  | rule r => exact mirrors_runRules (.cons (r.mirrors_noting r.name) .nil) r.config filter
  | group name rules config =>
    refine mirrors_runRules (List.forall₂_map_left_iff.2 ?_) config filter
    exact List.forall₂_same.2 fun r _ => r.mirrors_noting name
  | whole name action => exact mirrors_noting _ action

namespace Manager

theorem mirrors_runPass_noting (m : Manager σ) (p : Pass σ) :
    Mirrors (m.noting.runPass p.noting) (m.runPass p) := by
  refine mirrors_bind (mirrors_run_noting m.filter p) fun changed => ?_
  refine mirrors_ite (mirrors_bind (mirrors_edit _) fun _ => ?_) ?_ <;> exact mirrors_pure changed

theorem name_noting (p : Pass σ) : p.noting.name = p.name := by
  cases p <;> rfl

theorem filter_noting (m : Manager σ) : m.noting.filter = m.filter := rfl

theorem plain_finish (m : Manager σ) (released : Nat) (stats : RunStats)
    (s : Session (σ × List Note)) :
    m.finish released stats s.plain =
      ((m.noting.finish released stats s).1, (m.noting.finish released stats s).2.plain) := by
  have hlast : Mirrors (if m.config.finalValidation then .edit Edit.validate else pure () :
      Action (σ × List Note) Unit) (if m.config.finalValidation then .edit Edit.validate else pure ()) :=
    mirrors_ite (mirrors_edit Edit.validate) (mirrors_pure ())
  unfold finish
  extract_lets last last'
  have hs : last s.plain = plainResult (last' s) := hlast s
  rw [hs]
  cases last' s <;> rfl

/-- What a run does without the notes. -/
theorem plain_runFrom_noting (m : Manager σ) (released : Nat) (passes : List (Pass σ))
    (stats : RunStats) (s : Session (σ × List Note)) :
    m.runFrom released passes stats s.plain =
      ((m.noting.runFrom released (passes.map Pass.noting) stats s).1,
        (m.noting.runFrom released (passes.map Pass.noting) stats s).2.plain) := by
  induction passes generalizing stats s with
  | nil => exact m.plain_finish released stats s
  | cons p passes ih =>
    rw [List.map_cons, runFrom, runFrom, name_noting, filter_noting, m.mirrors_runPass_noting p s]
    by_cases hp : m.filter.isDisabled p.name
    · rw [if_pos hp, if_pos hp, ih]
    rw [if_neg hp, if_neg hp]
    cases m.noting.runPass p.noting s with
    | ok changed s' => exact ih _ s'
    | error e s' => rfl

/-- **Noting calls does not change what a manager does.** -/
theorem plain_run_noting (m : Manager σ) (s : Session (σ × List Note)) :
    m.run s.plain = ((m.noting.run s).1, (m.noting.run s).2.plain) :=
  m.plain_runFrom_noting s.graph.released m.passes {} s

end Manager

/-! ### Which calls are noted -/

/-- All notes are about rules that are not switched off, in passes that are not. -/
def Obeys (f : PassFilter) (s : Session (σ × List Note)) : Prop :=
  ∀ note ∈ s.memory.2, ¬ f.isDisabled note.pass ∧ ¬ f.isDisabled note.rule

variable {f : PassFilter}

/-- Edits of the graph note nothing. -/
theorem obeys_edit (e : Edit α) :
    Keeps (Obeys f) (Obeys f) (Action.edit e : Action (σ × List Note) α) := by
  intro s hs
  rw [Action.edit]
  cases e s.graph <;> exact hs

theorem obeys_noting {note : Note} (hpass : ¬ f.isDisabled note.pass)
    (hrule : ¬ f.isDisabled note.rule) (a : Action σ α) :
    Keeps (Obeys f) (Obeys f) (a.noting note) := by
  intro s hs
  have hmore : ∀ n ∈ s.memory.2 ++ [note], ¬ f.isDisabled n.pass ∧ ¬ f.isDisabled n.rule := by
    intro n hn
    rcases List.mem_append.1 hn with hn | hn
    · exact hs n hn
    · rw [List.mem_singleton.1 hn]
      exact ⟨hpass, hrule⟩
  rw [Action.noting]
  cases a s.plain <;> exact hmore

/-- A pass that is not switched off calls only rules that are not. -/
theorem obeys_run_noting {p : Pass σ} (hp : ¬ f.isDisabled p.name) :
    Keeps (Obeys f) (Obeys f) (p.noting.run f) := by
  have hrun {rules : List (Rule (σ × List Note))} (config : TraversalConfig)
      (hrules : ∀ r ∈ f.enabled rules, r.Respects (Obeys f) (Obeys f)) :
      Keeps (Obeys f) (Obeys f) (runRules rules config f) := by
    rw [← runRules_congr (fun id => offer_enabled f id rules) config]
    exact keeps_runRules (fun ids => obeys_edit _) (fun id => obeys_edit _) hrules config {}
  have hrule {pass : String} {r : Rule σ} (hpass : ¬ f.isDisabled pass) (hr : ¬ f.isDisabled r.name) :
      (r.noting pass).Respects (Obeys f) (Obeys f) :=
    fun s _ m hs _ => obeys_noting hpass hr (r.action m) s hs
  cases p with
  | rule r =>
    refine hrun r.config fun r' hr' => ?_
    obtain rfl := List.mem_singleton.1 (List.mem_filter.1 hr').1
    exact hrule hp hp
  | group name rules config =>
    refine hrun config fun r' hr' => ?_
    obtain ⟨hmem, henabled⟩ := List.mem_filter.1 hr'
    obtain ⟨r, -, rfl⟩ := List.mem_map.1 hmem
    have hr : ¬ f.isDisabled (r.noting name).name := by simpa using henabled
    exact hrule hp hr
  | whole name action => exact obeys_noting hp hp action

namespace Manager

theorem obeys_runPass_noting (m : Manager σ) {p : Pass σ} (hp : ¬ m.filter.isDisabled p.name) :
    Keeps (Obeys m.filter) (Obeys m.filter) (m.noting.runPass p.noting) := by
  refine keeps_bind (obeys_run_noting hp) fun changed => ?_
  split
  · exact keeps_bind (obeys_edit _) fun _ => keeps_pure changed
  · exact keeps_pure changed

theorem obeys_finish (m : Manager σ) (released : Nat) (stats : RunStats)
    {s : Session (σ × List Note)} (hs : Obeys f s) : Obeys f (m.noting.finish released stats s).2 := by
  have hlast : Keeps (Obeys f) (Obeys f) (if m.config.finalValidation then .edit Edit.validate
      else pure () : Action (σ × List Note) Unit) := by
    split
    · exact obeys_edit Edit.validate
    · exact keeps_pure ()
  unfold finish
  extract_lets last
  have hend : Ends (Obeys f) (Obeys f) (last s) := hlast s hs
  cases hr : last s <;> rw [hr] at hend <;> exact hend

theorem obeys_runFrom_noting (m : Manager σ) (released : Nat) (passes : List (Pass σ))
    (stats : RunStats) {s : Session (σ × List Note)} (hs : Obeys m.filter s) :
    Obeys m.filter (m.noting.runFrom released (passes.map Pass.noting) stats s).2 := by
  induction passes generalizing stats s with
  | nil => exact m.obeys_finish released stats hs
  | cons p passes ih =>
    rw [List.map_cons, runFrom, name_noting, filter_noting]
    by_cases hp : m.filter.isDisabled p.name
    · rw [if_pos hp]
      exact ih stats hs
    rw [if_neg hp]
    have hend := m.obeys_runPass_noting hp s hs
    cases hr : m.noting.runPass p.noting s with
    | ok changed s' => exact ih _ (hend.of_ok hr)
    | error e s' =>
      rw [hr] at hend
      exact hend

/-- **What is switched off is not called.** -/
theorem obeys_run_noting (m : Manager σ) {s : Session (σ × List Note)} (hs : Obeys m.filter s) :
    Obeys m.filter (m.noting.run s).2 :=
  m.obeys_runFrom_noting s.graph.released m.passes {} hs

end Manager

end OpGraph
