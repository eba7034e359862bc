import Mathlib.Data.List.Forall2
import OpGraph.Proofs.Edit.Steps

/-!
# Two runs side by side

Two runs are compared by what they answer, by the cause of their failure, and by the states that they
leave.  `Agree R` relates two queries, `Paired S R` the outcomes of two actions, and `Couples S R e e'`
says that `e` and `e'`, started in states related by `S`, end in states related by `S` with answers
related by `R`, or both fail for the same cause.  The rules below follow the constructs of a `do` block.
-/

namespace OpGraph

/-- The kinds of failure of graph operations. -/
inductive Cause where
  | structuralViolation | indexOutOfRange | nodeNotFound | shapeMismatch | typeMismatch
  | validationFailed | unsupportedPattern | internal
  deriving DecidableEq, Repr

/-- The kind of the root cause of an error, whatever it says and whichever passes were running. -/
def GraphError.cause : GraphError → Cause
  | structuralViolation _ => .structuralViolation
  | indexOutOfRange .. => .indexOutOfRange
  | nodeNotFound _ => .nodeNotFound
  | shapeMismatch .. => .shapeMismatch
  | typeMismatch .. => .typeMismatch
  | validationFailed .. => .validationFailed
  | unsupportedPattern _ => .unsupportedPattern
  | passFailed _ source => source.cause
  | internal _ => .internal

theorem GraphError.cause_rootCause (e : GraphError) : e.rootCause.cause = e.cause := by
  induction e with
  | passFailed pass source ih => exact ih
  | _ => rfl

theorem InferError.cause_at (e : InferError) (node node' : String) :
    (e.at node).cause = (e.at node').cause := by
  cases e <;> rfl

section

variable {α α' β β' σ σ' : Type}

/-! ### Queries -/

/-- Both queries answer, with related answers, or both fail for the same cause. -/
def Agree (R : α → α' → Prop) : Except GraphError α → Except GraphError α' → Prop
  | .ok a, .ok a' => R a a'
  | .error e, .error e' => e.cause = e'.cause
  | _, _ => False

variable {R : α → α' → Prop} {Q : β → β' → Prop}

theorem Agree.exists_cases {x : Except GraphError α} {x' : Except GraphError α'}
    (h : Agree R x x') :
    (∃ a a', x = .ok a ∧ x' = .ok a' ∧ R a a') ∨
      ∃ e e', x = .error e ∧ x' = .error e' ∧ e.cause = e'.cause := by
  cases x <;> cases x'
  · exact Or.inr ⟨_, _, rfl, rfl, h⟩
  · exact h.elim
  · exact h.elim
  · exact Or.inl ⟨_, _, rfl, rfl, h⟩

theorem Agree.imp {x : Except GraphError α} {x' : Except GraphError α'} {R' : α → α' → Prop}
    (h : Agree R x x') (himp : ∀ a a', R a a' → R' a a') : Agree R' x x' := by
  cases x <;> cases x'
  · exact h
  · exact h
  · exact h
  · exact himp _ _ h

theorem agree_bind {x : Except GraphError α} {x' : Except GraphError α'}
    {f : α → Except GraphError β} {f' : α' → Except GraphError β'} (h : Agree R x x')
    (hf : ∀ a a', R a a' → Agree Q (f a) (f' a')) : Agree Q (x >>= f) (x' >>= f') := by
  cases x <;> cases x'
  · exact h
  · exact h.elim
  · exact h.elim
  · exact hf _ _ h

theorem agree_mapM {f : α → Except GraphError β} {f' : α → Except GraphError β'} {l : List α}
    (h : ∀ a ∈ l, Agree Q (f a) (f' a)) : Agree (List.Forall₂ Q) (l.mapM f) (l.mapM f') := by
  induction l with
  | nil => exact .nil
  | cons a l ih =>
    obtain ⟨ha, hl⟩ := List.forall_mem_cons.1 h
    rw [List.mapM_cons, List.mapM_cons]
    exact agree_bind ha fun b b' hb => agree_bind (ih hl) fun bs bs' hbs => .cons hb hbs

theorem agree_mapM_eq {f f' : α → Except GraphError β} {l : List α}
    (h : ∀ a ∈ l, Agree Eq (f a) (f' a)) : Agree Eq (l.mapM f) (l.mapM f') :=
  (agree_mapM h).imp fun bs bs' hbs => by rwa [List.forall₂_eq_eq_eq] at hbs

/-! ### Actions -/

/-- Both outcomes are answers, related by `R`, or failures for the same cause, and the states that are
left are related by `S`. -/
def Paired (S : σ → σ' → Prop) (R : α → α' → Prop) :
    EStateM.Result GraphError σ α → EStateM.Result GraphError σ' α' → Prop
  | .ok a s, .ok a' s' => R a a' ∧ S s s'
  | .error e s, .error e' s' => e.cause = e'.cause ∧ S s s'
  | _, _ => False

/-- From related states the two actions have paired outcomes. -/
def Couples (S : σ → σ' → Prop) (R : α → α' → Prop) (e : EStateM GraphError σ α)
    (e' : EStateM GraphError σ' α') : Prop :=
  ∀ s s', S s s' → Paired S R (e s) (e' s')

variable {S : σ → σ' → Prop} {e : EStateM GraphError σ α} {e' : EStateM GraphError σ' α'}

theorem Paired.imp {S' : σ → σ' → Prop} {R' : α → α' → Prop}
    {r : EStateM.Result GraphError σ α} {r' : EStateM.Result GraphError σ' α'}
    (h : Paired S R r r') (hS : ∀ s s', S s s' → S' s s') (hR : ∀ a a', R a a' → R' a a') :
    Paired S' R' r r' := by
  cases r <;> cases r'
  · exact ⟨hR _ _ h.1, hS _ _ h.2⟩
  · exact h
  · exact h
  · exact ⟨h.1, hS _ _ h.2⟩

/-- What one side keeps can be carried along. -/
theorem Couples.and_keeps {P : σ → Prop} (h : Couples S R e e') (hP : Keeps P P e) :
    Couples (fun s s' => S s s' ∧ P s) R e e' := by
  intro s s' hs
  have hpaired := h s s' hs.1
  have hends := hP s hs.2
  cases hr : e s <;> cases hr' : e' s' <;> rw [hr, hr'] at hpaired <;> rw [hr] at hends
  · exact ⟨hpaired.1, hpaired.2, hends⟩
  · exact hpaired
  · exact hpaired
  · exact ⟨hpaired.1, hpaired.2, hends⟩

theorem couples_pure {a : α} {a' : α'} (h : R a a') :
    Couples S R (pure a : EStateM GraphError σ α) (pure a' : EStateM GraphError σ' α') :=
  fun _ _ hs => ⟨h, hs⟩

theorem couples_get :
    Couples S S (get : EStateM GraphError σ σ) (get : EStateM GraphError σ' σ') :=
  fun _ _ hs => ⟨hs, hs⟩

theorem couples_modifyGet {f : σ → α × σ} {f' : σ' → α' × σ'}
    (h : ∀ s s', S s s' → R (f s).1 (f' s').1 ∧ S (f s).2 (f' s').2) :
    Couples S R (modifyGet f : EStateM GraphError σ α) (modifyGet f' : EStateM GraphError σ' α') :=
  h

theorem couples_modify {f : σ → σ} {f' : σ' → σ'} (h : ∀ s s', S s s' → S (f s) (f' s')) :
    Couples S Eq (modify f : EStateM GraphError σ PUnit)
      (modify f' : EStateM GraphError σ' PUnit) :=
  fun s s' hs => ⟨rfl, h s s' hs⟩

theorem paired_bind {f : α → EStateM GraphError σ β} {f' : α' → EStateM GraphError σ' β'} {s : σ}
    {s' : σ'} (he : Paired S R (e s) (e' s'))
    (hf : ∀ a a', R a a' → Couples S Q (f a) (f' a')) :
    Paired S Q ((e >>= f) s) ((e' >>= f') s') := by
  show Paired S Q (EStateM.bind e f s) (EStateM.bind e' f' s')
  rw [EStateM.bind, EStateM.bind]
  cases hr : e s <;> cases hr' : e' s' <;> rw [hr, hr'] at he
  · exact hf _ _ he.1 _ _ he.2
  · exact he.elim
  · exact he.elim
  · exact he

theorem couples_bind {f : α → EStateM GraphError σ β} {f' : α' → EStateM GraphError σ' β'}
    (he : Couples S R e e') (hf : ∀ a a', R a a' → Couples S Q (f a) (f' a')) :
    Couples S Q (e >>= f) (e' >>= f') := fun s s' hs =>
  paired_bind (he s s' hs) hf

theorem couples_then {f : α → EStateM GraphError σ β} {f' : α' → EStateM GraphError σ' β'}
    (he : Couples S R e e') (hf : ∀ a a', Couples S Q (f a) (f' a')) :
    Couples S Q (e >>= f) (e' >>= f') :=
  couples_bind he fun a a' _ => hf a a'

theorem couples_throw_bind {err err' : GraphError} (h : err.cause = err'.cause)
    {f : α → EStateM GraphError σ β} {f' : α' → EStateM GraphError σ' β'} :
    Couples S Q (throw err >>= f) (throw err' >>= f') :=
  fun _ _ hs => ⟨h, hs⟩

theorem couples_ite {c : Prop} [Decidable c] {f : EStateM GraphError σ α}
    {f' : EStateM GraphError σ' α'} (he : c → Couples S R e e') (hf : ¬c → Couples S R f f') :
    Couples S R (if c then e else f) (if c then e' else f') := by
  split
  next h => exact he h
  next h => exact hf h

theorem couples_discard (he : Couples S R e e') :
    Couples S Eq (discard e : EStateM GraphError σ PUnit)
      (discard e' : EStateM GraphError σ' PUnit) := by
  rw [discard_eq, discard_eq]
  exact couples_then he fun _ _ => couples_pure rfl

theorem couples_forM {f : α → EStateM GraphError σ PUnit} {f' : α → EStateM GraphError σ' PUnit}
    {l : List α} (h : ∀ a ∈ l, Couples S Eq (f a) (f' a)) :
    Couples S Eq (l.forM f) (l.forM f') := by
  induction l with
  | nil => exact couples_pure rfl
  | cons a l ih =>
    obtain ⟨ha, hl⟩ := List.forall_mem_cons.1 h
    exact couples_then ha fun _ _ => ih hl

theorem couples_mapM {f : α → EStateM GraphError σ β} {f' : α → EStateM GraphError σ' β'}
    {l : List α} (h : ∀ a ∈ l, Couples S Q (f a) (f' a)) :
    Couples S (List.Forall₂ Q) (l.mapM f) (l.mapM f') := by
  induction l with
  | nil => exact couples_pure .nil
  | cons a l ih =>
    obtain ⟨ha, hl⟩ := List.forall_mem_cons.1 h
    rw [List.mapM_cons, List.mapM_cons]
    exact couples_bind ha fun b b' hb => couples_bind (ih hl) fun bs bs' hbs =>
      couples_pure (.cons hb hbs)

end

/-! ### Edits and sessions -/

variable {α α' σ : Type} {R : α → α' → Prop} {S : Graph → Graph → Prop}

theorem Edit.couples_query {f : Graph → Except GraphError α} {f' : Graph → Except GraphError α'}
    (h : ∀ g g', S g g' → Agree R (f g) (f' g')) : Couples S R (query f) (query f') := by
  intro g g' hg
  have hagree := h g g' hg
  rw [query, query]
  cases hr : f g <;> cases hr' : f' g' <;> rw [hr, hr'] at hagree
  · exact ⟨hagree, hg⟩
  · exact hagree
  · exact hagree
  · exact ⟨hagree, hg⟩

/-- What follows a query may use what the first answer says about its graph. -/
theorem Edit.couples_query_bind {β β' : Type} {Q : β → β' → Prop} {P : Graph → Prop}
    {f : Graph → Except GraphError α} {f' : Graph → Except GraphError α'} {k : α → Edit β}
    {k' : α' → Edit β'} (h : ∀ g g', S g g' → Agree R (f g) (f' g'))
    (hP : ∀ g a, f g = .ok a → P g)
    (hk : ∀ a a', R a a' → Couples (fun g g' => S g g' ∧ P g) Q (k a) (k' a')) :
    Couples S Q (query f >>= k) (query f' >>= k') := by
  intro g g' hg
  obtain ⟨a, a', ha, ha', hR⟩ | ⟨err, err', he, he', hcause⟩ := (h g g' hg).exists_cases
  · rw [bind_of_ok (query_of_ok ha), bind_of_ok (query_of_ok ha')]
    exact (hk a a' hR g g' ⟨hg, hP g a ha⟩).imp (fun _ _ hs => hs.1) fun _ _ hb => hb
  · rw [bind_of_error (query_of_error he), bind_of_error (query_of_error he')]
    exact ⟨hcause, hg⟩

/-- The graphs of two sessions are related and they remember the same. -/
def Session.Lift (S : Graph → Graph → Prop) (s s' : Session σ) : Prop :=
  S s.graph s'.graph ∧ s.memory = s'.memory

theorem Action.couples_edit {e : Edit α} {e' : Edit α'} (h : Couples S R e e') :
    Couples (Session.Lift S) R (edit e : Action σ α) (edit e') := by
  intro s s' hs
  have hpaired := h s.graph s'.graph hs.1
  rw [edit, edit]
  cases hr : e s.graph <;> cases hr' : e' s'.graph <;> rw [hr, hr'] at hpaired
  · exact ⟨hpaired.1, hpaired.2, hs.2⟩
  · exact hpaired
  · exact hpaired
  · exact ⟨hpaired.1, hpaired.2, hs.2⟩

theorem Action.couples_graph :
    Couples (Session.Lift S) S (graph : Action σ Graph) (graph : Action σ Graph) :=
  fun _ _ hs => ⟨hs.1, hs⟩

end OpGraph
