import OpGraph.Rule.Session

/-!
# Outcomes of actions

An `Edit` or an `Action` ends with an answer or an error and leaves a state in both cases.  This file
says how an outcome is taken apart.

* `bind_eq_ok` and its companions invert a run that has answered: each step of a `do` block has
  answered in turn.  After an error one of the steps has failed (`bind_eq_error`).
* `endState` is the state that is left, and `Keeps P E` says that an action that starts with `P` ends
  with `P` where it answers, and with `E` where it fails.
-/

namespace OpGraph

section

variable {ε σ α β : Type}

/-! ### Runs that answer -/

theorem bind_eq_ok {e : EStateM ε σ α} {f : α → EStateM ε σ β} {s s' : σ} {b : β} :
    (e >>= f) s = .ok b s' ↔ ∃ a s₁, e s = .ok a s₁ ∧ f a s₁ = .ok b s' := by
  show EStateM.bind e f s = _ ↔ _
  rw [EStateM.bind]
  cases h : e s with
  | ok a s₁ =>
    refine ⟨fun hf => ⟨a, s₁, rfl, hf⟩, ?_⟩
    intro h'
    rcases h' with ⟨_, _, ⟨rfl, rfl⟩, hf⟩
    exact hf
  | error err s₁ => simp

theorem bind_eq_error {e : EStateM ε σ α} {f : α → EStateM ε σ β} {s s' : σ} {err : ε} :
    (e >>= f) s = .error err s' ↔
      e s = .error err s' ∨ ∃ a s₁, e s = .ok a s₁ ∧ f a s₁ = .error err s' := by
  show EStateM.bind e f s = _ ↔ _
  rw [EStateM.bind]
  cases h : e s with
  | ok a s₁ =>
    constructor
    · exact fun hf => Or.inr ⟨a, s₁, rfl, hf⟩
    · rintro (hno | ⟨_, _, ⟨rfl, rfl⟩, hf⟩)
      · cases hno
      · exact hf
  | error err' s₁ => simp

theorem pure_eq_ok {a b : α} {s s' : σ} :
    (pure a : EStateM ε σ α) s = .ok b s' ↔ a = b ∧ s = s' := by
  show EStateM.Result.ok a s = _ ↔ _
  simp

theorem modifyGet_eq_ok {f : σ → α × σ} {b : α} {s s' : σ} :
    (modifyGet f : EStateM ε σ α) s = .ok b s' ↔ (f s).1 = b ∧ (f s).2 = s' := by
  show EStateM.Result.ok (f s).1 (f s).2 = _ ↔ _
  simp

theorem get_eq_ok {b s s' : σ} : (get : EStateM ε σ σ) s = .ok b s' ↔ s = b ∧ s = s' := by
  show EStateM.Result.ok s s = _ ↔ _
  simp

theorem get_bind (f : σ → EStateM ε σ α) (s : σ) : (get >>= f) s = f s s := rfl

theorem mapM_singleton_eq_ok {f : α → EStateM ε σ β} {a : α} {bs : List β} {s s' : σ}
    (h : [a].mapM f s = .ok bs s') : ∃ b, f a s = .ok b s' ∧ bs = [b] := by
  rw [List.mapM_cons, List.mapM_nil] at h
  obtain ⟨b, s₁, hb, h⟩ := bind_eq_ok.1 h
  obtain ⟨bs', s₂, hnil, h⟩ := bind_eq_ok.1 h
  obtain ⟨rfl, rfl⟩ := pure_eq_ok.1 hnil
  obtain ⟨rfl, rfl⟩ := pure_eq_ok.1 h
  exact ⟨b, hb, rfl⟩

theorem forM_singleton (f : α → EStateM ε σ PUnit) (a : α) (s : σ) : [a].forM f s = f a s := by
  show EStateM.bind (f a) (fun _ => pure PUnit.unit) s = f a s
  rw [EStateM.bind]
  cases f a s <;> rfl

theorem discard_eq (e : EStateM ε σ α) :
    (discard e : EStateM ε σ PUnit) = e >>= fun _ => pure PUnit.unit := by
  funext s
  show EStateM.map (fun _ => PUnit.unit) e s = EStateM.bind e (fun _ => pure PUnit.unit) s
  rw [EStateM.map, EStateM.bind]
  cases e s <;> rfl

/-! ### States that are left -/

/-- The state that an action leaves, whether it answers or fails. -/
def endState (e : EStateM ε σ α) (s : σ) : σ :=
  match e s with
  | .ok _ s' => s'
  | .error _ s' => s'

/-- The state that is left satisfies `P` after an answer and `E` after an error. -/
def Ends (P E : σ → Prop) : EStateM.Result ε σ α → Prop
  | .ok _ s => P s
  | .error _ s => E s

/-- From a state with `P` the action answers in a state with `P` or fails in a state with `E`. -/
def Keeps (P E : σ → Prop) (e : EStateM ε σ α) : Prop := ∀ s, P s → Ends P E (e s)

variable {P E : σ → Prop}

theorem Keeps.of_ok {e : EStateM ε σ α} (h : Keeps P E e) {s s' : σ} {a : α} (hs : P s)
    (he : e s = .ok a s') : P s' := by
  have := h s hs
  rwa [he] at this

/-- An action that keeps `P` in both ways of ending leaves a state with `P`. -/
theorem Keeps.endState {e : EStateM ε σ α} (h : Keeps P P e) {s : σ} (hs : P s) :
    P (endState e s) := by
  have := h s hs
  rw [OpGraph.endState]
  cases he : e s with
  | ok a s' => rwa [he] at this
  | error err s' => rwa [he] at this

theorem keeps_of_endState {e : EStateM ε σ α} (h : ∀ s, P s → P (endState e s)) :
    Keeps P P e := by
  intro s hs
  have hend := h s hs
  rw [endState] at hend
  cases he : e s with
  | ok a s' => rwa [he] at hend
  | error err s' => rwa [he] at hend

theorem Ends.of_ok {r : EStateM.Result ε σ α} (h : Ends P E r) {a : α} {s : σ}
    (hr : r = .ok a s) : P s := by
  rwa [hr] at h

theorem Ends.of_error {r : EStateM.Result ε σ α} (h : Ends P E r) {err : ε} {s : σ}
    (hr : r = .error err s) : E s := by
  rwa [hr] at h

/-- What does not fail has an answer. -/
theorem Ends.exists_ok {r : EStateM.Result ε σ α} (h : Ends P (fun _ => False) r) :
    ∃ a s, r = .ok a s ∧ P s := by
  cases r with
  | ok a s => exact ⟨a, s, rfl, h⟩
  | error err s => exact h.elim

/-- An action gives no other answer than `a`. -/
def Answers (a : α) (e : EStateM ε σ α) : Prop := ∀ s a' s', e s = .ok a' s' → a' = a

theorem answers_pure (a : α) : Answers a (pure a : EStateM ε σ α) := fun _ _ _ h =>
  (pure_eq_ok.1 h).1.symm

theorem answers_bind {e : EStateM ε σ α} {f : α → EStateM ε σ β} {b : β}
    (h : ∀ a, Answers b (f a)) : Answers b (e >>= f) := by
  intro s b' s' he
  obtain ⟨a, s₁, -, hf⟩ := bind_eq_ok.1 he
  exact h a s₁ b' s' hf

theorem keeps_pure (a : α) : Keeps P E (pure a : EStateM ε σ α) := fun _ hs => hs

theorem keeps_throw (hE : ∀ s, P s → E s) (err : ε) : Keeps P E (throw err : EStateM ε σ α) :=
  fun s hs => hE s hs

theorem keeps_get : Keeps P E (get : EStateM ε σ σ) := fun _ hs => hs

theorem keeps_modify {f : σ → σ} (h : ∀ s, P s → P (f s)) :
    Keeps P E (modify f : EStateM ε σ PUnit) := h

theorem keeps_modifyGet {f : σ → α × σ} (h : ∀ s, P s → P (f s).2) :
    Keeps P E (modifyGet f : EStateM ε σ α) := h

/-- What follows an answer may start from any state that the answer is given in. -/
theorem ends_then {Q : σ → Prop} {e : EStateM ε σ α} {f : α → EStateM ε σ β} {s : σ}
    (he : Ends Q E (e s)) (hf : ∀ a s', Q s' → Ends P E (f a s')) : Ends P E ((e >>= f) s) := by
  show Ends P E (EStateM.bind e f s)
  rw [EStateM.bind]
  cases h : e s with
  | ok a s₁ =>
    rw [h] at he
    exact hf a s₁ he
  | error err s₁ =>
    rw [h] at he
    exact he

theorem ends_bind {e : EStateM ε σ α} {f : α → EStateM ε σ β} {s : σ} (he : Ends P E (e s))
    (hf : ∀ a, Keeps P E (f a)) : Ends P E ((e >>= f) s) :=
  ends_then he hf

/-- What follows an answer may use that the action has given it. -/
theorem ends_bind_of_ok {e : EStateM ε σ α} {f : α → EStateM ε σ β} {s : σ} (hE : ∀ s, E s)
    (hf : ∀ a s', e s = .ok a s' → Ends P E (f a s')) : Ends P E ((e >>= f) s) := by
  show Ends P E (EStateM.bind e f s)
  rw [EStateM.bind]
  cases h : e s with
  | ok a s' => exact hf a s' h
  | error err s' => exact hE s'

theorem Ends.imp {Q : σ → Prop} {r : EStateM.Result ε σ α} (h : Ends P E r)
    (hPQ : ∀ s, P s → Q s) : Ends Q E r := by
  cases r with
  | ok a s => exact hPQ s h
  | error err s => exact h

/-- An error may leave anything. -/
theorem Ends.forget {r : EStateM.Result ε σ α} (h : Ends P E r) : Ends P (fun _ => True) r := by
  cases r with
  | ok a s => exact h
  | error err s => trivial

theorem Ends.and {Q : σ → Prop} {r : EStateM.Result ε σ α} (hP : Ends P E r) (hQ : Ends Q E r) :
    Ends (fun s => P s ∧ Q s) E r := by
  cases r with
  | ok a s => exact ⟨hP, hQ⟩
  | error err s => exact hP

/-- After an answer it is known which action has given it. -/
theorem Ends.and_ok {r : EStateM.Result ε σ α} (h : Ends P E r) :
    Ends (fun s => P s ∧ ∃ a, r = .ok a s) E r := by
  cases r with
  | ok a s => exact ⟨h, a, rfl⟩
  | error err s => exact h

/-- An action that does not fail ends as it does where it answers. -/
theorem Ends.of_total {Q E' : σ → Prop} {r : EStateM.Result ε σ α} (h : Ends P E' r)
    (htotal : Ends Q E r) : Ends P E r := by
  cases r with
  | ok a s => exact h
  | error err s => exact htotal

theorem keeps_bind {e : EStateM ε σ α} {f : α → EStateM ε σ β} (he : Keeps P E e)
    (hf : ∀ a, Keeps P E (f a)) : Keeps P E (e >>= f) :=
  fun s hs => ends_bind (he s hs) hf

theorem keeps_discard {e : EStateM ε σ α} (he : Keeps P E e) :
    Keeps P E (discard e : EStateM ε σ PUnit) := by
  rw [discard_eq]
  exact keeps_bind he fun _ => keeps_pure PUnit.unit

/-- An error that is caught leaves what the failing action has done. -/
theorem keeps_tryCatch {e : EStateM ε σ α} {f : ε → EStateM ε σ α} (he : Keeps P P e)
    (hf : ∀ err, Keeps P E (f err)) : Keeps P E (tryCatch e f) := by
  intro s hs
  have hs₁ := he s hs
  show Ends P E (EStateM.tryCatch e f s)
  unfold EStateM.tryCatch
  cases h : e s with
  | ok a s₁ =>
    rw [h] at hs₁
    exact hs₁
  | error err s₁ =>
    rw [h] at hs₁
    exact hf err s₁ hs₁

theorem keeps_forM {f : α → EStateM ε σ PUnit} {l : List α} (h : ∀ a ∈ l, Keeps P E (f a)) :
    Keeps P E (l.forM f) := by
  induction l with
  | nil => exact keeps_pure _
  | cons a l ih =>
    exact keeps_bind (h a List.mem_cons_self) fun _ =>
      ih fun x hx => h x (List.mem_cons_of_mem a hx)

/-- What one of the actions brings about and all of them keep holds after the last one. -/
theorem ends_forM_of_mem {Q : σ → Prop} {f : α → EStateM ε σ PUnit} {l : List α} {a : α}
    (ha : a ∈ l) (hP : ∀ b ∈ l, Keeps P E (f b)) (hQ : ∀ b ∈ l, Keeps Q E (f b))
    (hstep : ∀ s, P s → Ends Q E (f a s)) {s : σ} (hs : P s) : Ends Q E (l.forM f s) := by
  induction l generalizing s with
  | nil => cases ha
  | cons b l ih =>
    obtain ⟨-, hQ'⟩ := List.forall_mem_cons.1 hQ
    obtain ⟨hb, hP⟩ := List.forall_mem_cons.1 hP
    rcases List.mem_cons.1 ha with rfl | ha
    · exact ends_then (hstep s hs) fun _ s' hs' => keeps_forM hQ' s' hs'
    · exact ends_then (hb s hs) fun _ s' hs' => ih ha hP hQ' hs'

theorem keeps_mapM {f : α → EStateM ε σ β} {l : List α} (h : ∀ a ∈ l, Keeps P E (f a)) :
    Keeps P E (l.mapM f) := by
  induction l with
  | nil => exact keeps_pure _
  | cons a l ih =>
    have hl := ih fun x hx => h x (List.mem_cons_of_mem a hx)
    rw [List.mapM_cons]
    refine keeps_bind (h a List.mem_cons_self) fun b => ?_
    exact keeps_bind hl fun bs => keeps_pure (b :: bs)

end

/-! ### Edits and sessions -/

namespace Edit

variable {α : Type}

theorem query_eq_ok {f : Graph → Except GraphError α} {g g' : Graph} {a : α} :
    query f g = .ok a g' ↔ f g = .ok a ∧ g = g' := by
  rw [query]
  cases h : f g with
  | ok b => simp
  | error e => simp

theorem keeps_query {P E : Graph → Prop} (hE : ∀ g, P g → E g)
    (f : Graph → Except GraphError α) : Keeps P E (query f) := by
  intro g hg
  rw [query]
  cases f g with
  | ok a => exact hg
  | error e => exact hE g hg

end Edit

namespace Action

variable {σ α : Type}

theorem edit_eq_ok {e : Edit α} {s s' : Session σ} {a : α} :
    edit e s = .ok a s' ↔ ∃ g, e s.graph = .ok a g ∧ { s with graph := g } = s' := by
  rw [edit]
  cases e s.graph with
  | ok b g => simp [and_assoc]
  | error err g => simp

theorem ends_edit {P E : Graph → Prop} {e : Edit α} {s : Session σ} (h : Ends P E (e s.graph)) :
    Ends (fun s : Session σ => P s.graph) (fun s => E s.graph) (edit e s) := by
  rw [edit]
  cases he : e s.graph with
  | ok a g =>
    rw [he] at h
    exact h
  | error err g =>
    rw [he] at h
    exact h

theorem keeps_edit {P E : Graph → Prop} {e : Edit α} (h : Keeps P E e) :
    Keeps (fun s : Session σ => P s.graph) (fun s => E s.graph) (edit e) :=
  fun s hs => ends_edit (h s.graph hs)

theorem keeps_graph {P E : Session σ → Prop} : Keeps P E (graph : Action σ Graph) :=
  fun _ hs => hs

end Action

end OpGraph
