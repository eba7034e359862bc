import Mathlib.Data.List.Forall2

/-!
# Lists related entry by entry

`List.Forall₂ R` read by positions.
-/

namespace OpGraph

variable {α β γ : Type} {R : α → β → Prop} {as : List α} {bs : List β}

theorem forall₂_getElem? (h : List.Forall₂ R as bs) {k : Nat} {a : α} (ha : as[k]? = some a) :
    ∃ b, bs[k]? = some b ∧ R a b := by
  induction h generalizing k with
  | nil => simp at ha
  | cons hr _ ih =>
    cases k with
    | zero =>
      rw [List.getElem?_cons_zero, Option.some.injEq] at ha
      subst ha
      exact ⟨_, rfl, hr⟩
    | succ k => exact ih ha

theorem forall₂_getElem?_right (h : List.Forall₂ R as bs) {k : Nat} {b : β}
    (hb : bs[k]? = some b) : ∃ a, as[k]? = some a ∧ R a b :=
  forall₂_getElem? (R := fun b a => R a b) h.flip hb

theorem forall₂_exists_of_mem (h : List.Forall₂ R as bs) {a : α} (ha : a ∈ as) :
    ∃ b ∈ bs, R a b := by
  obtain ⟨k, hk⟩ := List.mem_iff_getElem?.1 ha
  obtain ⟨b, hb, hr⟩ := forall₂_getElem? h hk
  exact ⟨b, List.mem_of_getElem? hb, hr⟩

theorem exists_forall₂ (h : ∀ a ∈ as, ∃ b, R a b) : ∃ bs, List.Forall₂ R as bs := by
  induction as with
  | nil => exact ⟨[], .nil⟩
  | cons a as ih =>
    obtain ⟨⟨b, hb⟩, has⟩ := List.forall_mem_cons.1 h
    obtain ⟨bs, hbs⟩ := ih has
    exact ⟨b :: bs, .cons hb hbs⟩

theorem forall₂_iff_getElem? :
    List.Forall₂ R as bs ↔
      as.length = bs.length ∧ ∀ (k : Nat) a b, as[k]? = some a → bs[k]? = some b → R a b := by
  constructor
  · intro h
    refine ⟨h.length_eq, fun k a b ha hb => ?_⟩
    obtain ⟨b', hb', hr⟩ := forall₂_getElem? h ha
    rw [hb, Option.some.injEq] at hb'
    exact hb' ▸ hr
  · intro h'
    rcases h' with ⟨hl, h⟩
    refine List.forall₂_of_length_eq_of_get hl fun k hk₁ hk₂ => ?_
    exact h k _ _ (List.getElem?_eq_getElem hk₁) (List.getElem?_eq_getElem hk₂)

/-- Lists of one length are related if their entries are, counted from the end and with related entries in
front. -/
theorem forall₂_iff_fromEnd {a : α} {b : β} (hr : R a b) :
    List.Forall₂ R as bs ↔
      as.length = bs.length ∧ ∀ k : Nat, R (as.reverse[k]?.getD a) (bs.reverse[k]?.getD b) := by
  rw [← List.forall₂_reverse_iff, forall₂_iff_getElem?, List.length_reverse, List.length_reverse]
  refine and_congr_right fun hl => ⟨fun h k => ?_, fun h k x y hx hy => ?_⟩
  · by_cases hk : k < as.length
    · have has := List.getElem?_eq_getElem (l := as.reverse) (by simpa using hk)
      have hbs := List.getElem?_eq_getElem (l := bs.reverse) (by simpa using hl ▸ hk)
      rw [has, hbs]
      exact h k _ _ has hbs
    · have has : as.reverse.length ≤ k := by simpa using hk
      have hbs : bs.reverse.length ≤ k := by simpa [← hl] using hk
      rw [List.getElem?_eq_none has, List.getElem?_eq_none hbs]
      exact hr
  · have hxy := h k
    rwa [hx, hy] at hxy

theorem forall₂_set (h : List.Forall₂ R as bs) {k : Nat} {a a' : α} (ha : as[k]? = some a)
    (hr : ∀ b, bs[k]? = some b → R a b → R a' b) : List.Forall₂ R (as.set k a') bs := by
  obtain ⟨hl, h⟩ := forall₂_iff_getElem?.1 h
  refine forall₂_iff_getElem?.2 ⟨by rw [List.length_set, hl], fun j x b hx hb => ?_⟩
  rw [List.getElem?_set] at hx
  split at hx
  next hj =>
    subst hj
    split at hx
    next =>
      obtain rfl := Option.some.inj hx
      exact hr b hb (h _ a b ha hb)
    next => cases hx
  next => exact h j x b hx hb

theorem forall₂_set_set (h : List.Forall₂ R as bs) {a : α} {b : β} (hr : R a b) (k : Nat) :
    List.Forall₂ R (as.set k a) (bs.set k b) := by
  induction h generalizing k with
  | nil => exact .nil
  | cons hab hrest ih =>
    cases k with
    | zero => exact .cons hr hrest
    | succ k => exact .cons hab (ih k)

theorem forall₂_trans {S : β → γ → Prop} {T : α → γ → Prop} {cs : List γ}
    (h : List.Forall₂ R as bs) (h' : List.Forall₂ S bs cs)
    (hT : ∀ {a b c}, R a b → S b c → T a c) : List.Forall₂ T as cs := by
  induction h generalizing cs with
  | nil =>
    cases h'
    exact .nil
  | cons hab _ ih =>
    cases h' with
    | cons hbc hrest => exact .cons (hT hab hbc) (ih hrest)

theorem mapM_eq_some {f : α → Option β} :
    as.mapM f = some bs ↔ List.Forall₂ (fun a b => f a = some b) as bs := by
  induction as generalizing bs with
  | nil => cases bs <;> simp
  | cons a as ih =>
    rw [List.mapM_cons]
    cases bs with
    | nil => simp [Option.bind_eq_some_iff]
    | cons b bs =>
      rw [List.forall₂_cons, ← ih]
      simp only [Option.bind_eq_bind, Option.bind_eq_some_iff, Option.pure_def, Option.some.injEq,
        List.cons.injEq]
      constructor
      · intro h
        rcases h with ⟨b', hb, bs', hbs, rfl, rfl⟩
        exact ⟨hb, hbs⟩
      · intro h
        rcases h with ⟨hb, hbs⟩
        exact ⟨b, hb, bs, hbs, rfl, rfl⟩

theorem mapM_eq_ok {ε : Type} {f : α → Except ε β} :
    as.mapM f = .ok bs ↔ List.Forall₂ (fun a b => f a = .ok b) as bs := by
  induction as generalizing bs with
  | nil => cases bs <;> simp [pure, Except.pure]
  | cons a as ih =>
    rw [List.mapM_cons]
    cases ha : f a with
    | error e =>
      refine ⟨fun h => by simp [bind, Except.bind] at h, fun h => ?_⟩
      cases h with
      | cons hb _ =>
        rw [ha] at hb
        cases hb
    | ok b =>
      cases hl : as.mapM f with
      | error e =>
        refine ⟨fun h => by simp [bind, Except.bind] at h, fun h => ?_⟩
        cases h with
        | cons _ hbs =>
          rw [ih.2 hbs] at hl
          cases hl
      | ok bs' =>
        simp only [bind, Except.bind, pure, Except.pure, Except.ok.injEq]
        constructor
        · intro heq
          subst heq
          exact .cons ha (ih.1 hl)
        · intro h
          cases h with
          | cons hb hbs =>
            rw [ha, Except.ok.injEq] at hb
            rw [ih.2 hbs, Except.ok.injEq] at hl
            rw [hb, hl]

/-- A pass over a list succeeds if it does so at every entry. -/
theorem exists_mapM_eq_ok {ε : Type} {f : α → Except ε β} :
    (∃ bs, as.mapM f = .ok bs) ↔ ∀ a ∈ as, ∃ b, f a = .ok b := by
  simp only [mapM_eq_ok]
  constructor
  · rintro ⟨bs, h⟩ a ha
    obtain ⟨b, -, hb⟩ := forall₂_exists_of_mem h ha
    exact ⟨b, hb⟩
  · exact exists_forall₂

theorem mapM_congr {ε : Type} {f f' : α → Except ε β} (h : ∀ a ∈ as, f a = f' a) :
    as.mapM f = as.mapM f' := by
  induction as with
  | nil => rfl
  | cons a as ih =>
    obtain ⟨ha, has⟩ := List.forall_mem_cons.1 h
    rw [List.mapM_cons, List.mapM_cons, ha, ih has]

end OpGraph
