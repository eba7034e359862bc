import OpGraph.Proofs.Rule.Local

/-!
# Traversals keep descriptions up to date

A traversal with inference brings every node that it comes to after the first change up to date before it
offers it.  If the rules are local, the nodes that are still ahead are pending in the sense of
`Graph.Abreast`: a walk over the first part of a list leads from the whole list being pending to the rest
being pending (`abreast_walk`).

At the end nothing is pending, and on the way each node is offered together with up-to-date producers
(`traverse_consistent`).
-/

namespace OpGraph

open Relation (ReflTransGen)

variable {σ : Type} {rules : List (Rule σ)} {filter : PassFilter} {id : NodeId}
  {s s₁ s' : Session σ}

/-! ### Walks -/

/-- The session in which a node is offered: after the first change the node is brought up to date. -/
def Prepares (changed : Bool) (id : NodeId) (s s₁ : Session σ) : Prop :=
  if changed then ∃ b, Action.edit (Edit.revalidate id) s = .ok b s₁ else s₁ = s

theorem walk_cons_eq_ok {inference : Bool} {ids : List NodeId} {changed c : Bool}
    (h : walk rules filter inference (id :: ids) changed s = .ok c s') :
    if s.graph.contains id then ∃ s₁ hit s₂, Prepares (changed && inference) id s s₁ ∧
      offer filter id rules s₁ = .ok hit s₂ ∧
        walk rules filter inference ids (changed || hit) s₂ = .ok c s'
    else walk rules filter inference ids changed s = .ok c s' := by
  rw [walk] at h
  obtain ⟨g, s₀, hg, h⟩ := bind_eq_ok.1 h
  cases hg
  split
  next hlive =>
    rw [if_pos hlive] at h
    cases hinfer : changed && inference with
    | false =>
      rw [hinfer] at h
      obtain ⟨hit, s₂, hoffer, h⟩ := bind_eq_ok.1 h
      exact ⟨s, hit, s₂, rfl, hoffer, h⟩
    | true =>
      rw [hinfer] at h
      obtain ⟨b, s₁, hre, h⟩ := bind_eq_ok.1 h
      obtain ⟨hit, s₂, hoffer, h⟩ := bind_eq_ok.1 h
      exact ⟨s₁, hit, s₂, ⟨b, hre⟩, hoffer, h⟩
  next hgone => rwa [if_neg hgone] at h

section Walk

variable {g₀ : Graph} {rest : List NodeId} {changed : Bool}

/-- A node is up to date when it is offered: nothing has changed since the start, or inference has come
by. -/
theorem abreast_of_prepares (hc : g₀.Consistent) (h : g₀.Abreast (id :: rest) s.graph)
    (hsame : changed = false → s.graph = g₀) (hp : Prepares changed id s s₁) :
    g₀.Abreast (id :: rest) s₁.graph ∧ s₁.graph.ConsistentAt id ∧
      (changed = false → s₁.graph = g₀) := by
  cases changed with
  | false =>
    obtain rfl : s₁ = s := hp
    refine ⟨h, ?_, hsame⟩
    rw [hsame rfl]
    exact hc id (h.reachable List.mem_cons_self).1
  | true =>
    obtain ⟨b, hp⟩ := hp
    obtain ⟨g', hre, rfl⟩ := Action.edit_eq_ok.1 hp
    obtain ⟨err, he⟩ | ⟨outs, b', houts, hok⟩ := Edit.revalidate_cases id s.graph
    · rw [he] at hre
      cases hre
    · rw [hok] at hre
      cases hre
      obtain ⟨habreast, hid⟩ := h.revalidate houts
      exact ⟨habreast, hid, by simp⟩

/-- **A walk leaves out of date only what it has not come to.** -/
theorem abreast_walk (hrules : ∀ r ∈ rules, r.Local) (hc : g₀.Consistent) {done : List NodeId}
    (h : g₀.Abreast (done ++ rest) s.graph) (hsame : changed = false → s.graph = g₀) {c : Bool}
    (hwalk : walk rules filter true done changed s = .ok c s') :
    g₀.Abreast rest s'.graph ∧ (c = false → s'.graph = g₀) := by
  induction done generalizing changed s with
  | nil =>
    obtain ⟨rfl, rfl⟩ := pure_eq_ok.1 hwalk
    exact ⟨h, hsame⟩
  | cons id done ih =>
    have hstep := walk_cons_eq_ok hwalk
    split at hstep
    next =>
      obtain ⟨s₁, hit, s₂, hprepares, hoffer, hrest⟩ := hstep
      rw [Bool.and_true] at hprepares
      obtain ⟨habreast, hid, hsame⟩ := abreast_of_prepares hc h hsame hprepares
      have hchange := rewrites_of_offer hrules habreast.wellFormed hoffer
      cases hit with
      | false =>
        have hgraph : s₂.graph = s₁.graph := hchange
        refine ih (hgraph ▸ habreast.settle fun _ => hid) (fun hchanged => ?_) hrest
        rw [hgraph]
        exact hsame (by simpa using hchanged)
      | true => exact ih (habreast.rewrites hid hchange) (by simp) hrest
    next hgone => exact ih (h.settle fun hlive => absurd hlive hgone) hsame hstep

end Walk

/-- The node is offered to the rules in the session `s₁` when they go over the graph of `s` once. -/
def OfferedIn (rules : List (Rule σ)) (filter : PassFilter) (s : Session σ) (id : NodeId)
    (s₁ : Session σ) : Prop :=
  ∃ done rest changed s', s.graph.order = done ++ id :: rest ∧
    walk rules filter true done false s = .ok changed s' ∧ s'.graph.contains id ∧
      Prepares changed id s' s₁

/-- **Inference during a traversal is as good as inference on the whole graph**: with local rules, a
traversal of an up-to-date graph leads to an up-to-date graph, and each node is offered while it and all
that it hangs on are up to date. -/
theorem traverse_consistent (hrules : ∀ r ∈ rules, r.Local) {g : Graph} (hwf : g.WellFormed)
    (ha : g.Acyclic) (hc : g.Consistent) (filter : PassFilter) (memory : σ) :
    (∀ changed s, traverse rules filter true ⟨g, memory⟩ = .ok changed s →
      s.graph.Acyclic ∧ s.graph.Consistent ∧ Edit.validate s.graph = .ok () s.graph) ∧
    ∀ id s, OfferedIn rules filter ⟨g, memory⟩ id s →
      ∀ p, ReflTransGen s.graph.Produces p id → s.graph.ConsistentAt p := by
  have hstart := Graph.abreast_start hwf ha hc
  constructor
  · intro changed s h
    obtain ⟨hend, -⟩ : g.Abreast [] s.graph ∧ (changed = false → s.graph = g) :=
      abreast_walk hrules hc (by rwa [List.append_nil]) (fun _ => rfl) h
    exact ⟨hend.acyclic, hend.consistent, Edit.validate_of_consistent hend.consistent⟩
  · rintro id s ⟨done, rest, changed, s', horder, hwalk, -, hprepares⟩ p hp
    obtain ⟨habreast, hsame⟩ := abreast_walk hrules hc (horder ▸ hstart) (fun _ => rfl) hwalk
    obtain ⟨habreast, hid, -⟩ := abreast_of_prepares hc habreast hsame hprepares
    exact habreast.consistentAt_of_path hid hp

/-- After the negation of `negatedPair` has become a product, the result is offered while it and what it
hangs on are up to date, and so is the graph at the end. -/
theorem traverse_consistent_negatedPair :
    Graph.negatedPairRewritten.Acyclic ∧ Graph.negatedPairRewritten.Consistent ∧
      Edit.validate Graph.negatedPairRewritten = .ok () Graph.negatedPairRewritten ∧
        OfferedIn [Negation.rule] {} (⟨Graph.negatedPair, ()⟩ : Session Unit) 2
          ⟨Graph.negatedPairRewritten, ()⟩ ∧
        ∀ p, ReflTransGen Graph.negatedPairRewritten.Produces p 2 →
          Graph.negatedPairRewritten.ConsistentAt p := by
  have hrules : ∀ r ∈ [(Negation.rule : Rule Unit)], r.Local := fun r hr =>
    List.mem_singleton.1 hr ▸ Negation.local_rule
  have hconsistent : Graph.negatedPair.Consistent := Graph.consistent_single rfl
  obtain ⟨hend, hoffer⟩ := traverse_consistent hrules (Graph.wellFormed_single _ _ _)
    (Graph.acyclic_single _ _ _) hconsistent {} ()
  obtain ⟨hacyclic, hconsistent, hvalidate⟩ := hend true _ Graph.traverse_negatedPair
  have hoffered : OfferedIn [Negation.rule] {} (⟨Graph.negatedPair, ()⟩ : Session Unit) 2
      ⟨Graph.negatedPairRewritten, ()⟩ :=
    ⟨[0, 1], [], true, _, Graph.order_negatedPair, Graph.walk_negatedPair, rfl, false, rfl⟩
  exact ⟨hacyclic, hconsistent, hvalidate, hoffered, hoffer 2 _ hoffered⟩

end OpGraph
