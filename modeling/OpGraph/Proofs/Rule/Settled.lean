import OpGraph.Proofs.Optimize.TypedRules
import OpGraph.Proofs.Rule.Progress

/-!
# Rules that settle in one traversal

`r.Settling fires` says where the rule `r` acts on a graph whose descriptions are up to date: it fires
at a node if and only if `fires` holds there.  After it has fired at a node it may fire where it could
have fired before, at what hangs on the node, or anywhere if it could have fired upstream of the node.

A traversal goes over the graph producers first.  So behind it nothing is left that could fire
(`Calm.applyAt`): what hangs on the node is still ahead, and what the node hangs on has been passed
without effect.  At the end nothing could fire at all (`exists_calm_traverse`), and the next traversal
changes nothing (`exists_settled_traverse`).  Whether the traversals are repeated does not matter then
(`runRules_of_settled`).
-/

namespace OpGraph

open Relation (TransGen)

variable {σ : Type} {rules : List (Rule σ)} {r : Rule σ} {filter : PassFilter}
  {fires : Graph → NodeId → Prop} {g₀ g : Graph} {id p : NodeId} {ids pending : List NodeId}
  {s s' : Session σ} {hit : Bool}

/-! ### Traversals that decline -/

/-- What is declined once is declined again and again. -/
theorem iterate_of_declined {step : Action σ Bool} (h : step s = .ok false s) (n : Nat)
    (changed : Bool) : iterate step n changed s = .ok changed s := by
  cases n with
  | zero => rfl
  | succ n => exact bind_eq_ok.2 ⟨false, s, h, rfl⟩

/-- **If a second traversal changes nothing, it does not matter how often the graph is gone over.** -/
theorem runRules_of_settled {changed : Bool}
    (h : ∀ inference, traverse rules filter inference s = .ok changed s')
    (h' : ∀ inference, traverse rules filter inference s' = .ok false s')
    (config : TraversalConfig) : runRules rules config filter s = .ok changed s' := by
  rw [runRules]
  split
  swap
  · exact h config.shapeInference
  obtain ⟨n, hn⟩ : ∃ n, max 1 config.maxIterations = n + 1 :=
    Nat.exists_eq_add_one.2 (Nat.le_max_left 1 config.maxIterations)
  rw [hn, iterate]
  refine bind_eq_ok.2 ⟨changed, s', h config.shapeInference, ?_⟩
  cases changed with
  | false => rfl
  | true => exact iterate_of_declined (h' config.shapeInference) n true

/-- Rules that are switched off decline everything. -/
theorem traverse_of_disabled (h : filter.isDisabled r.name) (inference : Bool) (s : Session σ) :
    traverse [r] filter inference s = .ok false s := by
  refine walk_of_declined fun id _ _ => ?_
  rw [offer, if_pos h]
  rfl

theorem offer_of_applyAt (hr : ¬ filter.isDisabled r.name) (h : r.applyAt id s = .ok hit s') :
    offer filter id [r] s = .ok hit s' := by
  rw [offer, if_neg hr]
  refine bind_eq_ok.2 ⟨hit, s', h, ?_⟩
  cases hit <;> rfl

/-- A node that is up to date is offered as it is, with inference or without. -/
theorem walk_cons_of_consistentAt (h : s.graph.ConsistentAt id) (inference changed : Bool) :
    walk rules filter inference (id :: ids) changed s = (do
      let hit ← offer filter id rules
      walk rules filter inference ids (changed || hit) : Action σ Bool) s := by
  have hre : (Action.edit (Edit.revalidate id) : Action σ Bool) s = .ok false s := by
    rw [Action.edit, Edit.revalidate_of_consistentAt h]
  rw [walk]
  show (if s.graph.contains id then _ else _ : Action σ Bool) s = _
  rw [if_pos h.contains]
  split
  · show EStateM.bind (Action.edit (Edit.revalidate id)) _ s = _
    rw [EStateM.bind, hre]
  · rfl

theorem walk_cons_of_gone (h : ¬ s.graph.contains id) (inference changed : Bool) :
    walk rules filter inference (id :: ids) changed s =
      walk rules filter inference ids changed s := by
  rw [walk]
  show (if s.graph.contains id then _ else _ : Action σ Bool) s = _
  rw [if_neg h]

/-! ### Where a rule fires -/

/-- The rule fires exactly where `fires` holds, and after that `fires` holds of nothing that neither could
fire before nor hangs on the node, unless something upstream of the node could fire before. -/
structure Rule.Settling (r : Rule σ) (fires : Graph → NodeId → Prop) : Prop where
  local_rule : r.Local
  frees : r.Frees
  conserving : ∀ g₀, r.Conserving g₀
  hit_iff : ∀ {g₀ : Graph} {s s' : Session σ} {id : NodeId} {hit : Bool}, g₀.Conserves s.graph →
    g₀.Relevant id → r.applyAt id s = .ok hit s' → (hit = true ↔ fires s.graph id)
  after_hit : ∀ {g₀ : Graph} {s s' : Session σ} {id q : NodeId}, g₀.Conserves s.graph →
    g₀.Relevant id → r.applyAt id s = .ok true s' → fires s'.graph q →
      q ≠ id ∧ fires s.graph q ∨ TransGen s.graph.Produces id q ∨
        ∃ p, TransGen s.graph.Produces p id ∧ fires s.graph p

theorem Rule.keeps_applyAt_conserves {r : Rule σ} (hr : r.Conserving g₀) (hid : g₀.Relevant id) :
    Keeps (fun s => g₀.Conserves s.graph) (fun s => Edit.Never s.graph) (r.applyAt id) :=
  keeps_applyAt (fun ids => Action.keeps_edit
    (Edit.keeps_release_of_hereditary Graph.hereditary_conserves ids)) hr hid

/-- The rule has an answer on a graph that is up to date, and the graph stays so. -/
theorem Rule.Settling.exists_applyAt (hr : r.Settling fires) (h : g₀.Conserves s.graph)
    (hid : g₀.Relevant id) : ∃ hit s', r.applyAt id s = .ok hit s' ∧ g₀.Conserves s'.graph :=
  Ends.exists_ok (keeps_applyAt_conserves (hr.conserving g₀) hid s h)

theorem Rule.Settling.contains (hr : r.Settling fires) (h : g₀.Conserves s.graph)
    (hid : g₀.Relevant id) (hfires : fires s.graph id) : s.graph.contains id := by
  obtain ⟨hit, s', happly, -⟩ := hr.exists_applyAt h hid
  obtain rfl := (hr.hit_iff h hid happly).2 hfires
  obtain ⟨-, hfalse, -⟩ | ⟨m, s₁, hm, -⟩ := applyAt_eq_ok happly
  · cases hfalse
  · obtain ⟨-, n, hn, -⟩ := Pattern.root_of_matchNode? hm
    exact Graph.contains_iff.2 ⟨n, hn⟩

/-- What hangs on a pending node is pending. -/
theorem Graph.Abreast.mem_of_path (h : g₀.Abreast pending g) (hp : p ∈ pending)
    (hpath : TransGen g.Produces p id) (hid : g₀.Relevant id) : id ∈ pending := by
  induction hpath with
  | single hstep =>
    by_contra hnot
    exact h.first List.suffix_rfl hid hnot hstep hp
  | tail _ hstep ih =>
    by_contra hnot
    exact h.first List.suffix_rfl hid hnot hstep (ih (h.relevant hid hstep))

/-- A traversal is under way: of the nodes that matter, only pending ones may fire. -/
structure Calm (fires : Graph → NodeId → Prop) (g₀ : Graph) (pending : List NodeId) (g : Graph) :
    Prop where
  abreast : g₀.Abreast pending g
  conserves : g₀.Conserves g
  quiet : ∀ {id}, g₀.Relevant id → id ∉ pending → ¬ fires g id

namespace Calm

theorem relevant (h : Calm fires g₀ (id :: ids) g) : g₀.Relevant id :=
  Or.inl (h.abreast.reachable List.mem_cons_self).1

theorem consistentAt (h : Calm fires g₀ pending g) (hid : g₀.Relevant id) (hlive : g.contains id) :
    g.ConsistentAt id := by
  obtain ⟨τ, rank, ht⟩ := h.conserves
  exact ht.consistentAt hid hlive

/-- A node that does not fire is passed without effect. -/
theorem settle (h : Calm fires g₀ (id :: ids) g) (hid : ¬ fires g id) : Calm fires g₀ ids g where
  abreast := h.abreast.settle fun hlive => h.consistentAt h.relevant hlive
  conserves := h.conserves
  quiet := by
    intro q hq hids
    by_cases hqd : q = id
    · exact hqd ▸ hid
    · exact h.quiet hq (List.not_mem_cons_of_ne_of_not_mem hqd hids)

/-- **Whether the rule fires at the next node or not, nothing is left behind that could fire.** -/
theorem applyAt (hr : r.Settling fires) (h : Calm fires g₀ (id :: ids) s.graph)
    (hlive : s.graph.contains id) (happly : r.applyAt id s = .ok hit s')
    (hconserves : g₀.Conserves s'.graph) : Calm fires g₀ ids s'.graph := by
  have hiff := hr.hit_iff h.conserves h.relevant happly
  have hchange := rewrites_of_applyAt hr.local_rule h.abreast.wellFormed happly
  cases hit with
  | false =>
    have hsame : s'.graph = s.graph := hchange
    rw [hsame]
    exact h.settle fun hfires => Bool.false_ne_true (hiff.2 hfires)
  | true =>
    refine ⟨h.abreast.rewrites (h.consistentAt h.relevant hlive) hchange, hconserves, ?_⟩
    intro q hq hids hfires
    rcases hr.after_hit h.conserves h.relevant happly hfires with ⟨hne, hold⟩ | hpath | ⟨p, hp, hold⟩
    · exact h.quiet hq (List.not_mem_cons_of_ne_of_not_mem hne hids) hold
    · -- what hangs on the node is still ahead
      rcases List.mem_cons.1 (h.abreast.mem_of_path List.mem_cons_self hpath hq) with rfl | hmem
      · exact h.abreast.acyclic q hpath
      · exact hids hmem
    · -- what the node hangs on has been passed
      obtain ⟨hrelevant, hpending⟩ := h.abreast.of_path hp
      exact h.quiet hrelevant hpending hold

/-- The walk goes on to the end, in the same way with inference and without.  What each hit keeps holds
there. -/
theorem exists_walk (hr : r.Settling fires) (hfilter : ¬ filter.isDisabled r.name)
    {P : Bool → Graph → Prop} (hP : ∀ {id ids changed} {s s' : Session σ},
      Calm fires g₀ (id :: ids) s.graph → P changed s.graph → r.applyAt id s = .ok true s' →
        P true s'.graph)
    (h : Calm fires g₀ ids s.graph) (changed : Bool) (hs : P changed s.graph) :
    ∃ c s', (∀ inference, walk [r] filter inference ids changed s = .ok c s') ∧
      Calm fires g₀ [] s'.graph ∧ P c s'.graph := by
  induction ids generalizing s changed with
  | nil => exact ⟨changed, s, fun _ => rfl, h, hs⟩
  | cons id ids ih =>
    by_cases hlive : s.graph.contains id
    · obtain ⟨hit, s₁, happly, hconserves⟩ := hr.exists_applyAt h.conserves h.relevant
      have hs₁ : P (changed || hit) s₁.graph := by
        cases hit with
        | true =>
          rw [Bool.or_true]
          exact hP h hs happly
        | false =>
          have hsame : s₁.graph = s.graph :=
            rewrites_of_applyAt hr.local_rule h.abreast.wellFormed happly
          rwa [hsame, Bool.or_false]
      obtain ⟨c, s', hwalk, hend⟩ := ih (h.applyAt hr hlive happly hconserves) _ hs₁
      refine ⟨c, s', fun inference => ?_, hend⟩
      rw [walk_cons_of_consistentAt (h.consistentAt h.relevant hlive)]
      exact bind_eq_ok.2 ⟨hit, s₁, offer_of_applyAt hfilter happly, hwalk inference⟩
    · have hquiet : ¬ fires s.graph id := fun hfires =>
        hlive (hr.contains h.conserves h.relevant hfires)
      obtain ⟨c, s', hwalk, hend⟩ := ih (h.settle hquiet) changed hs
      refine ⟨c, s', fun inference => ?_, hend⟩
      rw [walk_cons_of_gone hlive]
      exact hwalk inference

end Calm

theorem Calm.lacks (h : Calm fires g₀ [] g) : g₀.Lacks fires g := fun _ hid =>
  h.quiet hid List.not_mem_nil

/-- When nothing could fire, a traversal changes nothing. -/
theorem traverse_of_lacks (hr : r.Settling fires) (hconserves : g₀.Conserves s.graph)
    (h : g₀.Lacks fires s.graph) (filter : PassFilter) (inference : Bool) :
    traverse [r] filter inference s = .ok false s := by
  by_cases hfilter : filter.isDisabled r.name
  · exact traverse_of_disabled hfilter inference s
  refine walk_of_declined fun id hid _ => offer_of_applyAt hfilter ?_
  have hrelevant : g₀.Relevant id := by
    obtain ⟨τ, rank, ht⟩ := hconserves
    exact ht.relevant_of_reachable (Graph.reachable_of_mem_order hid)
  obtain ⟨hit, s', happly, -⟩ := hr.exists_applyAt hconserves hrelevant
  have hiff := hr.hit_iff hconserves hrelevant happly
  cases hit with
  | true => exact absurd (hiff.1 rfl) (h hrelevant)
  | false =>
    obtain ⟨τ, rank, ht⟩ := hconserves
    obtain ⟨-, hsame⟩ := exact_applyAt hr.local_rule hr.frees id ⟨ht.wellFormed, ht.acyclic⟩ happly
    obtain rfl : s' = s := hsame
    exact happly

/-- **One traversal is enough**, and what each of its hits keeps holds at the end. -/
theorem exists_calm_traverse_keeping (hr : r.Settling fires) (hwf : s.graph.WellFormed)
    (hacyclic : s.graph.Acyclic) (hcons : s.graph.Consistent)
    (hbuilt : ∀ id op, s.graph.Reachable id → s.graph.op? id = some op → op.isBuiltIn)
    (hfilter : ¬ filter.isDisabled r.name) {P : Bool → Graph → Prop}
    (hP : ∀ {id ids changed} {t t' : Session σ}, Calm fires s.graph (id :: ids) t.graph →
      P changed t.graph → r.applyAt id t = .ok true t' → P true t'.graph)
    (hs : P false s.graph) :
    ∃ changed s', (∀ inference, traverse [r] filter inference s = .ok changed s') ∧
      Calm fires s.graph [] s'.graph ∧ P changed s'.graph := by
  have hconserves := Graph.conserves_start hwf hacyclic hcons hbuilt
  have hstart : Calm fires s.graph s.graph.order s.graph := by
    refine ⟨Graph.abreast_start hwf hacyclic hcons, hconserves, ?_⟩
    intro id hid hpending hfires
    have hlive := hr.contains hconserves hid hfires
    exact hpending ((Graph.mem_order_iff hwf).2 (hid.reachable hlive))
  exact hstart.exists_walk hr hfilter (P := P) hP false hs

theorem exists_calm_traverse (hr : r.Settling fires) (hwf : s.graph.WellFormed)
    (hacyclic : s.graph.Acyclic) (hcons : s.graph.Consistent)
    (hbuilt : ∀ id op, s.graph.Reachable id → s.graph.op? id = some op → op.isBuiltIn)
    (hfilter : ¬ filter.isDisabled r.name) :
    ∃ changed s', (∀ inference, traverse [r] filter inference s = .ok changed s') ∧
      Calm fires s.graph [] s'.graph := by
  obtain ⟨changed, s', hrun, hend, -⟩ := exists_calm_traverse_keeping hr hwf hacyclic hcons hbuilt
    hfilter (P := fun _ _ => True) (fun _ _ _ => trivial) trivial
  exact ⟨changed, s', hrun, hend⟩

/-- **A second traversal changes nothing.** -/
theorem exists_settled_traverse (hr : r.Settling fires) (hwf : s.graph.WellFormed)
    (hacyclic : s.graph.Acyclic) (hcons : s.graph.Consistent)
    (hbuilt : ∀ id op, s.graph.Reachable id → s.graph.op? id = some op → op.isBuiltIn)
    (filter : PassFilter) :
    ∃ changed s', (∀ inference, traverse [r] filter inference s = .ok changed s') ∧
      ∀ inference, traverse [r] filter inference s' = .ok false s' := by
  by_cases hfilter : filter.isDisabled r.name
  · exact ⟨false, s, fun _ => traverse_of_disabled hfilter _ s,
      fun _ => traverse_of_disabled hfilter _ s⟩
  obtain ⟨changed, s', hrun, hend⟩ := exists_calm_traverse hr hwf hacyclic hcons hbuilt hfilter
  exact ⟨changed, s', hrun, traverse_of_lacks hr hend.conserves hend.lacks filter⟩

end OpGraph
