import Mathlib.Data.List.Nodup
import Mathlib.Tactic.ByContra
import OpGraph.Proofs.Graph.Reachable

/-!
# The order of a graph

The order comes from a depth-first search.  `Searching` says what holds while it is under way: the nodes
on the stack are distinct from those that have been listed, each of them hangs on the next one, and
what has been visited is listed or on the stack.  The three steps of the search keep it
(`Searching.finish`, `Searching.enter`, `Searching.skip`), so a whole search does (`Searching.visit`).

At the end the stack is empty: the nodes that have been visited are listed, each once (`order_nodup`),
and they are those that the boundary hangs on (`mem_order_iff`).  A node is listed when the search leaves
it.  What it hangs on is then either listed or, in a cycle, still on the stack; without cycles it is
listed already (`ProducersBehind`).
-/

namespace OpGraph.Graph

open Relation (TransGen)

variable {g : Graph}

/-- The live producers of every node are further back in the list. -/
def ProducersBehind (g : Graph) : List NodeId → Prop
  | [] => True
  | id :: ids => (∀ p, g.Produces p id → g.contains p → p ∈ ids) ∧ g.ProducersBehind ids

/-- The boundary hangs on no cycle. -/
def ReachablyAcyclic (g : Graph) : Prop := ∀ id, g.Reachable id → ¬ TransGen g.Produces id id

/-- It is enough that the nodes that the boundary hangs on rank above what they read. -/
theorem reachablyAcyclic_of_rank (rank : NodeId → Nat)
    (h : ∀ p id, g.Reachable id → g.Produces p id → rank p < rank id) : g.ReachablyAcyclic := by
  have hlt : ∀ {p id}, TransGen g.Produces p id → g.Reachable id → rank p < rank id := by
    intro p id hp
    induction hp with
    | single hp => exact fun hid => h _ _ hid hp
    | tail _ hp ih => exact fun hid => Nat.lt_trans (ih (hid.producer hp)) (h _ _ hid hp)
  exact fun id hid hcycle => Nat.lt_irrefl _ (hlt hcycle hid)

/-- A search is under way. -/
structure Searching (g : Graph) (visited order : List NodeId)
    (stack : List (NodeId × List NodeId)) : Prop where
  nodup : (order ++ stack.map (·.1)).Nodup
  mem_visited : ∀ {id}, id ∈ visited ↔ id ∈ order ∨ id ∈ stack.map (·.1)
  reachable : ∀ {id}, id ∈ visited → g.Reachable id
  /-- What a node on the stack has not looked at are producers of it. -/
  pending : ∀ {e}, e ∈ stack → ∀ p ∈ e.2, g.Produces p e.1
  /-- The other live producers of it have been visited. -/
  looked : ∀ {e p}, e ∈ stack → g.Produces p e.1 → g.contains p → p ∈ visited ∨ p ∈ e.2
  listed : ∀ {id p}, id ∈ order → g.Produces p id → g.contains p → p ∈ visited
  /-- The stack is a path: what is further down hangs on what is above it. -/
  path : stack.Pairwise fun a b => TransGen g.Produces a.1 b.1
  behind : g.ReachablyAcyclic → g.ProducersBehind order

namespace Searching

variable {visited order : List NodeId} {stack : List (NodeId × List NodeId)} {id p : NodeId}
  {ps : List NodeId}

theorem start : g.Searching [] [] [] where
  nodup := List.nodup_nil
  mem_visited := by simp
  reachable := by simp
  pending := by simp
  looked := by simp
  listed := by simp
  path := .nil
  behind _ := trivial

/-- Without cycles a node that the search leaves has all its producers behind it. -/
theorem mem_order_of_produces (h : g.Searching visited order ((id, []) :: stack))
    (hacyclic : g.ReachablyAcyclic) (hp : g.Produces p id) (hlive : g.contains p) :
    p ∈ order := by
  have hid : ¬ TransGen g.Produces id id :=
    hacyclic id (h.reachable (h.mem_visited.2 (Or.inr List.mem_cons_self)))
  have hv : p ∈ visited := (h.looked List.mem_cons_self hp hlive).resolve_right (by simp)
  refine (h.mem_visited.1 hv).resolve_right fun hs => hid ?_
  -- on the stack it would close a cycle
  rcases List.mem_cons.1 hs with rfl | hs
  · exact .single hp
  · obtain ⟨e, he, rfl⟩ := List.mem_map.1 hs
    exact ((List.pairwise_cons.1 h.path).1 e he).tail hp

/-- The search leaves a node and lists it. -/
theorem finish (h : g.Searching visited order ((id, []) :: stack)) :
    g.Searching visited (id :: order) stack where
  nodup := List.perm_middle.nodup_iff.1 h.nodup
  mem_visited {j} := by
    rw [h.mem_visited, List.map_cons, List.mem_cons, List.mem_cons]
    tauto
  reachable := h.reachable
  pending he := h.pending (List.mem_cons_of_mem _ he)
  looked he := h.looked (List.mem_cons_of_mem _ he)
  listed := by
    intro j p hj hp hlive
    rcases List.mem_cons.1 hj with rfl | hj
    · exact (h.looked List.mem_cons_self hp hlive).resolve_right (by simp)
    · exact h.listed hj hp hlive
  path := (List.pairwise_cons.1 h.path).2
  behind hacyclic :=
    ⟨fun _ hp hlive => h.mem_order_of_produces hacyclic hp hlive, h.behind hacyclic⟩

/-- The search enters a producer of the node on top of the stack. -/
theorem enter (h : g.Searching visited order ((id, p :: ps) :: stack)) (hp : p ∉ visited) :
    g.Searching (p :: visited) order ((p, g.sourcesOf p) :: (id, ps) :: stack) where
  nodup := by
    refine List.perm_middle.nodup_iff.2 (List.nodup_cons.2 ⟨fun hmem => hp ?_, h.nodup⟩)
    exact h.mem_visited.2 (List.mem_append.1 hmem)
  mem_visited {j} := by
    simp only [List.mem_cons, h.mem_visited, List.map_cons]
    tauto
  reachable := by
    intro j hj
    rcases List.mem_cons.1 hj with rfl | hj
    · have hid := h.reachable (h.mem_visited.2 (Or.inr List.mem_cons_self))
      exact hid.producer (h.pending List.mem_cons_self _ List.mem_cons_self)
    · exact h.reachable hj
  pending := by
    intro e he q hq
    rcases List.mem_cons.1 he with rfl | he
    · exact hq
    rcases List.mem_cons.1 he with rfl | he
    · exact h.pending List.mem_cons_self q (List.mem_cons_of_mem p hq)
    · exact h.pending (List.mem_cons_of_mem _ he) q hq
  looked := by
    intro e q he hq hlive
    rcases List.mem_cons.1 he with rfl | he
    · exact Or.inr hq
    rcases List.mem_cons.1 he with rfl | he
    · rcases h.looked List.mem_cons_self hq hlive with hv | hv
      · exact Or.inl (List.mem_cons_of_mem p hv)
      · rcases List.mem_cons.1 hv with rfl | hv
        · exact Or.inl List.mem_cons_self
        · exact Or.inr hv
    · exact (h.looked (List.mem_cons_of_mem _ he) hq hlive).imp_left (List.mem_cons_of_mem p)
  listed hj hq hlive := List.mem_cons_of_mem p (h.listed hj hq hlive)
  path := by
    have hpid : g.Produces p id := h.pending List.mem_cons_self p List.mem_cons_self
    obtain ⟨hid, hrest⟩ := List.pairwise_cons.1 h.path
    refine .cons (fun e he => ?_) (.cons hid hrest)
    rcases List.mem_cons.1 he with rfl | he
    · exact .single hpid
    · exact .head hpid (hid e he)
  behind := h.behind

/-- The search goes on to the next producer. -/
theorem skip (h : g.Searching visited order ((id, p :: ps) :: stack))
    (hp : g.contains p → p ∈ visited) : g.Searching visited order ((id, ps) :: stack) where
  nodup := h.nodup
  mem_visited := h.mem_visited
  reachable := h.reachable
  pending := by
    intro e he q hq
    rcases List.mem_cons.1 he with rfl | he
    · exact h.pending List.mem_cons_self q (List.mem_cons_of_mem p hq)
    · exact h.pending (List.mem_cons_of_mem _ he) q hq
  looked := by
    intro e q he hq hlive
    rcases List.mem_cons.1 he with rfl | he
    · rcases h.looked List.mem_cons_self hq hlive with hv | hv
      · exact Or.inl hv
      · rcases List.mem_cons.1 hv with rfl | hv
        · exact Or.inl (hp hlive)
        · exact Or.inr hv
    · exact h.looked (List.mem_cons_of_mem _ he) hq hlive
  listed := h.listed
  path := by
    obtain ⟨hid, hrest⟩ := List.pairwise_cons.1 h.path
    exact .cons hid hrest
  behind := h.behind

/-- The search starts at a root. -/
theorem enterRoot (h : g.Searching visited order []) (hroot : g.Reachable id)
    (hid : id ∉ visited) : g.Searching (id :: visited) order [(id, g.sourcesOf id)] where
  nodup := by
    refine List.perm_middle.nodup_iff.2 (List.nodup_cons.2 ⟨fun hmem => hid ?_, h.nodup⟩)
    exact h.mem_visited.2 (List.mem_append.1 hmem)
  mem_visited {j} := by
    rw [List.mem_cons, h.mem_visited, List.map_nil, List.map_singleton, List.mem_singleton]
    simp [or_comm]
  reachable := by
    intro j hj
    rcases List.mem_cons.1 hj with rfl | hj
    · exact hroot
    · exact h.reachable hj
  pending := by
    intro e he q hq
    rw [List.mem_singleton.1 he] at hq ⊢
    exact hq
  looked := by
    intro e q he hq _
    rw [List.mem_singleton.1 he] at hq ⊢
    exact Or.inr hq
  listed hj hq hlive := List.mem_cons_of_mem id (h.listed hj hq hlive)
  path := List.pairwise_singleton ..
  behind := h.behind

/-- **A search lists all that it visits.** -/
theorem visit (h : g.Searching visited order stack) :
    g.Searching (g.visit visited order stack).1 (g.visit visited order stack).2 [] := by
  fun_induction Graph.visit g visited order stack with
  | case1 visited order => exact h
  | case2 visited order id stack ih => exact ih h.finish
  | case3 visited order id p ps stack hp ih => exact ih (h.enter hp.2)
  | case4 visited order id p ps stack hp ih =>
    refine ih (h.skip fun hlive => ?_)
    by_contra hv
    exact hp ⟨hlive, hv⟩

end Searching

theorem mem_visit_of_mem_visited {visited order : List NodeId}
    {stack : List (NodeId × List NodeId)} {id : NodeId} (h : id ∈ visited) :
    id ∈ (g.visit visited order stack).1 := by
  fun_induction Graph.visit g visited order stack with
  | case1 visited order => exact h
  | case2 visited order x stack ih => exact ih h
  | case3 visited order x p ps stack _ ih => exact ih (List.mem_cons_of_mem p h)
  | case4 visited order x p ps stack _ ih => exact ih h

/-- A search from further roots keeps what has been found and finds the live ones of them. -/
theorem searching_foldl_visitRoot {roots : List NodeId} (hroots : ∀ r ∈ roots, g.Reachable r)
    {s : List NodeId × List NodeId} (h : g.Searching s.1 s.2 []) :
    g.Searching (roots.foldl g.visitRoot s).1 (roots.foldl g.visitRoot s).2 [] ∧
      ∀ id, id ∈ s.1 ∨ id ∈ roots ∧ g.contains id → id ∈ (roots.foldl g.visitRoot s).1 := by
  induction roots generalizing s with
  | nil => exact ⟨h, by simp⟩
  | cons r roots ih =>
    have hrest := fun x hx => hroots x (List.mem_cons_of_mem r hx)
    have hstep : g.Searching (g.visitRoot s r).1 (g.visitRoot s r).2 [] ∧
        (∀ id ∈ s.1, id ∈ (g.visitRoot s r).1) ∧ (g.contains r → r ∈ (g.visitRoot s r).1) := by
      rw [visitRoot]
      split
      next hr =>
        refine ⟨(h.enterRoot (hroots r List.mem_cons_self) hr.2).visit, fun id hid => ?_,
          fun _ => mem_visit_of_mem_visited List.mem_cons_self⟩
        exact mem_visit_of_mem_visited (List.mem_cons_of_mem r hid)
      next hr =>
        refine ⟨h, fun id hid => hid, fun hlive => ?_⟩
        by_contra hv
        exact hr ⟨hlive, hv⟩
    obtain ⟨hsearch, hold, hroot⟩ := hstep
    obtain ⟨hend, hfound⟩ := ih hrest hsearch
    refine ⟨hend, fun id hid => hfound id ?_⟩
    rcases hid with hid | ⟨hid, hlive⟩
    · exact Or.inl (hold id hid)
    · rcases List.mem_cons.1 hid with rfl | hid
      · exact Or.inl (hroot hlive)
      · exact Or.inr ⟨hid, hlive⟩

/-! ### What is listed -/

/-- The list that the search leaves, the last node first. -/
theorem exists_searching_order (g : Graph) :
    ∃ visited, g.Searching visited g.order.reverse [] ∧
      ∀ id ∈ g.parameters ++ g.results, g.contains id → id ∈ visited := by
  have hroots : ∀ r ∈ g.parameters ++ g.results, g.Reachable r := fun r hr =>
    reachable_iff.2 ⟨r, hr, .refl⟩
  obtain ⟨h, hfound⟩ := searching_foldl_visitRoot hroots (s := ([], [])) Searching.start
  refine ⟨_, ?_, fun id hid hlive => hfound id (Or.inr ⟨hid, hlive⟩)⟩
  rw [order, List.reverse_reverse]
  exact h

/-- **The order lists nothing but what the boundary hangs on.** -/
theorem reachable_of_mem_order {id : NodeId} (h : id ∈ g.order) : g.Reachable id := by
  obtain ⟨visited, hs, -⟩ := g.exists_searching_order
  exact hs.reachable (hs.mem_visited.2 (Or.inl (List.mem_reverse.2 h)))

/-- The order lists no node twice. -/
theorem order_nodup (g : Graph) : g.order.Nodup := by
  obtain ⟨visited, hs, -⟩ := g.exists_searching_order
  exact List.nodup_reverse.1 (by simpa using hs.nodup)

/-- **The order lists all that the boundary hangs on.** -/
theorem mem_order_iff (h : g.WellFormed) {id : NodeId} : id ∈ g.order ↔ g.Reachable id := by
  refine ⟨reachable_of_mem_order, fun hid => ?_⟩
  obtain ⟨visited, hs, hroots⟩ := g.exists_searching_order
  have hlisted : ∀ {j}, j ∈ visited → j ∈ g.order := fun hj =>
    List.mem_reverse.1 ((hs.mem_visited.1 hj).resolve_right (by simp))
  induction hid with
  | parameter hp =>
    exact hlisted (hroots _ (List.mem_append_left _ hp) (h.contains_of_mem_parameters hp))
  | result hr => exact hlisted (hroots _ (List.mem_append_right _ hr) (h.contains_of_mem_results hr))
  | producer _ hp ih =>
    exact hlisted (hs.listed (List.mem_reverse.2 ih) hp (h.contains_of_produces hp))

/-- A list with the producers behind is closed under producers. -/
theorem mem_of_producersBehind (hwf : g.WellFormed) {ids : List NodeId} (h : g.ProducersBehind ids)
    {p id : NodeId} (hid : id ∈ ids) (hp : g.Produces p id) : p ∈ ids := by
  induction ids with
  | nil => cases hid
  | cons j ids ih =>
    rcases List.mem_cons.1 hid with rfl | hid
    · exact List.mem_cons_of_mem _ (h.1 p hp (hwf.contains_of_produces hp))
    · exact List.mem_cons_of_mem _ (ih h.2 hid)

theorem ProducersBehind.of_append {ids ids' : List NodeId} (h : g.ProducersBehind (ids ++ ids')) :
    g.ProducersBehind ids' := by
  induction ids with
  | nil => exact h
  | cons j ids ih => exact ih h.2

/-- In a list with the producers behind, they come first from the other end. -/
theorem idxOf_lt_of_producersBehind {ids : List NodeId} (h : g.ProducersBehind ids)
    (hnodup : ids.Nodup) {p id : NodeId} (hid : id ∈ ids) (hp : g.Produces p id)
    (hlive : g.contains p) : ids.reverse.idxOf p < ids.reverse.idxOf id := by
  induction ids with
  | nil => simp at hid
  | cons x ids ih =>
    obtain ⟨hx, hnodup⟩ := List.nodup_cons.1 hnodup
    rw [List.reverse_cons]
    rcases List.mem_cons.1 hid with rfl | hid
    · have hmem : p ∈ ids.reverse := List.mem_reverse.2 (h.1 p hp hlive)
      rw [List.idxOf_append_of_mem hmem, List.idxOf_append_of_notMem (by simpa using hx)]
      exact Nat.lt_add_right _ (List.idxOf_lt_length_of_mem hmem)
    · have hlt := ih h.2 hnodup hid
      have hmem : p ∈ ids.reverse := List.idxOf_lt_length_iff.1
        (Nat.lt_of_lt_of_le hlt (List.idxOf_le_length ..))
      rwa [List.idxOf_append_of_mem hmem, List.idxOf_append_of_mem (List.mem_reverse.2 hid)]

theorem producersBehind_order (hacyclic : g.ReachablyAcyclic) :
    g.ProducersBehind g.order.reverse := by
  obtain ⟨visited, hs, -⟩ := g.exists_searching_order
  exact hs.behind hacyclic

/-- **Where the boundary hangs on no cycle, producers come first in the order.** -/
theorem idxOf_order_lt (hacyclic : g.ReachablyAcyclic) {p id : NodeId} (hid : id ∈ g.order)
    (hp : g.Produces p id) (hlive : g.contains p) : g.order.idxOf p < g.order.idxOf id := by
  have hnodup : g.order.reverse.Nodup := List.nodup_reverse.2 g.order_nodup
  have hlt := idxOf_lt_of_producersBehind (producersBehind_order hacyclic) hnodup
    (List.mem_reverse.2 hid) hp hlive
  rwa [List.reverse_reverse] at hlt

/-! ### What the order depends on -/

theorem sourcesOf_eq_view (g : Graph) (id : NodeId) :
    g.sourcesOf id = ((g.view? id).elim [] fun w => w.inputs.map (·.node)) := by
  rw [sourcesOf, view?]
  cases g.node? id <;> rfl

section Congr

variable {g' : Graph}

theorem visit_congr
    (hsame : ∀ {id}, g.Reachable id →
      g'.contains id = g.contains id ∧ g'.sourcesOf id = g.sourcesOf id)
    {visited order : List NodeId} {stack : List (NodeId × List NodeId)}
    (hstack : ∀ e ∈ stack, ∀ p ∈ e.2, g.Reachable p) :
    g'.visit visited order stack = g.visit visited order stack := by
  fun_induction Graph.visit g visited order stack with
  | case1 visited order => rw [visit]
  | case2 visited order id stack ih =>
    rw [visit]
    exact ih fun e he => hstack e (List.mem_cons_of_mem _ he)
  | case3 visited order id p ps stack hp ih =>
    obtain ⟨hps, hstack⟩ := List.forall_mem_cons.1 hstack
    obtain ⟨hreach, hps⟩ := List.forall_mem_cons.1 hps
    obtain ⟨hlive, hsources⟩ := hsame hreach
    rw [visit, hlive, if_pos hp, hsources]
    refine ih (List.forall_mem_cons.2 ⟨fun q hq => hreach.producer hq, ?_⟩)
    exact List.forall_mem_cons.2 ⟨hps, hstack⟩
  | case4 visited order id p ps stack hp ih =>
    obtain ⟨hps, hstack⟩ := List.forall_mem_cons.1 hstack
    obtain ⟨hreach, hps⟩ := List.forall_mem_cons.1 hps
    rw [visit, (hsame hreach).1, if_neg hp]
    exact ih (List.forall_mem_cons.2 ⟨hps, hstack⟩)

/-- **The order depends on the boundary and on the edges of what it hangs on.** -/
theorem order_congr_of_sources (hparameters : g'.parameters = g.parameters)
    (hresults : g'.results = g.results)
    (hsame : ∀ {id}, g.Reachable id →
      g'.contains id = g.contains id ∧ g'.sourcesOf id = g.sourcesOf id) : g'.order = g.order := by
  have hroots : ∀ r ∈ g.parameters ++ g.results, g.Reachable r := fun r hr =>
    reachable_iff.2 ⟨r, hr, .refl⟩
  rw [order, order, hparameters, hresults]
  refine congrArg (fun s => List.reverse (Prod.snd s)) ?_
  refine List.foldl_ext _ _ _ fun s r hr => ?_
  obtain ⟨hlive, hsources⟩ := hsame (hroots r hr)
  rw [visitRoot, visitRoot, hlive, hsources, visit_congr hsame]
  intro e he q hq
  rw [List.mem_singleton.1 he] at hq
  exact (hroots r hr).producer hq

theorem order_congr (hparameters : g'.parameters = g.parameters) (hresults : g'.results = g.results)
    (hview : ∀ {id}, g.Reachable id → g'.view? id = g.view? id) : g'.order = g.order :=
  order_congr_of_sources hparameters hresults fun hid => by
    rw [contains_eq_view, contains_eq_view, sourcesOf_eq_view, sourcesOf_eq_view, hview hid]
    exact ⟨rfl, rfl⟩

end Congr

end OpGraph.Graph
