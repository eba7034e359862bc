import OpGraph.Graph.Basic

/-!
# Reachability and order

`Graph.reachableFrom` collects the nodes that some roots hang on, going from each node to the
producers of its inputs.  `Graph.order` lists what the boundary hangs on with producers first, by a
depth-first search from the parameters and then the results.

Both searches end because every node is visited at most once: `Graph.ahead` counts the nodes that have not
been visited and the edges into them.  When a new node is entered, it drops by more than the edges that are
added to the pending ones.
-/

namespace OpGraph.Graph

/-- A live node and the edges into it. -/
def weight (g : Graph) (id : NodeId) : Nat :=
  match g.node? id with
  | some n => n.sources.length + 1
  | none => 0

/-- The sum of a function over nodes. -/
def sumOver (f : NodeId → Nat) : List NodeId → Nat
  | [] => 0
  | id :: ids => f id + sumOver f ids

/-- The weight of the nodes that have not been visited. -/
def ahead (g : Graph) (visited : List NodeId) : Nat :=
  sumOver (fun id => if id ∈ visited then 0 else g.weight id) (List.range g.nodes.size)

theorem sumOver_le {f h : NodeId → Nat} (hle : ∀ y, f y ≤ h y) (ids : List NodeId) :
    sumOver f ids ≤ sumOver h ids := by
  induction ids with
  | nil => exact Nat.le_refl _
  | cons y ys ih => exact Nat.add_le_add (hle y) ih

theorem sumOver_add_le {f h : NodeId → Nat} {x : NodeId} {k : Nat} {ids : List NodeId}
    (hle : ∀ y, f y ≤ h y) (hx : x ∈ ids) (hk : f x + k ≤ h x) :
    sumOver f ids + k ≤ sumOver h ids := by
  induction ids with
  | nil => cases hx
  | cons y ys ih =>
    rw [sumOver, sumOver]
    rcases List.mem_cons.1 hx with rfl | hx
    · have := sumOver_le hle ys
      omega
    · have := ih hx
      have := hle y
      omega

theorem sumOver_congr {f h : NodeId → Nat} {ids : List NodeId} (hfh : ∀ y ∈ ids, f y = h y) :
    sumOver f ids = sumOver h ids := by
  induction ids with
  | nil => rfl
  | cons y ys ih =>
    rw [sumOver, sumOver, hfh y List.mem_cons_self, ih fun z hz => hfh z (List.mem_cons_of_mem y hz)]

/-- A node that is visited takes its weight with it. -/
theorem ahead_cons_add_le {g : Graph} {visited : List NodeId} {id : NodeId}
    (h : g.contains id ∧ id ∉ visited) :
    g.ahead (id :: visited) + ((g.sourcesOf id).length + 1) ≤ g.ahead visited := by
  have hlt : id < g.nodes.size := by
    have := contains_iff_mem_ids.1 h.1
    simp only [ids, List.mem_filter, List.mem_range] at this
    exact this.1
  refine sumOver_add_le (fun y => ?_) (List.mem_range.2 hlt) ?_
  · by_cases hy : y ∈ visited
    · simp [hy]
    · rw [if_neg hy]
      split
      · exact Nat.zero_le _
      · exact Nat.le_refl _
  · have hcontains := h.1
    rw [contains] at hcontains
    rw [if_pos List.mem_cons_self, if_neg h.2, weight, sourcesOf]
    cases hn : g.node? id with
    | none => simp [hn] at hcontains
    | some n => exact Nat.le_of_eq (Nat.zero_add _)

/-- The visited nodes after a search from the pending ones. -/
def reach (g : Graph) (visited : List NodeId) : List NodeId → List NodeId
  | [] => visited
  | id :: pending =>
    if g.contains id ∧ id ∉ visited then g.reach (id :: visited) (g.sourcesOf id ++ pending)
    else g.reach visited pending
termination_by pending => g.ahead visited + pending.length
decreasing_by
  · have := ahead_cons_add_le ‹_›
    simp only [List.length_append, List.length_cons]
    omega
  · exact Nat.lt_succ_self _

/-- The live roots and everything they hang on, each node once. -/
def reachableFrom (g : Graph) (roots : List NodeId) : List NodeId := g.reach [] roots

/-- The work left on a stack of nodes, each with the producers that have not been looked at. -/
def stackSize : List (NodeId × List NodeId) → Nat
  | [] => 0
  | (_, producers) :: stack => producers.length + 1 + stackSize stack

/-- One depth-first search.  A node is marked when it is put on the stack, and it is listed, in front
of those listed before, when all its producers have been looked at. -/
def visit (g : Graph) (visited order : List NodeId) :
    List (NodeId × List NodeId) → List NodeId × List NodeId
  | [] => (visited, order)
  | (id, []) :: stack => g.visit visited (id :: order) stack
  | (id, p :: ps) :: stack =>
    if g.contains p ∧ p ∉ visited then
      g.visit (p :: visited) order ((p, g.sourcesOf p) :: (id, ps) :: stack)
    else g.visit visited order ((id, ps) :: stack)
termination_by stack => g.ahead visited + stackSize stack
decreasing_by
  · simp [stackSize]
  · have := ahead_cons_add_le ‹_›
    simp only [stackSize, List.length_cons]
    omega
  · simp [stackSize]

/-- The search from one more root, unless it is gone or has been visited. -/
def visitRoot (g : Graph) (s : List NodeId × List NodeId) (root : NodeId) :
    List NodeId × List NodeId :=
  if g.contains root ∧ root ∉ s.1 then g.visit (root :: s.1) s.2 [(root, g.sourcesOf root)] else s

/-- The nodes that the boundary hangs on, producers first. -/
def order (g : Graph) : List NodeId :=
  ((g.parameters ++ g.results).foldl g.visitRoot ([], [])).2.reverse

end OpGraph.Graph
