import OpGraph.Graph.Edit
import OpGraph.Graph.Reach

/-!
# Release

Nodes are not deleted one by one.  `Graph.release` starts from some nodes and releases those that
nothing reads and that are not on the boundary, and then looks at their producers in turn.
`Graph.collectGarbage` releases at once whatever the boundary does not hang on.
-/

namespace OpGraph

namespace Graph

/-- Takes a node out of the arena and strikes its inputs from the targets of what they read.  The
nodes that read it are left as they are. -/
def detach (g : Graph) (id : NodeId) : Graph :=
  match g.node? id with
  | none => g
  | some n =>
    n.inputs.zipIdx.foldl (fun g (v, i) => g.dropTarget v ⟨id, i⟩)
      { g with nodes := g.nodes.setIfInBounds id none, released := g.released + 1 }

theorem ids_foldl_dropTarget (id : NodeId) (l : List (Output × Nat)) (g : Graph) :
    (l.foldl (fun g (v, i) => g.dropTarget v ⟨id, i⟩) g).ids = g.ids := by
  induction l generalizing g with
  | nil => rfl
  | cons e l ih =>
    rw [List.foldl_cons, ih]
    exact ids_dropTarget ..

theorem ids_detach (g : Graph) (id : NodeId) : (g.detach id).ids = g.ids.filter (· ≠ id) := by
  unfold detach
  split
  · rename_i h
    symm
    rw [List.filter_eq_self]
    intro j hj
    have hc := contains_iff_mem_ids.2 hj
    simp only [ne_eq, decide_not, Bool.not_eq_eq_eq_not, Bool.not_true, decide_eq_false_iff_not]
    rintro rfl
    simp [contains, h] at hc
  · rw [ids_foldl_dropTarget]
    simp only [ids, Array.size_setIfInBounds, List.filter_filter]
    apply List.filter_congr
    intro j _
    simp only [contains, node?, Array.getElem?_setIfInBounds]
    by_cases h : j = id
    · subst h
      by_cases hlt : j < g.nodes.size <;> simp [hlt]
    · simp [h, Ne.symm h]

theorem ahead_dropTarget (g : Graph) (v : Output) (i : Input) (visited : List NodeId) :
    (g.dropTarget v i).ahead visited = g.ahead visited := by
  have hweight (j : NodeId) : (g.dropTarget v i).weight j = g.weight j := by
    rw [weight, weight, dropTarget, modifySlot, node?_modifyNode]
    by_cases hj : v.node = j
    · rw [if_pos hj]
      cases g.node? j <;> rfl
    · rw [if_neg hj]
  rw [ahead, ahead, funext hweight, dropTarget, modifySlot, size_nodes_modifyNode]

theorem ahead_foldl_dropTarget (id : NodeId) (visited : List NodeId) (l : List (Output × Nat))
    (g : Graph) : (l.foldl (fun g (v, i) => g.dropTarget v ⟨id, i⟩) g).ahead visited =
      g.ahead visited := by
  induction l generalizing g with
  | nil => rfl
  | cons e l ih =>
    rw [List.foldl_cons, ih]
    exact ahead_dropTarget ..

/-- A node that is taken out counts as visited. -/
theorem ahead_detach {g : Graph} {id : NodeId} (h : g.contains id) :
    (g.detach id).ahead [] = g.ahead [id] := by
  unfold detach
  split
  · rename_i hn
    simp [contains, hn] at h
  · rw [ahead_foldl_dropTarget, ahead, ahead, Array.size_setIfInBounds]
    refine sumOver_congr fun j hj => ?_
    have hlt : j < g.nodes.size := List.mem_range.1 hj
    rw [if_neg List.not_mem_nil]
    by_cases hj : j = id
    · subst hj
      rw [if_pos List.mem_cons_self, weight, node?, Array.getElem?_setIfInBounds]
      simp [hlt]
    · rw [if_neg (mt List.mem_singleton.1 hj), weight, weight, node?, node?,
        Array.getElem?_setIfInBounds, if_neg (Ne.symm hj)]

theorem length_eraseDups_le (l : List NodeId) : l.eraseDups.length ≤ l.length := by
  match l with
  | [] => exact Nat.le_refl 0
  | id :: l =>
    rw [List.eraseDups_cons]
    exact Nat.succ_le_succ (Nat.le_trans (length_eraseDups_le _) (List.length_filter_le ..))
termination_by l.length
decreasing_by exact Nat.lt_succ_of_le (List.length_filter_le ..)

/-- The node can be released: it is live, nothing reads it, and it is not on the boundary. -/
def isReleasable (g : Graph) (id : NodeId) : Bool :=
  (g.node? id).any (·.isUnused) && !g.isParameter id && !g.isResult id

theorem contains_of_isReleasable {g : Graph} {id : NodeId} (h : g.isReleasable id) :
    g.contains id := by
  simp only [isReleasable, Bool.and_eq_true] at h
  have := h.1.1
  unfold contains
  cases hn : g.node? id <;> simp_all

/-- Releases from a stack of nodes.  The producers of a released node go on top of the stack, those
of its last input first. -/
def releaseStack (g : Graph) : List NodeId → Graph
  | [] => g
  | id :: stack =>
    if g.isReleasable id then
      releaseStack (g.detach id) ((g.sourcesOf id).eraseDups.reverse ++ stack)
    else g.releaseStack stack
termination_by stack => g.ahead [] + stack.length
decreasing_by
  · have h := contains_of_isReleasable ‹_›
    have hahead := ahead_cons_add_le ⟨h, List.not_mem_nil⟩
    have hlength := length_eraseDups_le (g.sourcesOf id)
    rw [ahead_detach h]
    simp only [List.length_append, List.length_reverse, List.length_cons]
    omega
  · exact Nat.lt_succ_self _

/-- Releases the listed nodes that nothing reads and that are not on the boundary, and then their
producers in turn; the last node of the list is looked at first. -/
def release (g : Graph) (ids : List NodeId) : Graph := g.releaseStack ids.reverse

/-- The live nodes that the boundary does not hang on. -/
def garbage (g : Graph) : List NodeId :=
  let live := g.reachableFrom (g.results ++ g.parameters)
  g.ids.filter (· ∉ live)

/-- Releases every node that the boundary does not hang on. -/
def collectGarbage (g : Graph) : Graph := g.garbage.foldl detach g

end Graph

namespace Edit

/-- Releases the listed nodes as far as nothing reads them, and returns how many nodes went. -/
def release (ids : List NodeId) : Edit Nat :=
  modifyGet fun g =>
    let g' := g.release ids
    (g'.released - g.released, g')

/-- Releases what the boundary does not hang on, and returns how many nodes went. -/
def collectGarbage : Edit Nat :=
  modifyGet fun g => (g.garbage.length, g.collectGarbage)

/-- Takes a node off the declared results and releases it if nothing reads it. -/
def removeResult (id : NodeId) : Edit Unit := do
  unless (← get).isResult id do
    throw (.structuralViolation s!"{NodeId.text id} is not a result of the function")
  modify fun g => { g with results := g.results.erase id }
  let _ ← release [id]

end Edit

end OpGraph
