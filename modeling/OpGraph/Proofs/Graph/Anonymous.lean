import OpGraph.Graph.Bypass
import OpGraph.Graph.Infer
import OpGraph.Proofs.Edit.Coupling
import OpGraph.Proofs.Graph.Erasure
import OpGraph.Proofs.Graph.WellFormed

/-!
# Graphs without names

Two graphs are alike when they are equal once the name of the graph and the names and the metadata of all
nodes are erased.  What a graph computes and who reads it can be read off the erased graph
(`view?_anonymous`, `op?_anonymous`, `order_anonymous`), so alike graphs have it in common
(`Alike.congr`).  Moving, adding and releasing nodes commutes with the erasure (`anonymous_rewire`,
`anonymous_insert`, `anonymous_releaseStack`, `anonymous_collectGarbage`), so alike graphs stay alike
(`Alike.map`).
-/

namespace OpGraph

/-- The node without its name and its metadata. -/
def Node.anonymous (n : Node) : Node := { n with givenName := none, metadata := ∅ }

namespace Node

variable {n n' : Node} (h : n.anonymous = n'.anonymous)

include h

theorem id_eq_of_anonymous : n.id = n'.id := by
  show n.anonymous.id = n'.anonymous.id
  rw [h]

theorem op_eq_of_anonymous : n.op = n'.op := by
  show n.anonymous.op = n'.anonymous.op
  rw [h]

theorem inputs_eq_of_anonymous : n.inputs = n'.inputs := by
  show n.anonymous.inputs = n'.anonymous.inputs
  rw [h]

theorem outputs_eq_of_anonymous : n.outputs = n'.outputs := by
  show n.anonymous.outputs = n'.anonymous.outputs
  rw [h]

end Node

namespace Graph

/-- The graph without its name and without the names and the metadata of its nodes. -/
def anonymous (g : Graph) : Graph := { g.mapNodes Node.anonymous with name := "" }

/-- The graphs are equal except for names and metadata. -/
def Alike (g g' : Graph) : Prop := g.anonymous = g'.anonymous

variable {g g' : Graph}

/-- What can be read off the erased graph is the same in alike graphs. -/
theorem Alike.congr {α : Type} (h : g.Alike g') (f : Graph → α)
    (hf : ∀ g : Graph, f g.anonymous = f g) : f g = f g' := by
  rw [← hf g, ← hf g', show g.anonymous = g'.anonymous from h]

/-- A change that commutes with the erasure keeps graphs alike. -/
theorem Alike.map (h : g.Alike g') (f : Graph → Graph)
    (hf : ∀ g : Graph, (f g).anonymous = f g.anonymous) : (f g).Alike (f g') := by
  rw [Alike, hf g, hf g', show g.anonymous = g'.anonymous from h]

/-! ### What does not depend on names -/

theorem size_anonymous (g : Graph) : g.anonymous.nodes.size = g.nodes.size :=
  size_mapNodes g Node.anonymous

theorem node?_anonymous (g : Graph) (id : NodeId) :
    g.anonymous.node? id = (g.node? id).map Node.anonymous :=
  node?_mapNodes g Node.anonymous id

theorem view?_anonymous (g : Graph) (id : NodeId) : g.anonymous.view? id = g.view? id := by
  rw [view?, view?, node?_anonymous]
  cases g.node? id <;> rfl

theorem contains_anonymous (g : Graph) (id : NodeId) : g.anonymous.contains id = g.contains id := by
  rw [contains_eq_view, contains_eq_view, view?_anonymous]

theorem op?_anonymous (g : Graph) (id : NodeId) : g.anonymous.op? id = g.op? id := by
  rw [op?_eq_view, op?_eq_view, view?_anonymous]

theorem isKind_anonymous (g : Graph) (id : NodeId) (kind : Kind) :
    g.anonymous.isKind id kind = g.isKind id kind := by
  rw [isKind, isKind, op?_anonymous]

theorem constantValue?_anonymous (g : Graph) (v : Output) :
    g.anonymous.constantValue? v = g.constantValue? v := by
  rw [constantValue?, constantValue?, op?_anonymous]

theorem hasOutput_anonymous (g : Graph) (v : Output) : g.anonymous.hasOutput v = g.hasOutput v := by
  rw [hasOutput, hasOutput, node?_anonymous]
  cases g.node? v.node <;> rfl

theorem sourcesOf_anonymous (g : Graph) (id : NodeId) :
    g.anonymous.sourcesOf id = g.sourcesOf id := by
  rw [sourcesOf_eq_view, sourcesOf_eq_view, view?_anonymous]

theorem ids_anonymous (g : Graph) : g.anonymous.ids = g.ids := by
  rw [ids, ids, size_anonymous]
  congr 1
  funext id
  exact contains_anonymous g id

theorem order_anonymous (g : Graph) : g.anonymous.order = g.order :=
  order_congr rfl rfl fun {id} _ => view?_anonymous g id

theorem isReleasable_anonymous (g : Graph) (id : NodeId) :
    g.anonymous.isReleasable id = g.isReleasable id := by
  show ((g.anonymous.node? id).any (·.isUnused) && !g.isParameter id && !g.isResult id) = _
  rw [node?_anonymous, isReleasable]
  cases g.node? id <;> rfl

theorem reach_anonymous (g : Graph) (visited pending : List NodeId) :
    g.anonymous.reach visited pending = g.reach visited pending := by
  fun_induction reach g visited pending with
  | case1 visited => rw [reach]
  | case2 visited id pending hid ih =>
    rw [reach, contains_anonymous, if_pos hid, sourcesOf_anonymous, ih]
  | case3 visited id pending hid ih => rw [reach, contains_anonymous, if_neg hid, ih]

theorem garbage_anonymous (g : Graph) : g.anonymous.garbage = g.garbage := by
  rw [garbage, garbage, ids_anonymous, reachableFrom, reach_anonymous]
  rfl

/-! ### Changes that leave names alone -/

/-- What changes nothing but names and metadata. -/
theorem anonymous_modifyNode_eq (g : Graph) (id : NodeId) {k : Node → Node}
    (h : ∀ n, (k n).anonymous = n.anonymous) : (g.modifyNode id k).anonymous = g.anonymous := by
  rw [anonymous, mapNodes_modifyNode_eq fun n _ => h n]
  rfl

theorem anonymous_modifyNode (g : Graph) (id : NodeId) {k : Node → Node}
    (h : ∀ n, (k n).anonymous = k n.anonymous) :
    (g.modifyNode id k).anonymous = g.anonymous.modifyNode id k := by
  rw [anonymous, mapNodes_modifyNode g id h]
  rfl

theorem anonymous_addTarget (g : Graph) (v : Output) (i : Input) :
    (g.addTarget v i).anonymous = g.anonymous.addTarget v i :=
  anonymous_modifyNode g v.node fun _ => rfl

theorem anonymous_dropTarget (g : Graph) (v : Output) (i : Input) :
    (g.dropTarget v i).anonymous = g.anonymous.dropTarget v i :=
  anonymous_modifyNode g v.node fun _ => rfl

theorem anonymous_rewire (g : Graph) (i : Input) (old new : Output) :
    (g.rewire i old new).anonymous = g.anonymous.rewire i old new := by
  have hset (g : Graph) : (g.modifyNode i.node fun n =>
      { n with inputs := n.inputs.set i.index new }).anonymous =
        g.anonymous.modifyNode i.node fun n => { n with inputs := n.inputs.set i.index new } :=
    anonymous_modifyNode g i.node fun _ => rfl
  rw [rewire, rewire, anonymous_addTarget, hset, anonymous_dropTarget]

theorem anonymous_foldl {γ : Type} {f : Graph → γ → Graph}
    (hf : ∀ g c, (f g c).anonymous = f g.anonymous c) (l : List γ) (g : Graph) :
    (l.foldl f g).anonymous = l.foldl f g.anonymous := by
  induction l generalizing g with
  | nil => rfl
  | cons c l ih => rw [List.foldl_cons, List.foldl_cons, ih, hf]

theorem anonymous_insert (g : Graph) (op : Op) (inputs : List Output) (descs : List Desc) :
    (g.insert op inputs descs).anonymous = g.anonymous.insert op inputs descs := by
  have hlinked := anonymous_foldl (fun h (e : Output × Nat) =>
    anonymous_addTarget h e.1 ⟨g.nodes.size, e.2⟩) inputs.zipIdx g
  rw [insert, insert, size_anonymous, ← hlinked]
  simp only [anonymous, mapNodes, Array.map_push]
  rfl

theorem anonymous_vacate (g : Graph) (id : NodeId) :
    (g.vacate id).anonymous = g.anonymous.vacate id := by
  rw [anonymous, vacate, mapNodes, Array.map_setIfInBounds]
  rfl

theorem anonymous_detach (g : Graph) (id : NodeId) :
    (g.detach id).anonymous = g.anonymous.detach id := by
  have hnode := node?_anonymous g id
  cases hn : g.node? id with
  | none =>
    rw [hn] at hnode
    rw [detach_of_gone hn, detach_of_gone hnode]
  | some n =>
    rw [hn] at hnode
    rw [detach_eq hn, detach_eq hnode, anonymous_foldl fun g e => anonymous_dropTarget g e.1 _,
      anonymous_vacate]
    rfl

theorem anonymous_releaseStack (g : Graph) (stack : List NodeId) :
    (g.releaseStack stack).anonymous = g.anonymous.releaseStack stack := by
  fun_induction releaseStack g stack with
  | case1 g => rw [releaseStack]
  | case2 g id stack hid ih =>
    have hid' := (isReleasable_anonymous g id).trans hid
    rw [releaseStack, if_pos hid', sourcesOf_anonymous, ← anonymous_detach]
    exact ih
  | case3 g id stack hid ih =>
    rw [releaseStack, isReleasable_anonymous, if_neg hid]
    exact ih

theorem anonymous_collectGarbage (g : Graph) :
    g.collectGarbage.anonymous = g.anonymous.collectGarbage := by
  rw [collectGarbage, collectGarbage, garbage_anonymous]
  exact anonymous_foldl anonymous_detach g.garbage g

end Graph

end OpGraph
