import OpGraph.Graph.Release
import OpGraph.Proofs.Graph.Reachable
import OpGraph.Proofs.Graph.Single
import OpGraph.Proofs.Pattern.Binding

/-!
# The nodes of a match

A match lists the nodes that it has visited.  The list is kept apart from the bindings: a wildcard and an
operation are listed when they are bound, a node with alternatives is bound without a visit, and a pattern node
that is met again is neither bound nor listed.  What every binding step keeps is kept by the whole search
(`PatternTable.keeps_of_extend`), and so the list has no repetitions and only ever grows at its end.

The visited nodes are in the input cone of the root, for a pattern node asks for nothing but what the value that
it is bound to is made from (`PatternTable.cone_of_asks`).  A release that starts from them changes a node only
in the cones of what has been visited (`Graph.cone_of_release`).
-/

namespace OpGraph

open Relation

/-! ### The list -/

namespace Bindings

variable {b : Bindings} {i : Nat} {v : Output}

theorem visited_record (b : Bindings) (i : Nat) (v : Output) : (b.record i v).visited = b.visited := rfl

theorem prefix_visited_bind (b : Bindings) (i : Nat) (v : Output) :
    b.visited <+: (b.bind i v).visited := by
  show b.visited <+: if v.node ∈ b.visited then b.visited else b.visited ++ [v.node]
  split
  next => exact List.prefix_refl _
  next => exact List.prefix_append _ _

theorem nodup_visited_bind (h : b.visited.Nodup) : (b.bind i v).visited.Nodup := by
  show (if v.node ∈ b.visited then b.visited else b.visited ++ [v.node]).Nodup
  split
  next => exact h
  next hv => exact List.nodup_append.2 ⟨h, by simp, fun x hx y hy => by
      rintro rfl
      exact hv (List.mem_singleton.1 hy ▸ hx)⟩

end Bindings

namespace PatternTable

variable {g : Graph} {t : PatternTable} {i : Nat} {hi : i < t.size} {v : Output} {b b' : Bindings}

theorem nodup_visited_of_extend (h : t.extend g i hi v b = some b') (hb : b.visited.Nodup) :
    b'.visited.Nodup :=
  keeps_of_extend (P := fun b => b.visited.Nodup) (fun hb _ => Bindings.nodup_visited_bind hb)
    (fun hb _ _ => hb) h hb

theorem prefix_visited_of_extend {ids : List NodeId} (h : t.extend g i hi v b = some b')
    (hb : ids <+: b.visited) : ids <+: b'.visited :=
  keeps_of_extend (P := fun b => ids <+: b.visited)
    (fun hb _ => hb.trans (Bindings.prefix_visited_bind ..)) (fun hb _ _ => hb) h hb

/-- The search begins at the node of the value, also behind alternatives. -/
theorem head_visited_of_extend (h : t.extend g i hi v {} = some b') :
    [v.node] <+: b'.visited := by
  induction i using Nat.strongRecOn generalizing b' with
  | _ i ih =>
  rw [extend] at h
  obtain ⟨-, h⟩ := Option.ite_none_left_eq_some.1 h
  split at h
  next =>
    obtain ⟨-, h⟩ := Option.ite_none_right_eq_some.1 h
    exact Option.some.inj h ▸ List.prefix_refl _
  next =>
    obtain ⟨-, h⟩ := Option.ite_none_left_eq_some.1 h
    rcases ite_eq_iff.1 h with ⟨-, h⟩ | ⟨-, h⟩
    · exact Option.some.inj h ▸ List.prefix_refl _
    · obtain ⟨n, -, h⟩ := Option.bind_eq_some_iff.1 h
      obtain ⟨-, h⟩ := Option.ite_none_left_eq_some.1 h
      exact keeps_foldlM (P := fun b => [v.node] <+: b.visited)
        (fun he => prefix_visited_of_extend he) h (List.prefix_refl _)
  next alternatives _ =>
    obtain ⟨j, -, h⟩ := Option.bind_eq_some_iff.1 h
    obtain ⟨b₁, h₁, h⟩ := Option.bind_eq_some_iff.1 h
    obtain rfl := Option.some.inj h
    rw [Bindings.visited_record]
    exact ih j.val j.isLt h₁

/-! ### The cone -/

/-- Step by step, a pattern asks for what a value is made from. -/
theorem cone_of_asks {x y : Fin t.size × Output} (h : ReflTransGen (t.Asks g) x y) :
    ReflTransGen g.Produces y.2.node x.2.node := by
  induction h with
  | refl => exact .refl
  | tail _ hask ih =>
    cases hask with
    | input hn hw hj hu =>
      exact .head (Graph.produces_of_view? hw (List.mem_of_getElem? hu)) ih
    | alternative => exact ih

end PatternTable

namespace Graph

variable {g : Graph} {id j : NodeId}

/-- A node that is taken out is struck from what it reads, and nothing else changes. -/
theorem node?_detach_of_ne (hj : j ≠ id) (hprod : ¬ g.Produces j id) :
    (g.detach id).node? j = g.node? j := by
  cases hn : g.node? id with
  | none => rw [detach_of_gone hn]
  | some n =>
    have hinputs : ∀ e ∈ n.inputs.zipIdx, e.1.node ≠ j := by
      intro e he heq
      refine hprod (produces_iff_view.2 ⟨n.view, view?_eq_some.2 ⟨n, hn, rfl⟩, e.1, ?_, heq⟩)
      exact List.fst_mem_of_mem_zipIdx he
    have hdropped : (g.detach id).node? j = (g.vacate id).node? j := by
      rw [detach_eq hn]
      refine List.foldlRecOn _ _ (motive := fun g' : Graph => g'.node? j = (g.vacate id).node? j) rfl ?_
      intro g' hg' e he
      exact ((node?_modifyNode ..).trans (if_neg (hinputs e he))).trans hg'
    rw [hdropped, node?_vacate, if_neg hj]

theorem produces_of_detach {c : NodeId} (h : (g.detach id).Produces j c) : g.Produces j c := by
  obtain ⟨w, hw, hj⟩ := produces_iff_view.1 h
  rw [view?_detach] at hw
  exact produces_iff_view.2 ⟨w, (Option.ite_none_left_eq_some.1 hw).2, hj⟩

/-- What changes is behind the stack: a producer that comes on top of it is behind the node that is gone. -/
theorem cone_of_releaseStack {stack : List NodeId} (h : (g.releaseStack stack).node? j ≠ g.node? j) :
    ∃ id ∈ stack, ReflTransGen g.Produces j id := by
  fun_induction releaseStack g stack with
  | case1 => exact absurd rfl h
  | case2 g id stack hid ih =>
    by_cases hstep : (g.detach id).node? j = g.node? j
    · obtain ⟨k, hk, hpath⟩ := ih (hstep ▸ h)
      have hpath := ReflTransGen.mono (fun _ _ => produces_of_detach) _ _ hpath
      rcases List.mem_append.1 hk with hk | hk
      · exact ⟨id, List.mem_cons_self, hpath.tail (List.mem_eraseDups.1 (List.mem_reverse.1 hk))⟩
      · exact ⟨k, List.mem_cons_of_mem id hk, hpath⟩
    · refine ⟨id, List.mem_cons_self, ?_⟩
      by_cases hj : j = id
      · exact hj ▸ .refl
      · exact .single (not_not.1 fun hprod => hstep (node?_detach_of_ne hj hprod))
  | case3 g id stack hid ih =>
    obtain ⟨k, hk, hpath⟩ := ih h
    exact ⟨k, List.mem_cons_of_mem id hk, hpath⟩

theorem cone_of_release {ids : List NodeId} (h : (g.release ids).node? j ≠ g.node? j) :
    ∃ id ∈ ids, ReflTransGen g.Produces j id := by
  obtain ⟨id, hid, hpath⟩ := cone_of_releaseStack h
  exact ⟨id, List.mem_reverse.1 hid, hpath⟩

end Graph

/-! ### The match -/

namespace Pattern

variable {p : Pattern} {g : Graph} {v : Output} {m : Match}

/-- The value of the root is made from everything that a match binds. -/
theorem cone_of_get? (h : p.matchValue? g v = some m) {i : Nat} {u : Output} (hu : m.get? i = some u) :
    ReflTransGen g.Produces u.node v.node := by
  have hi := lt_size_of_matchValue? h hu
  have hself := isBinding_of_matchValue? h
  have hreach : p.Reaches g v ⟨i, hi⟩ u :=
    (reachedPart_eq_some.1 (hself.restrict.of_matchValue? (i := ⟨i, hi⟩) h hu)).2
  exact PatternTable.cone_of_asks hreach

/-- **The visited nodes are those of the bindings, and they are in the cone of the root.**  Each is listed once,
the root first.  A release that starts from them changes only nodes in the cones of nodes that are in the cone of
the root, whatever has been done to the graph since the match. -/
theorem visited_in_cone (h : p.matchValue? g v = some m) :
    m.visited.Nodup ∧ m.visited.head? = some v.node ∧
    (∀ id, id ∈ m.visited ↔ ∃ i u, m.get? i = some u ∧ u.node = id) ∧
    (∀ id ∈ m.visited, ReflTransGen g.Produces id v.node) ∧
    ∀ (g' : Graph) id, (g'.release m.visited).node? id ≠ g'.node? id →
      ∃ j ∈ m.visited, ReflTransGen g.Produces j v.node ∧ ReflTransGen g'.Produces id j := by
  have hcone : ∀ id ∈ m.visited, ReflTransGen g.Produces id v.node := by
    intro id hid
    obtain ⟨i, u, hu, rfl⟩ := (mem_visited_of_matchValue? h).1 hid
    exact cone_of_get? h hu
  refine ⟨?_, ?_, fun id => mem_visited_of_matchValue? h, hcone, fun g' id hid => ?_⟩
  · obtain ⟨b, hb, rfl⟩ := Option.map_eq_some_iff.1 h
    exact PatternTable.nodup_visited_of_extend hb List.nodup_nil
  · obtain ⟨b, hb, rfl⟩ := Option.map_eq_some_iff.1 h
    obtain ⟨rest, hrest⟩ := PatternTable.head_visited_of_extend hb
    rw [Match.visited, ← hrest]
    rfl
  · obtain ⟨j, hj, hpath⟩ := Graph.cone_of_release hid
    exact ⟨j, hj, hcone j hj, hpath⟩

/-- A rectified value or, where there is none, any value. -/
def rectified : Pattern where
  table :=
    { size := 3
      node := fun
        | 0 => .any .always
        | 1 => .kinds [.relu] [⟨0, by decide⟩] .always
        | 2 => .either [⟨1, by decide⟩, ⟨0, by decide⟩] }
  root := ⟨2, by decide⟩

/-- Three nodes of the pattern are bound to the values of two nodes. -/
theorem visited_in_cone_rectified :
    ∃ m, rectified.matchValue? (Graph.single (.unary .relu) ⟨.f64, .ofShape [2]⟩ ⟨.f64, .ofShape [2]⟩)
        ⟨1, 0⟩ = some m ∧
      (m.get? 0, m.get? 1, m.get? 2) = (some ⟨0, 0⟩, some ⟨1, 0⟩, some ⟨1, 0⟩) ∧
      m.visited.Nodup ∧ m.visited.head? = some 1 ∧ 0 ∈ m.visited ∧
      ReflTransGen (Graph.single (.unary .relu) ⟨.f64, .ofShape [2]⟩ ⟨.f64, .ofShape [2]⟩).Produces
        0 1 := by
  have hm : rectified.matchValue? (Graph.single (.unary .relu) ⟨.f64, .ofShape [2]⟩ ⟨.f64, .ofShape [2]⟩)
      ⟨1, 0⟩ = some ⟨⟨1, 0⟩, ⟨[(2, ⟨1, 0⟩), (0, ⟨0, 0⟩), (1, ⟨1, 0⟩)], [1, 0]⟩⟩ := by
    decide +kernel
  obtain ⟨hnodup, hhead, hmem, hcone, -⟩ := visited_in_cone hm
  have hinput := (hmem 0).2 ⟨0, ⟨0, 0⟩, rfl, rfl⟩
  exact ⟨_, hm, rfl, hnodup, hhead, hinput, hcone 0 hinput⟩

end Pattern

end OpGraph
