import OpGraph.Proofs.Graph.Single

/-!
# Topological order

The order of a well-formed graph lists what the boundary hangs on, each node once, whether there are
cycles or not.  It is topological as soon as the boundary hangs on no cycle; cycles elsewhere, which
moved inputs may leave behind, do not matter (`strayCycle`).
-/

namespace OpGraph.Graph

open Relation (ReflTransGen)

variable {g : Graph}

/-- **The order lists each node that a path leads from to the boundary once, and it lists producers
first unless such a node hangs on itself.** -/
theorem order_topological (h : g.WellFormed) :
    g.order.Nodup ∧
      (∀ id, id ∈ g.order ↔ id ∈ g.reachableFrom (g.parameters ++ g.results)) ∧
      (∀ id, id ∈ g.order ↔ ∃ r ∈ g.parameters ++ g.results, ReflTransGen g.Produces id r) ∧
      (g.ReachablyAcyclic → ∀ p id, id ∈ g.order → g.Produces p id →
        g.order.idxOf p < g.order.idxOf id) := by
  refine ⟨g.order_nodup, fun id => ?_, fun id => ?_, fun hacyclic p id hid hp => ?_⟩
  · exact (mem_order_iff h).trans (h.mem_reachableFrom_boundary fun _ => Iff.rfl).symm
  · exact (mem_order_iff h).trans reachable_iff
  · exact idxOf_order_lt hacyclic hid hp (h.contains_of_produces hp)

/-- A negation is a result, and two others that nothing hangs on read each other. -/
def strayCycle : Graph :=
  let d : Desc := ⟨.f32, .ofShape [2]⟩
  ((single (.unary .negative) d d).insert (.unary .negative) [⟨0, 0⟩] [d] |>.insert
    (.unary .negative) [⟨3, 0⟩] [d]).rewire ⟨3, 0⟩ ⟨0, 0⟩ ⟨4, 0⟩

theorem wellFormed_strayCycle : strayCycle.WellFormed := by
  refine wellFormed_rewire (wellFormed_insert_singleton ?_ ⟨_, rfl⟩) rfl (by decide) (by decide)
    ⟨_, rfl⟩
  exact wellFormed_insert_singleton (wellFormed_single _ _ _) ⟨_, rfl⟩

theorem order_strayCycle : strayCycle.order = [0, 1, 2] := by
  decide +kernel

theorem reachablyAcyclic_strayCycle : strayCycle.ReachablyAcyclic := by
  refine reachablyAcyclic_of_rank (fun id => id) fun p id hid hp => ?_
  rw [← mem_order_iff wellFormed_strayCycle, order_strayCycle] at hid
  obtain ⟨w, hw, v, hv, rfl⟩ := produces_iff_view.1 hp
  simp only [List.mem_cons, List.not_mem_nil, or_false] at hid
  rcases hid with rfl | rfl | rfl
  · obtain rfl := Option.some.inj hw
    cases hv
  · obtain rfl := Option.some.inj hw
    cases List.mem_singleton.1 hv
    exact Nat.one_pos
  · obtain rfl := Option.some.inj hw
    cases List.mem_singleton.1 hv
    exact Nat.one_lt_two

/-- The stray cycle is not listed, and the negation comes after what it reads. -/
theorem order_topological_strayCycle :
    strayCycle.Produces 3 4 ∧ strayCycle.Produces 4 3 ∧ strayCycle.order.Nodup ∧
      (∀ id, id ∈ strayCycle.order ↔
        id ∈ strayCycle.reachableFrom (strayCycle.parameters ++ strayCycle.results)) ∧
      strayCycle.order.idxOf 0 < strayCycle.order.idxOf 1 := by
  obtain ⟨hnodup, hmem, -, hlt⟩ := order_topological wellFormed_strayCycle
  have hproduces : strayCycle.Produces 0 1 := List.mem_singleton.2 rfl
  refine ⟨List.mem_singleton.2 rfl, List.mem_singleton.2 rfl, hnodup, hmem, ?_⟩
  refine hlt reachablyAcyclic_strayCycle 0 1 ?_ hproduces
  rw [order_strayCycle]
  decide

end OpGraph.Graph
