import OpGraph.Proofs.Graph.Rank
import OpGraph.Proofs.Graph.Release

/-!
# What is collected

A collection removes what the boundary does not hang on (`mem_garbage_iff`), all at once and in the
order of the positions, while a release follows the readers from the nodes that are listed.  Without
cycles nothing keeps itself alive, and a release from all nodes removes the same
(`collectGarbage_exact`).
-/

namespace OpGraph.Graph

variable {g : Graph} {id : NodeId}

theorem mem_garbage_iff (h : g.WellFormed) : id ∈ g.garbage ↔ g.contains id ∧ ¬ g.Reachable id := by
  rw [mem_garbage, h.mem_reachableFrom_boundary fun r => ?_]
  rw [List.mem_append, List.mem_append]
  exact or_comm

theorem garbage_nodup (g : Graph) : g.garbage.Nodup := g.ids_nodup.filter _

theorem collectGarbage_eq_without (h : g.WellFormed) : g.collectGarbage = g.without g.garbage := by
  have hmem : ∀ id ∈ g.garbage, id ∉ [] ∧ g.contains id := fun id hid =>
    ⟨List.not_mem_nil, ((mem_garbage_iff h).1 hid).1⟩
  have hfold := foldl_detach_without h g.garbage_nodup hmem
  rwa [without_nil, List.append_nil] at hfold

theorem collectGarbage_eq_ok (h : g.WellFormed) :
    Edit.collectGarbage g = .ok g.garbage.length (g.without g.garbage) := by
  rw [← collectGarbage_eq_without h]
  rfl

/-- Nothing is collected where the boundary hangs on everything. -/
theorem collectGarbage_of_reachable (h : g.WellFormed)
    (hall : ∀ id, g.contains id → g.Reachable id) : Edit.collectGarbage g = .ok 0 g := by
  have hnil : g.garbage = [] := by
    refine List.eq_nil_iff_forall_not_mem.2 fun id hid => ?_
    obtain ⟨hlive, hnot⟩ := (mem_garbage_iff h).1 hid
    exact hnot (hall id hlive)
  rw [collectGarbage_eq_ok h, hnil, without_nil]
  rfl

/-- A node that nothing keeps alive is released once all nodes are listed: its consumers go first. -/
theorem expendable_of_mem_garbage (h : g.WellFormed) (ha : g.Acyclic) {ids : List NodeId}
    (hids : ∀ id, g.contains id → id ∈ ids) (hid : id ∈ g.garbage) : g.Expendable ids id := by
  induction id using ha.consumer_induction with
  | hP id ih =>
    obtain ⟨hlive, hnot⟩ := (mem_garbage_iff h).1 hid
    have hi : g.Internal id :=
      ⟨hlive, fun hp => hnot (.parameter hp), fun hr => hnot (.result hr)⟩
    refine .listed hi (hids id hlive) fun c hc => ih c hc ?_
    exact (mem_garbage_iff h).2 ⟨contains_of_produces_right hc, fun hr => hnot (hr.producer hc)⟩

/-- **A collection takes what the boundary does not hang on and nothing else, and finds nothing more
afterwards; without cycles a release from all nodes does the same.** -/
theorem collectGarbage_exact (h : g.WellFormed) :
    ∃ gone, gone.Nodup ∧ (∀ id, id ∈ gone ↔ g.contains id ∧ ¬ g.Reachable id) ∧
      Edit.collectGarbage g = .ok gone.length (g.without gone) ∧
      (g.without gone).order = g.order ∧
      Edit.collectGarbage (g.without gone) = .ok 0 (g.without gone) ∧
      (g.Acyclic → ∀ ids, (∀ id, g.contains id → id ∈ ids) →
        Edit.release ids g = Edit.collectGarbage g) := by
  have horder : (g.without g.garbage).order = g.order :=
    order_without fun id hid => ((mem_garbage_iff h).1 hid).2
  have hwf : (g.without g.garbage).WellFormed :=
    collectGarbage_eq_without h ▸ wellFormed_collectGarbage h
  refine ⟨g.garbage, g.garbage_nodup, fun id => mem_garbage_iff h, collectGarbage_eq_ok h, horder,
    collectGarbage_of_reachable hwf fun id hid => ?_, fun ha ids hids => ?_⟩
  · obtain ⟨hgone, hlive⟩ := contains_without.1 hid
    have hreach : g.Reachable id := by
      by_contra hnot
      exact hgone ((mem_garbage_iff h).2 ⟨hlive, hnot⟩)
    rwa [← mem_order_iff hwf, horder, mem_order_iff h]
  · obtain ⟨gone, hnodup, hmem, hrun⟩ := exists_release h ids
    have hsame : ∀ id, id ∈ gone ↔ id ∈ g.garbage := by
      refine fun id => (hmem id).trans ⟨fun hid => ?_, expendable_of_mem_garbage h ha hids⟩
      exact (mem_garbage_iff h).2 ⟨hid.internal.1, hid.not_reachable⟩
    obtain ⟨hlength, hwithout⟩ := without_eq_of_nodup (g := g) hnodup g.garbage_nodup hsame
    rw [release_eq_ok hrun, collectGarbage_eq_ok h, hlength, hwithout]

/-- Two negations that nothing hangs on read the one that is a result. -/
def deadChain : Graph :=
  let d : Desc := ⟨.f32, .ofShape [2]⟩
  ((single (.unary .negative) d d).insert (.unary .negative) [⟨1, 0⟩] [d]).insert
    (.unary .negative) [⟨3, 0⟩] [d]

theorem wellFormed_deadChain : deadChain.WellFormed :=
  wellFormed_insert_singleton (wellFormed_insert_singleton (wellFormed_single _ _ _) ⟨_, rfl⟩)
    ⟨_, rfl⟩

theorem acyclic_deadChain : deadChain.Acyclic := by
  refine acyclic_of_rank (fun id => id) fun p c hp => ?_
  have hsources : p ∈ deadChain.sourcesOf c := hp
  match c, lt_size_of_contains (contains_of_produces_right hp) with
  | 0, _ => cases hsources
  | 1, _ | 2, _ | 3, _ | 4, _ =>
    obtain rfl := List.mem_singleton.1 hsources
    decide

theorem ids_deadChain : deadChain.ids = [0, 1, 2, 3, 4] := by
  decide +kernel

theorem order_deadChain : deadChain.order = [0, 1, 2] := by
  decide +kernel

/-- The chain is collected, and a release from all nodes takes it as well. -/
theorem collectGarbage_exact_deadChain :
    Edit.collectGarbage deadChain = .ok 2 (deadChain.without [3, 4]) ∧
      Edit.release [0, 1, 2, 3, 4] deadChain = .ok 2 (deadChain.without [3, 4]) := by
  obtain ⟨gone, hnodup, hmem, hrun, -, -, hrelease⟩ := collectGarbage_exact wellFormed_deadChain
  have hsame : ∀ id, id ∈ gone ↔ id ∈ [3, 4] := by
    intro id
    rw [hmem, contains_iff_mem_ids, ids_deadChain, ← mem_order_iff wellFormed_deadChain,
      order_deadChain]
    simp only [List.mem_cons, List.not_mem_nil, or_false]
    grind
  obtain ⟨hlength, hwithout⟩ := without_eq_of_nodup (g := deadChain) hnodup (by decide) hsame
  rw [hlength, hwithout] at hrun
  refine ⟨hrun, (hrelease acyclic_deadChain _ fun id hid => ?_).trans hrun⟩
  rwa [contains_iff_mem_ids, ids_deadChain] at hid

end OpGraph.Graph
