import Mathlib.Logic.Relation
import OpGraph.Proofs.Graph.WellFormed

/-!
# Reachability

`Produces p id` says that the node `p` produces an input of `id`, and `Reachable id` that the boundary
hangs on `id`.  The search `reachableFrom` finds its roots (`mem_reachableFrom_of_mem`) and is closed
under producers (`mem_reachableFrom_of_produces`), so what it leaves out is not read by what it finds.
In a well-formed graph it finds nothing else (`mem_reachableFrom_iff`).
-/

namespace OpGraph.Graph

/-- The node `p` produces an input of the node `id`. -/
def Produces (g : Graph) (p id : NodeId) : Prop := p ∈ g.sourcesOf id

/-- The boundary hangs on the node. -/
inductive Reachable (g : Graph) : NodeId → Prop
  | parameter {id : NodeId} : id ∈ g.parameters → Reachable g id
  | result {id : NodeId} : id ∈ g.results → Reachable g id
  | producer {p id : NodeId} : Reachable g id → g.Produces p id → Reachable g p

/-- No node hangs on itself. -/
def Acyclic (g : Graph) : Prop := ∀ id, ¬ Relation.TransGen g.Produces id id

theorem produces_iff_view {g : Graph} {p id : NodeId} :
    g.Produces p id ↔ ∃ n, g.view? id = some n ∧ ∃ v ∈ n.inputs, v.node = p := by
  rw [Produces, sourcesOf, view?]
  cases g.node? id with
  | none => simp
  | some n => simp [Node.sources, Node.view]

theorem produces_of_view? {g : Graph} {id : NodeId} {w : Node.View} {v : Output}
    (hw : g.view? id = some w) (hv : v ∈ w.inputs) : g.Produces v.node id :=
  produces_iff_view.2 ⟨w, hw, v, hv, rfl⟩

theorem produces_iff_source {g : Graph} {p id : NodeId} :
    g.Produces p id ↔ ∃ i v, i.node = id ∧ g.source? i = some v ∧ v.node = p := by
  rw [produces_iff_view]
  constructor
  · intro h
    rcases h with ⟨n, hn, v, hv, rfl⟩
    obtain ⟨k, hk⟩ := List.mem_iff_getElem?.1 hv
    exact ⟨⟨id, k⟩, v, rfl, (source?_of_view? hn).trans hk, rfl⟩
  · intro h
    rcases h with ⟨i, v, rfl, hv, rfl⟩
    rw [source?_eq_view] at hv
    obtain ⟨n, hn, hk⟩ := Option.bind_eq_some_iff.1 hv
    exact ⟨n, hn, v, List.mem_of_getElem? hk, rfl⟩

theorem produces_of_source? {g : Graph} {i : Input} {v : Output} (h : g.source? i = some v) :
    g.Produces v.node i.node :=
  produces_iff_source.2 ⟨i, v, rfl, h, rfl⟩

theorem contains_of_produces_right {g : Graph} {p id : NodeId} (h : g.Produces p id) :
    g.contains id := by
  obtain ⟨w, hw, -⟩ := produces_iff_view.1 h
  exact contains_of_view? hw

/-- A graph in which every node ranks above what it reads has no cycles. -/
theorem acyclic_of_rank {g : Graph} (rank : NodeId → Nat)
    (h : ∀ p id, g.Produces p id → rank p < rank id) : g.Acyclic := by
  have hlt : ∀ {p id}, Relation.TransGen g.Produces p id → rank p < rank id := by
    intro p id hp
    induction hp with
    | single hp => exact h _ _ hp
    | tail _ hp ih => exact Nat.lt_trans ih (h _ _ hp)
  exact fun id hid => Nat.lt_irrefl _ (hlt hid)

namespace WellFormed

variable {g : Graph} (h : g.WellFormed)

include h

/-- What is read is there. -/
theorem contains_of_read {i : Input} {v : Output} (hi : g.source? i = some v) : g.contains v.node := by
  obtain ⟨-, ts, hts⟩ := h.source_exists hi
  exact contains_of_targets? hts

theorem contains_of_produces {p id : NodeId} (hp : g.Produces p id) : g.contains p := by
  obtain ⟨i, v, -, hv, rfl⟩ := produces_iff_source.1 hp
  exact h.contains_of_read hv

theorem contains_of_reachable {id : NodeId} (hid : g.Reachable id) : g.contains id := by
  cases hid with
  | parameter hp => exact h.contains_of_mem_parameters hp
  | result hr => exact h.contains_of_mem_results hr
  | producer _ hp => exact h.contains_of_produces hp

end WellFormed

/-! ### The search -/

theorem mem_reach_of_mem_visited {g : Graph} {visited pending : List NodeId} {id : NodeId}
    (h : id ∈ visited) : id ∈ g.reach visited pending := by
  fun_induction reach g visited pending with
  | case1 => exact h
  | case2 visited x pending _ ih => exact ih (List.mem_cons_of_mem x h)
  | case3 visited x pending _ ih => exact ih h

theorem mem_reach_of_mem_pending {g : Graph} {visited pending : List NodeId} {id : NodeId}
    (h : id ∈ pending) (hid : g.contains id) : id ∈ g.reach visited pending := by
  fun_induction reach g visited pending with
  | case1 => simp at h
  | case2 visited x pending _ ih =>
    rcases List.mem_cons.1 h with rfl | h
    · exact mem_reach_of_mem_visited List.mem_cons_self
    · exact ih (List.mem_append_right _ h)
  | case3 visited x pending hx ih =>
    rcases List.mem_cons.1 h with rfl | h
    · have hv : id ∈ visited := by
        by_cases hv : id ∈ visited
        · exact hv
        · exact absurd ⟨hid, hv⟩ hx
      exact mem_reach_of_mem_visited hv
    · exact ih h

/-- A search that has put aside the producers of all visited nodes ends with a set that is closed
under live producers. -/
theorem reach_closed {g : Graph} {visited pending : List NodeId}
    (h : ∀ id ∈ visited, ∀ p, g.Produces p id → g.contains p → p ∈ visited ∨ p ∈ pending)
    {p id : NodeId} (hid : id ∈ g.reach visited pending) (hp : g.Produces p id)
    (hlive : g.contains p) : p ∈ g.reach visited pending := by
  fun_induction reach g visited pending with
  | case1 visited =>
    rcases h id hid p hp hlive with hv | hn
    · exact hv
    · simp at hn
  | case2 visited x pending hx ih =>
    refine ih ?_ hid
    intro y hy q hq hqlive
    rcases List.mem_cons.1 hy with rfl | hy
    · exact Or.inr (List.mem_append_left _ hq)
    · rcases h y hy q hq hqlive with hv | hv
      · exact Or.inl (List.mem_cons_of_mem x hv)
      · rcases List.mem_cons.1 hv with rfl | hv
        · exact Or.inl List.mem_cons_self
        · exact Or.inr (List.mem_append_right _ hv)
  | case3 visited x pending hx ih =>
    refine ih ?_ hid
    intro y hy q hq hqlive
    rcases h y hy q hq hqlive with hv | hv
    · exact Or.inl hv
    · rcases List.mem_cons.1 hv with rfl | hv
      · have hmem : q ∈ visited := by
          by_cases hmem : q ∈ visited
          · exact hmem
          · exact absurd ⟨hqlive, hmem⟩ hx
        exact Or.inl hmem
      · exact Or.inr hv

theorem mem_reachableFrom_of_mem {g : Graph} {roots : List NodeId} {id : NodeId}
    (h : id ∈ roots) (hid : g.contains id) : id ∈ g.reachableFrom roots :=
  mem_reach_of_mem_pending h hid

theorem mem_reachableFrom_of_produces {g : Graph} {roots : List NodeId} {p id : NodeId}
    (hid : id ∈ g.reachableFrom roots) (hp : g.Produces p id) (hlive : g.contains p) :
    p ∈ g.reachableFrom roots :=
  reach_closed (by simp) hid hp hlive

/-- What holds of the live nodes that the search starts with and passes to producers holds of all that
it finds. -/
theorem forall_mem_reach {g : Graph} {P : NodeId → Prop}
    (hP : ∀ {p id}, P id → g.Produces p id → P p) {visited pending : List NodeId}
    (hvisited : ∀ id ∈ visited, P id) (hpending : ∀ id ∈ pending, g.contains id → P id) :
    ∀ id ∈ g.reach visited pending, P id := by
  fun_induction reach g visited pending with
  | case1 => exact hvisited
  | case2 visited x pending hx ih =>
    obtain ⟨hroot, hpending⟩ := List.forall_mem_cons.1 hpending
    have hP' : P x := hroot hx.1
    refine ih (List.forall_mem_cons.2 ⟨hP', hvisited⟩) fun id hid hlive => ?_
    rcases List.mem_append.1 hid with hid | hid
    · exact hP hP' hid
    · exact hpending id hid hlive
  | case3 visited x pending _ ih => exact ih hvisited (List.forall_mem_cons.1 hpending).2

/-- **The search finds the live nodes among its roots and all that they hang on.** -/
theorem mem_reachableFrom_iff {g : Graph} (h : g.WellFormed) {roots : List NodeId} {id : NodeId} :
    id ∈ g.reachableFrom roots ↔
      ∃ r ∈ roots, g.contains r ∧ Relation.ReflTransGen g.Produces id r := by
  constructor
  · refine forall_mem_reach (P := fun id => ∃ r ∈ roots, g.contains r ∧
      Relation.ReflTransGen g.Produces id r) ?_ (by simp) ?_ id
    · rintro p id ⟨r, hr, hlive, hid⟩ hp
      exact ⟨r, hr, hlive, .head hp hid⟩
    · exact fun r hr hlive => ⟨r, hr, hlive, .refl⟩
  · rintro ⟨r, hr, hlive, hid⟩
    induction hid using Relation.ReflTransGen.head_induction_on with
    | refl => exact mem_reachableFrom_of_mem hr hlive
    | head hp _ ih => exact mem_reachableFrom_of_produces ih hp (h.contains_of_produces hp)

/-- The boundary hangs on the nodes from which a path leads to it. -/
theorem reachable_iff {g : Graph} {id : NodeId} :
    g.Reachable id ↔
      ∃ r ∈ g.parameters ++ g.results, Relation.ReflTransGen g.Produces id r := by
  constructor
  · intro h
    induction h with
    | parameter hp => exact ⟨_, List.mem_append_left _ hp, .refl⟩
    | result hr => exact ⟨_, List.mem_append_right _ hr, .refl⟩
    | producer _ hp ih =>
      obtain ⟨r, hr, hid⟩ := ih
      exact ⟨r, hr, .head hp hid⟩
  · rintro ⟨r, hr, hid⟩
    induction hid using Relation.ReflTransGen.head_induction_on with
    | refl => exact (List.mem_append.1 hr).elim .parameter .result
    | head hp _ ih => exact ih.producer hp

/-- A search from the boundary finds what hangs on it. -/
theorem WellFormed.mem_reachableFrom_boundary {g : Graph} (h : g.WellFormed) {roots : List NodeId}
    (hroots : ∀ r, r ∈ roots ↔ r ∈ g.parameters ++ g.results) {id : NodeId} :
    id ∈ g.reachableFrom roots ↔ g.Reachable id := by
  rw [mem_reachableFrom_iff h, reachable_iff]
  constructor
  · rintro ⟨r, hr, -, hid⟩
    exact ⟨r, (hroots r).1 hr, hid⟩
  · rintro ⟨r, hr, hid⟩
    have hlive : g.contains r := (List.mem_append.1 hr).elim h.contains_of_mem_parameters
      h.contains_of_mem_results
    exact ⟨r, (hroots r).2 hr, hlive, hid⟩

/-! ### Releasing nodes -/

theorem mem_garbage {g : Graph} {id : NodeId} :
    id ∈ g.garbage ↔ g.contains id ∧ id ∉ g.reachableFrom (g.results ++ g.parameters) := by
  rw [garbage]
  rw [List.mem_filter, ← contains_iff_mem_ids, decide_eq_true_eq]

theorem wellFormed_collectGarbage {g : Graph} (h : g.WellFormed) :
    g.collectGarbage.WellFormed := by
  refine wellFormed_foldl_detach h ?_ ?_
  · intro id hid
    obtain ⟨hlive, hnot⟩ := mem_garbage.1 hid
    refine ⟨fun hp => hnot ?_, fun hr => hnot ?_⟩
    · exact mem_reachableFrom_of_mem (List.mem_append_right _ hp) hlive
    · exact mem_reachableFrom_of_mem (List.mem_append_left _ hr) hlive
  · intro i v hi hv
    obtain ⟨hlive, hnot⟩ := mem_garbage.1 hv
    exact mem_garbage.2 ⟨contains_of_source? hi,
      fun hmem => hnot (mem_reachableFrom_of_produces hmem (produces_of_source? hi) hlive)⟩

/-- What can be released is read by nothing and does not belong to the boundary. -/
theorem isReleasable_iff {g : Graph} {id : NodeId} :
    g.isReleasable id ↔ g.contains id ∧ (∀ v ts, v.node = id → g.targets? v = some ts → ts = []) ∧
      id ∉ g.parameters ∧ id ∉ g.results := by
  rw [isReleasable, isParameter, isResult]
  simp only [Bool.and_eq_true, Bool.not_eq_true', decide_eq_false_iff_not, and_assoc]
  rw [contains, Option.any_eq_true]
  constructor
  · intro h
    rcases h with ⟨⟨n, hn, hu⟩, hp, hr⟩
    refine ⟨by simp [hn], ?_, hp, hr⟩
    intro v ts h hts
    subst h
    rw [targets?, hn, Option.bind_some] at hts
    obtain ⟨s, hs, rfl⟩ := Option.map_eq_some_iff.1 hts
    have := List.all_eq_true.1 hu s (List.mem_of_getElem? hs)
    exact List.isEmpty_iff.1 this
  · intro h
    rcases h with ⟨hlive, hu, hp, hr⟩
    obtain ⟨n, hn⟩ := Option.isSome_iff_exists.1 hlive
    refine ⟨⟨n, hn, List.all_eq_true.2 fun s hs => ?_⟩, hp, hr⟩
    obtain ⟨k, hk⟩ := List.mem_iff_getElem?.1 hs
    rw [hu ⟨id, k⟩ s.targets rfl (by simp [targets?, hn, hk])]
    rfl

theorem wellFormed_detach {g : Graph} (h : g.WellFormed) {id : NodeId} (hid : g.isReleasable id) :
    (g.detach id).WellFormed := by
  obtain ⟨-, hu, hp, hr⟩ := isReleasable_iff.1 hid
  refine wellFormed_foldl_detach (l := [id]) h ?_ ?_
  · intro j hj
    rw [List.mem_singleton.1 hj]
    exact ⟨hp, hr⟩
  · intro i v hi hv
    obtain ⟨-, ts, hts⟩ := h.source_exists hi
    have hmem := h.mem_targets hts hi
    rw [hu v ts (List.mem_singleton.1 hv) hts] at hmem
    simp at hmem

end OpGraph.Graph
