import Mathlib.Algebra.Order.BigOperators.Group.List
import Mathlib.Algebra.Order.Group.Nat
import OpGraph.Proofs.Graph.Typing

/-!
# Incremental inference

While a graph is gone over in its order, some descriptions may be out of date.  `g₀.Abreast pending g` says
that inference keeps abreast of the changes: of the nodes that matter to `g₀`, the graph at the start,
only those that are still `pending` may be out of date, and none of the others reads a pending node.  So
the next pending node reads nothing that is out of date (`Abreast.of_path`), and inference brings it up
to date for good (`Abreast.revalidate`, `Abreast.settle`).

`g.Rewrites root g'` is what a change at `root` may do: it adds nodes that read what `root` hangs on, or
each other, and lets readers of `root` read these or what `root` hangs on instead.  What reads `root` is
pending, and what `root` hangs on is not, so the change leaves out of date only what is pending
(`Abreast.rewrites`).  It closes no cycle either: what it makes a reader hang on did not hang on the
reader (`Rewrites.parting`).
-/

namespace OpGraph.Graph

open Relation (TransGen ReflTransGen)

variable {g₀ g g' g₁ : Graph} {root p id : NodeId} {rest pending : List NodeId}

/-! ### Edges after a change -/

theorem produces_of_rewire {i : Input} {old new : Output}
    (h : (g.rewire i old new).Produces p id) : g.Produces p id ∨ p = new.node ∧ id = i.node := by
  obtain ⟨j, v, rfl, hv, rfl⟩ := produces_iff_source.1 h
  rw [source?_rewire] at hv
  split at hv
  next hj =>
    obtain ⟨-, -, rfl⟩ := Option.map_eq_some_iff.1 hv
    exact Or.inr ⟨rfl, congrArg Input.node hj⟩
  next => exact Or.inl (produces_of_source? hv)

theorem produces_of_insert {op : Op} {inputs : List Output} {descs : List Desc}
    (h : (g.insert op inputs descs).Produces p id) :
    g.Produces p id ∨ id = g.nodes.size ∧ ∃ v ∈ inputs, v.node = p := by
  obtain ⟨w, hw, v, hv, rfl⟩ := produces_iff_view.1 h
  obtain ⟨rfl, rfl⟩ | hw := view?_of_view?_insert _ _ _ _ hw
  · exact Or.inr ⟨rfl, v, hv, rfl⟩
  · exact Or.inl (produces_of_view? hw hv)

theorem Restricts.produces (h : g'.Restricts g) (hp : g'.Produces p id) : g.Produces p id := by
  obtain ⟨w, hw, hv⟩ := produces_iff_view.1 hp
  exact produces_iff_view.2 ⟨w, h.view_eq hw, hv⟩

theorem produces_withDescs {outs : List Desc} {j : NodeId} :
    (g.modifyNode j (·.withDescs outs)).Produces p id ↔ g.Produces p id := by
  rw [Produces, Produces, sourcesOf, sourcesOf, node?_modifyNode]
  by_cases hj : j = id
  · rw [if_pos hj]
    cases g.node? id <;> rfl
  · rw [if_neg hj]

/-! ### Cycles -/

theorem Acyclic.of_produces (h : g.Acyclic)
    (hsub : ∀ p id, g'.Produces p id → g.Produces p id) : g'.Acyclic := fun id hid =>
  h id (TransGen.mono hsub id id hid)

theorem acyclic_insert (hwf : g.WellFormed) (h : g.Acyclic) {op : Op} {inputs : List Output}
    {descs : List Desc} (hin : ∀ v ∈ inputs, ∃ ts, g.targets? v = some ts) :
    (g.insert op inputs descs).Acyclic := by
  obtain ⟨rank, hrank⟩ := exists_rank hwf h
  refine acyclic_of_rank
    (Function.update rank g.nodes.size ((inputs.map fun v => rank v.node).sum + 1))
    fun p id hp => ?_
  refine rank_lt_insert hwf (fun hp => hrank _ _ hp) hin (fun v hv => ?_) hp
  exact Nat.lt_succ_of_le (List.le_sum_of_mem (List.mem_map_of_mem hv))

/-- A path through a graph in which an input has moved either was there before or passes from the new
value to the reader. -/
theorem path_of_rewire {i : Input} {old new : Output}
    (h : TransGen (g.rewire i old new).Produces p id) :
    TransGen g.Produces p id ∨
      ReflTransGen g.Produces p new.node ∧ ReflTransGen g.Produces i.node id := by
  induction h with
  | single hp =>
    obtain hp | ⟨rfl, rfl⟩ := produces_of_rewire hp
    · exact Or.inl (.single hp)
    · exact Or.inr ⟨.refl, .refl⟩
  | tail _ hp ih =>
    obtain hp | ⟨rfl, rfl⟩ := produces_of_rewire hp
    · rcases ih with ih | ⟨hnew, hi⟩
      · exact Or.inl (ih.tail hp)
      · exact Or.inr ⟨hnew, hi.tail hp⟩
    · rcases ih with ih | ⟨hnew, -⟩
      · exact Or.inr ⟨ih.to_reflTransGen, .refl⟩
      · exact Or.inr ⟨hnew, .refl⟩

/-- A reader outside a set that is closed under producers may move to a value inside. -/
theorem acyclic_rewire {U : NodeId → Prop} (h : g.Acyclic)
    (hclosed : ∀ {p id}, U id → g.Produces p id → U p) {i : Input} {old new : Output}
    (hi : ¬ U i.node) (hnew : U new.node) : (g.rewire i old new).Acyclic := by
  intro id hid
  rcases path_of_rewire hid with hid | ⟨hpath, hpath'⟩
  · exact h id hid
  · have hin : ∀ {p}, ReflTransGen g.Produces p new.node → U p := by
      intro p hp
      induction hp using ReflTransGen.head_induction_on with
      | refl => exact hnew
      | head hp _ ih => exact hclosed ih hp
    exact hi (hin (hpath'.trans hpath))

/-! ### Descriptions after a change -/

theorem desc?_rewire (g : Graph) (i : Input) (old new v : Output) :
    (g.rewire i old new).desc? v = g.desc? v := by
  rw [desc?, desc?, view?_rewire]
  split
  · cases g.view? v.node <;> rfl
  · rfl

theorem Restricts.consistentAt (h : g'.Restricts g) (hid : g'.contains id)
    (hc : g.ConsistentAt id) : g'.ConsistentAt id := by
  have hview : ∀ {j}, g'.contains j → g'.view? j = g.view? j := by
    intro j hj
    obtain ⟨w, hw⟩ := contains_iff_view.1 hj
    rw [hw, h.view_eq hw]
  obtain ⟨w, hw⟩ := contains_iff_view.1 hid
  refine hc.congr (hview hid) fun v hv => desc?_congr (hview ?_)
  obtain ⟨w', hw', hin⟩ := produces_iff_view.1 hv
  have hv' : g'.Produces v.node id := produces_iff_view.2 ⟨w', (hview hid).trans hw', hin⟩
  exact h.wellFormed.contains_of_produces hv'

theorem consistentAt_insert_size {op : Op} {inputs : List Output} {descs : List Desc}
    (h : g.inferNew op inputs = .ok descs) :
    (g.insert op inputs descs).ConsistentAt g.nodes.size := by
  obtain ⟨ds, hds, hinfer⟩ := Edit.inferNew_eq_ok.1 h
  refine consistentAt_iff_view.2 ⟨⟨op, inputs, descs⟩, ds, ?_, ?_, hinfer⟩
  · rw [view?_insert, if_pos rfl]
  · exact hds.imp fun v d hv => desc?_insert_of_desc? _ _ _ _ (desc_eq_ok_iff_desc?.1 hv)

theorem consistentAt_insert (hwf : g.WellFormed) {op : Op} {inputs : List Output}
    {descs : List Desc} (h : g.ConsistentAt id) : (g.insert op inputs descs).ConsistentAt id := by
  have hview : ∀ {j}, g.contains j → (g.insert op inputs descs).view? j = g.view? j := fun hj =>
    view?_insert_of_lt _ _ _ _ (lt_size_of_contains hj)
  exact h.congr (hview h.contains) fun v hv => desc?_congr (hview (hwf.contains_of_produces hv))

/-! ### Changes at a node -/

/-- The node hangs on `id`, or `id` is newer than the graph. -/
def Supplies (g : Graph) (root id : NodeId) : Prop :=
  TransGen g.Produces id root ∨ g.nodes.size ≤ id

/-- What a change at `root` may make of the graph `g`: nodes are added that read what `root` hangs on or
what has been added before, readers of `root` read such values instead, names and metadata change, and
nodes are released. -/
inductive Rewrites (g : Graph) (root : NodeId) : Graph → Prop
  | refl : Rewrites g root g
  | insert {g₁ : Graph} {op : Op} {inputs : List Output} {descs : List Desc} :
    Rewrites g root g₁ → g₁.inferNew op inputs = .ok descs →
      (∀ v ∈ inputs, g.Supplies root v.node) → Rewrites g root (g₁.insert op inputs descs)
  | rewire {g₁ : Graph} {i : Input} {old new : Output} :
    Rewrites g root g₁ → g₁.source? i = some old → old.node = root → g.Supplies root new.node →
      old ≠ new → new.node ≠ i.node → (∃ ts, g₁.targets? new = some ts) →
      Rewrites g root (g₁.rewire i old new)
  | restrict {g₁ g₂ : Graph} : Rewrites g root g₁ → g₂.Restricts g₁ → Rewrites g root g₂

theorem Rewrites.wellFormed (hwf : g.WellFormed) (h : g.Rewrites root g₁) : g₁.WellFormed := by
  induction h with
  | refl => exact hwf
  | insert _ hinfer _ ih =>
    exact wellFormed_insert ih fun _ hv => Edit.exists_targets_of_inferNew hinfer hv
  | rewire _ hi _ _ hne hnode hlive ih => exact wellFormed_rewire ih hi hne hnode hlive
  | restrict _ hr _ => exact hr.wellFormed

/-- A change at `root` is under way: what supplies the root hangs on nothing else, and what reads the root
is not among it. -/
structure Parting (g : Graph) (root : NodeId) (g₁ : Graph) : Prop where
  wellFormed : g₁.WellFormed
  acyclic : g₁.Acyclic
  not_supplies_root : ¬ g.Supplies root root
  closed : ∀ {p id}, g.Supplies root id → g₁.Produces p id → g.Supplies root p
  readers : ∀ {id}, g₁.Produces root id → ¬ g.Supplies root id

namespace Parting

theorem start (hwf : g.WellFormed) (ha : g.Acyclic) (hroot : g.contains root) :
    Parting g root g where
  wellFormed := hwf
  acyclic := ha
  not_supplies_root hself := hself.elim (ha root) fun hge =>
    Nat.not_le_of_lt (lt_size_of_contains hroot) hge
  closed := by
    rintro p id (hid | hid) hp
    · exact Or.inl (hid.head hp)
    · exact absurd (lt_size_of_contains (contains_of_produces_right hp)) (Nat.not_lt_of_le hid)
  readers := by
    rintro id hid (hsup | hge)
    · exact ha id (hsup.tail hid)
    · exact absurd (lt_size_of_contains (contains_of_produces_right hid)) (Nat.not_lt_of_le hge)

theorem insert (h : Parting g root g₁) {op : Op} {inputs : List Output} {descs : List Desc}
    (hinfer : g₁.inferNew op inputs = .ok descs) (hin : ∀ v ∈ inputs, g.Supplies root v.node) :
    Parting g root (g₁.insert op inputs descs) where
  wellFormed := wellFormed_insert h.wellFormed fun _ hv =>
    Edit.exists_targets_of_inferNew hinfer hv
  acyclic := acyclic_insert h.wellFormed h.acyclic fun _ hv =>
    Edit.exists_targets_of_inferNew hinfer hv
  not_supplies_root := h.not_supplies_root
  closed := by
    intro p id hid hp
    obtain hp | ⟨-, v, hv, rfl⟩ := produces_of_insert hp
    · exact h.closed hid hp
    · exact hin v hv
  readers := by
    intro id hid
    obtain hid | ⟨-, v, hv, hroot⟩ := produces_of_insert hid
    · exact h.readers hid
    · exact absurd (hroot ▸ hin v hv) h.not_supplies_root

theorem rewire (h : Parting g root g₁) {i : Input} {old new : Output}
    (hi : g₁.source? i = some old) (hold : old.node = root) (hnew : g.Supplies root new.node)
    (hne : old ≠ new) (hnode : new.node ≠ i.node) (hlive : ∃ ts, g₁.targets? new = some ts) :
    Parting g root (g₁.rewire i old new) where
  wellFormed := wellFormed_rewire h.wellFormed hi hne hnode hlive
  acyclic := acyclic_rewire h.acyclic (fun hid hp => h.closed hid hp)
    (h.readers (produces_iff_source.2 ⟨i, old, rfl, hi, hold⟩)) hnew
  not_supplies_root := h.not_supplies_root
  closed := by
    intro p id hid hp
    obtain hp | ⟨rfl, -⟩ := produces_of_rewire hp
    · exact h.closed hid hp
    · exact hnew
  readers := by
    intro id hid
    obtain hid | ⟨hroot, -⟩ := produces_of_rewire hid
    · exact h.readers hid
    · exact absurd (hroot ▸ hnew) h.not_supplies_root

theorem restrict (h : Parting g root g₁) (hr : g'.Restricts g₁) : Parting g root g' where
  wellFormed := hr.wellFormed
  acyclic := h.acyclic.of_produces fun _ _ => hr.produces
  not_supplies_root := h.not_supplies_root
  closed hid hp := h.closed hid (hr.produces hp)
  readers hid := h.readers (hr.produces hid)

end Parting

theorem Rewrites.parting (hwf : g.WellFormed) (ha : g.Acyclic) (hroot : g.contains root)
    (h : g.Rewrites root g₁) : Parting g root g₁ := by
  induction h with
  | refl => exact .start hwf ha hroot
  | insert _ hinfer hin ih => exact ih.insert hinfer hin
  | rewire _ hi hold hnew hne hnode hlive ih => exact ih.rewire hi hold hnew hne hnode hlive
  | restrict _ hr ih => exact ih.restrict hr

/-! ### Keeping abreast -/

/-- Of the nodes that matter to `g₀` only pending ones may be out of date.  The last part of the list of
pending nodes is read by nothing outside of it. -/
structure Abreast (g₀ : Graph) (pending : List NodeId) (g : Graph) : Prop where
  wellFormed : g.WellFormed
  acyclic : g.Acyclic
  size_le : g₀.nodes.size ≤ g.nodes.size
  boundary : ∀ {id}, id ∈ g.parameters ∨ id ∈ g.results → g₀.Relevant id
  relevant : ∀ {p id}, g₀.Relevant id → g.Produces p id → g₀.Relevant p
  nodup : pending.Nodup
  reachable : ∀ {id}, id ∈ pending → g₀.Reachable id ∧ id < g₀.nodes.size
  first : ∀ {rest p id}, rest <:+ pending → g₀.Relevant id → id ∉ rest → g.Produces p id → p ∉ rest
  consistentAt : ∀ {id}, g₀.Relevant id → id ∉ pending → g.contains id → g.ConsistentAt id

/-- Of the old nodes only those that the boundary hangs on matter. -/
theorem Relevant.reachable (h : g.Relevant id) (hid : g.contains id) : g.Reachable id :=
  h.resolve_right (Nat.not_le_of_lt (lt_size_of_contains hid))

/-- Nothing is out of date at the start, and everything is pending. -/
theorem abreast_start (hwf : g.WellFormed) (ha : g.Acyclic) (hc : g.Consistent) :
    g.Abreast g.order g where
  wellFormed := hwf
  acyclic := ha
  size_le := Nat.le_refl _
  boundary hid := Or.inl (hid.elim .parameter .result)
  relevant hid hp := Or.inl ((hid.reachable (contains_of_produces_right hp)).producer hp)
  nodup := g.order_nodup
  reachable hid :=
    have hreach := reachable_of_mem_order hid
    ⟨hreach, lt_size_of_contains (hwf.contains_of_reachable hreach)⟩
  first := by
    rintro rest p id ⟨done, hdone⟩ hid hrest hp
    have hbehind := producersBehind_order fun id _ => ha id
    have hmem := (mem_order_iff hwf).2 (hid.reachable (contains_of_produces_right hp))
    have hnodup := g.order_nodup
    rw [← hdone] at hbehind hmem hnodup
    rw [List.reverse_append] at hbehind
    have hid : id ∈ done.reverse :=
      List.mem_reverse.2 ((List.mem_append.1 hmem).resolve_right hrest)
    have hp := List.mem_reverse.1 (mem_of_producersBehind hwf hbehind.of_append hid hp)
    exact fun hp' => (List.nodup_append.1 hnodup).2.2 p hp p hp' rfl
  consistentAt hid _ hlive := hc _ (hid.reachable hlive)

namespace Abreast

/-- When nothing is pending the graph is up to date. -/
theorem consistent (h : g₀.Abreast [] g) : g.Consistent := by
  intro id hid
  have hrelevant : g₀.Relevant id := by
    induction hid with
    | parameter hp => exact h.boundary (Or.inl hp)
    | result hr => exact h.boundary (Or.inr hr)
    | producer _ hp ih => exact h.relevant ih hp
  exact h.consistentAt hrelevant List.not_mem_nil (h.wellFormed.contains_of_reachable hid)

/-- What the next pending node hangs on matters and is not pending. -/
theorem of_path (h : g₀.Abreast (id :: rest) g) (hp : TransGen g.Produces p id) :
    g₀.Relevant p ∧ p ∉ id :: rest := by
  have hid : g₀.Relevant id := Or.inl (h.reachable List.mem_cons_self).1
  induction hp using TransGen.head_induction_on with
  | single hp =>
    refine ⟨h.relevant hid hp, List.not_mem_cons_of_ne_of_not_mem ?_ ?_⟩
    · rintro rfl
      exact h.acyclic _ (.single hp)
    · exact h.first (List.suffix_cons ..) hid (List.nodup_cons.1 h.nodup).1 hp
  | head hp _ ih => exact ⟨h.relevant ih.1 hp, h.first List.suffix_rfl ih.1 ih.2 hp⟩

/-- Once the next pending node is up to date, so is all that it hangs on. -/
theorem consistentAt_of_path (h : g₀.Abreast (id :: rest) g) (hid : g.ConsistentAt id)
    (hp : ReflTransGen g.Produces p id) : g.ConsistentAt p := by
  rcases Relation.reflTransGen_iff_eq_or_transGen.1 hp with rfl | hp
  · exact hid
  · obtain ⟨hrelevant, hpending⟩ := h.of_path hp
    obtain ⟨q, hq, -⟩ := TransGen.head'_iff.1 hp
    exact h.consistentAt hrelevant hpending (h.wellFormed.contains_of_produces hq)

/-- A pending node that is up to date or gone is done. -/
theorem settle (h : g₀.Abreast (id :: rest) g) (hid : g.contains id → g.ConsistentAt id) :
    g₀.Abreast rest g where
  wellFormed := h.wellFormed
  acyclic := h.acyclic
  size_le := h.size_le
  boundary := h.boundary
  relevant := h.relevant
  nodup := (List.nodup_cons.1 h.nodup).2
  reachable hmem := h.reachable (List.mem_cons_of_mem id hmem)
  first hsuffix := h.first (hsuffix.trans (List.suffix_cons ..))
  consistentAt := by
    intro j hj hpending hlive
    by_cases hjd : j = id
    · subst hjd
      exact hid hlive
    · exact h.consistentAt hj (List.not_mem_cons_of_ne_of_not_mem hjd hpending) hlive

theorem restrict (h : g₀.Abreast pending g) (hr : g'.Restricts g) : g₀.Abreast pending g' where
  wellFormed := hr.wellFormed
  acyclic := h.acyclic.of_produces fun _ _ => hr.produces
  size_le := hr.size_eq ▸ h.size_le
  boundary hid := h.boundary (by rwa [← hr.parameters_eq, ← hr.results_eq])
  relevant hid hp := h.relevant hid (hr.produces hp)
  nodup := h.nodup
  reachable := h.reachable
  first hsuffix hid hrest hp := h.first hsuffix hid hrest (hr.produces hp)
  consistentAt hid hpending hlive :=
    hr.consistentAt hlive (h.consistentAt hid hpending (hr.contains hlive))

/-- Inference brings the next pending node up to date.  What reads it is pending. -/
theorem revalidate (h : g₀.Abreast (id :: rest) g) {outs : List Desc}
    (hre : g.reinfer id = .ok outs) :
    g₀.Abreast (id :: rest) (g.modifyNode id (·.withDescs outs)) ∧
      (g.modifyNode id (·.withDescs outs)).ConsistentAt id := by
  have hview : ∀ {j}, j ≠ id → (g.modifyNode id (·.withDescs outs)).view? j = g.view? j := by
    intro j hj
    rw [view?_modifyNode, if_neg (Ne.symm hj)]
  refine ⟨?_, consistentAt_withDescs hre fun hself => h.acyclic id (.single hself)⟩
  exact
    { wellFormed := wellFormed_modifyNode h.wellFormed fun n hn =>
        ⟨rfl, rfl, rfl, Edit.map_targets_withDescs (length_of_reinfer hre hn)⟩
      acyclic := h.acyclic.of_produces fun _ _ => produces_withDescs.1
      size_le := (size_nodes_modifyNode ..).symm ▸ h.size_le
      boundary := h.boundary
      relevant := fun hj hp => h.relevant hj (produces_withDescs.1 hp)
      nodup := h.nodup
      reachable := h.reachable
      first := fun hsuffix hj hrest hp => h.first hsuffix hj hrest (produces_withDescs.1 hp)
      consistentAt := by
        intro j hj hpending hlive
        rw [contains_modifyNode] at hlive
        refine (h.consistentAt hj hpending hlive).congr (hview (List.ne_of_not_mem_cons hpending))
          fun v hv => desc?_congr (hview ?_)
        exact List.ne_of_not_mem_cons (h.first List.suffix_rfl hj hpending hv) }

end Abreast

/-! ### A change at the next pending node -/

/-- A change at `root`, which was the next pending node of `g`, is under way. -/
structure Amid (g₀ g : Graph) (root : NodeId) (rest : List NodeId) (g₁ : Graph) : Prop where
  abreast : g₀.Abreast rest g₁
  parting : Parting g root g₁
  supplied : ∀ {id}, g.Supplies root id → g₀.Relevant id ∧ id ∉ rest
  pending : ∀ {id}, g₁.Produces root id → g₀.Relevant id → id ∈ rest

namespace Amid

theorem start (h : g₀.Abreast (root :: rest) g) (hroot : g.ConsistentAt root) :
    Amid g₀ g root rest g where
  abreast := h.settle fun _ => hroot
  parting := .start h.wellFormed h.acyclic hroot.contains
  supplied := by
    rintro id (hid | hid)
    · obtain ⟨hrelevant, hpending⟩ := h.of_path hid
      exact ⟨hrelevant, List.not_mem_of_not_mem_cons hpending⟩
    · have hold := Nat.le_trans h.size_le hid
      exact ⟨Or.inr hold, fun hmem =>
        Nat.not_le_of_lt (h.reachable (List.mem_cons_of_mem root hmem)).2 hold⟩
  pending := by
    intro id hid hrelevant
    by_contra hrest
    refine h.first List.suffix_rfl hrelevant (List.not_mem_cons_of_ne_of_not_mem ?_ hrest) hid
      List.mem_cons_self
    rintro rfl
    exact h.acyclic _ (.single hid)

theorem insert (h : Amid g₀ g root rest g₁) {op : Op} {inputs : List Output} {descs : List Desc}
    (hinfer : g₁.inferNew op inputs = .ok descs) (hin : ∀ v ∈ inputs, g.Supplies root v.node) :
    Amid g₀ g root rest (g₁.insert op inputs descs) where
  abreast :=
    { wellFormed := (h.parting.insert hinfer hin).wellFormed
      acyclic := (h.parting.insert hinfer hin).acyclic
      size_le := by
        rw [size_insert]
        exact Nat.le_succ_of_le h.abreast.size_le
      boundary := by
        intro id hid
        have hsize : g₀.Relevant g₁.nodes.size := Or.inr h.abreast.size_le
        rcases hid with hid | hid
        · obtain hid | ⟨-, rfl⟩ := mem_declared.1 hid
          · exact h.abreast.boundary (Or.inl hid)
          · exact hsize
        · obtain hid | ⟨-, rfl⟩ := mem_declared.1 hid
          · exact h.abreast.boundary (Or.inr hid)
          · exact hsize
      relevant := by
        intro p id hid hp
        obtain hp | ⟨-, v, hv, rfl⟩ := produces_of_insert hp
        · exact h.abreast.relevant hid hp
        · exact (h.supplied (hin v hv)).1
      nodup := h.abreast.nodup
      reachable := h.abreast.reachable
      first := by
        intro rest' p id hsuffix hid hrest hp
        obtain hp | ⟨-, v, hv, rfl⟩ := produces_of_insert hp
        · exact h.abreast.first hsuffix hid hrest hp
        · exact fun hmem => (h.supplied (hin v hv)).2 (hsuffix.subset hmem)
      consistentAt := by
        intro id hid hpending hlive
        obtain ⟨w, hw⟩ := contains_iff_view.1 hlive
        obtain ⟨rfl, -⟩ | hw := view?_of_view?_insert _ _ _ _ hw
        · exact consistentAt_insert_size hinfer
        · exact consistentAt_insert h.abreast.wellFormed
            (h.abreast.consistentAt hid hpending (contains_of_view? hw)) }
  parting := h.parting.insert hinfer hin
  supplied := h.supplied
  pending := by
    intro id hid
    obtain hid | ⟨-, v, hv, hroot⟩ := produces_of_insert hid
    · exact h.pending hid
    · exact absurd (hroot ▸ hin v hv) h.parting.not_supplies_root

theorem rewire (h : Amid g₀ g root rest g₁) {i : Input} {old new : Output}
    (hi : g₁.source? i = some old) (hold : old.node = root) (hnew : g.Supplies root new.node)
    (hne : old ≠ new) (hnode : new.node ≠ i.node) (hlive : ∃ ts, g₁.targets? new = some ts) :
    Amid g₀ g root rest (g₁.rewire i old new) := by
  have hparting := h.parting.rewire hi hold hnew hne hnode hlive
  have hpending := h.pending (produces_iff_source.2 ⟨i, old, rfl, hi, hold⟩)
  exact
    { abreast :=
        { wellFormed := hparting.wellFormed
          acyclic := hparting.acyclic
          size_le := (size_rewire g₁ i old new).symm ▸ h.abreast.size_le
          boundary := h.abreast.boundary
          relevant := by
            intro p id hid hp
            obtain hp | ⟨rfl, -⟩ := produces_of_rewire hp
            · exact h.abreast.relevant hid hp
            · exact (h.supplied hnew).1
          nodup := h.abreast.nodup
          reachable := h.abreast.reachable
          first := by
            intro rest' p id hsuffix hid hrest hp
            obtain hp | ⟨rfl, -⟩ := produces_of_rewire hp
            · exact h.abreast.first hsuffix hid hrest hp
            · exact fun hmem => (h.supplied hnew).2 (hsuffix.subset hmem)
          consistentAt := by
            intro id hid hdone hlive
            -- the reader that has moved is pending
            have hid' : i.node ≠ id := fun heq => hdone (heq ▸ hpending (heq ▸ hid))
            have hview : (g₁.rewire i old new).view? id = g₁.view? id := by
              rw [view?_rewire, if_neg hid']
            rw [contains_eq_view, hview, ← contains_eq_view] at hlive
            exact (h.abreast.consistentAt hid hdone hlive).congr hview fun v _ =>
              desc?_rewire g₁ i old new v }
      parting := hparting
      supplied := h.supplied
      pending := by
        intro id hid
        obtain hid | ⟨hroot, -⟩ := produces_of_rewire hid
        · exact h.pending hid
        · exact absurd (hroot ▸ hnew) h.parting.not_supplies_root }

theorem restrict (h : Amid g₀ g root rest g₁) (hr : g'.Restricts g₁) : Amid g₀ g root rest g' where
  abreast := h.abreast.restrict hr
  parting := h.parting.restrict hr
  supplied := h.supplied
  pending hid := h.pending (hr.produces hid)

end Amid

/-- **A change at the next pending node, which is up to date, leaves out of date only what is still
pending.** -/
theorem Abreast.rewrites (h : g₀.Abreast (root :: rest) g) (hroot : g.ConsistentAt root)
    (hchange : g.Rewrites root g₁) : g₀.Abreast rest g₁ := by
  have hamid : Amid g₀ g root rest g₁ := by
    induction hchange with
    | refl => exact .start h hroot
    | insert _ hinfer hin ih => exact ih.insert hinfer hin
    | rewire _ hi hold hnew hne hnode hlive ih => exact ih.rewire hi hold hnew hne hnode hlive
    | restrict _ hr ih => exact ih.restrict hr
  exact hamid.abreast

end OpGraph.Graph
