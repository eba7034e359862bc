import OpGraph.Proofs.Graph.Removal
import OpGraph.Proofs.Graph.Topological

/-!
# What is released

`Expendable g ids` are the nodes that a release from `ids` should take: nodes off the boundary that are
listed or produce an input of such a node, and that only such nodes read.  A release takes them one by
one from a stack.  A node may be looked at too early, while something still reads it; the last of its
consumers to go puts it on the stack once more.  That is what `Releasing.pending` says, so nothing is
left over when the stack is empty (`Releasing.mem_iff`).

The set does not depend on the order of the list, and what is left depends on the set alone
(`without_congr`): a release leads to the same graph in whatever order the nodes are listed
(`release_confluent`).
-/

namespace OpGraph.Graph

variable {g : Graph} {ids gone stack : List NodeId} {id : NodeId}

/-- A live node that does not belong to the boundary. -/
def Internal (g : Graph) (id : NodeId) : Prop :=
  g.contains id ∧ id ∉ g.parameters ∧ id ∉ g.results

/-- A release from the listed nodes should take the node. -/
inductive Expendable (g : Graph) (ids : List NodeId) : NodeId → Prop
  | listed {id : NodeId} : g.Internal id → id ∈ ids →
      (∀ c, g.Produces id c → Expendable g ids c) → Expendable g ids id
  | producer {id c : NodeId} : g.Internal id → g.Produces id c → Expendable g ids c →
      (∀ c, g.Produces id c → Expendable g ids c) → Expendable g ids id

namespace Expendable

theorem internal (h : g.Expendable ids id) : g.Internal id := by
  cases h with
  | listed hid => exact hid
  | producer hid => exact hid

theorem consumer {c : NodeId} (h : g.Expendable ids id) (hc : g.Produces id c) :
    g.Expendable ids c := by
  cases h with
  | listed _ _ hcs => exact hcs c hc
  | producer _ _ _ hcs => exact hcs c hc

/-- What goes is off the boundary, is listed or read by something that goes, and is read by nothing else. -/
theorem iff : g.Expendable ids id ↔ g.Internal id ∧
    (id ∈ ids ∨ ∃ c, g.Expendable ids c ∧ g.Produces id c) ∧
    ∀ c, g.Produces id c → g.Expendable ids c := by
  constructor
  · intro h
    cases h with
    | listed hi hid hcs => exact ⟨hi, Or.inl hid, hcs⟩
    | producer hi hp hc hcs => exact ⟨hi, Or.inr ⟨_, hc, hp⟩, hcs⟩
  · rintro ⟨hi, hid | ⟨c, hc, hp⟩, hcs⟩
    · exact .listed hi hid hcs
    · exact .producer hi hp hc hcs

/-- The boundary does not hang on what is released. -/
theorem not_reachable (h : g.Expendable ids id) : ¬ g.Reachable id := by
  intro hr
  induction hr with
  | parameter hp => exact h.internal.2.1 hp
  | result hr => exact h.internal.2.2 hr
  | producer _ hp ih => exact ih (h.consumer hp)

/-- Which nodes are released depends on which are listed, and not on their order. -/
theorem mono {ids' : List NodeId} (hids : ∀ id ∈ ids, id ∈ ids') (h : g.Expendable ids id) :
    g.Expendable ids' id := by
  induction h with
  | listed hi hid _ ih => exact .listed hi (hids _ hid) ih
  | producer hi hc _ _ ihc ih => exact .producer hi hc ihc ih

end Expendable

theorem isReleasable_without (h : g.WellFormed) :
    (g.without gone).isReleasable id ↔
      id ∉ gone ∧ g.Internal id ∧ ∀ c, g.Produces id c → c ∈ gone := by
  rw [isReleasable_iff, contains_without]
  constructor
  · rintro ⟨⟨hid, hlive⟩, hu, hp, hr⟩
    refine ⟨hid, ⟨hlive, hp, hr⟩, fun c hc => ?_⟩
    obtain ⟨i, v, rfl, hi, rfl⟩ := produces_iff_source.1 hc
    obtain ⟨-, ts, hts⟩ := h.source_exists hi
    have hnil := hu v _ rfl (by rw [targets?_without, if_neg hid, hts, Option.map_some])
    simpa using List.filter_eq_nil_iff.1 hnil i (h.mem_targets hts hi)
  · rintro ⟨hid, ⟨hlive, hp, hr⟩, hcs⟩
    refine ⟨⟨hid, hlive⟩, ?_, hp, hr⟩
    rintro v us rfl hus
    rw [targets?_without, if_neg hid] at hus
    obtain ⟨ts, hts, rfl⟩ := Option.map_eq_some_iff.1 hus
    refine List.filter_eq_nil_iff.2 fun t ht => ?_
    have hc := hcs t.node (produces_of_source? (h.target_reads hts ht))
    simpa using hc

/-! ### A release under way -/

/-- The node is listed, or something has gone that hung on it. -/
def Candidate (g : Graph) (ids gone : List NodeId) (id : NodeId) : Prop :=
  id ∈ ids ∨ ∃ c ∈ gone, g.Produces id c

/-- A release is under way. -/
structure Releasing (g : Graph) (ids gone stack : List NodeId) : Prop where
  nodup : gone.Nodup
  expendable : ∀ {id}, id ∈ gone → g.Expendable ids id
  candidate : ∀ {id}, id ∈ stack → g.Candidate ids gone id
  /-- A candidate that nothing reads any more is gone or will be looked at. -/
  pending : ∀ {id}, g.Candidate ids gone id → g.Internal id →
    (∀ c, g.Produces id c → c ∈ gone) → id ∈ gone ∨ id ∈ stack

namespace Releasing

theorem start (g : Graph) (ids : List NodeId) : g.Releasing ids [] ids.reverse where
  nodup := List.nodup_nil
  expendable := by simp
  candidate hid := Or.inl (List.mem_reverse.1 hid)
  pending := by
    rintro id (hid | ⟨c, hc, -⟩) - -
    · exact Or.inr (List.mem_reverse.2 hid)
    · cases hc

/-- A node stays that is read or belongs to the boundary, or that is gone already. -/
theorem skip (h : g.WellFormed) (hs : g.Releasing ids gone (id :: stack))
    (hid : ¬ (g.without gone).isReleasable id) : g.Releasing ids gone stack where
  nodup := hs.nodup
  expendable := hs.expendable
  candidate hj := hs.candidate (List.mem_cons_of_mem id hj)
  pending := by
    intro j hj hi hcs
    by_cases hgone : j ∈ gone
    · exact Or.inl hgone
    rcases (hs.pending hj hi hcs).resolve_left hgone with _ | ⟨_, hstack⟩
    · exact absurd ((isReleasable_without h).2 ⟨hgone, hi, hcs⟩) hid
    · exact Or.inr hstack

/-- A node goes, and what it hung on is looked at once more. -/
theorem take (h : g.WellFormed) (hs : g.Releasing ids gone (id :: stack))
    (hid : (g.without gone).isReleasable id) :
    g.Releasing ids (id :: gone)
      (((g.without gone).sourcesOf id).eraseDups.reverse ++ stack) := by
  obtain ⟨hgone, hi, hcs⟩ := (isReleasable_without h).1 hid
  have hsources : ∀ {p}, p ∈ ((g.without gone).sourcesOf id).eraseDups.reverse ↔
      g.Produces p id := by
    intro p
    rw [List.mem_reverse, List.mem_eraseDups]
    exact produces_without.trans (and_iff_right hgone)
  constructor
  case nodup => exact List.nodup_cons.2 ⟨hgone, hs.nodup⟩
  case expendable =>
    intro j hj
    rcases List.mem_cons.1 hj with rfl | hj
    · have hcs' := fun c hc => hs.expendable (hcs c hc)
      rcases hs.candidate List.mem_cons_self with hlisted | ⟨c, hc, hp⟩
      · exact .listed hi hlisted hcs'
      · exact .producer hi hp (hs.expendable hc) hcs'
    · exact hs.expendable hj
  case candidate =>
    intro j hj
    rcases List.mem_append.1 hj with hj | hj
    · exact Or.inr ⟨id, List.mem_cons_self, hsources.1 hj⟩
    · refine (hs.candidate (List.mem_cons_of_mem id hj)).imp_right ?_
      rintro ⟨c, hc, hp⟩
      exact ⟨c, List.mem_cons_of_mem id hc, hp⟩
  case pending =>
    intro j hj hij hcsj
    rw [List.mem_append, hsources]
    by_cases hp : g.Produces j id
    · exact Or.inr (Or.inl hp)
    -- `id` is not the last consumer of `j`, so nothing new is to be said about `j`
    have hcsj' : ∀ c, g.Produces j c → c ∈ gone := by
      intro c hc
      rcases List.mem_cons.1 (hcsj c hc) with rfl | hc
      · exact absurd hc hp
      · exact hc
    have hj' : g.Candidate ids gone j := hj.imp_right fun ⟨c, _, hc⟩ => ⟨c, hcsj' c hc, hc⟩
    rcases hs.pending hj' hij hcsj' with hmem | hmem
    · exact Or.inl (List.mem_cons_of_mem id hmem)
    rcases List.mem_cons.1 hmem with rfl | hmem
    · exact Or.inl List.mem_cons_self
    · exact Or.inr (Or.inr hmem)

/-- **A release runs until nothing is left to look at.** -/
theorem releaseStack (h : g.WellFormed) (hs : g.Releasing ids gone stack) :
    ∃ gone', g.Releasing ids gone' [] ∧ (g.without gone).releaseStack stack = g.without gone' := by
  generalize hg : g.without gone = g'
  fun_induction Graph.releaseStack g' stack generalizing gone with
  | case1 => exact ⟨gone, hs, hg.symm⟩
  | case2 g' id stack hid ih =>
    subst hg
    obtain ⟨hgone, hi, -⟩ := (isReleasable_without h).1 hid
    exact ih (hs.take h hid) (detach_without h hgone hi.1).symm
  | case3 g' id stack hid ih =>
    subst hg
    exact ih (hs.skip h hid) rfl

/-- At the end all that should go is gone. -/
theorem mem_iff (hs : g.Releasing ids gone []) : id ∈ gone ↔ g.Expendable ids id := by
  refine ⟨hs.expendable, fun h => ?_⟩
  induction h with
  | listed hi hid _ ih => exact (hs.pending (Or.inl hid) hi ih).resolve_right (by simp)
  | producer hi hc _ _ ihc ih =>
    exact (hs.pending (Or.inr ⟨_, ihc, hc⟩) hi ih).resolve_right (by simp)

end Releasing

/-! ### The whole release -/

theorem exists_release (h : g.WellFormed) (ids : List NodeId) :
    ∃ gone, gone.Nodup ∧ (∀ id, id ∈ gone ↔ g.Expendable ids id) ∧
      g.release ids = g.without gone := by
  obtain ⟨gone, hs, hrun⟩ := (Releasing.start g ids).releaseStack h
  rw [without_nil] at hrun
  exact ⟨gone, hs.nodup, fun _ => hs.mem_iff, hrun⟩

/-- What stays is as it was. -/
theorem view?_release_eq_some (h : g.WellFormed) {ids : List NodeId} {w : Node.View} :
    (g.release ids).view? id = some w ↔ ¬ g.Expendable ids id ∧ g.view? id = some w := by
  obtain ⟨gone, -, hgone, hrelease⟩ := exists_release h ids
  rw [hrelease, view?_without, ← hgone]
  split
  next hid => simp [hid]
  next hid => simp [hid]

/-- A release answers with the number of nodes that have gone. -/
theorem release_eq_ok (h : g.release ids = g.without gone) :
    Edit.release ids g = .ok gone.length (g.without gone) := by
  have hrelease : Edit.release ids g =
      .ok ((g.release ids).released - g.released) (g.release ids) := rfl
  rw [hrelease, h]
  exact congrArg (EStateM.Result.ok · (g.without gone)) (Nat.add_sub_cancel_left ..)

/-- Nodes that the boundary does not hang on can go without changing the order. -/
theorem order_without (hgone : ∀ id ∈ gone, ¬ g.Reachable id) :
    (g.without gone).order = g.order := by
  refine order_congr rfl rfl fun {id} hid => ?_
  rw [view?_without, if_neg fun hmem => hgone id hmem hid]

/-- What is left when the same nodes have gone, each once. -/
theorem without_eq_of_nodup {gone' : List NodeId} (hnodup : gone.Nodup) (hnodup' : gone'.Nodup)
    (hmem : ∀ id, id ∈ gone ↔ id ∈ gone') :
    gone.length = gone'.length ∧ g.without gone = g.without gone' := by
  have hlength : gone.length = gone'.length :=
    ((List.perm_ext_iff_of_nodup hnodup hnodup').2 hmem).length_eq
  exact ⟨hlength, without_congr hmem hlength⟩

/-- **A release takes what should go and nothing that the boundary hangs on, and the order of the list
does not matter.** -/
theorem release_confluent (h : g.WellFormed) (ids : List NodeId) :
    ∃ gone, gone.Nodup ∧ (∀ id, id ∈ gone ↔ g.Expendable ids id) ∧
      Edit.release ids g = .ok gone.length (g.without gone) ∧
      (∀ id ∈ gone, ¬ g.Reachable id) ∧ (g.without gone).order = g.order ∧
      ∀ ids', ids.Perm ids' → Edit.release ids' g = Edit.release ids g := by
  obtain ⟨gone, hnodup, hmem, hrun⟩ := exists_release h ids
  have hsafe : ∀ id ∈ gone, ¬ g.Reachable id := fun id hid => ((hmem id).1 hid).not_reachable
  refine ⟨gone, hnodup, hmem, release_eq_ok hrun, hsafe, order_without hsafe, fun ids' hperm => ?_⟩
  obtain ⟨gone', hnodup', hmem', hrun'⟩ := exists_release h ids'
  have hsame : ∀ id, id ∈ gone' ↔ id ∈ gone := fun id =>
    ((hmem' id).trans ⟨.mono fun _ => hperm.mem_iff.2, .mono fun _ => hperm.mem_iff.1⟩).trans
      (hmem id).symm
  obtain ⟨hlength, hwithout⟩ := without_eq_of_nodup (g := g) hnodup' hnodup hsame
  rw [release_eq_ok hrun', release_eq_ok hrun, hlength, hwithout]

/-- The stray cycle with a chain of two negations that reads it. -/
def strayChain : Graph :=
  let d : Desc := ⟨.f32, .ofShape [2]⟩
  (strayCycle.insert (.unary .negative) [⟨4, 0⟩] [d]).insert (.unary .negative) [⟨5, 0⟩] [d]

theorem wellFormed_strayChain : strayChain.WellFormed :=
  wellFormed_insert_singleton (wellFormed_insert_singleton wellFormed_strayCycle ⟨_, rfl⟩) ⟨_, rfl⟩

theorem produces_strayChain {p c : NodeId} (h : strayChain.Produces p c) :
    (p, c) ∈ [(0, 1), (1, 2), (4, 3), (3, 4), (4, 5), (5, 6)] := by
  have hc : c < 7 := lt_size_of_contains (contains_of_produces_right h)
  have hsources : p ∈ strayChain.sourcesOf c := h
  match c, hc with
  | 0, _ => cases hsources
  | 1, _ | 2, _ | 3, _ | 4, _ | 5, _ | 6, _ =>
    obtain rfl := List.mem_singleton.1 hsources
    decide

theorem expendable_strayChain_iff :
    strayChain.Expendable [9, 6, 5, 0, 5] id ↔ id ∈ [5, 6] := by
  have hread : ∀ {id}, strayChain.Internal id → (∀ c, strayChain.Produces id c → c ∈ [5, 6]) →
      id ∈ [5, 6] := by
    intro id hi hcs
    match id, lt_size_of_contains hi.1 with
    | 0, _ => exact absurd (List.mem_singleton.2 rfl) hi.2.1
    | 1, _ => exact absurd (hcs 2 (List.mem_singleton.2 rfl)) (by decide)
    | 2, _ => exact absurd (List.mem_singleton.2 rfl) hi.2.2
    | 3, _ => exact absurd (hcs 4 (List.mem_singleton.2 rfl)) (by decide)
    | 4, _ => exact absurd (hcs 3 (List.mem_singleton.2 rfl)) (by decide)
    | 5, _ | 6, _ => decide
  have hlast : strayChain.Expendable [9, 6, 5, 0, 5] 6 := by
    refine .listed ⟨rfl, by decide, by decide⟩ (by decide) fun c hc => ?_
    simpa using produces_strayChain hc
  constructor
  · intro h
    induction h with
    | listed hi _ _ ih => exact hread hi ih
    | producer hi _ _ _ _ ih => exact hread hi ih
  · intro h
    simp only [List.mem_cons, List.not_mem_nil, or_false] at h
    rcases h with rfl | rfl
    · refine .listed ⟨rfl, by decide, by decide⟩ (by decide) fun c hc => ?_
      have hc' : c = 6 := by simpa using produces_strayChain hc
      exact hc' ▸ hlast
    · exact hlast

/-- Among the listed nodes one is not there, one is a parameter, and one is looked at too early. -/
theorem release_confluent_strayChain :
    Edit.release [9, 6, 5, 0, 5] strayChain = .ok 2 (strayChain.without [5, 6]) ∧
      (strayChain.without [5, 6]).order = [0, 1, 2] := by
  obtain ⟨gone, hnodup, hmem, hrun, -, horder, -⟩ :=
    release_confluent wellFormed_strayChain [9, 6, 5, 0, 5]
  have hsame : ∀ id, id ∈ gone ↔ id ∈ [5, 6] := fun id =>
    (hmem id).trans expendable_strayChain_iff
  obtain ⟨hlength, hwithout⟩ :=
    without_eq_of_nodup (g := strayChain) hnodup (by decide) hsame
  rw [hlength, hwithout] at hrun
  rw [hwithout] at horder
  refine ⟨hrun, horder.trans ?_⟩
  decide +kernel

end OpGraph.Graph
