import OpGraph.Proofs.Edit.Replacement
import OpGraph.Proofs.Graph.Incremental
import OpGraph.Proofs.Graph.Rank

/-!
# Cycles that edits close

No edit looks for cycles, so it is up to the caller not to close one.  When a node is replaced by another
one, the edges from it to its readers become edges from the new node (`Relieves.produces_iff`).  A cycle
is closed exactly if one of these readers has been on a path to the new node (`acyclic_iff_of_moved`): a
path that is there can be followed on to the new node, and where there is none, all that hangs on the
moved readers can be ranked above the new node.

A bypass lets readers of a node read what the node reads.  Every graph in which nodes rank above what
they read stays such a graph (`movable_ranked`), so no bypass closes a cycle.
-/

namespace OpGraph

open Relation (TransGen ReflTransGen)

namespace Graph

variable {g g' : Graph} {old new id p c : NodeId} {rank : NodeId → Nat}

/-! ### Readers that move to another node -/

/-- The edges after all readers of `old` have moved to `new`, apart from `new` itself. -/
theorem Relieves.produces_iff {n : Node} (h : g.Relieves old new n.outputs.length g')
    (hwf : g.WellFormed) (hold : g.node? old = some n) :
    g'.Produces p c ↔
      g.Produces p c ∧ (p = old → c = new) ∨ p = new ∧ c ≠ new ∧ g.Produces old c := by
  have hsource (i : Input) : g'.source? i = (g.source? i).map fun v =>
      if v.node = old ∧ i.node ≠ new then ⟨new, v.index⟩ else v := by
    rw [h.source]
    cases hi : g.source? i with
    | none => rfl
    | some v =>
      obtain ⟨-, ts, hts⟩ := hwf.source_exists hi
      have hindex : v.node = old → v.index < n.outputs.length := fun hv =>
        lt_of_targets? (hv ▸ hold) hts
      by_cases hv : v.node = old <;> simp [hv, hindex]
  constructor
  · intro hp
    obtain ⟨i, u, rfl, hu, rfl⟩ := produces_iff_source.1 hp
    rw [hsource] at hu
    obtain ⟨v, hv, rfl⟩ := Option.map_eq_some_iff.1 hu
    have hread := produces_of_source? hv
    split
    next hmoved => exact Or.inr ⟨rfl, hmoved.2, hmoved.1 ▸ hread⟩
    next hstays =>
      exact Or.inl ⟨hread, fun hnode => by_contra fun hreader => hstays ⟨hnode, hreader⟩⟩
  · rintro (⟨hp, hnew⟩ | ⟨rfl, hne, hp⟩)
    · obtain ⟨i, v, rfl, hv, rfl⟩ := produces_iff_source.1 hp
      refine produces_iff_source.2 ⟨i, v, rfl, ?_, rfl⟩
      rw [hsource, hv, Option.map_some, if_neg fun hmoved => hmoved.2 (hnew hmoved.1)]
    · obtain ⟨i, v, rfl, hv, hnode⟩ := produces_iff_source.1 hp
      refine produces_iff_source.2 ⟨i, ⟨p, v.index⟩, rfl, ?_, rfl⟩
      rw [hsource, hv, Option.map_some, if_pos ⟨hnode, hne⟩]

/-- A path from a reader of `old` goes on without `old`, so it is still there. -/
theorem path_of_moved (ha : g.Acyclic)
    (hstays : ∀ p c, g.Produces p c → p ≠ old → g'.Produces p c)
    (hread : TransGen g.Produces old c) (hpath : TransGen g.Produces c id) :
    TransGen g'.Produces c id := by
  have hne {q : NodeId} (hq : TransGen g.Produces old q) : q ≠ old := fun heq => ha old (heq ▸ hq)
  induction hpath using TransGen.head_induction_on with
  | single hstep => exact .single (hstays _ _ hstep (hne hread))
  | head hstep _ ih => exact .head (hstays _ _ hstep (hne hread)) (ih (hread.tail hstep))

/-- **A cycle is closed if and only if a reader that moves has been on a path to its new place.** -/
theorem acyclic_iff_of_moved (hwf : g.WellFormed) (ha : g.Acyclic)
    (hmoved : ∀ p c, g'.Produces p c ↔
      g.Produces p c ∧ (p = old → c = new) ∨ p = new ∧ c ≠ new ∧ g.Produces old c) :
    g'.Acyclic ↔ ∀ c, g.Produces old c → c ≠ new → ¬ TransGen g.Produces c new := by
  constructor
  · intro ha' c hc hne hpath
    have hstays (p c : NodeId) (hp : g.Produces p c) (hold : p ≠ old) : g'.Produces p c :=
      (hmoved p c).2 (Or.inl ⟨hp, fun heq => absurd heq hold⟩)
    have hback : g'.Produces new c := (hmoved new c).2 (Or.inr ⟨rfl, hne, hc⟩)
    exact ha' new (.head hback (path_of_moved ha hstays (.single hc) hpath))
  · intro hapart
    classical
    obtain ⟨rank, hrank⟩ := exists_rank hwf ha
    -- what hangs on a reader that moves is lifted above the new node
    let behind (q : NodeId) : Prop := ∃ c, g.Produces old c ∧ c ≠ new ∧ ReflTransGen g.Produces c q
    have hnew : ¬ behind new := by
      rintro ⟨c, hc, hne, hpath⟩
      rcases Relation.reflTransGen_iff_eq_or_transGen.1 hpath with heq | hpath
      · exact hne heq.symm
      · exact hapart c hc hne hpath
    have hclosed {p c : NodeId} (hp : g.Produces p c) : behind p → behind c := by
      rintro ⟨q, hq, hne, hpath⟩
      exact ⟨q, hq, hne, hpath.tail hp⟩
    refine acyclic_of_rank (fun q => rank q + if behind q then rank new + 1 else 0) fun p c hp => ?_
    rcases (hmoved p c).1 hp with ⟨hp, -⟩ | ⟨rfl, hne, hc⟩
    · have hlt := hrank p c hp
      by_cases hbehind : behind p
      · simp only [if_pos hbehind, if_pos (hclosed hp hbehind)]
        omega
      · simp only [if_neg hbehind]
        omega
    · have hbehind : behind c := ⟨c, hc, hne, .refl⟩
      simp only [if_neg hnew, if_pos hbehind]
      omega

/-! ### Readers that move up -/

/-- A well-formed graph in which every node ranks above what it reads. -/
structure Ranked (rank : NodeId → Nat) (g : Graph) : Prop where
  wellFormed : g.WellFormed
  rank_lt : ∀ {p id}, g.Produces p id → rank p < rank id

theorem Ranked.acyclic (h : g.Ranked rank) : g.Acyclic := acyclic_of_rank rank fun _ _ => h.rank_lt

theorem hereditary_ranked : Edit.Hereditary (Ranked rank) where
  wellFormed h := h.wellFormed
  restrict h hr := ⟨hr.wellFormed, fun hp => h.rank_lt (hr.produces hp)⟩

/-- Readers may move to a node of no higher rank. -/
theorem movable_ranked {old new : Output} (hrank : rank new.node ≤ rank old.node) :
    Edit.Movable (Ranked rank) old new := fun _ _ h hi hne hnode hlive =>
  ⟨wellFormed_rewire h.wellFormed hi hne hnode hlive, rank_lt_rewire h.rank_lt hi hrank⟩

end Graph

namespace Edit

open OpGraph.Graph

variable {g : Graph}

/-- **When edits close cycles.**  In a graph without cycles a node can be replaced by any other node with
as many outputs, and a cycle is closed if and only if one of its readers, the new node apart, is on a path
to the new node.  A bypass that answers never closes a cycle. -/
theorem replacement_acyclic_iff (hwf : g.WellFormed) (ha : g.Acyclic) :
    (∀ {old new : NodeId} {n m : Node}, old ≠ new → g.node? old = some n → g.node? new = some m →
      n.outputs.length = m.outputs.length →
        ∃ g', replaceNode old new g = .ok () g' ∧
          (g'.Acyclic ↔ ∀ c, g.Produces old c → c ≠ new → ¬ TransGen g.Produces c new)) ∧
      ∀ {id : NodeId} {index : Nat} {answer : Bool} {g' : Graph},
        bypass id index g = .ok answer g' → g'.Acyclic := by
  constructor
  · intro old new n m hne hold hnew hlen
    obtain ⟨g', hok, h⟩ := replaceNode_relieves hwf hne hold hnew hlen
    exact ⟨g', hok, acyclic_iff_of_moved hwf ha fun p c => h.produces_iff hwf hold⟩
  · intro id index answer g' hok
    obtain ⟨rank, hrank⟩ := exists_rank hwf ha
    have hstart : g.Ranked rank := ⟨hwf, fun hp => hrank _ _ hp⟩
    have hend : Ends (Ranked rank) Anything (bypass id index g) :=
      ends_bypass hereditary_ranked hstart fun source hsource =>
        movable_ranked (Nat.le_of_lt (hrank _ _ (produces_of_source? hsource)))
    exact (hend.of_ok hok).acyclic

theorem produces_tandem {p c : NodeId} (h : tandem.Produces p c) :
    (p, c) ∈ [(0, 1), (1, 2), (1, 3)] := by
  have hsources : p ∈ tandem.sourcesOf c := h
  match c, lt_size_of_contains (contains_of_produces_right h) with
  | 0, _ => cases hsources
  | 1, _ | 2, _ | 3, _ =>
    obtain rfl := List.mem_singleton.1 hsources
    decide

theorem acyclic_tandem : tandem.Acyclic := by
  refine acyclic_of_rank (fun id => id) fun p c hp => ?_
  have hmem := produces_tandem hp
  simp only [List.mem_cons, Prod.mk.injEq, List.not_mem_nil, or_false] at hmem
  obtain ⟨rfl, rfl⟩ | ⟨rfl, rfl⟩ | ⟨rfl, rfl⟩ := hmem <;> decide

/-- The second operation may take the place of the first one, but not that of the parameter, which is read
on the way to it.  The first operation can be bypassed. -/
theorem replacement_acyclic_iff_tandem :
    (tandem.WellFormed ∧ tandem.Acyclic) ∧
      (∃ g', replaceNode 1 3 tandem = .ok () g' ∧ g'.Acyclic) ∧
      (∃ g', replaceNode 0 3 tandem = .ok () g' ∧ ¬ g'.Acyclic) ∧
      ∃ g', bypass 3 0 tandem = .ok true g' ∧ g'.Acyclic := by
  obtain ⟨hreplace, hbypass⟩ := replacement_acyclic_iff wellFormed_tandem acyclic_tandem
  obtain ⟨g₁, hok₁, h₁⟩ := @hreplace 1 3 _ _ (by decide) rfl rfl rfl
  obtain ⟨g₂, hok₂, h₂⟩ := @hreplace 0 3 _ _ (by decide) rfl rfl rfl
  refine ⟨⟨wellFormed_tandem, acyclic_tandem⟩, ⟨g₁, hok₁, h₁.2 fun c hc hne hpath => ?_⟩,
    ⟨g₂, hok₂, fun ha => ?_⟩, _, rfl, @hbypass 3 0 _ _ rfl⟩
  · -- the result is read by nothing
    obtain ⟨q, hq, -⟩ := Relation.TransGen.head'_iff.1 hpath
    have hmem := produces_tandem hc
    have hmem' := produces_tandem hq
    simp only [List.mem_cons, Prod.mk.injEq, List.not_mem_nil, or_false] at hmem hmem'
    obtain ⟨hp, -⟩ | ⟨-, rfl⟩ | ⟨-, rfl⟩ := hmem
    · exact absurd hp (by decide)
    · obtain ⟨hp, -⟩ | ⟨hp, -⟩ | ⟨hp, -⟩ := hmem' <;> exact absurd hp (by decide)
    · exact hne rfl
  · have hfirst : tandem.Produces 0 1 := List.mem_singleton.2 rfl
    have hsecond : tandem.Produces 1 3 := List.mem_singleton.2 rfl
    exact h₂.1 ha 1 hfirst (by decide) (.single hsecond)

end Edit

end OpGraph
