import OpGraph.Proofs.Edit.Moves
import OpGraph.Proofs.Graph.Garbage

/-!
# Graphs with nothing to collect

In a graph without cycles the boundary hangs on every node as soon as every node is anchored: it belongs
to the boundary, or something reads it (`Tidy.reachable`).  This can be seen node by node, and it is what
transformations keep.  While one is under way some nodes are loose.  New nodes are loose until something
reads them (`Tidy.insert`), and a node becomes loose when its readers move (`movable_tidy`).

A release from the loose nodes makes the graph tidy again, whatever else has to go (`Tidy.release`).
-/

namespace OpGraph.Graph

/-- The node belongs to the boundary, or something reads it. -/
def Anchored (g : Graph) (id : NodeId) : Prop :=
  id ∈ g.parameters ∨ id ∈ g.results ∨ ∃ c, g.Produces id c

/-- A graph of built-in operations without cycles in which all nodes but the loose ones are anchored. -/
structure Tidy (rank : NodeId → Nat) (loose : List NodeId) (g : Graph) : Prop where
  wellFormed : g.WellFormed
  rank_lt : ∀ {p id}, g.Produces p id → rank p < rank id
  isBuiltIn : ∀ {id op}, g.op? id = some op → op.isBuiltIn
  anchored : ∀ {id}, g.contains id → id ∉ loose → g.Anchored id

variable {g : Graph} {rank : NodeId → Nat} {loose : List NodeId} {id : NodeId}

theorem tidy_of_reachable (hwf : g.WellFormed)
    (hrank : ∀ p id, g.Produces p id → rank p < rank id)
    (hbuilt : ∀ id op, g.op? id = some op → op.isBuiltIn)
    (hlive : ∀ id, g.contains id → g.Reachable id) : g.Tidy rank [] where
  wellFormed := hwf
  rank_lt hp := hrank _ _ hp
  isBuiltIn hop := hbuilt _ _ hop
  anchored := by
    intro id hid _
    cases hlive id hid with
    | parameter hp => exact Or.inl hp
    | result hr => exact Or.inr (Or.inl hr)
    | producer _ hp => exact Or.inr (Or.inr ⟨_, hp⟩)

namespace Tidy

theorem mono {loose' : List NodeId} (h : Tidy rank loose g) (hl : ∀ id ∈ loose, id ∈ loose') :
    Tidy rank loose' g :=
  ⟨h.wellFormed, h.rank_lt, h.isBuiltIn, fun hid hnot => h.anchored hid fun hmem => hnot (hl _ hmem)⟩

/-- **The boundary hangs on all nodes of a tidy graph**: on those that nothing reads because they belong
to it, and on the others because it hangs on their readers. -/
theorem reachable (h : Tidy rank [] g) (hid : g.contains id) : g.Reachable id := by
  have ha : g.Acyclic := acyclic_of_rank rank fun _ _ => h.rank_lt
  induction id using ha.consumer_induction with
  | hP id ih =>
    rcases h.anchored hid List.not_mem_nil with hp | hr | ⟨c, hc⟩
    · exact .parameter hp
    · exact .result hr
    · exact (ih c hc (contains_of_produces_right hc)).producer hc

end Tidy

theorem Produces.insert {p c : NodeId} (h : g.Produces p c) (op : Op) (inputs : List Output)
    (descs : List Desc) : (g.insert op inputs descs).Produces p c := by
  obtain ⟨w, hw, hv⟩ := produces_iff_view.1 h
  exact produces_iff_view.2 ⟨w, view?_insert_of_view? _ _ _ _ hw, hv⟩

/-- What reads another node than the one that loses a reader reads it still. -/
theorem Produces.rewire {p c : NodeId} (h : g.Produces p c) {i : Input} {old : Output}
    (hi : g.source? i = some old) (hne : p ≠ old.node) (new : Output) :
    (g.rewire i old new).Produces p c := by
  obtain ⟨j, v, rfl, hv, rfl⟩ := produces_iff_source.1 h
  refine produces_iff_source.2 ⟨j, v, rfl, ?_, rfl⟩
  have hji : j ≠ i := by
    rintro rfl
    exact hne (congrArg Output.node (Option.some.inj (hv.symm.trans hi)))
  rw [source?_rewire, if_neg hji, hv]

theorem sourcesOf_eq_node (g : Graph) (id : NodeId) :
    g.sourcesOf id = ((g.node? id).map Node.sources).getD [] := by
  rw [sourcesOf]
  cases g.node? id <;> rfl

namespace Tidy

/-- New names, metadata and descriptions do not matter. -/
theorem modifyNode (h : Tidy rank loose g) {f : Node → Node}
    (hwf : (g.modifyNode id f).WellFormed)
    (hf : ∀ n, (f n).op = n.op ∧ (f n).inputs = n.inputs) :
    Tidy rank loose (g.modifyNode id f) := by
  have hop : ∀ j, (g.modifyNode id f).op? j = g.op? j :=
    map_modifyNode (fun n => (hf n).1) g id
  have hsources : ∀ j, (g.modifyNode id f).sourcesOf j = g.sourcesOf j := by
    intro j
    rw [sourcesOf_eq_node, sourcesOf_eq_node,
      map_modifyNode fun n => congrArg (List.map Output.node) (hf n).2]
  have hproduces : ∀ {p c}, (g.modifyNode id f).Produces p c ↔ g.Produces p c := by
    intro p c
    rw [Produces, hsources, ← Produces]
  exact
    { wellFormed := hwf
      rank_lt := fun hp => h.rank_lt (hproduces.1 hp)
      isBuiltIn := fun hj => h.isBuiltIn ((hop _).symm.trans hj)
      anchored := by
        intro j hj hnot
        rw [contains_modifyNode] at hj
        refine (h.anchored hj hnot).imp_right (Or.imp_right ?_)
        rintro ⟨c, hc⟩
        exact ⟨c, hproduces.2 hc⟩ }

/-- A new node that reads what was loose is the only one that is loose then. -/
theorem insert (h : Tidy rank loose g) {op : Op} {inputs : List Output} (descs : List Desc)
    (hin : ∀ v ∈ inputs, ∃ ts, g.targets? v = some ts) (hbuilt : op.isBuiltIn)
    (hp : op.kind ≠ .parameter) (hr : op.kind ≠ .result) {k : Nat}
    (hk : ∀ v ∈ inputs, rank v.node < k) (hloose : ∀ id ∈ loose, ∃ v ∈ inputs, v.node = id) :
    Tidy (Function.update rank g.nodes.size k) [g.nodes.size] (g.insert op inputs descs) where
  wellFormed := wellFormed_insert h.wellFormed hin
  rank_lt := rank_lt_insert h.wellFormed h.rank_lt hin hk
  isBuiltIn := by
    intro id op' hop
    obtain ⟨w, hw, rfl⟩ := exists_view_of_op? hop
    obtain ⟨-, rfl⟩ | hw := view?_of_view?_insert _ _ _ _ hw
    · exact hbuilt
    · exact h.isBuiltIn (op?_of_view? hw)
  anchored := by
    intro id hid hnew
    have hlive : g.contains id := by simpa [contains_insert, List.mem_singleton.not.1 hnew] using hid
    rw [Anchored, parameters_insert _ _ _ hp, results_insert _ _ _ hr]
    by_cases hmem : id ∈ loose
    · obtain ⟨v, hv, hvid⟩ := hloose id hmem
      have hview : (g.insert op inputs descs).view? g.nodes.size = some ⟨op, inputs, descs⟩ := by
        rw [view?_insert, if_pos rfl]
      exact Or.inr (Or.inr ⟨_, produces_iff_view.2 ⟨_, hview, v, hv, hvid⟩⟩)
    · refine (h.anchored hlive hmem).imp_right (Or.imp_right ?_)
      rintro ⟨c, hc⟩
      exact ⟨c, hc.insert op inputs descs⟩

/-- What is loose and has found a reader is loose no more. -/
theorem of_cons {id : NodeId} (h : Tidy rank (id :: loose) g) (hid : g.Anchored id) :
    Tidy rank loose g where
  wellFormed := h.wellFormed
  rank_lt := h.rank_lt
  isBuiltIn := h.isBuiltIn
  anchored := by
    intro j hj hnot
    by_cases hji : j = id
    · exact hji ▸ hid
    · exact h.anchored hj (by simp [hji, hnot])

/-- **A release from the loose nodes makes the graph tidy.**  What it leaves without readers would have
gone as well. -/
theorem release (h : Tidy rank loose g) {ids : List NodeId} (hids : ∀ id ∈ loose, id ∈ ids) :
    Tidy rank [] (g.release ids) := by
  have hr : (g.release ids).Restricts g := restricts_releaseStack h.wellFormed ids.reverse
  obtain ⟨gone, -, hmem, hrun⟩ := exists_release h.wellFormed ids
  rw [hrun] at hr ⊢
  refine ⟨hr.wellFormed, fun hp => h.rank_lt (produces_without.1 hp).2, ?_, ?_⟩
  · intro id op hop
    obtain ⟨w, hw, rfl⟩ := exists_view_of_op? hop
    exact h.isBuiltIn (op?_of_view? (hr.view_eq hw))
  · intro id hid _
    obtain ⟨hgone, hlive⟩ := contains_without.1 hid
    by_contra hnot
    obtain ⟨hparam, hrest⟩ := not_or.1 hnot
    obtain ⟨hres, hread⟩ := not_or.1 hrest
    have hcs : ∀ c, g.Produces id c → g.Expendable ids c := by
      intro c hc
      by_contra hexp
      exact hread ⟨c, produces_without.2 ⟨fun hcgone => hexp ((hmem c).1 hcgone), hc⟩⟩
    refine hgone ((hmem id).2 ?_)
    by_cases hl : id ∈ loose
    · exact .listed ⟨hlive, hparam, hres⟩ (hids id hl) hcs
    · obtain ⟨c, hc⟩ := ((h.anchored hlive hl).resolve_left hparam).resolve_left hres
      exact .producer ⟨hlive, hparam, hres⟩ hc (hcs c hc) hcs

end Tidy

theorem renamable_tidy : Edit.Renamable (Tidy rank loose) where
  wellFormed h := h.wellFormed
  rename h hf := h.modifyNode (restricts_modifyNode h.wellFormed hf).wellFormed
    fun n => ⟨(hf n).2.1, (hf n).2.2.1⟩

/-- The readers of a loose node may move to a node of no higher rank. -/
theorem movable_tidy {old new : Output} (hold : old.node ∈ loose)
    (hrank : rank new.node ≤ rank old.node) : Edit.Movable (Tidy rank loose) old new := by
  intro g i h hi hne hnode hlive
  exact
    { wellFormed := wellFormed_rewire h.wellFormed hi hne hnode hlive
      rank_lt := rank_lt_rewire h.rank_lt hi hrank
      isBuiltIn := by
        intro id op hop
        obtain ⟨w, hw, rfl⟩ := exists_view_of_op? hop
        obtain hw | ⟨w', rfl, hw', rfl⟩ := view?_of_view?_rewire hw
        · exact h.isBuiltIn (op?_of_view? hw)
        · have hop := op?_of_view? hw'
          exact h.isBuiltIn hop
      anchored := by
        intro id hid hnot
        have hlive : g.contains id := by
          rwa [contains_iff_mem_ids, ids_rewire, ← contains_iff_mem_ids] at hid
        refine (h.anchored hlive hnot).imp_right (Or.imp_right ?_)
        rintro ⟨c, hc⟩
        exact ⟨c, hc.rewire hi (fun heq => hnot (heq ▸ hold)) new⟩ }

theorem keeps_revalidate_tidy (id : NodeId) :
    Keeps (Tidy rank loose) Edit.Anything (Edit.revalidate id) := by
  intro g h
  have hwf := (Edit.invariant_wellFormed.keeps_revalidate id g h.wellFormed)
  obtain ⟨err, he⟩ | ⟨outs, changed, -, hok⟩ := Edit.revalidate_cases id g
  · rw [he]
    trivial
  · rw [hok] at hwf ⊢
    exact h.modifyNode hwf fun _ => ⟨rfl, rfl⟩

/-! ### Ranks aside -/

/-- The graph is tidy but for the given nodes, for some ranks. -/
def TidyBut (loose : List NodeId) (g : Graph) : Prop := ∃ rank, g.Tidy rank loose

theorem TidyBut.of_tidy (h : g.TidyBut []) (loose : List NodeId) : g.TidyBut loose := by
  obtain ⟨rank, h⟩ := h
  exact ⟨rank, h.mono (by simp)⟩

theorem keeps_revalidate_tidyBut (loose : List NodeId) (id : NodeId) :
    Keeps (TidyBut loose) Edit.Anything (Edit.revalidate id) := by
  intro g h
  obtain ⟨rank, h⟩ := h
  exact (keeps_revalidate_tidy id g h).imp fun _ h => ⟨rank, h⟩

end OpGraph.Graph
