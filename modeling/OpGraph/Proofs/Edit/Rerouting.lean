import OpGraph.Proofs.Edit.Moves

/-!
# Where readers end up

`Reading i vs g` says that the input `i` reads one of the values `vs`.  An input that reads a value that
is replaced reads the replacement in the end, unless the replacement reads the value itself
(`ends_replaceOutput_reading`).  The other replacements of a node leave it there
(`ends_replaceNodeWith_reading`, `ends_replaceNode_reading`, `ends_fuse_reading`).
-/

namespace OpGraph.Edit

/-- The input reads one of the values. -/
def Reading (i : Input) (vs : List Output) (g : Graph) : Prop :=
  g.WellFormed ∧ ∃ v ∈ vs, g.source? i = some v

variable {g : Graph} {i : Input} {vs : List Output} {v : Output}

theorem reading_singleton : Reading i [v] g ↔ g.WellFormed ∧ g.source? i = some v := by
  simp [Reading]

theorem renamable_reading : Renamable (Reading i vs) where
  wellFormed h := h.1
  rename := by
    intro g id f h hf
    refine ⟨(Graph.restricts_modifyNode h.1 hf).wellFormed, ?_⟩
    obtain ⟨v, hv, hi⟩ := h.2
    refine ⟨v, hv, ?_⟩
    rw [Graph.source?_eq_view, Graph.view?_relabel hf, ← Graph.source?_eq_view, hi]

theorem Reading.insert (h : Reading i vs g) (op : Op) {inputs : List Output} (descs : List Desc)
    (hin : ∀ v ∈ inputs, ∃ ts, g.targets? v = some ts) :
    Reading i vs (g.insert op inputs descs) := by
  obtain ⟨hg, v, hv, hi⟩ := h
  refine ⟨Graph.wellFormed_insert hg hin, v, hv, ?_⟩
  have hne : i.node ≠ g.nodes.size :=
    Nat.ne_of_lt (Graph.lt_size_of_contains (Graph.contains_of_source? hi))
  rw [Graph.source?_insert, if_neg hne, hi]

/-- A reader of one of the values may move to another one of them. -/
theorem movable_reading {old new : Output} (h : old ∈ vs → new ∈ vs) :
    Movable (Reading i vs) old new := by
  intro g j hg hj hne hnode hlive
  refine ⟨Graph.wellFormed_rewire hg.1 hj hne hnode hlive, ?_⟩
  obtain ⟨v, hv, hi⟩ := hg.2
  rw [Graph.source?_rewire]
  split
  next hij =>
    obtain rfl := Option.some.inj ((hij ▸ hi).symm.trans hj)
    exact ⟨new, h hv, by rw [hi, Option.map_some]⟩
  next => exact ⟨v, hv, hi⟩

theorem keeps_connect_reading (j : Input) : Keeps (Reading i [v]) Anything (connect j v) := by
  intro g hg
  obtain ⟨err, he⟩ | ⟨old, hold, hnew, hnode, hok⟩ := connect_cases j v g
  · rw [he]
    trivial
  · rw [hok]
    split
    next => exact hg
    next hne => exact movable_reading (fun _ => List.mem_singleton_self v) g j hg hold hne hnode hnew

theorem ends_connect_reading (hg : g.WellFormed) : Ends (Reading i [v]) Anything (connect i v g) := by
  obtain ⟨err, he⟩ | ⟨old, hold, hnew, hnode, hok⟩ := connect_cases i v g
  · rw [he]
    trivial
  · rw [hok]
    split
    next heq => exact reading_singleton.2 ⟨hg, heq ▸ hold⟩
    next hne =>
      refine reading_singleton.2 ⟨Graph.wellFormed_rewire hg hold hne hnode hnew, ?_⟩
      rw [Graph.source?_rewire, if_pos rfl, hold, Option.map_some]

theorem ends_replaceOutput_reading {old new : Output} (hg : g.WellFormed)
    (hi : g.source? i = some old) (hne : i.node ≠ new.node) :
    Ends (Reading i [new]) Anything (replaceOutput old new g) := by
  rw [replaceOutput]
  refine ends_query_bind fun _ _ => ends_query_bind fun targets htargets => ?_
  have hmem : i ∈ targets.filter (·.node ≠ new.node) :=
    List.mem_filter.2 ⟨hg.mem_targets (Graph.targets_eq_ok.1 htargets) hi, by simpa using hne⟩
  split
  · refine ends_query_bind fun _ _ => ends_query_bind fun _ _ => ?_
    have hmoved : Ends (Reading i [new]) Anything
        ((targets.filter (·.node ≠ new.node)).forM (connect · new) g) :=
      ends_forM_of_mem (P := Graph.WellFormed) hmem
        (fun j _ g hg => (invariant_wellFormed.keeps_connect j new g hg).forget)
        (fun j _ => keeps_connect_reading j) (fun g hg => ends_connect_reading hg) hg
    refine ends_bind hmoved fun _ => ?_
    split
    · exact keeps_setName_of_renamable renamable_reading new.node _
    · exact keeps_pure _
  next heq =>
    rw [ne_eq, not_not] at heq
    exact reading_singleton.2 ⟨hg, heq ▸ hi⟩

/-- What is read is one of the outputs of its node. -/
theorem lt_length_outputs (hg : g.WellFormed) (hi : g.source? i = some v) {n : Node}
    (hn : g.node? v.node = some n) : v.index < n.outputs.length := by
  obtain ⟨-, ts, hts⟩ := hg.source_exists hi
  obtain ⟨m, hm, hts⟩ := Option.bind_eq_some_iff.1 hts
  obtain rfl := Option.some.inj (hn.symm.trans hm)
  obtain ⟨s, hs, -⟩ := Option.map_eq_some_iff.1 hts
  exact (List.getElem?_eq_some_iff.1 hs).1

/-- The reader of one output of a node reads what takes the place of this output. -/
theorem ends_replaceNodeWith_reading {old : NodeId} {values : List Output} {k : Nat}
    (hg : g.WellFormed) (hi : g.source? i = some ⟨old, k⟩) (hold : ∀ w ∈ values, w.node ≠ old)
    (hne : ∀ w ∈ values, i.node ≠ w.node) :
    Ends (fun g' => ∃ v, values[k]? = some v ∧ Reading i [v] g') Anything
      (replaceNodeWith old values g) := by
  rw [replaceNodeWith]
  refine ends_query_bind fun n hn => ?_
  dsimp only
  split
  · exact ends_failing_bind _ _ g
  next hlen =>
  have hk : k < values.length := not_not.1 hlen ▸ lt_length_outputs hg hi (Graph.node_eq_ok.1 hn)
  obtain ⟨v, hv⟩ : ∃ v, values[k]? = some v := ⟨_, List.getElem?_eq_getElem hk⟩
  have hmem : (v, k) ∈ values.zipIdx := List.mk_mem_zipIdx_iff_getElem?.2 hv
  have hvmem : v ∈ values := List.mem_of_getElem? hv
  have hmoves : ∀ us, (⟨old, k⟩ ∈ us → v ∈ us) → (∀ u ∈ us, u.node = old → u = ⟨old, k⟩) →
      ∀ e ∈ values.zipIdx, Keeps (Reading i us) Anything (replaceOutput ⟨old, e.2⟩ e.1) := by
    intro us hus hold' e he
    refine keeps_replaceOutput_of_movable renamable_reading (movable_reading fun hu => ?_)
    have heq := hold' _ hu rfl
    obtain rfl : e.2 = k := congrArg Output.index heq
    have hev : e.1 = v :=
      Option.some.inj ((List.mk_mem_zipIdx_iff_getElem?.1 he).symm.trans hv)
    exact hev ▸ hus (heq ▸ hu)
  have hstays := hmoves [v] (by simp) fun u hu hnode =>
    absurd hnode (List.mem_singleton.1 hu ▸ hold v hvmem)
  have hwaits := hmoves [⟨old, k⟩, v] (by simp) fun u hu hnode => by
    rcases List.mem_pair.1 hu with rfl | rfl
    · rfl
    · exact absurd hnode (hold u hvmem)
  have hturn : ∀ g, Reading i [⟨old, k⟩, v] g →
      Ends (Reading i [v]) Anything (replaceOutput ⟨old, k⟩ v g) := by
    intro g h
    obtain ⟨hg, u, hu, hi⟩ := h
    rcases List.mem_pair.1 hu with rfl | rfl
    · exact ends_replaceOutput_reading hg hi (hne v hvmem)
    · exact hstays _ hmem g (reading_singleton.2 ⟨hg, hi⟩)
  refine ends_then (Q := Reading i [⟨old, k⟩, v])
    (keeps_forM (fun _ _ => keeps_discard (keeps_asking _)) g ⟨hg, _, List.mem_cons_self, hi⟩)
    fun _ g' hg' => ?_
  exact (ends_forM_of_mem hmem hwaits hstays hturn hg').imp fun _ h => ⟨v, hv, h⟩

theorem ends_replaceNode_reading {old new : NodeId} {k : Nat} (hg : g.WellFormed)
    (hi : g.source? i = some ⟨old, k⟩) (hnode : i.node ≠ new) :
    Ends (Reading i [⟨new, k⟩]) Anything (replaceNode old new g) := by
  rw [replaceNode]
  split
  · exact ends_query_bind fun _ _ => ends_failing_bind _ _ g
  next hne =>
    refine ends_query_bind fun n hn => ?_
    have hid := hg.id_eq (Graph.node_eq_ok.1 hn)
    have hvalues : ∀ w ∈ n.values, w.node = new := by
      intro w hw
      obtain ⟨k, -, rfl⟩ := List.mem_map.1 hw
      exact hid
    refine (ends_replaceNodeWith_reading hg hi (fun w hw => hvalues w hw ▸ Ne.symm hne)
      fun w hw => hvalues w hw ▸ hnode).imp fun g' h => ?_
    obtain ⟨v, hv, h⟩ := h
    obtain ⟨k', hk, rfl⟩ := List.getElem?_eq_some_iff.1 hv
    simpa [Node.values, hid] using h

theorem ends_fuse_reading {group : List NodeId} {root fused : NodeId} {k : Nat} (hg : g.WellFormed)
    (hi : g.source? i = some ⟨root, k⟩) (hnode : i.node ≠ fused) :
    Ends (Reading i [⟨fused, k⟩]) Anything (fuse group root fused g) := by
  have hstart : Reading i [⟨root, k⟩] g := reading_singleton.2 ⟨hg, hi⟩
  have hend : Renamable (Reading i [⟨fused, k⟩]) := renamable_reading
  rw [fuse]
  refine ends_then (keeps_mapM (fun _ _ => keeps_asking _) g hstart) fun _ g₁ hg₁ => ?_
  refine ends_query_bind fun _ _ => ?_
  refine ends_then (keeps_copyMetadata_of_renamable renamable_reading group [fused] g₁ hg₁)
    fun _ g₂ hg₂ => ?_
  obtain ⟨hwf, hi'⟩ := reading_singleton.1 hg₂
  refine ends_bind (ends_replaceNode_reading hwf hi' hnode) fun _ => ?_
  refine keeps_bind (keeps_setMetadata_of_renamable hend fused _ _) fun _ => ?_
  refine keeps_bind (keeps_asking _) fun n => ?_
  split
  · exact keeps_setName_of_renamable hend fused _
  · exact keeps_pure _

end OpGraph.Edit
