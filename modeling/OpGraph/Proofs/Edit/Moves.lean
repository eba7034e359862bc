import OpGraph.Proofs.Edit.WellFormed
import OpGraph.Proofs.Graph.Restriction

/-!
# Invariants of replacements

A property of well-formed graphs is renamable when it survives new names and metadata, and hereditary
when it passes on to graphs that have lost nodes; releases keep what is hereditary.  It is movable from
one value to another when it survives that a reader of the first reads the second instead.  What
replacement, fusion and bypassing keep follows from these (`keeps_replaceOutput_of_movable`,
`keeps_replaceNodeWith_of_movable`, `keeps_fuse_of_movable`, `ends_bypass`).

A replacement gives one name only, that of the replaced node.  A property that speaks of names can be
inheritable in place of renamable (`keeps_replaceNodeWith_of_inheritable`).
-/

namespace OpGraph.Edit

/-- The property is about well-formed graphs and survives new names and metadata. -/
structure Renamable (P : Graph → Prop) : Prop where
  wellFormed : ∀ {g}, P g → g.WellFormed
  rename : ∀ {g id} {f : Node → Node}, P g → (∀ n, (f n).id = n.id ∧ (f n).op = n.op ∧
    (f n).inputs = n.inputs ∧ (f n).outputs = n.outputs) → P (g.modifyNode id f)

/-- The property is about well-formed graphs and survives new metadata, and that `new` takes over the
name that `old` has been given. -/
structure Inheritable (P : Graph → Prop) (old new : NodeId) : Prop where
  wellFormed : ∀ {g}, P g → g.WellFormed
  annotate : ∀ {g id} {f : Node → Metadata}, P g →
    P (g.modifyNode id fun n => { n with metadata := f n })
  inherit : ∀ {g g' n name}, P g → g.node? old = some n → n.givenName = some name → P g' →
    P (g'.modifyNode new fun n => { n with givenName := some name })

/-- The property is about well-formed graphs and passes on to graphs that have lost nodes. -/
structure Hereditary (P : Graph → Prop) : Prop where
  wellFormed : ∀ {g}, P g → g.WellFormed
  restrict : ∀ {g g'}, P g → g'.Restricts g → P g'

/-- The property survives that something that reads `old` reads `new` instead. -/
def Movable (P : Graph → Prop) (old new : Output) : Prop :=
  ∀ g i, P g → g.source? i = some old → old ≠ new → new.node ≠ i.node →
    (∃ ts, g.targets? new = some ts) → P (g.rewire i old new)

theorem Renamable.inheritable {P : Graph → Prop} (hP : Renamable P) (old new : NodeId) :
    Inheritable P old new where
  wellFormed := hP.wellFormed
  annotate h := hP.rename h fun _ => ⟨rfl, rfl, rfl, rfl⟩
  inherit _ _ _ h := hP.rename h fun _ => ⟨rfl, rfl, rfl, rfl⟩

theorem Hereditary.renamable {P : Graph → Prop} (hP : Hereditary P) : Renamable P where
  wellFormed := hP.wellFormed
  rename h hf := hP.restrict h (Graph.restricts_modifyNode (hP.wellFormed h) hf)

theorem Hereditary.and_size_le {P : Graph → Prop} (hP : Hereditary P) (n : Nat) :
    Hereditary fun g => P g ∧ n ≤ g.nodes.size where
  wellFormed h := hP.wellFormed h.1
  restrict h hr := ⟨hP.restrict h.1 hr, hr.size_eq ▸ h.2⟩

theorem Movable.and_size_le {P : Graph → Prop} {old new : Output} (hm : Movable P old new)
    (n : Nat) : Movable (fun g => P g ∧ n ≤ g.nodes.size) old new :=
  fun g i h hi hne hnode hnew =>
    ⟨hm g i h.1 hi hne hnode hnew, (Graph.size_rewire g i old new).symm ▸ h.2⟩

/-- The property that has nothing to say. -/
abbrev Anything : Graph → Prop := fun _ => True

variable {α β : Type} {P : Graph → Prop}

theorem keeps_asking (f : Graph → Except GraphError α) : Keeps P Anything (query f) :=
  keeps_query (fun _ _ => trivial) f

theorem keeps_failing (err : GraphError) : Keeps P Anything (throw err : Edit α) :=
  keeps_throw (fun _ _ => trivial) err

theorem ends_failing_bind (err : GraphError) (k : α → Edit β) (g : Graph) :
    Ends P Anything ((throw err >>= k) g) := trivial

/-- What follows a query that has answered may use the answer. -/
theorem ends_query_bind {f : Graph → Except GraphError α} {k : α → Edit β} {g : Graph}
    (h : ∀ a, f g = .ok a → Ends P Anything (k a g)) : Ends P Anything ((query f >>= k) g) := by
  obtain ⟨err, he⟩ | ⟨a, ha, hk⟩ := query_bind_cases f k g
  · rw [he]
    trivial
  · rw [hk]
    exact h a ha

/-! ### Moving readers -/

/-- Readers of a value move one after the other.  One that has moved already stays where it is. -/
theorem ends_forM_connect {old new : Output} (hm : Movable P old new) {targets : List Input}
    {g : Graph} (hg : P g) (hsrc : ∀ i ∈ targets, g.source? i = some old) :
    Ends P Anything (targets.forM (connect · new) g) := by
  have hkeep : Keeps (fun g => P g ∧ ∀ i ∈ targets, g.source? i = some old ∨ g.source? i = some new)
      Anything (targets.forM (connect · new)) := by
    refine keeps_forM fun i hi g hg => ?_
    obtain ⟨err, he⟩ | ⟨src, hs, hnew, hnode, hok⟩ := connect_cases i new g
    · rw [he]
      trivial
    rw [hok]
    split
    next => exact hg
    next hne =>
      have hold : src = old := by
        rcases hg.2 i hi with h | h
        · exact Option.some.inj (hs.symm.trans h)
        · exact absurd (Option.some.inj (hs.symm.trans h)) hne
      subst hold
      refine ⟨hm g i hg.1 hs hne hnode hnew, fun j hj => ?_⟩
      rw [Graph.source?_rewire]
      split
      next hji =>
        rw [hji, hs]
        exact Or.inr rfl
      next => exact hg.2 j hj
  have := hkeep g ⟨hg, fun i hi => Or.inl (hsrc i hi)⟩
  cases hres : targets.forM (connect · new) g with
  | ok u g' =>
    rw [hres] at this
    exact this.1
  | error err g' => trivial

/-! ### Replacement with the names that it gives -/

theorem keeps_copyMetadata_of_annotate
    (hP : ∀ {g id} {f : Node → Metadata}, P g →
      P (g.modifyNode id fun n => { n with metadata := f n }))
    (sources targets : List NodeId) : Keeps P Anything (copyMetadata sources targets) := by
  rw [copyMetadata]
  refine keeps_bind (keeps_mapM fun _ _ => keeps_asking _) fun nodes => ?_
  refine keeps_bind (keeps_forM fun _ _ => keeps_discard (keeps_asking _)) fun _ => ?_
  refine keeps_forM fun id _ g hg => ?_
  obtain ⟨err, he⟩ | ⟨-, hok⟩ := updateNode_cases id _ g
  · rw [he]
    trivial
  · rw [hok]
    exact hP hg

theorem keeps_copyMetadata_of_inheritable {old new : NodeId} (hP : Inheritable P old new)
    (sources targets : List NodeId) : Keeps P Anything (copyMetadata sources targets) :=
  keeps_copyMetadata_of_annotate hP.annotate sources targets

theorem givenName_of_nameFor {old new : Node} {name : String} (h : old.nameFor new = some name) :
    old.givenName = some name :=
  (Option.ite_none_right_eq_some.1 h).2

theorem keeps_replaceOutput_of_inheritable {old new : Output}
    (hP : Inheritable P old.node new.node) (hm : Movable P old new) :
    Keeps P Anything (replaceOutput old new) := by
  intro g hg
  rw [replaceOutput]
  refine ends_query_bind fun _ _ => ends_query_bind fun targets htargets => ?_
  have hts := Graph.targets_eq_ok.1 htargets
  split
  · refine ends_query_bind fun oldNode hold => ends_query_bind fun newNode _ => ?_
    refine ends_bind (ends_forM_connect hm hg fun i hi => ?_) fun _ => ?_
    · exact (hP.wellFormed hg).target_reads hts (List.mem_of_mem_filter hi)
    split
    next name hname =>
      intro g' hg'
      obtain ⟨err, he⟩ | ⟨-, hok⟩ := updateNode_cases new.node
        (fun n => { n with givenName := some name }) g'
      · rw [setName, he]
        trivial
      · rw [setName, hok]
        exact hP.inherit hg (Graph.node_eq_ok.1 hold) (givenName_of_nameFor hname) hg'
    · exact keeps_pure _
  · exact hg

theorem keeps_replaceNodeWith_of_inheritable {old : NodeId} {values : List Output}
    (hP : ∀ v ∈ values, Inheritable P old v.node)
    (hm : ∀ k v, values[k]? = some v → Movable P ⟨old, k⟩ v) :
    Keeps P Anything (replaceNodeWith old values) := by
  rw [replaceNodeWith]
  refine keeps_bind (keeps_asking _) fun n => ?_
  have hrest : Keeps P Anything (do
      values.forM fun v => discard (query (·.desc v))
      values.zipIdx.forM fun e => replaceOutput ⟨old, e.2⟩ e.1) := by
    refine keeps_bind (keeps_forM fun v _ => keeps_discard (keeps_asking _)) fun _ => ?_
    refine keeps_forM fun e he => ?_
    have hv : values[e.2]? = some e.1 := List.mk_mem_zipIdx_iff_getElem?.1 he
    exact keeps_replaceOutput_of_inheritable (hP e.1 (List.mem_of_getElem? hv)) (hm e.2 e.1 hv)
  dsimp only
  split
  · exact keeps_bind (keeps_failing _) fun _ => hrest
  · exact hrest

theorem keeps_replaceNode_of_inheritable {old new : NodeId} (hP : Inheritable P old new)
    (hm : ∀ k, Movable P ⟨old, k⟩ ⟨new, k⟩) : Keeps P Anything (replaceNode old new) := by
  have hrest : Keeps P Anything (do
      let n ← query (·.node new)
      replaceNodeWith old n.values) := by
    intro g hg
    refine ends_query_bind fun n hn => ?_
    have hvalues : ∀ (k : Nat) (v : Output), n.values[k]? = some v → v = ⟨new, k⟩ := by
      intro k v hv
      obtain ⟨k', hk', rfl⟩ := List.getElem?_eq_some_iff.1 hv
      simp only [Node.values, List.getElem_map, List.getElem_range]
      rw [(hP.wellFormed hg).id_eq (Graph.node_eq_ok.1 hn)]
    refine keeps_replaceNodeWith_of_inheritable (fun v hv => ?_) (fun k v hv => ?_) g hg
    · obtain ⟨k, hk⟩ := List.mem_iff_getElem?.1 hv
      exact hvalues k v hk ▸ hP
    · exact hvalues k v hv ▸ hm k
  rw [replaceNode]
  split
  · exact keeps_bind (keeps_asking _) fun _ => keeps_bind (keeps_failing _) fun _ => hrest
  · exact hrest

/-! ### Names, metadata, releases -/

section Renamable

variable (hP : Renamable P)

include hP

theorem keeps_updateNode_of_renamable (id : NodeId) {f : Node → Node}
    (hf : ∀ n, (f n).id = n.id ∧ (f n).op = n.op ∧ (f n).inputs = n.inputs ∧
      (f n).outputs = n.outputs) : Keeps P Anything (updateNode id f) := by
  intro g hg
  obtain ⟨err, he⟩ | ⟨-, hok⟩ := updateNode_cases id f g
  · rw [he]
    trivial
  · rw [hok]
    exact hP.rename hg hf

theorem keeps_setName_of_renamable (id : NodeId) (name : String) :
    Keeps P Anything (setName id name) :=
  keeps_updateNode_of_renamable hP id fun _ => ⟨rfl, rfl, rfl, rfl⟩

theorem keeps_setMetadata_of_renamable (id : NodeId) (key : String) (value : MetaValue) :
    Keeps P Anything (setMetadata id key value) :=
  keeps_updateNode_of_renamable hP id fun _ => ⟨rfl, rfl, rfl, rfl⟩

theorem keeps_copyMetadata_of_renamable (sources targets : List NodeId) :
    Keeps P Anything (copyMetadata sources targets) :=
  keeps_copyMetadata_of_inheritable (hP.inheritable 0 0) sources targets

/-! ### Replacement, fusion, bypassing -/

theorem keeps_replaceOutput_of_movable {old new : Output} (hm : Movable P old new) :
    Keeps P Anything (replaceOutput old new) :=
  keeps_replaceOutput_of_inheritable (hP.inheritable old.node new.node) hm

theorem keeps_replaceNodeWith_of_movable {old : NodeId} {values : List Output}
    (hm : ∀ k v, values[k]? = some v → Movable P ⟨old, k⟩ v) :
    Keeps P Anything (replaceNodeWith old values) :=
  keeps_replaceNodeWith_of_inheritable (fun v _ => hP.inheritable old v.node) hm

theorem keeps_replaceNode_of_movable {old new : NodeId} (hm : ∀ k, Movable P ⟨old, k⟩ ⟨new, k⟩) :
    Keeps P Anything (replaceNode old new) :=
  keeps_replaceNode_of_inheritable (hP.inheritable old new) hm

theorem keeps_fuse_of_movable {group : List NodeId} {root fused : NodeId}
    (hm : ∀ k, Movable P ⟨root, k⟩ ⟨fused, k⟩) : Keeps P Anything (fuse group root fused) := by
  rw [fuse]
  refine keeps_bind (keeps_mapM fun _ _ => keeps_asking _) fun sets => ?_
  refine keeps_bind (keeps_asking _) fun rootNode => ?_
  refine keeps_bind (keeps_copyMetadata_of_renamable hP group [fused]) fun _ => ?_
  refine keeps_bind (keeps_replaceNode_of_movable hP hm) fun _ => ?_
  refine keeps_bind (keeps_setMetadata_of_renamable hP fused _ _) fun _ => ?_
  refine keeps_bind (keeps_asking _) fun n => ?_
  split
  · exact keeps_setName_of_renamable hP fused _
  · exact keeps_pure _

/-- A node is bypassed if its readers may read what its input reads; what has lost its readers is
released at the end. -/
theorem ends_bypass_of_renamable {Q : Graph → Prop} {id : NodeId} {index : Nat} {g : Graph}
    (hg : P g) (hQ : Q g)
    (hm : ∀ source, g.source? ⟨id, index⟩ = some source → Movable P ⟨id, 0⟩ source)
    (hrelease : ∀ g, P g → Q (g.release [id])) : Ends Q Anything (bypass id index g) := by
  rw [bypass]
  refine ends_query_bind fun allowed _ => ?_
  dsimp only
  split
  swap
  · exact hQ
  refine ends_query_bind fun n _ => ends_query_bind fun source hsource => ?_
  refine ends_query_bind fun feeds _ => ends_query_bind fun targets htargets => ?_
  have hts := Graph.targets_eq_ok.1 htargets
  refine ends_then (ends_forM_connect (hm source (Graph.source_eq_ok.1 hsource)) hg
    fun i hi => (hP.wellFormed hg).target_reads hts hi) fun _ g' hg' => ?_
  have hrest : ∀ g, P g → Ends Q Anything ((do
      let _ ← release [id]
      return true : Edit Bool) g) := hrelease
  split
  · refine ends_then (keeps_setName_of_renamable hP _ _ g' hg') fun _ g₁ hg₁ => ?_
    exact ends_then (keeps_copyMetadata_of_renamable hP _ _ g₁ hg₁) fun _ g₂ hg₂ => hrest g₂ hg₂
  · exact hrest g' hg'

end Renamable

/-! ### Releases -/

section Hereditary

variable (hP : Hereditary P)

include hP

/-- Releases do not fail. -/
theorem keeps_release_of_hereditary {E : Graph → Prop} (ids : List NodeId) :
    Keeps P E (release ids) :=
  keeps_modifyGet fun _ hg =>
    hP.restrict hg (Graph.restricts_releaseStack (hP.wellFormed hg) ids.reverse)

theorem keeps_collectGarbage_of_hereditary {E : Graph → Prop} : Keeps P E collectGarbage :=
  keeps_modifyGet fun _ hg => hP.restrict hg (Graph.restricts_collectGarbage (hP.wellFormed hg))

theorem ends_bypass {id : NodeId} {index : Nat} {g : Graph} (hg : P g)
    (hm : ∀ source, g.source? ⟨id, index⟩ = some source → Movable P ⟨id, 0⟩ source) :
    Ends P Anything (bypass id index g) :=
  ends_bypass_of_renamable hP.renamable hg hg hm fun _ hg =>
    hP.restrict hg (Graph.restricts_releaseStack (hP.wellFormed hg) [id].reverse)

end Hereditary

end OpGraph.Edit
