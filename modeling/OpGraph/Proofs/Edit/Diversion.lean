import OpGraph.Proofs.Edit.Rerouting
import OpGraph.Proofs.Edit.Succession
import OpGraph.Proofs.Graph.Release

/-!
# Nodes that lose their readers

`g.Diverts root ρ g'` says that what has read a value `v` of the node `root` reads `ρ v` in `g'`, that
everything else reads and computes what it did, and that no node has come or gone.  This is what a
replacement or a bypass makes of a graph, up to names and metadata (`Supplants.ends_diverts`,
`ends_replaceNodeWith_diverts`, `bypass_eq_ok`).

Two facts are put together.  On the way each input reads what it did or what it should (`Diverting`, which
steps keep), and at the end the readers of `root` have all moved (`Edit.Reading`).

If none of the new values belongs to `root`, nothing reads `root` any more.  Then a release from it takes
at least `root` itself (`released_lt_release`).
-/

namespace OpGraph

namespace Node

/-- What a node computes, apart from where it reads. -/
def View.outline (w : View) : Op × List Desc := (w.op, w.descs)

theorem View.eq_of_outline {w w' : View} (h : w'.outline = w.outline) :
    w' = { w with inputs := w'.inputs } := by
  obtain ⟨hop, hdescs⟩ := Prod.mk.inj h
  cases w
  cases w'
  simp_all only

end Node

namespace Graph

variable {g g' : Graph} {root id : NodeId} {ρ : Output → Output} {i : Input} {v : Output}

/-- The values of `root` give way to others, and other values stay. -/
def divert (root : NodeId) (ρ : Output → Output) (v : Output) : Output :=
  if v.node = root then ρ v else v

/-- All that reads `root` in `g` reads other values in `g'`, and nothing else has changed but names,
metadata and lists of readers. -/
structure Diverts (g : Graph) (root : NodeId) (ρ : Output → Output) (g' : Graph) : Prop where
  wellFormed : g'.WellFormed
  size_eq : g'.nodes.size = g.nodes.size
  parameters_eq : g'.parameters = g.parameters
  results_eq : g'.results = g.results
  released_eq : g'.released = g.released
  view_eq : ∀ id, g'.view? id =
    (g.view? id).map fun w => { w with inputs := w.inputs.map (divert root ρ) }

namespace Diverts

variable (h : g.Diverts root ρ g')

include h

theorem source?_eq (i : Input) : g'.source? i = (g.source? i).map (divert root ρ) := by
  rw [source?_eq_view, source?_eq_view, h.view_eq]
  cases g.view? i.node with
  | none => rfl
  | some w => simp

theorem op?_eq (id : NodeId) : g'.op? id = g.op? id := by
  rw [op?_eq_view, op?_eq_view, h.view_eq]
  cases g.view? id <;> rfl

theorem contains_eq (id : NodeId) : g'.contains id = g.contains id := by
  rw [contains_eq_view, contains_eq_view, h.view_eq]
  cases g.view? id <;> rfl

/-- What did not read the node is as it was. -/
theorem view_eq_of_not_produces (hid : ¬ g.Produces root id) : g'.view? id = g.view? id := by
  rw [h.view_eq]
  cases hw : g.view? id with
  | none => rfl
  | some w =>
    have hsame : w.inputs.map (divert root ρ) = w.inputs := by
      rw [List.map_congr_left (g := fun v => v), List.map_id']
      intro v hv
      exact if_neg fun hnode => hid (produces_iff_view.2 ⟨w, hw, v, hv, hnode⟩)
    rw [Option.map_some, hsame]

/-- Nothing reads the node any more if it is not read in its own place. -/
theorem not_produces (hleave : ∀ i v, g.source? i = some v → v.node = root → (ρ v).node ≠ root)
    (id : NodeId) : ¬ g'.Produces root id := by
  intro hp
  obtain ⟨i, v, -, hi, hv⟩ := produces_iff_source.1 hp
  rw [h.source?_eq] at hi
  obtain ⟨u, hu, rfl⟩ := Option.map_eq_some_iff.1 hi
  rw [divert] at hv
  split at hv
  next hroot => exact hleave i u hu hroot hv
  next hroot => exact hroot hv

/-- New names and metadata do not matter. -/
theorem modifyNode {f : Node → Node} (hf : ∀ n, (f n).id = n.id ∧ (f n).op = n.op ∧
    (f n).inputs = n.inputs ∧ (f n).outputs = n.outputs) :
    g.Diverts root ρ (g'.modifyNode id f) where
  wellFormed := (restricts_modifyNode h.wellFormed hf).wellFormed
  size_eq := (size_nodes_modifyNode ..).trans h.size_eq
  parameters_eq := h.parameters_eq
  results_eq := h.results_eq
  released_eq := h.released_eq
  view_eq j := (view?_relabel hf j).trans (h.view_eq j)

end Diverts

theorem renamable_diverts : Edit.Renamable (g.Diverts root ρ) where
  wellFormed h := h.wellFormed
  rename h hf := h.modifyNode hf

/-! ### While readers move -/

/-- Some of the inputs that read `root` in `g` have moved already. -/
structure Diverting (g : Graph) (root : NodeId) (ρ : Output → Output) (g' : Graph) : Prop where
  wellFormed : g'.WellFormed
  size_eq : g'.nodes.size = g.nodes.size
  parameters_eq : g'.parameters = g.parameters
  results_eq : g'.results = g.results
  released_eq : g'.released = g.released
  outline_eq : ∀ id, (g'.view? id).map Node.View.outline = (g.view? id).map Node.View.outline
  source?_eq : ∀ i, g'.source? i = g.source? i ∨ g'.source? i = (g.source? i).map (divert root ρ)

theorem diverting_start (hwf : g.WellFormed) : g.Diverting root ρ g :=
  ⟨hwf, rfl, rfl, rfl, rfl, fun _ => rfl, fun _ => Or.inl rfl⟩

theorem renamable_diverting : Edit.Renamable (g.Diverting root ρ) where
  wellFormed h := h.wellFormed
  rename := by
    intro g' id f h hf
    have hview (j : NodeId) : (g'.modifyNode id f).view? j = g'.view? j := view?_relabel hf j
    exact
      { wellFormed := (restricts_modifyNode h.wellFormed hf).wellFormed
        size_eq := (size_nodes_modifyNode ..).trans h.size_eq
        parameters_eq := h.parameters_eq
        results_eq := h.results_eq
        released_eq := h.released_eq
        outline_eq := fun j => by rw [hview, h.outline_eq]
        source?_eq := fun i => by
          rw [source?_eq_view, hview, ← source?_eq_view]
          exact h.source?_eq i }

/-- A reader of a value of `root` may move to where it should go. -/
theorem movable_diverting
    (hleave : ∀ i v, g.source? i = some v → v.node = root → (ρ v).node ≠ root) {k : Nat}
    {new : Output} (hnew : ρ ⟨root, k⟩ = new) :
    Edit.Movable (g.Diverting root ρ) ⟨root, k⟩ new := by
  intro g' i h hi hne hnode hlive
  -- the reader has not moved before, for then it would not read `root`
  have hold : g.source? i = some ⟨root, k⟩ := by
    rcases h.source?_eq i with heq | heq
    · rw [← heq, hi]
    · rw [hi] at heq
      obtain ⟨v, hv, hdivert⟩ := Option.map_eq_some_iff.1 heq.symm
      rw [divert] at hdivert
      split at hdivert
      next hroot => exact absurd (congrArg Output.node hdivert) (hleave i v hv hroot)
      next => rw [hv, hdivert]
  exact
    { wellFormed := wellFormed_rewire h.wellFormed hi hne hnode hlive
      size_eq := (size_rewire g' i ⟨root, k⟩ new).trans h.size_eq
      parameters_eq := h.parameters_eq
      results_eq := h.results_eq
      released_eq := h.released_eq
      outline_eq := by
        intro id
        rw [view?_rewire, ← h.outline_eq]
        split
        · cases g'.view? id <;> rfl
        · rfl
      source?_eq := by
        intro j
        rw [source?_rewire]
        split
        next hj =>
          subst hj
          rw [hi, hold, Option.map_some, Option.map_some, divert, if_pos rfl, hnew]
          exact Or.inr rfl
        next => exact h.source?_eq j }

/-- At the end all readers have moved. -/
theorem Diverting.diverts (h : g.Diverting root ρ g')
    (hmoved : ∀ i k, g.source? i = some ⟨root, k⟩ → g'.source? i = some (ρ ⟨root, k⟩)) :
    g.Diverts root ρ g' where
  wellFormed := h.wellFormed
  size_eq := h.size_eq
  parameters_eq := h.parameters_eq
  results_eq := h.results_eq
  released_eq := h.released_eq
  view_eq := by
    have hsource : ∀ i, g'.source? i = (g.source? i).map (divert root ρ) := by
      intro i
      rcases h.source?_eq i with heq | heq
      · cases hv : g.source? i with
        | none => rw [heq, hv, Option.map_none]
        | some v =>
          rw [Option.map_some, divert]
          split
          next hroot =>
            obtain ⟨node, k⟩ := v
            obtain rfl : node = root := hroot
            exact hmoved i k hv
          next => rw [heq, hv]
      · exact heq
    intro id
    have houtline := h.outline_eq id
    cases hw : g.view? id with
    | none =>
      rw [hw, Option.map_none] at houtline
      exact Option.map_eq_none_iff.1 houtline
    | some w =>
      rw [hw, Option.map_some] at houtline
      obtain ⟨w', hw', hout⟩ := Option.map_eq_some_iff.1 houtline
      have hinputs : w'.inputs = w.inputs.map (divert root ρ) := by
        refine List.ext_getElem? fun k => ?_
        have hk := hsource ⟨id, k⟩
        rw [source?_of_view? hw', source?_of_view? hw] at hk
        rw [hk, List.getElem?_map]
      rw [hw', Option.map_some, ← hinputs]
      exact congrArg some (Node.View.eq_of_outline hout)

theorem ends_diverts {α : Type} {r : EStateM.Result GraphError Graph α}
    (h : Ends (g.Diverting root ρ) Edit.Anything r)
    (hmoved : ∀ i k, g.source? i = some ⟨root, k⟩ →
      Ends (Edit.Reading i [ρ ⟨root, k⟩]) Edit.Anything r) :
    Ends (g.Diverts root ρ) Edit.Anything r := by
  cases r with
  | ok a g' => exact h.diverts fun i k hi => (Edit.reading_singleton.1 (hmoved i k hi)).2
  | error err g' => trivial

/-! ### The release afterwards -/

theorem WellFormed.internal (hwf : g.WellFormed) {w : Node.View} (hw : g.view? id = some w)
    (hp : w.op.kind ≠ .parameter) (hr : w.op.kind ≠ .result) : g.Internal id := by
  have hkind : g.kind? id = some w.op.kind := by rw [kind?_eq_view, hw, Option.map_some]
  refine ⟨contains_of_view? hw, fun hmem => hp ?_, fun hmem => hr ?_⟩
  · exact Option.some.inj (hkind.symm.trans (hwf.mem_parameters.1 hmem))
  · exact Option.some.inj (hkind.symm.trans (hwf.kind_of_mem_results hmem))

theorem released_le_release (hwf : g.WellFormed) (ids : List NodeId) :
    g.released ≤ (g.release ids).released := by
  obtain ⟨gone, -, -, hrelease⟩ := exists_release hwf ids
  rw [hrelease]
  exact Nat.le_add_right ..

theorem released_lt_release (hwf : g.WellFormed) {ids : List NodeId} (hid : g.Expendable ids id) :
    g.released < (g.release ids).released := by
  obtain ⟨gone, -, hmem, hrelease⟩ := exists_release hwf ids
  rw [hrelease]
  exact Nat.lt_add_of_pos_right (List.length_pos_of_mem ((hmem id).2 hid))

/-- **A node that has lost its readers goes in a release from it.** -/
theorem Diverts.expendable (h : g.Diverts root ρ g')
    (hleave : ∀ i v, g.source? i = some v → v.node = root → (ρ v).node ≠ root)
    (hroot : g.Internal root) {ids : List NodeId} (hmem : root ∈ ids) : g'.Expendable ids root := by
  have hinternal : g'.Internal root := by
    rwa [Internal, h.contains_eq, h.parameters_eq, h.results_eq]
  exact .listed hinternal hmem fun c hc => absurd hc (h.not_produces hleave c)

end Graph

namespace Edit

open OpGraph.Graph

variable {g g' : Graph}

/-! ### Replacement -/

/-- What is done with a new node lets its outputs be read in the place of those of `old`. -/
structure Supplants (old : NodeId) (rest : NodeId → Edit Bool) : Prop where
  keeps : ∀ {P : Graph → Prop} {new : NodeId}, Renamable P →
    (∀ k, Movable P ⟨old, k⟩ ⟨new, k⟩) → Keeps P Anything (rest new)
  moves : ∀ {g : Graph} {new : NodeId} {i : Input} {k : Nat}, g.WellFormed →
    g.source? i = some ⟨old, k⟩ → i.node ≠ new → Ends (Reading i [⟨new, k⟩]) Anything (rest new g)

/-- The values that stand for those of a node, in order, when one node stands for another. -/
def outputsOf (new : NodeId) (v : Output) : Output := ⟨new, v.index⟩

theorem Supplants.ends_diverts {old new : NodeId} {rest : NodeId → Edit Bool}
    (h : Supplants old rest) (hwf : g.WellFormed) (hne : new ≠ old) (hread : ¬ g.Produces old new) :
    Ends (g.Diverts old (outputsOf new)) Anything (rest new g) := by
  refine Graph.ends_diverts (h.keeps renamable_diverting
    (fun k => movable_diverting (fun _ _ _ _ => hne) rfl) g (diverting_start hwf)) fun i k hi => ?_
  refine h.moves hwf hi fun hnode => hread ?_
  exact hnode ▸ produces_of_source? hi

/-- What the outputs of a node are replaced by, one by one. -/
def listed (values : List Output) (v : Output) : Output := values[v.index]?.getD v

theorem ends_replaceNodeWith_diverts (hwf : g.WellFormed) {root : NodeId} {values : List Output}
    (hne : ∀ w ∈ values, w.node ≠ root) (hread : ∀ w ∈ values, ¬ g.Produces root w.node) :
    Ends (fun g' => g.Diverts root (listed values) g' ∧
      ∀ i v, g.source? i = some v → v.node = root → (listed values v).node ≠ root)
      Anything (replaceNodeWith root values g) := by
  cases hn : g.node root with
  | error err =>
    rw [replaceNodeWith, bind_of_error (query_of_error hn)]
    trivial
  | ok n =>
    by_cases hlen : n.outputs.length = values.length
    swap
    · rw [replaceNodeWith, bind_of_ok (query_of_ok hn)]
      dsimp only
      rw [if_pos hlen]
      exact ends_failing_bind _ _ g
    -- every output that is read has a replacement
    have hvalue : ∀ i v, g.source? i = some v → v.node = root → ∃ w, values[v.index]? = some w := by
      intro i v hi hv
      have hlt := lt_length_outputs hwf hi (hv ▸ Graph.node_eq_ok.1 hn)
      exact ⟨_, List.getElem?_eq_getElem (hlen ▸ hlt)⟩
    have hleave : ∀ i v, g.source? i = some v → v.node = root → (listed values v).node ≠ root := by
      intro i v hi hv
      obtain ⟨w, hw⟩ := hvalue i v hi hv
      rw [listed, hw, Option.getD_some]
      exact hne w (List.mem_of_getElem? hw)
    have hdiverts : Ends (g.Diverts root (listed values)) Anything (replaceNodeWith root values g) := by
      refine ends_diverts (keeps_replaceNodeWith_of_movable renamable_diverting
        (fun k w hw => movable_diverting hleave (by rw [listed, hw, Option.getD_some])) g
        (diverting_start hwf)) fun i k hi => ?_
      refine (ends_replaceNodeWith_reading hwf hi hne fun w hw hnode => hread w hw ?_).imp
        fun g' h => ?_
      · exact hnode ▸ produces_of_source? hi
      · obtain ⟨w, hw, hreads⟩ := h
        rwa [listed, hw, Option.getD_some]
    exact hdiverts.imp fun g' h => ⟨h, hleave⟩

/-! ### Bypassing -/

theorem length_outputs_of_canBypass {id : NodeId} {index : Nat}
    (h : g.canBypass id index = .ok true) : ∃ n, g.node? id = some n ∧ n.outputs.length = 1 := by
  obtain ⟨n, hn, h⟩ := except_bind_eq_ok.1 h
  split at h
  next => cases h
  next hlen => exact ⟨n, node_eq_ok.1 hn, not_not.1 hlen⟩

/-- All that reads the output of a node moves to another node. -/
theorem ends_forM_connect_diverts (hwf : g.WellFormed) {id : NodeId} {targets : List Input}
    (htargets : g.targets? ⟨id, 0⟩ = some targets) {n : Node} (hn : g.node? id = some n)
    (hlen : n.outputs.length = 1) {source : Output} (hne : source.node ≠ id) :
    Ends (g.Diverts id fun _ => source) Anything (targets.forM (connect · source) g) := by
  have hreads : ∀ i ∈ targets, g.source? i = some ⟨id, 0⟩ := fun i hi => hwf.target_reads htargets hi
  refine ends_diverts (ends_forM_connect (movable_diverting (fun _ _ _ _ => hne) rfl)
    (diverting_start hwf) hreads) fun i k hi => ?_
  -- the node has a single output, so the reader is one of those that move
  obtain rfl : k = 0 := by
    have hlt := lt_length_outputs hwf hi hn
    rw [hlen] at hlt
    exact Nat.lt_one_iff.1 hlt
  exact ends_forM_of_mem (P := WellFormed) (hwf.mem_targets htargets hi)
    (fun j _ g hg => (invariant_wellFormed.keeps_connect j source g hg).forget)
    (fun j _ => keeps_connect_reading j)
    (fun g hg => ends_connect_reading hg) hwf

/-- A bypass that is not refused moves what reads the node, passes the name and the metadata on if there is
a result among it, and releases the node. -/
theorem bypass_steps {id : NodeId} {index : Nat} (h : bypass id index g = .ok true g') :
    ∃ n source feeds targets g₁ g₂, g.canBypass id index = .ok true ∧ g.node? id = some n ∧
      g.source? ⟨id, index⟩ = some source ∧ g.feedsResult id = .ok feeds ∧
      g.targets? ⟨id, 0⟩ = some targets ∧ targets.forM (connect · source) g = .ok () g₁ ∧
      (if feeds then ∃ g₀, setName source.node n.friendlyName g₁ = .ok () g₀ ∧
        copyMetadata [source.node, id] [source.node] g₀ = .ok () g₂ else g₂ = g₁) ∧
      g' = g₂.release [id] := by
  rw [bypass] at h
  obtain ⟨allowed, g₀, hallowed, h⟩ := bind_eq_ok.1 h
  obtain ⟨hyes, rfl⟩ := query_eq_ok.1 hallowed
  cases allowed with
  | false => cases (pure_eq_ok.1 h).1
  | true =>
    obtain ⟨n, g₀, hnode, h⟩ := bind_eq_ok.1 h
    obtain ⟨hn, rfl⟩ := query_eq_ok.1 hnode
    obtain ⟨source, g₀, hread, h⟩ := bind_eq_ok.1 h
    obtain ⟨hsource, rfl⟩ := query_eq_ok.1 hread
    obtain ⟨feeds, g₀, hasked, h⟩ := bind_eq_ok.1 h
    obtain ⟨hfeeds, rfl⟩ := query_eq_ok.1 hasked
    obtain ⟨targets, g₀, hlist, h⟩ := bind_eq_ok.1 h
    obtain ⟨htargets, rfl⟩ := query_eq_ok.1 hlist
    obtain ⟨u, g₁, hmove, h⟩ := bind_eq_ok.1 h
    have hrelease {g₂ : Graph} (h₂ : (do
        let _ ← release [id]
        return true : Edit Bool) g₂ = .ok true g') : g' = g₂.release [id] := by
      obtain ⟨count, g₃, hrelease, h₂⟩ := bind_eq_ok.1 h₂
      obtain ⟨-, rfl⟩ := modifyGet_eq_ok.1 hrelease
      exact (pure_eq_ok.1 h₂).2.symm
    cases feeds with
    | false =>
      exact ⟨n, source, false, targets, g₁, g₁, hyes, node_eq_ok.1 hn, source_eq_ok.1 hsource, hfeeds,
        targets_eq_ok.1 htargets, hmove, rfl, hrelease h⟩
    | true =>
      obtain ⟨u, g₂, hname, h⟩ := bind_eq_ok.1 h
      obtain ⟨u, g₃, hcopy, h⟩ := bind_eq_ok.1 h
      exact ⟨n, source, true, targets, g₁, g₃, hyes, node_eq_ok.1 hn, source_eq_ok.1 hsource, hfeeds,
        targets_eq_ok.1 htargets, hmove, ⟨g₂, hname, hcopy⟩, hrelease h⟩

/-- **A node that is bypassed loses its readers to what it reads, and is released then.** -/
theorem bypass_eq_ok (hwf : g.WellFormed) {id : NodeId} {index : Nat}
    (h : bypass id index g = .ok true g') :
    ∃ source g₁, g.source? ⟨id, index⟩ = some source ∧ g.Diverts id (fun _ => source) g₁ ∧
      g' = g₁.release [id] := by
  obtain ⟨n, source, feeds, targets, g₁, g₂, hyes, -, hread, -, htargets, hmove, hname, hend⟩ :=
    bypass_steps h
  obtain ⟨m, hm, hlen⟩ := length_outputs_of_canBypass hyes
  have h₁ := (ends_forM_connect_diverts hwf htargets hm hlen (hwf.source_exists hread).1).of_ok hmove
  refine ⟨source, g₂, hread, ?_, hend⟩
  split at hname
  · obtain ⟨g₀, hname, hcopy⟩ := hname
    have h₂ := (keeps_setName_of_renamable renamable_diverts _ _).of_ok h₁ hname
    exact (keeps_copyMetadata_of_renamable renamable_diverts _ _).of_ok h₂ hcopy
  · exact hname ▸ h₁

end Edit

end OpGraph
