import OpGraph.Proofs.Edit.Moves
import OpGraph.Proofs.Graph.Consistent
import OpGraph.Proofs.Graph.Rank

/-!
# Typings

A typing gives every output a description for good.  `g.Typed g₀ τ rank` says that the graph `g`, which
has come from `g₀`, keeps to the typing `τ`: its nodes have the descriptions that `τ` gives them, those
that matter to `g₀` are up to date, and a node has a higher rank than what it reads.

What transforms a graph step by step keeps a typing as long as every reader that moves finds the same
description at a node of no higher rank (`movable_typed`), and new nodes extend it (`Typed.insert`).
`Conserves g₀ g` leaves the typing open: it is what such steps keep (`hereditary_conserves`), and it holds
of a consistent graph itself (`conserves_start`).
-/

namespace OpGraph

/-- The descriptions of the outputs of all nodes. -/
abbrev Typing := NodeId → List Desc

/-- The description of an output. -/
def Typing.desc? (τ : Typing) (v : Output) : Option Desc := (τ v.node)[v.index]?

/-- Inference finds the descriptions of the node from those that the typing gives to what it reads. -/
def Typing.Fits (τ : Typing) (w : Node.View) : Prop :=
  ∃ ds, List.Forall₂ (fun v d => τ.desc? v = some d) w.inputs ds ∧ w.op.infer ds = .ok w.descs

namespace Graph

/-- The boundary of `g₀` hangs on the node, or the node is newer than all of `g₀`. -/
def Relevant (g₀ : Graph) (id : NodeId) : Prop := g₀.Reachable id ∨ g₀.nodes.size ≤ id

/-- The graph has come from `g₀` and keeps to the typing. -/
structure Typed (g₀ : Graph) (τ : Typing) (rank : NodeId → Nat) (g : Graph) : Prop where
  wellFormed : g.WellFormed
  parameters_eq : g.parameters = g₀.parameters
  results_eq : g.results = g₀.results
  size_le : g₀.nodes.size ≤ g.nodes.size
  rank_lt : ∀ {p id}, g.Produces p id → rank p < rank id
  descs_eq : ∀ {id w}, g.view? id = some w → w.descs = τ id
  start_eq : ∀ {id w}, g₀.view? id = some w → w.descs = τ id
  isBuiltIn : ∀ {id w}, g₀.Relevant id → g.view? id = some w → w.op.isBuiltIn
  fits : ∀ {id w}, g₀.Relevant id → g.view? id = some w → τ.Fits w
  relevant : ∀ {id w}, g₀.Relevant id → g.view? id = some w → ∀ v ∈ w.inputs, g₀.Relevant v.node

variable {g₀ g : Graph} {τ : Typing} {rank : NodeId → Nat}

theorem hereditary_typed : Edit.Hereditary (Typed g₀ τ rank) where
  wellFormed h := h.wellFormed
  restrict h hr :=
    { wellFormed := hr.wellFormed
      parameters_eq := hr.parameters_eq.trans h.parameters_eq
      results_eq := hr.results_eq.trans h.results_eq
      size_le := hr.size_eq ▸ h.size_le
      rank_lt := fun hp => by
        obtain ⟨w, hw, hv⟩ := produces_iff_view.1 hp
        exact h.rank_lt (produces_iff_view.2 ⟨w, hr.view_eq hw, hv⟩)
      descs_eq := fun hw => h.descs_eq (hr.view_eq hw)
      start_eq := h.start_eq
      isBuiltIn := fun hid hw => h.isBuiltIn hid (hr.view_eq hw)
      fits := fun hid hw => h.fits hid (hr.view_eq hw)
      relevant := fun hid hw => h.relevant hid (hr.view_eq hw) }

/-- A reader may move to a value with the same description at a node of no higher rank. -/
theorem movable_typed {old new : Output} (hdesc : τ.desc? old = τ.desc? new)
    (hrank : rank new.node ≤ rank old.node) (hnew : g₀.Relevant new.node) :
    Edit.Movable (Typed g₀ τ rank) old new := by
  intro g i h hi hne hnode hlive
  have hold : ∀ {w}, g.view? i.node = some w → w.inputs[i.index]? = some old := fun hw =>
    (source?_of_view? hw).symm.trans hi
  exact
    { wellFormed := wellFormed_rewire h.wellFormed hi hne hnode hlive
      parameters_eq := h.parameters_eq
      results_eq := h.results_eq
      size_le := (size_rewire g i old new).symm ▸ h.size_le
      rank_lt := rank_lt_rewire h.rank_lt hi hrank
      descs_eq := by
        intro id w hw
        obtain hw | ⟨w', rfl, hw', rfl⟩ := view?_of_view?_rewire hw
        · exact h.descs_eq hw
        · exact h.descs_eq (w := w') hw'
      start_eq := h.start_eq
      isBuiltIn := by
        intro id w hid hw
        obtain hw | ⟨w', rfl, hw', rfl⟩ := view?_of_view?_rewire hw
        · exact h.isBuiltIn hid hw
        · exact h.isBuiltIn (w := w') hid hw'
      fits := by
        intro id w hid hw
        obtain hw | ⟨w', rfl, hw', rfl⟩ := view?_of_view?_rewire hw
        · exact h.fits hid hw
        · obtain ⟨ds, hds, hinfer⟩ := h.fits hid hw'
          exact ⟨ds, forall₂_set hds (hold hw') fun d _ hd => hdesc ▸ hd, hinfer⟩
      relevant := by
        intro id w hid hw v hv
        obtain hw | ⟨w', rfl, hw', rfl⟩ := view?_of_view?_rewire hw
        · exact h.relevant hid hw v hv
        · rcases List.mem_or_eq_of_mem_set hv with hv | rfl
          · exact h.relevant hid hw' v hv
          · exact hnew }

namespace Typed

variable (h : Typed g₀ τ rank g)

include h

theorem desc?_eq {v : Output} (hv : g.contains v.node) : g.desc? v = τ.desc? v := by
  obtain ⟨w, hw⟩ := contains_iff_view.1 hv
  rw [desc?_of_view? hw, h.descs_eq hw, Typing.desc?]

theorem typing_desc? {v : Output} {d : Desc} (hd : g.desc? v = some d) : τ.desc? v = some d := by
  obtain ⟨w, hw, hd⟩ := Option.bind_eq_some_iff.1 hd
  rwa [Typing.desc?, ← h.descs_eq hw]

/-- A live node that matters reads lower nodes that matter, and it is described by what inference finds
from their descriptions. -/
theorem reads {id : NodeId} (hid : g₀.Relevant id) {w : Node.View} (hw : g.view? id = some w) :
    ∃ ds, List.Forall₂ (fun v d => g.desc? v = some d ∧ g₀.Relevant v.node ∧
      rank v.node < rank id) w.inputs ds ∧ w.op.infer ds = .ok w.descs := by
  obtain ⟨ds, hds, hinfer⟩ := h.fits hid hw
  refine ⟨ds, forall₂_iff_getElem?.2 ⟨hds.length_eq, fun k v d hv hd => ?_⟩, hinfer⟩
  have hmem := List.mem_of_getElem? hv
  have hp : g.Produces v.node id := produces_of_view? hw hmem
  rw [h.desc?_eq (h.wellFormed.contains_of_produces hp)]
  exact ⟨(forall₂_iff_getElem?.1 hds).2 k v d hv hd, h.relevant hid hw v hmem, h.rank_lt hp⟩

theorem reads_single {id : NodeId} (hid : g₀.Relevant id) {w : Node.View}
    (hw : g.view? id = some w) {x : Output} (hin : w.inputs = [x]) :
    ∃ d, g.desc? x = some d ∧ g₀.Relevant x.node ∧ rank x.node < rank id ∧
      w.op.infer [d] = .ok w.descs := by
  obtain ⟨ds, hds, hinfer⟩ := h.reads hid hw
  rw [hin] at hds
  obtain ⟨d, l, ⟨hd, hrel, hlt⟩, hnil, rfl⟩ := List.forall₂_cons_left_iff.1 hds
  obtain rfl := List.forall₂_nil_left_iff.1 hnil
  exact ⟨d, hd, hrel, hlt, hinfer⟩

theorem reads_pair {id : NodeId} (hid : g₀.Relevant id) {w : Node.View}
    (hw : g.view? id = some w) {x y : Output} (hin : w.inputs = [x, y]) :
    ∃ d e, (g.desc? x = some d ∧ g₀.Relevant x.node) ∧ (g.desc? y = some e ∧ g₀.Relevant y.node) ∧
      w.op.infer [d, e] = .ok w.descs := by
  obtain ⟨ds, hds, hinfer⟩ := h.reads hid hw
  rw [hin] at hds
  obtain ⟨d, l, ⟨hd, hrelx, -⟩, hrest, rfl⟩ := List.forall₂_cons_left_iff.1 hds
  obtain ⟨e, l, ⟨he, hrely, -⟩, hnil, rfl⟩ := List.forall₂_cons_left_iff.1 hrest
  obtain rfl := List.forall₂_nil_left_iff.1 hnil
  exact ⟨d, e, ⟨hd, hrelx⟩, ⟨he, hrely⟩, hinfer⟩

theorem consistentAt {id : NodeId} (hid : g₀.Relevant id) (hlive : g.contains id) :
    g.ConsistentAt id := by
  obtain ⟨w, hw⟩ := contains_iff_view.1 hlive
  obtain ⟨ds, hds, hinfer⟩ := h.reads hid hw
  exact consistentAt_iff_view.2 ⟨w, ds, hw, hds.imp fun _ _ hv => hv.1, hinfer⟩

/-- What the boundary hangs on now, it has hung on from the start, unless it is new. -/
theorem relevant_of_reachable {id : NodeId} (hid : g.Reachable id) : g₀.Relevant id := by
  induction hid with
  | parameter hp => exact Or.inl (.parameter (h.parameters_eq ▸ hp))
  | result hr => exact Or.inl (.result (h.results_eq ▸ hr))
  | producer _ hp ih =>
    obtain ⟨w, hw, v, hv, rfl⟩ := produces_iff_view.1 hp
    exact h.relevant ih hw v hv

theorem consistent : g.Consistent := fun _ hid =>
  h.consistentAt (h.relevant_of_reachable hid) (h.wellFormed.contains_of_reachable hid)

theorem acyclic : g.Acyclic := acyclic_of_rank rank fun _ _ => h.rank_lt

/-- A new node that reads nodes that matter extends the typing. -/
theorem insert {op : Op} {inputs : List Output} {outs : List Desc}
    (hnew : g.inferNew op inputs = .ok outs) (hbuilt : op.isBuiltIn) (hp : op.kind ≠ .parameter)
    (hr : op.kind ≠ .result) (hin : ∀ v ∈ inputs, g₀.Relevant v.node) {k : Nat}
    (hk : ∀ v ∈ inputs, rank v.node < k) :
    Typed g₀ (Function.update τ g.nodes.size outs) (Function.update rank g.nodes.size k)
      (g.insert op inputs outs) := by
  have hlive : ∀ v ∈ inputs, ∃ ts, g.targets? v = some ts := fun v hv =>
    Edit.exists_targets_of_inferNew hnew hv
  have hsame {X : Type} {id : NodeId} (f : NodeId → X) (x : X) (hid : g.contains id) :
      Function.update f g.nodes.size x id = f id := by
    exact Function.update_of_ne (Nat.ne_of_lt (lt_size_of_contains hid)) ..
  have hdesc : ∀ {v : Output}, g.contains v.node →
      Typing.desc? (Function.update τ g.nodes.size outs) v = τ.desc? v := fun hv => by
    rw [Typing.desc?, hsame τ outs hv, Typing.desc?]
  have hreads : ∀ {id w v}, g.view? id = some w → v ∈ w.inputs → g.contains v.node :=
    fun hw hv => h.wellFormed.contains_of_produces (produces_of_view? hw hv)
  have hinputs : ∀ {v}, v ∈ inputs → g.contains v.node := fun {v} hv => by
    obtain ⟨ts, hts⟩ := hlive v hv
    exact contains_of_targets? hts
  exact
    { wellFormed := wellFormed_insert h.wellFormed hlive
      parameters_eq := (parameters_insert _ _ _ hp).trans h.parameters_eq
      results_eq := (results_insert _ _ _ hr).trans h.results_eq
      size_le := (size_insert g op inputs outs).symm ▸ Nat.le_succ_of_le h.size_le
      rank_lt := rank_lt_insert h.wellFormed h.rank_lt hlive hk
      descs_eq := by
        intro id w hw
        obtain ⟨rfl, rfl⟩ | hw := view?_of_view?_insert _ _ _ _ hw
        · rw [Function.update_self]
        · rw [hsame τ outs (contains_of_view? hw)]
          exact h.descs_eq hw
      start_eq := by
        intro id w hw
        rw [Function.update_of_ne
          (Nat.ne_of_lt (Nat.lt_of_lt_of_le (lt_size_of_view? hw) h.size_le))]
        exact h.start_eq hw
      isBuiltIn := by
        intro id w hid hw
        obtain ⟨rfl, rfl⟩ | hw := view?_of_view?_insert _ _ _ _ hw
        · exact hbuilt
        · exact h.isBuiltIn hid hw
      fits := by
        intro id w hid hw
        obtain ⟨rfl, rfl⟩ | hw := view?_of_view?_insert _ _ _ _ hw
        · obtain ⟨ds, hds, hinfer⟩ := Edit.inferNew_eq_ok.1 hnew
          refine ⟨ds, forall₂_iff_getElem?.2 ⟨hds.length_eq, fun j v d hv hd => ?_⟩, hinfer⟩
          have hvd := (forall₂_iff_getElem?.1 hds).2 j v d hv hd
          rw [hdesc (hinputs (List.mem_of_getElem? hv))]
          exact h.typing_desc? (desc_eq_ok_iff_desc?.1 hvd)
        · obtain ⟨ds, hds, hinfer⟩ := h.fits hid hw
          refine ⟨ds, forall₂_iff_getElem?.2 ⟨hds.length_eq, fun j v d hv hd => ?_⟩, hinfer⟩
          rw [hdesc (hreads hw (List.mem_of_getElem? hv))]
          exact (forall₂_iff_getElem?.1 hds).2 j v d hv hd
      relevant := by
        intro id w hid hw
        obtain ⟨rfl, rfl⟩ | hw := view?_of_view?_insert _ _ _ _ hw
        · exact hin
        · exact h.relevant hid hw }

end Typed

/-- The graph has come from `g₀` and keeps to some typing. -/
def Conserves (g₀ g : Graph) : Prop := ∃ τ rank, Typed g₀ τ rank g

theorem hereditary_conserves : Edit.Hereditary (Conserves g₀) where
  wellFormed h := by
    obtain ⟨τ, rank, h⟩ := h
    exact h.wellFormed
  restrict h hr := by
    obtain ⟨τ, rank, h⟩ := h
    exact ⟨τ, rank, hereditary_typed.restrict h hr⟩

/-- A graph without cycles whose descriptions are up to date keeps to them. -/
theorem conserves_start (hwf : g.WellFormed) (hacyclic : g.Acyclic) (hcons : g.Consistent)
    (hbuilt : ∀ id op, g.Reachable id → g.op? id = some op → op.isBuiltIn) :
    Conserves g g := by
  obtain ⟨rank, hrank⟩ := exists_rank hwf hacyclic
  have hlive : ∀ {id w}, g.Relevant id → g.view? id = some w → g.Reachable id := by
    intro id w hid hw
    exact hid.resolve_right (Nat.not_le.2 (lt_size_of_view? hw))
  have hdesc : ∀ {v d}, g.desc? v = some d →
      Typing.desc? (fun id => ((g.view? id).map (·.descs)).getD []) v = some d := by
    intro v d hd
    obtain ⟨w, hw, hd⟩ := Option.bind_eq_some_iff.1 hd
    rwa [Typing.desc?, hw, Option.map_some, Option.getD_some]
  have hdescs : ∀ {id w}, g.view? id = some w →
      w.descs = ((g.view? id).map (·.descs)).getD [] := by
    intro id w hw
    rw [hw, Option.map_some, Option.getD_some]
  exact ⟨fun id => ((g.view? id).map (·.descs)).getD [], rank,
    { wellFormed := hwf
      parameters_eq := rfl
      results_eq := rfl
      size_le := Nat.le_refl _
      rank_lt := fun hp => hrank _ _ hp
      descs_eq := hdescs
      start_eq := hdescs
      isBuiltIn := fun hid hw => hbuilt _ _ (hlive hid hw) (op?_of_view? hw)
      fits := by
        intro id w hid hw
        obtain ⟨w', ds, hw', hds, hinfer⟩ := consistentAt_iff_view.1 (hcons id (hlive hid hw))
        obtain rfl := Option.some.inj (hw.symm.trans hw')
        exact ⟨ds, hds.imp fun _ _ => hdesc, hinfer⟩
      relevant := fun hid hw v hv =>
        Or.inl ((hlive hid hw).producer (produces_of_view? hw hv)) }⟩

/-! ### What a graph is without -/

/-- Of what matters to `g₀`, nothing in `g` is `X`. -/
def Lacks (g₀ : Graph) (X : Graph → NodeId → Prop) (g : Graph) : Prop :=
  ∀ ⦃id⦄, g₀.Relevant id → ¬ X g id

theorem Conserves.isBuiltIn (h : g₀.Conserves g) {id : NodeId} {op : Op} (hid : g.Reachable id)
    (hop : g.op? id = some op) : op.isBuiltIn := by
  obtain ⟨τ, rank, ht⟩ := h
  obtain ⟨w, hw, rfl⟩ := exists_view_of_op? hop
  exact ht.isBuiltIn (ht.relevant_of_reachable hid) hw

/-- A graph that keeps to a typing may be taken as the start. -/
theorem Conserves.self (h : g₀.Conserves g) : g.Conserves g := by
  have hbuilt (id : NodeId) (op : Op) (hid : g.Reachable id) (hop : g.op? id = some op) :
      op.isBuiltIn := h.isBuiltIn hid hop
  obtain ⟨τ, rank, ht⟩ := h
  exact conserves_start ht.wellFormed ht.acyclic ht.consistent hbuilt

theorem Lacks.self {X : Graph → NodeId → Prop} (h : g₀.Lacks X g) (hc : g₀.Conserves g)
    (hX : ∀ {id}, X g id → g.contains id) : g.Lacks X g := by
  intro id hid hx
  obtain ⟨τ, rank, ht⟩ := hc
  rcases hid with hid | hid
  · exact h (ht.relevant_of_reachable hid) hx
  · exact absurd (lt_size_of_contains (hX hx)) (Nat.not_lt_of_le hid)

end Graph

end OpGraph
