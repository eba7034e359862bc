import OpGraph.Proofs.Edit.Moves
import OpGraph.Proofs.Graph.Consistent
import OpGraph.Proofs.Op.Infer
import OpGraph.Proofs.Semantics.Basic

/-!
# Traces

A trace fixes, for some nodes, what they read and produce.  A graph follows the trace when its live
nodes read and produce what is fixed for them; the other nodes do not matter.  Ranks make sure that what
the trace says is what the graph computes (`Follows.computes`).

A transformation is checked against a trace of the graph it starts from (`follows_start`): every step
has to lead to a graph that follows the trace again, after firings of new nodes have been added to it.

* `Follows.restrict`: nodes are renamed or released.
* `Follows.rewire`: a reader moves to a value that stands for the one it has read.
* `Follows.insert`, `Follows.insert_firing`: a node is added, with or without a firing.
* `Follows.revalidate`: descriptions are brought up to date.
-/

namespace OpGraph

/-- The firings that are fixed for some nodes. -/
abbrev Trace (V : Type) := NodeId → Firing V → Prop

variable {V : Type}

/-- The trace has the value at the output. -/
def Trace.Holds (W : Trace V) (v : Output) (a : V) : Prop :=
  ∃ fr, W v.node fr ∧ fr.outs[v.index]? = some a

/-- The trace with one more firing. -/
def Trace.add (W : Trace V) (id : NodeId) (fr : Firing V) : Trace V :=
  fun j f => W j f ∨ j = id ∧ f = fr

/-- The value can be read instead of another one: the trace has the same there, at no higher rank. -/
def Trace.Stands (W : Trace V) (rank : NodeId → Nat) (old new : Output) : Prop :=
  ∀ a, W.Holds old a → W.Holds new a ∧ rank new.node ≤ rank old.node

/-- A trace with ranks agrees with another one on the first `n` nodes. -/
def Trace.Extends (n : Nat) (W : Trace V) (rank : NodeId → Nat) (W' : Trace V)
    (rank' : NodeId → Nat) : Prop :=
  ∀ id < n, (∀ fr, W' id fr ↔ W id fr) ∧ rank' id = rank id

theorem Trace.Extends.refl (W : Trace V) (rank : NodeId → Nat) (n : Nat) :
    W.Extends n rank W rank := fun _ _ => ⟨fun _ => Iff.rfl, rfl⟩

theorem Trace.extends_add (W : Trace V) (rank : NodeId → Nat) (n k : Nat) (fr : Firing V) :
    W.Extends n rank (W.add n fr) (Function.update rank n k) := by
  intro id hid
  refine ⟨fun f => ⟨?_, Or.inl⟩, Function.update_of_ne (Nat.ne_of_lt hid) ..⟩
  intro hf
  rcases hf with hf | ⟨rfl, -⟩
  · exact hf
  · exact absurd hid (Nat.lt_irrefl _)

theorem Trace.Extends.trans {n n' : Nat} {W W' W'' : Trace V} {rank rank' rank'' : NodeId → Nat}
    (h : W.Extends n rank W' rank') (h' : W'.Extends n' rank' W'' rank'') (hn : n ≤ n') :
    W.Extends n rank W'' rank'' := by
  intro id hid
  obtain ⟨hW, hr⟩ := h id hid
  obtain ⟨hW', hr'⟩ := h' id (Nat.lt_of_lt_of_le hid hn)
  exact ⟨fun fr => (hW' fr).trans (hW fr), hr'.trans hr⟩

/-- What a transformation is checked against. -/
structure Setting (V : Type) where
  semantics : Semantics V
  /-- What the description of a value says about it. -/
  describes : Desc → V → Prop
  /-- What is assumed about every firing. -/
  fits : Firing V → Prop
  results : List NodeId

/-- What inference finds out about the inputs of a firing holds of what it produces. -/
def Firing.Sound (describes : Desc → V → Prop) (fr : Firing V) : Prop :=
  ∀ ds os, List.Forall₂ describes ds fr.args → fr.op.infer ds = .ok os →
    List.Forall₂ describes os fr.outs

/-- A firing without arguments is sound if what it produces is described. -/
theorem Firing.sound_of_isEmpty {describes : Desc → V → Prop} {op : Op} {args : List V} {v : V}
    {d : Desc} (hargs : args.isEmpty) (hinfer : op.infer [] = .ok [d]) (hd : describes d v) :
    (⟨op, args, [v]⟩ : Firing V).Sound describes := by
  intro ds os hds hos
  obtain rfl := List.isEmpty_iff.1 hargs
  cases hds
  obtain rfl := Except.ok.inj (hinfer.symm.trans hos)
  exact .cons hd .nil

/-- A result passes on what it is given. -/
theorem Firing.sound_result {describes : Desc → V → Prop} (args : List V) :
    (⟨.result, args, args⟩ : Firing V).Sound describes := by
  intro ds os hds hos
  rw [(Op.infer_result.1 hos).2]
  exact hds

namespace Graph

/-- The live nodes do what the trace says, and what is kept about their outputs describes what they
produce. -/
structure Follows (T : Setting V) (W : Trace V) (rank : NodeId → Nat) (g : Graph) : Prop where
  wellFormed : g.WellFormed
  results_eq : g.results = T.results
  lt_size : ∀ {id fr}, W id fr → id < g.nodes.size
  /-- A node does one thing. -/
  unique : ∀ {id fr fr'}, W id fr → W id fr' → fr = fr'
  fires : ∀ {id fr}, W id fr → T.semantics id fr.op fr.args = some fr.outs
  sound : ∀ {id fr}, W id fr → fr.Sound T.describes
  fits : ∀ {id fr}, W id fr → T.fits fr
  op_eq : ∀ {id fr w}, W id fr → g.view? id = some w → w.op = fr.op
  /-- The nodes that are read have values in the trace, and lower ranks. -/
  inputs : ∀ {id fr w}, W id fr → g.view? id = some w →
    List.Forall₂ (fun v a => W.Holds v a ∧ rank v.node < rank id) w.inputs fr.args
  descs : ∀ {id fr w}, W id fr → g.view? id = some w →
    List.Forall₂ T.describes w.descs fr.outs

variable {T : Setting V} {W : Trace V} {rank : NodeId → Nat} {g : Graph}

theorem hereditary_follows : Edit.Hereditary (Follows T W rank) where
  wellFormed h := h.wellFormed
  restrict h hr :=
    { wellFormed := hr.wellFormed
      results_eq := hr.results_eq.trans h.results_eq
      lt_size := fun hW => hr.size_eq ▸ h.lt_size hW
      unique := h.unique
      fires := h.fires
      sound := h.sound
      fits := h.fits
      op_eq := fun hW hw => h.op_eq hW (hr.view_eq hw)
      inputs := fun hW hw => h.inputs hW (hr.view_eq hw)
      descs := fun hW hw => h.descs hW (hr.view_eq hw) }

namespace Follows

variable (h : Follows T W rank g)

include h

theorem describes_of_holds {v : Output} {a : V} {d : Desc} (hv : W.Holds v a)
    (hd : g.desc? v = some d) : T.describes d a := by
  obtain ⟨fr, hW, ha⟩ := hv
  obtain ⟨w, hw, hd⟩ := Option.bind_eq_some_iff.1 hd
  obtain ⟨b, hb, hdb⟩ := forall₂_getElem? (h.descs hW hw) hd
  rw [ha, Option.some.injEq] at hb
  exact hb ▸ hdb

/-- What the trace has at an output of a live node, the graph computes. -/
theorem computes {v : Output} {a : V} (hv : W.Holds v a) (hlive : g.contains v.node) :
    g.Computes T.semantics v a := by
  generalize hk : rank v.node = k
  induction k using Nat.strongRecOn generalizing v a with
  | _ k ih =>
    obtain ⟨fr, hW, ha⟩ := hv
    obtain ⟨w, hw⟩ := contains_iff_view.1 hlive
    refine computes_iff.2 ⟨fr, ⟨w, hw, h.op_eq hW hw, ?_, h.fires hW⟩, ha⟩
    have hin := h.inputs hW hw
    refine forall₂_iff_getElem?.2 ⟨hin.length_eq, fun j u b hu hb => ?_⟩
    obtain ⟨b', hb', hub, hlt⟩ := forall₂_getElem? hin hu
    rw [hb, Option.some.injEq] at hb'
    subst hb'
    refine ih _ (hk ▸ hlt) hub ?_ rfl
    exact h.wellFormed.contains_of_produces
      (produces_of_view? hw (List.mem_of_getElem? hu))

theorem arrives_iff {id : NodeId} {fr : Firing V} {a : V} (hW : W id fr) (hlive : g.contains id) :
    g.Arrives T.semantics id a ↔ fr.args[0]? = some a := by
  obtain ⟨w, hw⟩ := contains_iff_view.1 hlive
  have hsrc : ∀ {v}, g.source? ⟨id, 0⟩ = some v ↔ w.inputs[0]? = some v := by
    intro v
    rw [source?_of_view? hw]
  have hcomputes : ∀ {v b}, g.source? ⟨id, 0⟩ = some v → W.Holds v b →
      g.Computes T.semantics v b := by
    intro v b hv hvb
    exact h.computes hvb (h.wellFormed.contains_of_read hv)
  constructor
  · intro h'
    rcases h' with ⟨v, hv, ha⟩
    obtain ⟨b, hb, hvb, -⟩ := forall₂_getElem? (h.inputs hW hw) (hsrc.1 hv)
    rw [ha.unique (hcomputes hv hvb)]
    exact hb
  · intro ha
    obtain ⟨v, hv, hva, -⟩ := forall₂_getElem?_right (h.inputs hW hw) ha
    exact ⟨v, hsrc.2 hv, hcomputes (hsrc.2 hv) hva⟩

/-! ### Steps -/

theorem rewire {i : Input} {old new : Output} (hi : g.source? i = some old) (hne : old ≠ new)
    (hnode : new.node ≠ i.node) (hnew : ∃ ts, g.targets? new = some ts)
    (hv : W.Stands rank old new) : Follows T W rank (g.rewire i old new) where
  wellFormed := wellFormed_rewire h.wellFormed hi hne hnode hnew
  results_eq := h.results_eq
  lt_size hW := (size_rewire g i old new).symm ▸ h.lt_size hW
  unique := h.unique
  fires := h.fires
  sound := h.sound
  fits := h.fits
  op_eq := by
    intro id fr w hW hw
    obtain hw | ⟨w', rfl, hw', rfl⟩ := view?_of_view?_rewire hw
    · exact h.op_eq hW hw
    · exact h.op_eq (w := w') hW hw'
  inputs := by
    intro id fr w hW hw
    obtain hw | ⟨w', rfl, hw', rfl⟩ := view?_of_view?_rewire hw
    · exact h.inputs hW hw
    · rw [source?_of_view? hw'] at hi
      refine forall₂_set (h.inputs hW hw') hi fun a _ ha => ?_
      obtain ⟨hnew, hle⟩ := hv a ha.1
      exact ⟨hnew, Nat.lt_of_le_of_lt hle ha.2⟩
  descs := by
    intro id fr w hW hw
    obtain hw | ⟨w', rfl, hw', rfl⟩ := view?_of_view?_rewire hw
    · exact h.descs hW hw
    · exact h.descs (w := w') hW hw'

/-- A node that is added need not appear in the trace. -/
theorem insert {op : Op} {inputs : List Output} {descs : List Desc} (hres : op.kind ≠ .result)
    (hin : ∀ v ∈ inputs, ∃ ts, g.targets? v = some ts) :
    Follows T W rank (g.insert op inputs descs) := by
  have hold : ∀ {id fr w}, W id fr → (g.insert op inputs descs).view? id = some w →
      g.view? id = some w := by
    intro id fr w hW hw
    rwa [view?_insert_of_lt _ _ _ _ (h.lt_size hW)] at hw
  exact
    { wellFormed := wellFormed_insert h.wellFormed hin
      results_eq := (results_insert _ _ _ hres).trans h.results_eq
      lt_size := fun hW => (size_insert g op inputs descs).symm ▸ Nat.lt_succ_of_lt (h.lt_size hW)
      unique := h.unique
      fires := h.fires
      sound := h.sound
      fits := h.fits
      op_eq := fun hW hw => h.op_eq hW (hold hW hw)
      inputs := fun hW hw => h.inputs hW (hold hW hw)
      descs := fun hW hw => h.descs hW (hold hW hw) }

theorem lt_size_of_holds {v : Output} {a : V} (hv : W.Holds v a) : v.node < g.nodes.size := by
  obtain ⟨fr, hW, -⟩ := hv
  exact h.lt_size hW

theorem revalidate {id : NodeId} {outs : List Desc} (hre : g.reinfer id = .ok outs) :
    Follows T W rank (g.modifyNode id (·.withDescs outs)) := by
  obtain ⟨w, ds, hw, hds, hinfer, hlen⟩ := reinfer_eq_ok_iff_view.1 hre
  obtain ⟨n, hn, rfl⟩ := view?_eq_some.1 hw
  rw [Node.length_descs] at hlen
  have hview : ∀ {j v}, (g.modifyNode id (·.withDescs outs)).view? j = some v →
      (j = id ∧ v = { n.view with descs := outs }) ∨ g.view? j = some v := by
    intro j v hv
    rw [view?_modifyNode] at hv
    split at hv
    next hj =>
      subst hj
      rw [hn, Option.map_some, Option.some.injEq] at hv
      exact Or.inl ⟨rfl, hv ▸ view_withDescs hlen⟩
    next => exact Or.inr hv
  exact
    { wellFormed := by
        refine wellFormed_modifyNode h.wellFormed fun m hm => ⟨rfl, rfl, rfl, ?_⟩
        obtain rfl := Option.some.inj (hn.symm.trans hm)
        exact Edit.map_targets_withDescs hlen
      results_eq := h.results_eq
      lt_size := fun hW => (size_nodes_modifyNode g id _).symm ▸ h.lt_size hW
      unique := h.unique
      fires := h.fires
      sound := h.sound
      fits := h.fits
      op_eq := by
        intro j fr v hW hv
        obtain ⟨rfl, rfl⟩ | hv := hview hv
        · exact h.op_eq (w := n.view) hW hw
        · exact h.op_eq hW hv
      inputs := by
        intro j fr v hW hv
        obtain ⟨rfl, rfl⟩ | hv := hview hv
        · exact h.inputs (w := n.view) hW hw
        · exact h.inputs hW hv
      descs := by
        intro j fr v hW hv
        obtain ⟨rfl, rfl⟩ | hv := hview hv
        · refine h.sound hW ds outs ?_ (h.op_eq hW hw ▸ hinfer)
          have hin := h.inputs hW hw
          refine forall₂_iff_getElem?.2 ⟨hds.length_eq.symm.trans hin.length_eq, ?_⟩
          intro k d a hd ha
          obtain ⟨u, hu, hud⟩ := forall₂_getElem?_right hds hd
          obtain ⟨a', ha', hua, -⟩ := forall₂_getElem? hin hu
          obtain rfl := Option.some.inj (ha.symm.trans ha')
          exact h.describes_of_holds hua hud
        · exact h.descs hW hv }

end Follows

/-- A node that is added may appear in the trace with what it does. -/
theorem Follows.insert_firing (h : Follows T W rank g) (fr : Firing V) {inputs : List Output}
    {descs : List Desc} (hres : fr.op.kind ≠ .result)
    (hin : ∀ v ∈ inputs, ∃ ts, g.targets? v = some ts)
    (hfire : T.semantics g.nodes.size fr.op fr.args = some fr.outs)
    (hsound : fr.Sound T.describes) (hfits : T.fits fr)
    (hargs : List.Forall₂ W.Holds inputs fr.args)
    (hdescs : List.Forall₂ T.describes descs fr.outs) {k : Nat}
    (hk : ∀ v ∈ inputs, rank v.node < k) :
    Follows T (W.add g.nodes.size fr) (Function.update rank g.nodes.size k)
      (g.insert fr.op inputs descs) := by
  have hrank : ∀ {id}, id < g.nodes.size →
      Function.update rank g.nodes.size k id = rank id := fun hlt =>
    Function.update_of_ne (Nat.ne_of_lt hlt) ..
  have hmono : ∀ {v a}, W.Holds v a → (W.add g.nodes.size fr).Holds v a := by
    intro v a h'
    rcases h' with ⟨f, hf, ha⟩
    exact ⟨f, Or.inl hf, ha⟩
  have hview : ∀ {id w}, (g.insert fr.op inputs descs).view? id = some w → id < g.nodes.size →
      g.view? id = some w := by
    intro id w hw hlt
    rwa [view?_insert_of_lt _ _ _ _ hlt] at hw
  have hnew : ∀ {w}, (g.insert fr.op inputs descs).view? g.nodes.size = some w →
      w = ⟨fr.op, inputs, descs⟩ := by
    intro w hw
    rw [view?_insert, if_pos rfl, Option.some.injEq] at hw
    exact hw.symm
  exact
    { wellFormed := wellFormed_insert h.wellFormed hin
      results_eq := (results_insert _ _ _ hres).trans h.results_eq
      lt_size := by
        intro id f hf
        rcases hf with hf | ⟨rfl, -⟩
        · exact (size_insert g fr.op inputs descs).symm ▸ Nat.lt_succ_of_lt (h.lt_size hf)
        · exact (size_insert g fr.op inputs descs).symm ▸ Nat.lt_succ_self _
      unique := by
        intro id f f' hf hf'
        rcases hf with hf | ⟨rfl, rfl⟩ <;> rcases hf' with hf' | ⟨hid, rfl⟩
        · exact h.unique hf hf'
        · exact absurd (h.lt_size hf) (hid ▸ Nat.lt_irrefl _)
        · exact absurd (h.lt_size hf') (Nat.lt_irrefl _)
        · rfl
      fires := by
        intro id f hf
        rcases hf with hf | ⟨rfl, rfl⟩
        · exact h.fires hf
        · exact hfire
      sound := by
        intro id f hf
        rcases hf with hf | ⟨rfl, rfl⟩
        · exact h.sound hf
        · exact hsound
      fits := by
        intro id f hf
        rcases hf with hf | ⟨rfl, rfl⟩
        · exact h.fits hf
        · exact hfits
      op_eq := by
        intro id f w hf hw
        rcases hf with hf | ⟨rfl, rfl⟩
        · exact h.op_eq hf (hview hw (h.lt_size hf))
        · rw [hnew hw]
      inputs := by
        intro id f w hf hw
        rcases hf with hf | ⟨rfl, rfl⟩
        · refine (h.inputs hf (hview hw (h.lt_size hf))).imp fun v a hva => ⟨hmono hva.1, ?_⟩
          rw [hrank (h.lt_size hf), hrank (h.lt_size_of_holds hva.1)]
          exact hva.2
        · rw [hnew hw]
          refine forall₂_iff_getElem?.2 ⟨hargs.length_eq, fun j v a hv ha => ?_⟩
          obtain ⟨a', ha', hva⟩ := forall₂_getElem? hargs hv
          obtain rfl := Option.some.inj (ha.symm.trans ha')
          refine ⟨hmono hva, ?_⟩
          rw [hrank (h.lt_size_of_holds hva), Function.update_self]
          exact hk v (List.mem_of_getElem? hv)
      descs := by
        intro id f w hf hw
        rcases hf with hf | ⟨rfl, rfl⟩
        · exact h.descs hf (hview hw (h.lt_size hf))
        · rw [hnew hw]
          exact hdescs }

theorem movable_follows {old new : Output} (hv : W.Stands rank old new) :
    Edit.Movable (Follows T W rank) old new :=
  fun _ _ h hi hne hnode hnew => h.rewire hi hne hnode hnew hv

/-! ### Traces that grow -/

/-- The graph follows a trace that agrees with the given one on the first `n` nodes. -/
def Continues (T : Setting V) (n : Nat) (W : Trace V) (rank : NodeId → Nat) (g : Graph) : Prop :=
  n ≤ g.nodes.size ∧ ∃ W' rank', W.Extends n rank W' rank' ∧ Follows T W' rank' g

theorem Follows.continues (h : Follows T W rank g) : Continues T g.nodes.size W rank g :=
  ⟨Nat.le_refl _, W, rank, Trace.Extends.refl W rank _, h⟩

theorem Continues.trans {n n' : Nat} {W' : Trace V} {rank' : NodeId → Nat} (hn : n ≤ n')
    (h : W.Extends n rank W' rank') (h' : Continues T n' W' rank' g) : Continues T n W rank g := by
  obtain ⟨hsize, W'', rank'', hext, hf⟩ := h'
  exact ⟨Nat.le_trans hn hsize, W'', rank'', h.trans hext hn, hf⟩

/-- What keeps a trace that goes on from the given one continues the given one. -/
theorem Follows.ends_continues {α : Type} {n : Nat} {W' : Trace V} {rank' : NodeId → Nat}
    {e : Edit α} (h : Follows T W' rank' g) (hext : W.Extends n rank W' rank')
    (hn : n ≤ g.nodes.size)
    (he : Keeps (fun g' => Follows T W' rank' g' ∧ n ≤ g'.nodes.size) Edit.Anything e) :
    Ends (Continues T n W rank) Edit.Anything (e g) :=
  (he g ⟨h, hn⟩).imp fun _ hg => ⟨hg.2, W', rank', hext, hg.1⟩

/-- A node is bypassed if what its input reads stands for what it produces. -/
theorem Follows.ends_bypass (h : Follows T W rank g) {id : NodeId} {index : Nat}
    (hs : ∀ source, g.source? ⟨id, index⟩ = some source → W.Stands rank ⟨id, 0⟩ source) :
    Ends (Continues T g.nodes.size W rank) Edit.Anything (Edit.bypass id index g) := by
  have hP : Edit.Hereditary fun g' => Follows T W rank g' ∧ g.nodes.size ≤ g'.nodes.size :=
    hereditary_follows.and_size_le _
  have hm (source : Output) (hsource : g.source? ⟨id, index⟩ = some source) :
      Edit.Movable (fun g' => Follows T W rank g' ∧ g.nodes.size ≤ g'.nodes.size) ⟨id, 0⟩ source :=
    (movable_follows (hs source hsource)).and_size_le g.nodes.size
  have hends := Edit.ends_bypass hP ⟨h, Nat.le_refl g.nodes.size⟩ hm
  exact hends.imp fun g' hg => ⟨hg.2, W, rank, Trace.Extends.refl W rank _, hg.1⟩

theorem hereditary_continues (n : Nat) : Edit.Hereditary (Continues T n W rank) where
  wellFormed h := by
    obtain ⟨-, W', rank', -, hf⟩ := h
    exact hf.wellFormed
  restrict h hr := by
    obtain ⟨hsize, W', rank', hext, hf⟩ := h
    exact ⟨hr.size_eq ▸ hsize, W', rank', hext, hereditary_follows.restrict hf hr⟩

/-- An edit keeps track of every trace if it continues each trace that the graph follows. -/
theorem keeps_continues {α : Type} {e : Edit α}
    (h : ∀ {W rank g}, Follows T W rank g →
      Ends (Continues T g.nodes.size W rank) Edit.Anything (e g)) (n : Nat) :
    Keeps (Continues T n W rank) Edit.Anything e := by
  intro g h'
  rcases h' with ⟨hsize, W', rank', hext, hf⟩
  have := h hf
  cases he : e g with
  | ok a g' =>
    rw [he] at this
    exact this.trans hsize hext
  | error err g' => trivial

theorem keeps_revalidate_continues (n : Nat) (id : NodeId) :
    Keeps (Continues T n W rank) Edit.Anything (Edit.revalidate id) := by
  refine keeps_continues (fun {W rank g} h => ?_) n
  obtain ⟨err, he⟩ | ⟨outs, changed, houts, hok⟩ := Edit.revalidate_cases id g
  · rw [he]
    trivial
  · rw [hok]
    exact ⟨Nat.le_of_eq (size_nodes_modifyNode ..).symm, W, rank, Trace.Extends.refl W rank _,
      h.revalidate houts⟩

theorem Continues.arrives_iff {n : Nat} (h : Continues T n W rank g) {id : NodeId} {fr : Firing V}
    {a : V} (hid : id < n) (hW : W id fr) (hres : id ∈ T.results) :
    g.Arrives T.semantics id a ↔ fr.args[0]? = some a := by
  obtain ⟨-, W', rank', hext, hf⟩ := h
  have hlive := hf.wellFormed.contains_of_mem_results (hf.results_eq ▸ hres)
  exact hf.arrives_iff (((hext id hid).1 fr).2 hW) hlive

theorem Continues.results_eq {n : Nat} (h : Continues T n W rank g) : g.results = T.results := by
  obtain ⟨-, W', rank', -, hf⟩ := h
  exact hf.results_eq

/-! ### Where a trace comes from -/

/-- The firings of the nodes that the boundary hangs on. -/
def start (S : Semantics V) (g : Graph) : Trace V := fun id fr => g.Reachable id ∧ g.Fires S id fr

variable {S : Semantics V}

theorem holds_start {v : Output} {a : V} (hr : g.Reachable v.node) :
    (g.start S).Holds v a ↔ g.Computes S v a := by
  rw [computes_iff]
  constructor
  · intro h
    rcases h with ⟨fr, ⟨-, hfr⟩, ha⟩
    exact ⟨fr, hfr, ha⟩
  · intro h
    rcases h with ⟨fr, hfr, ha⟩
    exact ⟨fr, ⟨hr, hfr⟩, ha⟩

/-- A graph without cycles whose descriptions are up to date follows the trace of what it does. -/
theorem follows_start (hwf : g.WellFormed) (hcons : g.Consistent)
    (hrank : ∀ p id, g.Produces p id → rank p < rank id) (hresults : g.results = T.results)
    (hsound : ∀ {id fr}, g.Reachable id → g.Fires T.semantics id fr → fr.Sound T.describes)
    (hfits : ∀ {id fr}, g.Reachable id → g.Fires T.semantics id fr → T.fits fr) :
    Follows T (g.start T.semantics) rank g := by
  have hin : ∀ {id fr w}, g.start T.semantics id fr → g.view? id = some w →
      List.Forall₂ (fun v a => (g.start T.semantics).Holds v a ∧ rank v.node < rank id) w.inputs
        fr.args := by
    intro id fr w h hw
    rcases h with ⟨hr, w', hw', -, hargs, -⟩
    obtain rfl := Option.some.inj (hw.symm.trans hw')
    refine forall₂_iff_getElem?.2 ⟨hargs.length_eq, fun k v a hv ha => ?_⟩
    have hp : g.Produces v.node id :=
      produces_of_view? hw (List.mem_of_getElem? hv)
    exact ⟨(holds_start (hr.producer hp)).2 ((forall₂_iff_getElem?.1 hargs).2 k v a hv ha),
      hrank _ _ hp⟩
  -- along the ranks, since inference starts from the descriptions of what is read
  have hdescs : ∀ k id fr w, rank id = k → g.start T.semantics id fr → g.view? id = some w →
      List.Forall₂ T.describes w.descs fr.outs := by
    intro k
    induction k using Nat.strongRecOn with
    | _ k ih =>
      intro id fr w hk hW hw
      obtain ⟨w', ds, hw', hds, hinfer⟩ := consistentAt_iff_view.1 (hcons id hW.1)
      obtain rfl := Option.some.inj (hw.symm.trans hw')
      have hop : w.op = fr.op := by
        obtain ⟨-, w', hw', hop, -⟩ := hW
        obtain rfl := Option.some.inj (hw.symm.trans hw')
        exact hop
      refine hsound hW.1 hW.2 ds w.descs ?_ (hop ▸ hinfer)
      have hin := hin hW hw
      refine forall₂_iff_getElem?.2 ⟨hds.length_eq.symm.trans hin.length_eq, ?_⟩
      intro j d a hd ha
      obtain ⟨u, hu, hud⟩ := forall₂_getElem?_right hds hd
      obtain ⟨a', ha', ⟨f, hf, hfa⟩, hlt⟩ := forall₂_getElem? hin hu
      obtain rfl := Option.some.inj (ha.symm.trans ha')
      obtain ⟨wu, hwu, hud⟩ := Option.bind_eq_some_iff.1 hud
      obtain ⟨b, hb, hdb⟩ := forall₂_getElem? (ih _ (hk ▸ hlt) u.node f wu rfl hf hwu) hud
      obtain rfl := Option.some.inj (hfa.symm.trans hb)
      exact hdb
  exact
    { wellFormed := hwf
      results_eq := hresults
      lt_size := by
        intro id fr h
        rcases h with ⟨-, w, hw, -⟩
        exact lt_size_of_view? hw
      unique := fun hW hW' => hW.2.unique hW'.2
      fires := by
        intro id fr h
        rcases h with ⟨-, w, -, -, -, hfire⟩
        exact hfire
      sound := fun hW => hsound hW.1 hW.2
      fits := fun hW => hfits hW.1 hW.2
      op_eq := by
        intro id fr w h hw
        rcases h with ⟨-, w', hw', hop, -⟩
        obtain rfl := Option.some.inj (hw.symm.trans hw')
        exact hop
      inputs := hin
      descs := fun hW hw => hdescs _ _ _ _ rfl hW hw }

end Graph

end OpGraph
