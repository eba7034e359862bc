import OpGraph.Proofs.Semantics.Trace

/-!
# Values with their descriptions

A semantics that keeps the description of each value beside it sees to it that a rewritten graph keeps
its descriptions: a value can stand for another one only if it has the same description.  In a graph
whose descriptions are up to date nothing else changes (`Graph.Computes.described`,
`Graph.Computes.of_described`).
-/

namespace OpGraph

variable {V : Type}

/-- The semantics together with inference. -/
def Semantics.described (S : Semantics V) : Semantics (V × Desc) := fun id op xs =>
  match S id op (xs.map (·.1)), op.infer (xs.map (·.2)) with
  | some outs, .ok ds => if outs.length = ds.length then some (outs.zip ds) else none
  | _, _ => none

theorem Semantics.described_eq_some {S : Semantics V} {id : NodeId} {op : Op}
    {xs outs : List (V × Desc)} :
    S.described id op xs = some outs ↔
      S id op (xs.map (·.1)) = some (outs.map (·.1)) ∧
        op.infer (xs.map (·.2)) = .ok (outs.map (·.2)) := by
  rw [described]
  constructor
  · intro h
    split at h
    next vs ds hvs hds =>
      obtain ⟨hl, h⟩ := Option.ite_none_right_eq_some.1 h
      obtain rfl := Option.some.inj h
      rw [List.map_fst_zip (Nat.le_of_eq hl), List.map_snd_zip (Nat.le_of_eq hl.symm)]
      exact ⟨hvs, hds⟩
    next => cases h
  · intro h'
    rcases h' with ⟨hvs, hds⟩
    rw [hvs, hds]
    simp only [List.length_map, if_true]
    exact congrArg some (List.zip_of_prod rfl rfl).symm

/-- What is inferred beside a value describes it, whatever that means for the value itself. -/
theorem Semantics.sound_of_described {S : Semantics V} {id : NodeId} {fr : Firing (V × Desc)}
    (h : S.described id fr.op fr.args = some fr.outs) :
    fr.Sound fun d x => d = x.2 := by
  have hsnd : ∀ {ds : List Desc} {xs : List (V × Desc)},
      List.Forall₂ (fun d x => d = x.2) ds xs ↔ ds = xs.map (·.2) := by
    intro ds xs
    rw [← List.forall₂_map_right_iff, List.forall₂_eq_eq_eq]
  intro ds os hds hinfer
  rw [hsnd] at hds ⊢
  have := (described_eq_some.1 h).2
  rw [← hds, hinfer, Except.ok.injEq] at this
  exact this

namespace Graph

variable {S : Semantics V} {g : Graph}

theorem Computes.of_described {v : Output} {x : V × Desc} (h : g.Computes S.described v x) :
    g.Computes S v x.1 := by
  induction h with
  | @intro v w args outs x hw hl _ hfire hout ih =>
    refine .intro hw (hl.trans (List.length_map _).symm) (fun k u b hu hb => ?_)
      (Semantics.described_eq_some.1 hfire).1 ?_
    · rw [List.getElem?_map] at hb
      obtain ⟨y, hy, rfl⟩ := Option.map_eq_some_iff.1 hb
      exact ih k u y hu hy
    · rw [List.getElem?_map, hout, Option.map_some]

/-- The description beside a value is the one that is kept with it. -/
theorem Computes.desc?_eq (hcons : g.Consistent) {v : Output} {x : V × Desc}
    (h : g.Computes S.described v x) (hr : g.Reachable v.node) : g.desc? v = some x.2 := by
  induction h with
  | @intro v w args outs x hw hl _ hfire hout ih =>
    obtain ⟨w', ds, hw', hds, hinfer⟩ := consistentAt_iff_view.1 (hcons _ hr)
    obtain rfl := Option.some.inj (hw.symm.trans hw')
    have hsame : args.map (·.2) = ds := by
      refine List.ext_getElem? fun k => ?_
      rw [List.getElem?_map]
      cases hu : w.inputs[k]? with
      | none =>
        rw [List.getElem?_eq_none_iff] at hu
        rw [List.getElem?_eq_none (hl ▸ hu), List.getElem?_eq_none (hds.length_eq ▸ hu)]
        rfl
      | some u =>
        obtain ⟨d, hd, hud⟩ := forall₂_getElem? hds hu
        have hlt : k < args.length := hl ▸ (List.getElem?_eq_some_iff.1 hu).1
        have hy := List.getElem?_eq_getElem hlt
        have hp : g.Produces u.node v.node :=
          produces_of_view? hw (List.mem_of_getElem? hu)
        rw [ih k u _ hu hy (hr.producer hp), Option.some.injEq] at hud
        rw [hy, hd, Option.map_some, hud]
    have := (Semantics.described_eq_some.1 hfire).2
    rw [hsame, hinfer, Except.ok.injEq] at this
    rw [desc?_of_view? hw, this, List.getElem?_map, hout, Option.map_some]

/-- Where descriptions are up to date and sound, every value has its description beside it. -/
theorem Computes.described {describes : Desc → V → Prop} (hcons : g.Consistent)
    (hsound : ∀ {id fr}, g.Reachable id → g.Fires S id fr → fr.Sound describes) {v : Output} {a : V}
    (h : g.Computes S v a) (hr : g.Reachable v.node) :
    ∃ d, g.desc? v = some d ∧ describes d a ∧ g.Computes S.described v (a, d) := by
  induction h with
  | @intro v w args outs a hw hl hargs hfire hout ih =>
    obtain ⟨w', ds, hw', hds, hinfer⟩ := consistentAt_iff_view.1 (hcons _ hr)
    obtain rfl := Option.some.inj (hw.symm.trans hw')
    have hin : ∀ (k : Nat) u b d, w.inputs[k]? = some u → args[k]? = some b → ds[k]? = some d →
        describes d b ∧ g.Computes S.described u (b, d) := by
      intro k u b d hu hb hd
      have hp : g.Produces u.node v.node :=
        produces_of_view? hw (List.mem_of_getElem? hu)
      obtain ⟨d', hud', hdb, hub⟩ := ih k u b hu hb (hr.producer hp)
      obtain ⟨d'', hd'', hud⟩ := forall₂_getElem? hds hu
      obtain rfl := Option.some.inj (hd.symm.trans hd'')
      obtain rfl := Option.some.inj (hud.symm.trans hud')
      exact ⟨hdb, hub⟩
    have hlen : args.length = ds.length := hl.symm.trans hds.length_eq
    have hdescribes : List.Forall₂ describes ds args := by
      refine forall₂_iff_getElem?.2 ⟨hlen.symm, fun k d b hd hb => ?_⟩
      have hlt : k < w.inputs.length := hl ▸ (List.getElem?_eq_some_iff.1 hb).1
      exact (hin k _ b d (List.getElem?_eq_getElem hlt) hb hd).1
    have hfires : g.Fires S v.node ⟨w.op, args, outs⟩ :=
      ⟨w, hw, rfl, forall₂_iff_getElem?.2 ⟨hl, hargs⟩, hfire⟩
    have houts : List.Forall₂ describes w.descs outs := hsound hr hfires ds w.descs hdescribes hinfer
    obtain ⟨d, hd, hda⟩ := forall₂_getElem?_right houts hout
    have hpairs : S.described v.node w.op (args.zip ds) = some (outs.zip w.descs) := by
      rw [Semantics.described_eq_some, List.map_fst_zip (Nat.le_of_eq hlen),
        List.map_snd_zip (Nat.le_of_eq hlen.symm),
        List.map_fst_zip (Nat.le_of_eq houts.length_eq.symm),
        List.map_snd_zip (Nat.le_of_eq houts.length_eq)]
      exact ⟨hfire, hinfer⟩
    refine ⟨d, (desc?_of_view? hw).trans hd, hda, .intro hw ?_ (fun k u x hu hx => ?_)
      hpairs (List.getElem?_zip_eq_some.2 ⟨hout, hd⟩)⟩
    · rw [List.length_zip, ← hlen, Nat.min_self, hl]
    · obtain ⟨hb, hd⟩ := List.getElem?_zip_eq_some.1 hx
      exact (hin k u x.1 x.2 hu hb hd).2

end Graph

end OpGraph
