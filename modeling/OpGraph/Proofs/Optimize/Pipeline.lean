import OpGraph.Optimize.Pipeline
import OpGraph.Proofs.Optimize.Rewriting
import OpGraph.Proofs.Optimize.TypedFolding

/-!
# The standard pipeline keeps the interface

Whatever passes are switched on, a run of the manager over a consistent graph of built-in operations
does not fail, and it keeps the parameters, the results and every description.

The manager adds nothing of its own: what the passes, the collection of garbage and the validation keep is
kept by a run (`Manager.ends_runFrom`), and if they do not fail, neither does the run
(`Manager.exists_runFrom`).  The property is `Graph.Conserves`, and the main statement
`Pipeline.run_keeps_interface`.
-/

namespace OpGraph

variable {σ : Type}

/-! ### Managers -/

namespace Manager

/-- The run leaves a graph with `P` where it has answered and with `E` where it has failed. -/
def RunEnds (P E : Graph → Prop) (r : RunReport × Session σ) : Prop :=
  match r.1.outcome with
  | .ok _ => P r.2.graph
  | .error _ => E r.2.graph

variable {P E : Graph → Prop} (hcollect : Keeps P E Edit.collectGarbage)
  (hvalidate : Keeps P E Edit.validate)

include hvalidate

theorem ends_finish (m : Manager σ) (released : Nat) (stats : RunStats) {s : Session σ}
    (hs : P s.graph) : RunEnds P E (m.finish released stats s) := by
  have hlast : Keeps (fun s => P s.graph) (fun s => E s.graph)
      (if m.config.finalValidation then .edit Edit.validate else pure () : Action σ Unit) := by
    split
    · exact Action.keeps_edit hvalidate
    · exact keeps_pure ()
  unfold finish
  extract_lets last
  have hend : Ends (fun s => P s.graph) (fun s => E s.graph) (last s) := hlast s hs
  cases hres : last s with
  | ok u s' => exact hend.of_ok hres
  | error e s' =>
    rw [hres] at hend
    exact hend

include hcollect

theorem keeps_runPass (m : Manager σ) {p : Pass σ}
    (hp : Keeps (fun s => P s.graph) (fun s => E s.graph) (p.run m.filter)) :
    Keeps (fun s => P s.graph) (fun s => E s.graph) (m.runPass p) := by
  have hafter : Keeps P E (afterChange m.config) := by
    rw [afterChange]
    split
    · refine keeps_bind hcollect fun _ => ?_
      split
      · exact hvalidate
      · exact keeps_pure _
    · split
      · exact hvalidate
      · exact keeps_pure _
  rw [runPass]
  refine keeps_bind hp fun changed => ?_
  split
  · exact keeps_bind (Action.keeps_edit hafter) fun _ => keeps_pure changed
  · exact keeps_pure changed

/-- **A run keeps what its passes keep** together with the collection of garbage and the validation. -/
theorem ends_runFrom (m : Manager σ) {passes : List (Pass σ)}
    (hpasses : ∀ p ∈ passes, Keeps (fun s => P s.graph) (fun s => E s.graph) (p.run m.filter))
    (released : Nat) (stats : RunStats) {s : Session σ} (hs : P s.graph) :
    RunEnds P E (m.runFrom released passes stats s) := by
  induction passes generalizing stats s with
  | nil => exact ends_finish hvalidate m released stats hs
  | cons p passes ih =>
    have hrest := ih fun q hq => hpasses q (List.mem_cons_of_mem p hq)
    have hp := keeps_runPass hcollect hvalidate m (hpasses p List.mem_cons_self) s hs
    rw [runFrom]
    split
    · exact hrest stats hs
    · cases hres : m.runPass p s with
      | ok changed s' => exact hrest _ (hp.of_ok hres)
      | error e s' =>
        rw [hres] at hp
        exact hp

omit hcollect hvalidate in
/-- A run of passes that keep a property and do not fail does not fail and keeps the property. -/
theorem exists_runFrom (hcollect : Keeps P Edit.Never Edit.collectGarbage)
    (hvalidate : Keeps P Edit.Never Edit.validate) (m : Manager σ) {passes : List (Pass σ)}
    (hpasses : ∀ p ∈ passes,
      Keeps (fun s => P s.graph) (fun s => Edit.Never s.graph) (p.run m.filter))
    (released : Nat) (stats : RunStats) {s : Session σ} (hs : P s.graph) :
    ∃ changed stats' s',
      m.runFrom released passes stats s = (⟨.ok changed, stats'⟩, s') ∧ P s'.graph := by
  have hend := ends_runFrom hcollect hvalidate m hpasses released stats hs
  generalize m.runFrom released passes stats s = r at hend
  obtain ⟨⟨outcome, stats'⟩, s'⟩ := r
  cases outcome with
  | ok changed => exact ⟨changed, stats', s', rfl, hend⟩
  | error e => cases hend

end Manager

/-! ### The passes -/

theorem keeps_validate_conserves (g₀ : Graph) : Keeps g₀.Conserves Edit.Never Edit.validate := by
  intro g hg
  obtain ⟨τ, rank, h⟩ := hg
  rw [Edit.validate_of_consistent h.consistent]
  exact ⟨τ, rank, h⟩

/-- Whatever is switched on, the passes of a pipeline are standard passes. -/
theorem Pipeline.mem_standard {p : Pipeline} {pass : Pass σ} (hpass : pass ∈ p.passes) :
    pass ∈ [.rule Negation.rule, .constantFolding, .rule MultiplyChain.rule, Identity.pass] := by
  rw [passes] at hpass
  simp only [List.mem_append, List.mem_ite_nil_right, List.mem_singleton] at hpass
  simp only [List.mem_cons, List.not_mem_nil, or_false]
  tauto

theorem Rule.conserving_of_mem_lawfulRules {g₀ : Graph} {r : Rule σ} (hr : r ∈ lawfulRules) :
    r.Conserving g₀ := by
  simp only [lawfulRules, List.mem_cons, List.not_mem_nil, or_false] at hr
  rcases hr with rfl | rfl | rfl | rfl | rfl
  · exact conserving_ofEdit fun h hid hm => Negation.ends_apply_of_typed h hid hm
  · exact conserving_ofEdit fun h hid hm => MultiplyChain.ends_apply_of_typed h hid hm
  · exact conserving_ofEdit fun h hid hm => Identity.ends_bypassConversion_of_typed h hid hm
  · exact conserving_ofEdit fun h hid hm => Identity.ends_bypassOperation_of_typed h hid hm 1
  · exact conserving_ofEdit fun h hid hm => Identity.ends_bypassOperation_of_typed h hid hm 0

theorem Pipeline.keeps_pass_conserves (g₀ : Graph) (p : Pipeline) {pass : Pass σ}
    (hpass : pass ∈ p.passes) (filter : PassFilter) :
    Keeps (fun s => g₀.Conserves s.graph) (fun s => Edit.Never s.graph) (pass.run filter) := by
  obtain ⟨rules, config, hrules, hrun⟩ | hrun := Pass.run_standard_cases (mem_standard hpass) filter
  · rw [hrun]
    exact keeps_runRules_conserves (fun r hr => Rule.conserving_of_mem_lawfulRules (hrules r hr))
      config filter
  · rw [hrun]
    exact Action.keeps_edit (Edit.keeps_foldConstants_conserves g₀)

/-- **The pipeline does not fail on consistent graphs and keeps their interface**, whichever passes are
switched on, however the manager is set up and whatever is left out by name: the graph stays well-formed,
free of cycles and consistent, with the same parameters and results, and every node that is still there
is described as before. -/
theorem Pipeline.run_keeps_interface (p : Pipeline) (filter : PassFilter) (memory : σ) {g : Graph}
    (hwf : g.WellFormed) (hacyclic : g.Acyclic) (hcons : g.Consistent)
    (hbuilt : ∀ id op, g.Reachable id → g.op? id = some op → op.isBuiltIn) :
    ∃ changed stats s,
      ({ (p.build : Manager σ) with filter } : Manager σ).run ⟨g, memory⟩ =
        (⟨.ok changed, stats⟩, s) ∧
      s.graph.WellFormed ∧ s.graph.Acyclic ∧ s.graph.Consistent ∧
      s.graph.parameters = g.parameters ∧ s.graph.results = g.results ∧
      (∀ r ∈ g.results, ∃ n n', g.node? r = some n ∧ s.graph.node? r = some n' ∧
        n'.descs = n.descs) ∧
      ∀ id n n', g.node? id = some n → s.graph.node? id = some n' → n'.descs = n.descs := by
  obtain ⟨changed, stats, s, hrun, τ, rank, h⟩ :=
    Manager.exists_runFrom (P := g.Conserves)
      (Edit.keeps_collectGarbage_of_hereditary Graph.hereditary_conserves)
      (keeps_validate_conserves g) ({ (p.build : Manager σ) with filter } : Manager σ)
      (fun pass hpass => p.keeps_pass_conserves g hpass filter) g.released {} (s := ⟨g, memory⟩)
      (Graph.conserves_start hwf hacyclic hcons hbuilt)
  have hsame : ∀ id n n', g.node? id = some n → s.graph.node? id = some n' →
      n'.descs = n.descs := by
    intro id n n' hn hn'
    have hview : n'.view.descs = n.view.descs :=
      (h.descs_eq (Graph.view?_eq_some.2 ⟨n', hn', rfl⟩)).trans
        (h.start_eq (Graph.view?_eq_some.2 ⟨n, hn, rfl⟩)).symm
    exact hview
  refine ⟨changed, stats, s, hrun, h.wellFormed, h.acyclic, h.consistent, h.parameters_eq,
    h.results_eq, fun r hr => ?_, hsame⟩
  obtain ⟨n, hn⟩ := Graph.contains_iff.1 (hwf.contains_of_mem_results hr)
  obtain ⟨n', hn'⟩ := Graph.contains_iff.1
    (h.wellFormed.contains_of_mem_results (h.results_eq.symm ▸ hr))
  exact ⟨n, n', hn, hn', hsame r n n' hn hn'⟩

/-- A negation of an unknown number of pairs, which the pipeline turns into a product. -/
theorem Pipeline.run_keeps_interface_negation :
    ∃ changed stats s,
      ({ (({} : Pipeline).build : Manager Unit) with
          filter := .ofList ["EliminateConvert"] } : Manager Unit).run
        ⟨.single (.unary .negative) ⟨.f32, .ranked [.dynamic, .static 2]⟩
          ⟨.f32, .ranked [.dynamic, .static 2]⟩, ()⟩ = (⟨.ok changed, stats⟩, s) ∧
      s.graph.parameters = [0] ∧ s.graph.results = [2] ∧
      ∃ n, s.graph.node? 2 = some n ∧ n.descs = [⟨.f32, .ranked [.dynamic, .static 2]⟩] := by
  obtain ⟨changed, stats, s, hrun, -, -, -, hparameters, hresults, hdescs, -⟩ :=
    Pipeline.run_keeps_interface {} (.ofList ["EliminateConvert"]) ()
      (Graph.wellFormed_single (.unary .negative) _ _) (Graph.acyclic_single _ _ _)
      (Graph.consistent_single (x := ⟨.f32, .ranked [.dynamic, .static 2]⟩)
        (y := ⟨.f32, .ranked [.dynamic, .static 2]⟩) rfl)
      (fun id op _ hop => by obtain rfl | rfl | rfl := Graph.op?_single hop <;> rfl)
  obtain ⟨n, n', hn, hn', hsame⟩ := hdescs 2 (List.mem_singleton.2 rfl)
  obtain rfl := Option.some.inj hn
  exact ⟨changed, stats, s, hrun, hparameters, hresults, n', hn', hsame⟩

end OpGraph
