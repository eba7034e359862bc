import OpGraph.Proofs.Edit.Succession
import OpGraph.Proofs.Optimize.Pipeline
import OpGraph.Proofs.Rule.Reached

/-!
# The pipeline keeps the named boundary

The passes hand names on in different ways: a product is named before it takes the place of a negation, a
constant before it takes the place of what is folded, a fused product after it has been put in place, and
what lies behind a bypassed node takes its name over.  Each rule ends with the name of the old node on the
new one (`Rule.Presenting`), so whatever reads the new node reads the name it has read before.

The main statement is `Pipeline.run_keeps_named_boundary`.
-/

namespace OpGraph

open OpGraph.Graph (Succession)

variable {σ : Type} {g : Graph}

namespace Edit

/-- A product with a new constant is about to take the place of a node; it has no name yet. -/
theorem ends_scaled_presents (hwf : g.WellFormed) (hb : g.BuiltIn) (root : NodeId) {x : Output}
    {t : Tensor} {rule : Broadcast} {rest : Output → NodeId → Edit Bool}
    (hrest : ∀ {g₂ c}, g.Succession root (g.nodes.size + 1) (· = none) g₂ →
      Ends (·.Presents g) Anything (rest c (g.nodes.size + 1) g₂)) :
    Ends (·.Presents g) Anything ((do
      let c ← addConstant t
      let new ← addNode (.binary .multiply rule) [x, c]
      rest c new) g) := by
  have hconst := Succession.insert_constant hwf hb (Nat.le_succ _) root t
  rw [bind_of_ok (addConstant_eq t g)]
  refine ends_bind_of_ok (fun _ => trivial) fun new g₂ hnew => ?_
  obtain ⟨descs, hinfer, rfl, rfl⟩ := addNode_eq_ok.1 hnew
  have hproduct := hconst.insert rfl hinfer (Op.binary_declares_nothing .multiply rule)
    (Graph.size_insert g _ _ _ ▸ Nat.le_succ _) fun _ => rfl
  rw [Graph.size_insert]
  exact hrest hproduct

/-- **A node that is folded has a single output**, and the constant for it takes the name of the node. -/
theorem ends_foldNode_presents (hwf : g.WellFormed) (hb : g.BuiltIn) (id : NodeId) :
    Ends (·.Presents g) Anything (foldNode id g) := by
  rw [foldNode]
  refine ends_query_bind fun n hn => ends_query_bind fun r hr => ?_
  have hn₀ := Graph.node_eq_ok.1 hn
  cases r with
  | none => exact hwf.presents hb
  | some values =>
    obtain ⟨w, ds, hw, -, -, -, -, hfold, -⟩ := Graph.fold?_eq_some hr
    obtain ⟨value, rfl⟩ := Op.fold_singleton (hb hw).1 hfold
    have hne : id ≠ g.nodes.size := Nat.ne_of_lt (Graph.lt_size_of_view? hw)
    refine ends_bind_of_ok (fun _ => trivial) fun vs g₁ hvs => ?_
    rw [List.zipIdx_singleton] at hvs
    obtain ⟨v, hv, rfl⟩ := mapM_singleton_eq_ok hvs
    obtain ⟨rfl, hname⟩ := addNamedConstant_eq_ok hv
    have hbase : foldedName n.friendlyName 0 [value].length = n.friendlyName := if_pos rfl
    rw [hbase] at hname
    have hconst := Succession.insert_constant hwf hb (Nat.le_refl _) id value
    have hnamed := (ends_setName_succession hconst _).of_ok hname
    have hinherits := Succession.inheritable_named hne hn₀
    refine ends_then (keeps_replaceNodeWith_of_inheritable (fun v hv => ?_) (fun k v hv => ?_) g₁
      hnamed) fun _ g₄ h₄ => ?_
    · exact List.mem_singleton.1 hv ▸ hinherits
    · obtain rfl := List.mem_singleton.1 (List.mem_of_getElem? hv)
      exact Succession.movable rfl hne (Or.inl rfl)
    refine ends_then (keeps_forM (fun v _ =>
      keeps_inheritMetadata_of_inheritable hinherits id v) g₄ h₄) fun _ g₅ h₅ => ?_
    exact ends_bind (keeps_release_presents [id] g₅ (h₅.presents_of_named hn₀ hwf)) fun _ =>
      keeps_pure true

theorem keeps_foldConstants_presents (g₀ : Graph) :
    Keeps (·.Presents g₀) Anything foldConstants := by
  rw [foldConstants]
  refine keeps_bind keeps_get fun _ => ?_
  refine keeps_foldNodes_of (keeps_revalidate_presents fun _ => trivial) (fun id g h => ?_) _ false
  exact (ends_foldNode_presents h.wellFormed h.builtIn id).imp fun _ h' => h'.trans h

end Edit

/-! ### The rules -/

/-- Where the pattern matches, the action leaves the boundary as it looks. -/
def Rule.Presenting (pattern : Pattern) (action : Match → Edit Bool) : Prop :=
  ∀ ⦃g : Graph⦄ ⦃id : NodeId⦄ ⦃m : Match⦄, g.WellFormed → g.BuiltIn →
    pattern.matchNode? g id = some m → Ends (·.Presents g) Edit.Anything (action m g)

theorem Negation.presenting : Rule.Presenting pattern apply := by
  intro g id m hwf hb hm
  obtain ⟨x, w, hx, hw, -⟩ := Pattern.view?_of_match_unary hm
  obtain ⟨n₀, hn₀, -⟩ := Graph.view?_eq_some.1 hw
  have hne : m.root.node ≠ g.nodes.size + 1 :=
    Nat.ne_of_lt (Nat.lt_succ_of_lt (Graph.lt_size_of_view? hw))
  rw [apply, hx]
  refine Edit.ends_query_bind fun d _ => ?_
  split
  next => exact hwf.presents hb
  refine Edit.ends_scaled_presents hwf hb m.root.node fun {g₂ c} h₂ => ?_
  refine Edit.ends_query_bind fun n hn => ?_
  have hn' := Graph.node_eq_ok.1 hn
  rw [h₂.wellFormed.id_eq hn']
  -- the product is named before anything reads it
  rw [h₂.friendlyName_root hne hn₀ hn']
  have hinherits := Succession.inheritable_named hne hn₀
  refine ends_then (Edit.ends_setName_succession h₂ _) fun _ g₃ h₃ => ?_
  refine ends_then (Edit.keeps_copyMetadata_of_inheritable hinherits _ _ g₃ h₃) fun _ g₄ h₄ => ?_
  refine ends_then (Edit.keeps_replaceNode_of_inheritable hinherits
    (fun k => Succession.movable rfl hne (Or.inl rfl)) g₄ h₄) fun _ g₅ h₅ => ?_
  exact h₅.presents_of_named hn₀ hwf

theorem MultiplyChain.presenting : Rule.Presenting pattern apply := by
  intro g id m hwf hb hm
  obtain ⟨x, y, c₁, c₂, inner, outer, hx, hc₁, hy, hc₂, houter, -⟩ := exists_of_match hm
  obtain ⟨n₀, hn₀, -⟩ := Graph.view?_eq_some.1 houter
  have hne : m.root.node ≠ g.nodes.size + 1 :=
    Nat.ne_of_lt (Nat.lt_succ_of_lt (Graph.lt_size_of_view? houter))
  have hnode : m.node? 2 = some y.node := by rw [Match.node?, hy, Option.map_some]
  rw [apply, hx, hc₁, hc₂, hnode]
  refine Edit.ends_query_bind fun r _ => ?_
  cases r with
  | none => exact hwf.presents hb
  | some p =>
    refine Edit.ends_scaled_presents hwf hb m.root.node fun h₂ => ?_
    exact ends_bind (Edit.ends_fuse_presents hwf hn₀ hne h₂ _) fun _ => keeps_pure true

namespace Identity

theorem presenting_bypassConversion : Rule.Presenting conversion bypassConversion := by
  intro g id m hwf hb hm
  obtain ⟨x, w, hx, hw, hkind, -⟩ := Pattern.view?_of_match_unary hm
  have hroot : m.root.node ∉ g.results := hwf.notMem_results hw (by rw [hkind]; decide)
  rw [bypassConversion, get_bind, hx]
  cases g.op? m.root.node with
  | none => exact hwf.presents hb
  | some op =>
    cases op with
    | convert destination =>
      refine Edit.ends_query_bind fun d _ => ?_
      split
      · exact Edit.ends_bypass_presents hwf hb hroot 0
      · exact hwf.presents hb
    | _ => exact hwf.presents hb

theorem presenting_bypassOperation {kind : Kind} (hne : kind ≠ .result) (identity : Float) :
    Rule.Presenting (.ofKind kind) (bypassOperation identity) := by
  intro g id m hwf hb hm
  obtain ⟨w, hw, hkind⟩ := Pattern.view?_of_match_ofKind hm
  have hroot : m.root.node ∉ g.results := hwf.notMem_results hw (hkind.symm ▸ hne)
  rw [bypassOperation, get_bind]
  cases g.identityOperand? m.root.node identity with
  | none => exact hwf.presents hb
  | some index => exact Edit.ends_bypass_presents hwf hb hroot index

end Identity

theorem Rule.Presenting.respects {name : String} {pattern : Pattern} {action : Match → Edit Bool}
    (h : Presenting pattern action) (g₀ : Graph) :
    (Rule.ofEdit name pattern action : Rule σ).Respects (fun s => s.graph.Presents g₀)
      (fun s => Edit.Anything s.graph) := fun _ _ _ hs hm =>
  Action.ends_edit ((h hs.wellFormed hs.builtIn hm).imp fun _ h' => h'.trans hs)

theorem Rule.respects_of_mem_lawfulRules (g₀ : Graph) {r : Rule σ} (hr : r ∈ lawfulRules) :
    r.Respects (fun s => s.graph.Presents g₀) (fun s => Edit.Anything s.graph) := by
  simp only [lawfulRules, List.mem_cons, List.not_mem_nil, or_false] at hr
  rcases hr with rfl | rfl | rfl | rfl | rfl
  · exact Negation.presenting.respects g₀
  · exact MultiplyChain.presenting.respects g₀
  · exact Identity.presenting_bypassConversion.respects g₀
  · exact (Identity.presenting_bypassOperation (by decide) 1).respects g₀
  · exact (Identity.presenting_bypassOperation (by decide) 0).respects g₀

/-! ### The pipeline -/

namespace Pipeline

theorem keeps_pass_presents (g₀ : Graph) {p : Pipeline} {pass : Pass σ} (hpass : pass ∈ p.passes)
    (filter : PassFilter) :
    Keeps (fun s => s.graph.Presents g₀) (fun s => Edit.Anything s.graph) (pass.run filter) := by
  obtain ⟨rules, config, hrules, hrun⟩ | hrun := Pass.run_standard_cases (mem_standard hpass) filter
  · rw [hrun]
    exact keeps_runRules (fun ids => Action.keeps_edit (Edit.keeps_release_presents ids))
      (fun id => Action.keeps_edit (Edit.keeps_revalidate_presents (fun _ => trivial) id))
      (fun r hr => Rule.respects_of_mem_lawfulRules g₀ (hrules r hr)) config filter
  · rw [hrun]
    exact Action.keeps_edit (Edit.keeps_foldConstants_presents g₀)

/-- The boundary of what a run leaves presents what the boundary has presented before. -/
theorem presents_of_run {p : Pipeline} {filter : PassFilter} {memory : σ} {g : Graph}
    (hwf : g.WellFormed) (hb : g.BuiltIn) {changed : Bool} {stats : RunStats} {s : Session σ}
    (hrun : ({ (p.build : Manager σ) with filter } : Manager σ).run ⟨g, memory⟩ =
      (⟨.ok changed, stats⟩, s)) : s.graph.Presents g := by
  have hend : Manager.RunEnds (·.Presents g) Edit.Anything
      (({ (p.build : Manager σ) with filter } : Manager σ).run ⟨g, memory⟩) :=
    Manager.ends_runFrom Edit.keeps_collectGarbage_presents
      (Edit.keeps_validate_presents fun _ => trivial) _
      (fun _ hpass => keeps_pass_presents g hpass filter) g.released {} (hwf.presents hb)
  rw [hrun] at hend
  exact hend

/-- The named boundary of a graph that calls have made of built-in operations is kept, whatever has been called. -/
theorem presents_of_assembled (p : Pipeline) (filter : PassFilter) (memory : σ) {g : Graph}
    (hg : Assembled g) {changed : Bool} {stats : RunStats} {s : Session σ}
    (hrun : ({ (p.build : Manager σ) with filter } : Manager σ).run ⟨g, memory⟩ =
      (⟨.ok changed, stats⟩, s)) : s.graph.Presents g :=
  presents_of_run (wellFormed_of_reached hg.reached) hg.builtIn hrun

/-- **The pipeline keeps the named boundary.**  If a run over a graph of built-in operations answers,
whichever passes are switched on, however the manager is set up and whatever is left out by name, then
the parameters and the results are the same, and each result reads a node with the name, given or
generated, of the node that it has read before; that node is no parameter unless the former one was.

A node of a built-in operation has a single output when it is made, and the number of its outputs does not
change afterwards (`single_output_of_program`).  So the condition on the outputs holds of every graph that is made of
built-in operations by calls (`presents_of_assembled`). -/
theorem run_keeps_named_boundary (p : Pipeline) (filter : PassFilter) (memory : σ) {g : Graph}
    (hwf : g.WellFormed) (hbuilt : ∀ id op, g.op? id = some op → op.isBuiltIn)
    (hsingle : ∀ id n, g.node? id = some n → n.outputs.length = 1)
    {changed : Bool} {stats : RunStats} {s : Session σ}
    (hrun : ({ (p.build : Manager σ) with filter } : Manager σ).run ⟨g, memory⟩ =
      (⟨.ok changed, stats⟩, s)) :
    s.graph.parameters = g.parameters ∧ s.graph.results = g.results ∧
      ∀ r ∈ g.results, ∀ k v, g.source? ⟨r, k⟩ = some v → ∃ v' n n',
        s.graph.source? ⟨r, k⟩ = some v' ∧ g.node? v.node = some n ∧
          s.graph.node? v'.node = some n' ∧ n'.friendlyName = n.friendlyName ∧
            (n'.kind = .parameter → n.kind = .parameter) := by
  have hb : g.BuiltIn := by
    intro id w hw
    obtain ⟨n, hn, rfl⟩ := Graph.view?_eq_some.1 hw
    refine ⟨hbuilt id n.op ?_, (List.length_map _).trans (hsingle id n hn)⟩
    rw [Graph.op?, hn, Option.map_some]
  have h := presents_of_run hwf hb hrun
  exact ⟨h.parameters_eq, h.results_eq, fun r hr k v hv => h.feeds hr hv⟩

/-- The result that has read a negation reads a product with the same name. -/
theorem run_keeps_named_boundary_negatedPair :
    ∃ changed stats s v n,
      ({ (({} : Pipeline).build : Manager Unit) with filter := {} } : Manager Unit).run
        ⟨.negatedPair, ()⟩ = (⟨.ok changed, stats⟩, s) ∧
      s.graph.parameters = [0] ∧ s.graph.results = [2] ∧ s.graph.source? ⟨2, 0⟩ = some v ∧
      s.graph.node? v.node = some n ∧ n.friendlyName = "Negative_1" ∧ n.kind ≠ .parameter := by
  have hbuilt (id : NodeId) (op : Op) (hop : Graph.negatedPair.op? id = some op) :
      op.isBuiltIn := by
    obtain rfl | rfl | rfl := Graph.op?_single hop <;> rfl
  have hsingle (id : NodeId) (n : Node) (hn : Graph.negatedPair.node? id = some n) :
      n.outputs.length = 1 := by
    match id, Graph.lt_three_of_contains_single (Graph.contains_iff.2 ⟨n, hn⟩) with
    | 0, _ => exact Option.some.inj hn ▸ rfl
    | 1, _ => exact Option.some.inj hn ▸ rfl
    | 2, _ => exact Option.some.inj hn ▸ rfl
  -- the run answers because the graph is consistent
  obtain ⟨changed, stats, s, hrun, -⟩ :=
    Manager.exists_runFrom (P := Graph.negatedPair.Conserves)
      (Edit.keeps_collectGarbage_of_hereditary Graph.hereditary_conserves)
      (keeps_validate_conserves _) ({ (({} : Pipeline).build : Manager Unit) with filter := {} })
      (fun _ hpass => keeps_pass_conserves _ {} hpass {}) _ {} (s := ⟨Graph.negatedPair, ()⟩)
      (Graph.conserves_start (Graph.wellFormed_single _ _ _) (Graph.acyclic_single _ _ _)
        (Graph.consistent_single rfl) fun id op _ hop => hbuilt id op hop)
  obtain ⟨hparameters, hresults, hfeeds⟩ := run_keeps_named_boundary {} {} ()
    (Graph.wellFormed_single _ _ _) hbuilt hsingle hrun
  obtain ⟨v, n, n', hv, hn, hn', hname, hkind⟩ :=
    hfeeds 2 (List.mem_singleton.2 rfl) 0 ⟨1, 0⟩ rfl
  obtain rfl := Option.some.inj hn
  exact ⟨changed, stats, s, v, n', hrun, hparameters, hresults, hv, hn', hname.trans (by decide +kernel),
    fun hp => absurd (hkind hp) (by decide)⟩

end Pipeline

end OpGraph
