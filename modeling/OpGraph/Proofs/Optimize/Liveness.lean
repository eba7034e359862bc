import OpGraph.Proofs.Edit.Rerouting
import OpGraph.Proofs.Graph.Tidy
import OpGraph.Proofs.Optimize.Folding
import OpGraph.Proofs.Optimize.Rewriting
import OpGraph.Proofs.Optimize.Scaled

/-!
# Passes leave nothing to collect

A rule of the standard passes puts a product with a new constant in the place of a node
(`Tidy.ends_scaled`), or it bypasses a node (`Tidy.ends_bypass`).  In both cases the node is the only one
that is loose afterwards: what is new is read by what has read the node.  The match has visited the node,
so the release after the action makes the graph tidy again (`Rule.Loosens.keeps_applyAt`).  Folding puts
a single constant in the place of a node and releases the node itself (`Tidy.ends_foldNode`).

So a run of a pass keeps a graph tidy, and there is nothing to collect after it
(`passes_leave_no_garbage`).
-/

namespace OpGraph

namespace Graph

open Edit

namespace Tidy

variable {g : Graph} {rank : NodeId → Nat} {id : NodeId} {loose : List NodeId}

/-- Off the boundary every node of a tidy graph has a reader. -/
theorem exists_reader (h : g.Tidy rank []) {w : Node.View} (hw : g.view? id = some w)
    (hp : w.op.kind ≠ .parameter) (hr : w.op.kind ≠ .result) :
    ∃ i k, g.source? i = some ⟨id, k⟩ := by
  have hkind : g.kind? id = some w.op.kind := by rw [kind?_eq_view, hw, Option.map_some]
  rcases h.anchored (contains_of_view? hw) List.not_mem_nil with hmem | hmem | ⟨c, hc⟩
  · exact absurd (Option.some.inj (hkind.symm.trans (h.wellFormed.mem_parameters.1 hmem))) hp
  · exact absurd (Option.some.inj (hkind.symm.trans (h.wellFormed.kind_of_mem_results hmem))) hr
  · obtain ⟨i, v, -, hi, rfl⟩ := produces_iff_source.1 hc
    exact ⟨i, v.index, hi⟩

/-- What has got a reader is not loose any more. -/
theorem of_reading {v : Output} (h : g.Tidy rank (v.node :: loose)) {i : Input}
    (hi : Reading i [v] g) : g.Tidy rank loose :=
  h.of_cons (Or.inr (Or.inr ⟨i.node, produces_iff_source.2 ⟨i, v, rfl,
    (reading_singleton.1 hi).2, rfl⟩⟩))

theorem insert_constant (h : g.Tidy rank []) (t : Tensor) :
    (g.insert (.constant t) [] [t.desc]).Tidy (Function.update rank g.nodes.size 0)
      [g.nodes.size] := by
  obtain ⟨hp, hr⟩ := Op.constant_declares_nothing t
  exact h.insert _ (by simp) rfl hp hr (by simp) (by simp)

/-- A product with a new constant takes the rank of the node that it stands for. -/
theorem insert_scaled (h : g.Tidy rank []) {old : NodeId} {x : Output} (hlive : g.contains x.node)
    (hx : rank x.node < rank old) {t : Tensor} (rule : Broadcast) (descs : List Desc)
    (hin : ∀ v ∈ [x, ⟨g.nodes.size, 0⟩],
      ∃ ts, (g.insert (.constant t) [] [t.desc]).targets? v = some ts) :
    ((g.insert (.constant t) [] [t.desc]).insert (.binary .multiply rule) [x, ⟨g.nodes.size, 0⟩]
      descs).Tidy
        (Function.update (Function.update rank g.nodes.size 0) (g.nodes.size + 1) (rank old))
        [g.nodes.size + 1] := by
  obtain ⟨hp, hr⟩ := Op.binary_declares_nothing .multiply rule
  have hrank : ∀ v ∈ [x, ⟨g.nodes.size, 0⟩],
      Function.update rank g.nodes.size 0 v.node < rank old := by
    intro v hv
    rcases List.mem_pair.1 hv with rfl | rfl
    · rwa [Function.update_of_ne (Nat.ne_of_lt (lt_size_of_contains hlive))]
    · rw [Function.update_self]
      exact Nat.zero_lt_of_lt hx
  have hend := (h.insert_constant t).insert descs hin rfl hp hr hrank fun j hj =>
    ⟨⟨g.nodes.size, 0⟩, by simp, (List.mem_singleton.1 hj).symm⟩
  rwa [size_insert] at hend

/-- A product with a new constant is read in the place of a node. -/
theorem ends_scaled (h : g.Tidy rank []) {old : NodeId} {w : Node.View} (hw : g.view? old = some w)
    (hp : w.op.kind ≠ .parameter) (hr : w.op.kind ≠ .result) {x : Output}
    (hlive : g.contains x.node) (hx : rank x.node < rank old) {t : Tensor} {rule : Broadcast}
    {rest : Output → NodeId → Edit Bool} (hrest : ∀ c, Supplants old (rest c)) :
    Ends (TidyBut [old]) Anything ((do
      let c ← addConstant t
      let new ← addNode (.binary .multiply rule) [x, c]
      rest c new) g) := by
  -- one of the readers of the node is the one that will read the product
  obtain ⟨i, k, hi⟩ := h.exists_reader hw hp hr
  have hold : old < g.nodes.size := lt_size_of_view? hw
  have hreader : i.node < g.nodes.size := lt_size_of_contains (contains_of_source? hi)
  have hi₁ : Reading i [⟨old, k⟩] (g.insert (.constant t) [] [t.desc]) :=
    (reading_singleton.2 ⟨h.wellFormed, hi⟩).insert _ _ (by simp)
  rw [bind_of_ok (addConstant_eq t g)]
  refine ends_bind_of_ok (fun _ => trivial) fun new g₂ hnew => ?_
  obtain ⟨descs, hinfer, rfl, rfl⟩ := addNode_eq_ok.1 hnew
  have hin : ∀ v ∈ [x, ⟨g.nodes.size, 0⟩],
      ∃ ts, (g.insert (.constant t) [] [t.desc]).targets? v = some ts := fun v hv =>
    exists_targets_of_inferNew hinfer hv
  have h₂ := h.insert_scaled hlive hx rule descs hin
  have hi₂ := reading_singleton.1 (hi₁.insert (.binary .multiply rule) descs hin)
  rw [size_insert]
  have hmovable : ∀ k, Movable (Tidy (Function.update (Function.update rank g.nodes.size 0)
      (g.nodes.size + 1) (rank old)) [g.nodes.size + 1, old]) ⟨old, k⟩ ⟨g.nodes.size + 1, k⟩ := by
    refine fun k => movable_tidy (by simp) ?_
    rw [Function.update_self, Function.update_of_ne (Nat.ne_of_lt (Nat.lt_succ_of_lt hold)),
      Function.update_of_ne (Nat.ne_of_lt hold)]
  have hkept := (hrest ⟨g.nodes.size, 0⟩).keeps renamable_tidy hmovable _ (h₂.mono (by simp))
  have hmoved := (hrest ⟨g.nodes.size, 0⟩).moves hi₂.1 hi₂.2
    (Nat.ne_of_lt (Nat.lt_succ_of_lt hreader))
  exact (hkept.and hmoved).imp fun g' h => ⟨_, h.1.of_reading h.2⟩

/-- What has lost its readers to an input of it goes at the end. -/
theorem ends_bypass (h : g.Tidy rank []) (id : NodeId) (index : Nat) :
    Ends (TidyBut []) Anything (bypass id index g) := by
  have hloose : g.Tidy rank [id] := h.mono (by simp)
  refine ends_bypass_of_renamable renamable_tidy hloose ⟨rank, h⟩
    (fun source hs => movable_tidy List.mem_cons_self (Nat.le_of_lt (h.rank_lt ?_)))
    fun g h => ⟨rank, h.release fun _ hj => hj⟩
  exact produces_of_source? hs

/-! ### Folding -/

theorem of_addNamedConstant (h : g.Tidy rank []) {name : String} {t : Tensor} {v : Output}
    {g' : Graph} (hok : addNamedConstant name t g = .ok v g') :
    v = ⟨g.nodes.size, 0⟩ ∧ g'.Tidy (Function.update rank g.nodes.size 0) [g.nodes.size] ∧
      ∀ {i u}, g.source? i = some u → g'.source? i = some u := by
  obtain ⟨rfl, hname⟩ := addNamedConstant_eq_ok hok
  refine ⟨rfl, (keeps_setName_of_renamable renamable_tidy _ name).of_ok (h.insert_constant t) hname,
    fun {i u} hi => ?_⟩
  have hi₁ : Reading i [u] (g.insert (.constant t) [] [t.desc]) :=
    (reading_singleton.2 ⟨h.wellFormed, hi⟩).insert _ _ (by simp)
  exact (reading_singleton.1
    ((keeps_setName_of_renamable renamable_reading _ name).of_ok hi₁ hname)).2

/-- A loose node is read in the place of another one, which is loose then. -/
theorem ends_replaceNodeWith {v : Output} (h : g.Tidy rank [v.node]) {old : NodeId} {i : Input}
    {k : Nat} (hi : g.source? i = some ⟨old, k⟩) (hrank : rank v.node ≤ rank old)
    (hold : v.node ≠ old) (hreader : i.node ≠ v.node) :
    Ends (Tidy rank [old]) Anything (replaceNodeWith old [v] g) := by
  have hmovable : ∀ k u, [v][k]? = some u → Movable (Tidy rank [v.node, old]) ⟨old, k⟩ u := by
    intro k u hu
    obtain rfl := List.mem_singleton.1 (List.mem_of_getElem? hu)
    exact movable_tidy (by simp) hrank
  have hkept := keeps_replaceNodeWith_of_movable renamable_tidy hmovable g (h.mono (by simp))
  have hmoved := ends_replaceNodeWith_reading h.wellFormed hi
    (fun w hw => List.mem_singleton.1 hw ▸ hold) fun w hw => List.mem_singleton.1 hw ▸ hreader
  refine (hkept.and hmoved).imp fun g' h' => ?_
  obtain ⟨hloose, u, hu, hreads⟩ := h'
  obtain rfl := List.mem_singleton.1 (List.mem_of_getElem? hu)
  exact hloose.of_reading hreads

/-- **A node that is folded has a single output**, so the only new constant is read by what has read the
node. -/
theorem ends_foldNode (h : g.Tidy rank []) (id : NodeId) :
    Ends (TidyBut []) Anything (foldNode id g) := by
  rw [foldNode]
  refine ends_query_bind fun n _ => ends_query_bind fun r hr => ?_
  cases r with
  | none => exact ⟨rank, h⟩
  | some values =>
    obtain ⟨w, ds, hw, hp, hres, -, -, hfold, -⟩ := fold?_eq_some hr
    obtain ⟨value, rfl⟩ := Op.fold_singleton (h.isBuiltIn (op?_of_view? hw)) hfold
    obtain ⟨i, k, hi⟩ := h.exists_reader hw hp hres
    have hid : g.nodes.size ≠ id := Nat.ne_of_gt (lt_size_of_view? hw)
    have hreader : i.node ≠ g.nodes.size :=
      Nat.ne_of_lt (lt_size_of_contains (contains_of_source? hi))
    refine ends_bind_of_ok (fun _ => trivial) fun vs g₁ hvs => ?_
    rw [List.zipIdx_singleton] at hvs
    obtain ⟨v, hv, rfl⟩ := mapM_singleton_eq_ok hvs
    obtain ⟨rfl, h₁, hkept⟩ := h.of_addNamedConstant hv
    have hrank : Function.update rank g.nodes.size 0 g.nodes.size ≤
        Function.update rank g.nodes.size 0 id := by
      rw [Function.update_self]
      exact Nat.zero_le _
    refine ends_then (h₁.ends_replaceNodeWith (hkept hi) hrank hid hreader) fun _ g₄ h₄ => ?_
    refine ends_then (keeps_forM (fun v _ => keeps_inheritMetadata renamable_tidy id v) g₄ h₄)
      fun _ g₅ h₅ => ?_
    exact ⟨_, h₅.release fun _ hj => hj⟩

end Tidy

end Graph

/-! ### The rules -/

/-- Where the pattern matches in a tidy graph, the action leaves the root loose if it reports a change,
and nothing otherwise. -/
def Rule.Loosens (pattern : Pattern) (action : Match → Edit Bool) : Prop :=
  ∀ ⦃g g' : Graph⦄ ⦃rank : NodeId → Nat⦄ ⦃id : NodeId⦄ ⦃m : Match⦄ ⦃changed : Bool⦄,
    g.Tidy rank [] → pattern.matchNode? g id = some m → action m g = .ok changed g' →
      g'.TidyBut (if changed then [m.root.node] else [])

theorem Negation.loosens : Rule.Loosens pattern apply := by
  intro g g' rank id m changed h hm hok
  obtain ⟨x, w, d, hw, hkind, hin, -, -, hdone⟩ := apply_cases hm hok
  cases changed with
  | false =>
    obtain rfl : g' = g := hdone
    exact ⟨rank, h⟩
  | true =>
    have hproduces : g.Produces x.node m.root.node := Graph.produces_of_view? hw (by simp [hin])
    exact Ends.of_ok (h.ends_scaled hw (by rw [hkind]; decide) (by rw [hkind]; decide)
      (h.wellFormed.contains_of_produces hproduces) (h.rank_lt hproduces)
      (supplants_takeover m.root.node)) hdone

theorem MultiplyChain.loosens : Rule.Loosens pattern apply := by
  intro g g' rank id m changed h hm hok
  obtain ⟨x, y, c₁, c₂, inner, outer, r, -, houter, hin, hinner, hin', hscale, hdone⟩ :=
    apply_cases hm hok
  cases r with
  | none =>
    obtain ⟨rfl, rfl⟩ := hdone
    exact ⟨rank, h⟩
  | some p =>
    obtain ⟨t, rule⟩ := p
    obtain ⟨rfl, hdone⟩ := hdone
    have hinnermost : g.Produces x.node y.node := Graph.produces_of_view? hinner (by simp [hin'])
    have houtermost : g.Produces y.node m.root.node := Graph.produces_of_view? houter (by simp [hin])
    obtain ⟨-, -, -, -, -, -, -, -, hop, -⟩ := scale?_eq_some hscale
    obtain ⟨hp, hres⟩ := Op.binary_declares_nothing .multiply rule
    have hwop := Graph.op_eq_of_view? houter hop
    exact Ends.of_ok (h.ends_scaled houter (hwop ▸ hp) (hwop ▸ hres)
      (h.wellFormed.contains_of_produces hinnermost)
      (Nat.lt_trans (h.rank_lt hinnermost) (h.rank_lt houtermost))
      fun _ => supplants_fuse [y.node, m.root.node] m.root.node) hdone

namespace Identity

theorem loosens_bypassConversion : Rule.Loosens conversion bypassConversion := by
  intro g g' rank id m changed h hm hok
  refine Graph.TidyBut.of_tidy ?_ _
  refine Ends.of_ok (P := Graph.TidyBut []) (E := Edit.Anything) ?_ hok
  obtain ⟨x, w, hx, -⟩ := Pattern.view?_of_match_unary hm
  rw [bypassConversion, get_bind, hx]
  cases g.op? m.root.node with
  | none => exact ⟨rank, h⟩
  | some op =>
    cases op with
    | convert destination =>
      refine Edit.ends_query_bind fun d _ => ?_
      split
      · exact h.ends_bypass _ _
      · exact ⟨rank, h⟩
    | _ => exact ⟨rank, h⟩

theorem loosens_bypassOperation (pattern : Pattern) (identity : Float) :
    Rule.Loosens pattern (bypassOperation identity) := by
  intro g g' rank id m changed h hm hok
  refine Graph.TidyBut.of_tidy ?_ _
  refine Ends.of_ok (P := Graph.TidyBut []) (E := Edit.Anything) ?_ hok
  rw [bypassOperation, get_bind]
  cases g.identityOperand? m.root.node identity with
  | none => exact ⟨rank, h⟩
  | some index => exact h.ends_bypass _ _

end Identity

/-- **What an action has left loose goes in the release after it**, because the match has visited it. -/
theorem Rule.Loosens.keeps_applyAt {σ : Type} {name : String} {pattern : Pattern}
    {action : Match → Edit Bool} (h : Loosens pattern action) (id : NodeId) :
    Keeps (fun s : Session σ => s.graph.TidyBut []) (fun s => Edit.Anything s.graph)
      ((Rule.ofEdit name pattern action).applyAt id) := by
  intro s hs
  obtain ⟨rank, htidy⟩ := hs
  rw [applyAt_eq]
  cases hm : (Rule.ofEdit name pattern action : Rule σ).pattern.matchNode? s.graph id with
  | none => exact ⟨rank, htidy⟩
  | some m =>
    refine ends_bind_of_ok (fun _ => trivial) fun changed s' hrun => ?_
    obtain ⟨g', hok, rfl⟩ := Action.edit_eq_ok.1 hrun
    have hend := h htidy hm hok
    cases changed with
    | false => exact hend
    | true =>
      obtain ⟨rank', hend⟩ := hend
      have hvisited : ∀ j ∈ [m.root.node], j ∈ m.visited := fun j hj =>
        List.mem_singleton.1 hj ▸ Pattern.root_mem_visited hm
      exact ⟨rank', hend.release hvisited⟩

variable {σ : Type}

/-- A run of such rules keeps a graph tidy. -/
theorem keeps_runRules_tidy {rules : List (Rule σ)}
    (hrules : ∀ r ∈ rules, ∀ id, Keeps (fun s : Session σ => s.graph.TidyBut [])
      (fun s => Edit.Anything s.graph) (r.applyAt id))
    (config : TraversalConfig) (filter : PassFilter) :
    Keeps (fun s : Session σ => s.graph.TidyBut []) (fun s => Edit.Anything s.graph)
      (runRules rules config filter) :=
  keeps_runRules_of_applyAt (V := fun _ => True) (fun _ _ _ _ => trivial)
    (fun _ id _ hs _ => Action.ends_edit (Graph.keeps_revalidate_tidyBut [] id _ hs))
    (fun r hr id _ => hrules r hr id) config filter

/-- Folding keeps a graph tidy. -/
theorem keeps_foldConstants_tidy :
    Keeps (Graph.TidyBut []) Edit.Anything Edit.foldConstants := by
  rw [Edit.foldConstants]
  refine keeps_bind keeps_get fun g₀ => ?_
  refine Edit.keeps_foldNodes_of (Graph.keeps_revalidate_tidyBut []) (fun id g h => ?_) _ false
  obtain ⟨rank, h⟩ := h
  exact h.ends_foldNode id

theorem Rule.keeps_applyAt_of_mem_lawfulRules {r : Rule σ} (hr : r ∈ lawfulRules) (id : NodeId) :
    Keeps (fun s : Session σ => s.graph.TidyBut []) (fun s => Edit.Anything s.graph)
      (r.applyAt id) := by
  simp only [lawfulRules, List.mem_cons, List.not_mem_nil, or_false] at hr
  rcases hr with rfl | rfl | rfl | rfl | rfl
  · exact Negation.loosens.keeps_applyAt id
  · exact MultiplyChain.loosens.keeps_applyAt id
  · exact Identity.loosens_bypassConversion.keeps_applyAt id
  · exact (Identity.loosens_bypassOperation _ 1).keeps_applyAt id
  · exact (Identity.loosens_bypassOperation _ 0).keeps_applyAt id

theorem keeps_run_tidy {pass : Pass σ}
    (hpass : pass ∈ [.rule Negation.rule, .constantFolding, .rule MultiplyChain.rule,
      Identity.pass]) (filter : PassFilter) :
    Keeps (fun s : Session σ => s.graph.TidyBut []) (fun s => Edit.Anything s.graph)
      (pass.run filter) := by
  obtain ⟨rules, config, hrules, hrun⟩ | hrun := Pass.run_standard_cases hpass filter
  · rw [hrun]
    exact keeps_runRules_tidy (fun r hr => Rule.keeps_applyAt_of_mem_lawfulRules (hrules r hr))
      config filter
  · rw [hrun]
    exact Action.keeps_edit keeps_foldConstants_tidy

/-- **Passes leave nothing to collect.**  If the boundary hangs on all nodes of a graph of built-in
operations without cycles, it hangs on all nodes of the graph at the end of a pass, and the collection of
garbage changes nothing. -/
theorem passes_leave_no_garbage {g : Graph} (hwf : g.WellFormed) (hacyclic : g.Acyclic)
    (hbuilt : ∀ id op, g.op? id = some op → op.isBuiltIn)
    (hlive : ∀ id, g.contains id → g.Reachable id) {pass : Pass σ}
    (hpass : pass ∈ [.rule Negation.rule, .constantFolding, .rule MultiplyChain.rule,
      Identity.pass])
    {filter : PassFilter} {memory : σ} {changed : Bool} {s : Session σ}
    (hrun : pass.run filter ⟨g, memory⟩ = .ok changed s) :
    (∀ id, s.graph.contains id → s.graph.Reachable id) ∧
      Edit.collectGarbage s.graph = .ok 0 s.graph := by
  obtain ⟨rank, hrank⟩ := Graph.exists_rank hwf hacyclic
  have hstart : g.TidyBut [] := ⟨rank, Graph.tidy_of_reachable hwf hrank hbuilt hlive⟩
  obtain ⟨rank', hend⟩ := (keeps_run_tidy hpass filter).of_ok hstart hrun
  have hreach : ∀ id, s.graph.contains id → s.graph.Reachable id := fun _ hid => hend.reachable hid
  exact ⟨hreach, Graph.collectGarbage_of_reachable hend.wellFormed hreach⟩

/-- The negation of a pair is gone after the run, and everything else is in use. -/
theorem passes_leave_no_garbage_negatedPair :
    ∃ s : Session Unit,
      (Pass.rule Negation.rule).run {} (⟨Graph.negatedPair, ()⟩ : Session Unit) = .ok true s ∧
        s.graph.ids = [0, 2, 3, 4] ∧ (∀ id, s.graph.contains id → s.graph.Reachable id) ∧
          Edit.collectGarbage s.graph = .ok 0 s.graph := by
  have hbuilt (id : NodeId) (op : Op) (hop : Graph.negatedPair.op? id = some op) :
      op.isBuiltIn := by
    obtain rfl | rfl | rfl := Graph.op?_single hop <;> rfl
  have hresult : Graph.negatedPair.Reachable 2 := .result (List.mem_singleton.2 rfl)
  have hnegation : Graph.negatedPair.Reachable 1 :=
    hresult.producer (Graph.produces_iff_source.2 ⟨⟨2, 0⟩, ⟨1, 0⟩, rfl, rfl, rfl⟩)
  have hlive (id : NodeId) (hid : Graph.negatedPair.contains id) :
      Graph.negatedPair.Reachable id := by
    match id, Graph.lt_three_of_contains_single hid with
    | 0, _ => exact .parameter (List.mem_singleton.2 rfl)
    | 1, _ => exact hnegation
    | 2, _ => exact hresult
  obtain ⟨hreach, hcollect⟩ := passes_leave_no_garbage (Graph.wellFormed_single _ _ _)
    (Graph.acyclic_single _ _ _) hbuilt hlive List.mem_cons_self Graph.run_negatedPair
  exact ⟨_, Graph.run_negatedPair, by decide +kernel, hreach, hcollect⟩

end OpGraph
