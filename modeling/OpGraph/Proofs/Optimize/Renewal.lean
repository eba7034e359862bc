import OpGraph.Proofs.Op.Combined
import OpGraph.Proofs.Optimize.Foldable
import OpGraph.Proofs.Optimize.Settled

/-!
# What changes leave of a graph

Every change that a standard pass makes takes one node away, the root, and what else is in the graph after
it is in one of three ways there (`Graph.Renews`): it is an old node with its operation and its descriptions,
whatever it reads now; it is a new constant; or it is a product with a new constant, of which the conversion
of a negation and the fusion of a chain add one.  Bypassing a node adds nothing.
-/

namespace OpGraph

variable {σ : Type} {g₀ g g' g₁ g₂ : Graph} {root id : NodeId} {s s' : Session σ}

namespace Graph

/-- The live nodes that are no constants. -/
def operations (g : Graph) : Finset NodeId :=
  (Finset.range g.nodes.size).filter fun id => (g.op? id).any (·.kind ≠ .constant)

theorem mem_operations : id ∈ g.operations ↔ ∃ w, g.view? id = some w ∧ w.op.kind ≠ .constant := by
  rw [operations, Finset.mem_filter, Finset.mem_range, op?_eq_view]
  constructor
  · rintro ⟨-, h⟩
    cases hw : g.view? id with
    | none =>
      rw [hw] at h
      cases h
    | some w =>
      rw [hw] at h
      exact ⟨w, rfl, of_decide_eq_true h⟩
  · rintro ⟨w, hw, hkind⟩
    rw [hw]
    exact ⟨lt_size_of_view? hw, decide_eq_true hkind⟩

/-- What is left of `g` after a change at `root`, with constants and with multiplications at `products`
added. -/
structure Renews (g : Graph) (root : NodeId) (products : List NodeId) (g' : Graph) : Prop where
  root_mem : root ∈ g.operations
  gone : ¬ g'.contains root
  view_cases : ∀ {id w}, g'.view? id = some w →
    (∃ w₀, g.view? id = some w₀ ∧ w.outline = w₀.outline) ∨
    (∃ t, w.outline = (.constant t, [t.desc])) ∨
    id ∈ products ∧ ∃ rule, w.op = .binary .multiply rule

variable {products : List NodeId}

theorem Renews.restrict (h : g.Renews root products g₁) (hr : g'.Restricts g₁) :
    g.Renews root products g' :=
  ⟨h.root_mem, fun hroot => h.gone (hr.contains hroot), fun hw => h.view_cases (hr.view_eq hw)⟩

/-- Nodes are added first, then the readers of `root` move, and then `root` is released. -/
theorem Diverts.renews {ρ : Output → Output} (h : g₁.Diverts root ρ g₂)
    (hleave : ∀ i v, g₁.source? i = some v → v.node = root → (ρ v).node ≠ root)
    (hroot : g₁.Internal root) {ids : List NodeId} (hmem : root ∈ ids) (hop : root ∈ g.operations)
    (hcases : ∀ {id w}, g₁.view? id = some w → g.view? id = some w ∨
      (∃ t, w.outline = (.constant t, [t.desc])) ∨
      id ∈ products ∧ ∃ rule, w.op = .binary .multiply rule) :
    g.Renews root products (g₂.release ids) := by
  refine ⟨hop, fun hlive => ?_, fun {id w} hw => ?_⟩
  · obtain ⟨w, hw⟩ := contains_iff_view.1 hlive
    exact ((view?_release_eq_some h.wellFormed).1 hw).1 (h.expendable hleave hroot hmem)
  · obtain ⟨-, hw⟩ := (view?_release_eq_some h.wellFormed).1 hw
    rw [h.view_eq] at hw
    obtain ⟨u, hu, rfl⟩ := Option.map_eq_some_iff.1 hw
    rcases hcases hu with hold | hnew
    · exact Or.inl ⟨u, hold, rfl⟩
    · exact Or.inr hnew

/-- A product with a new constant has taken the place of `root`. -/
theorem renews_of_scaled {rule : Broadcast} {x : Output} {t : Tensor} {descs : List Desc}
    {w : Node.View} (hw : g.view? root = some w)
    (hkind : w.op.kind ∉ [Kind.parameter, .result, .constant])
    (hwf : (g.scaled rule x t descs).WellFormed)
    (h : (g.scaled rule x t descs).Diverts root (Edit.outputsOf g.product) g') {ids : List NodeId}
    (hmem : root ∈ ids) : g.Renews root [g.product] (g'.release ids) := by
  have hne : g.product ≠ root := Nat.ne_of_gt (Nat.lt_succ_of_lt (lt_size_of_view? hw))
  simp only [List.mem_cons, List.not_mem_nil, or_false, not_or] at hkind
  obtain ⟨hp, hr, hc⟩ := hkind
  refine h.renews (fun _ _ _ _ => hne) (hwf.internal (view?_scaled_of_view? hw) hp hr) hmem
    (mem_operations.2 ⟨w, hw, hc⟩) ?_
  intro id u hu
  rw [view?_scaled] at hu
  split at hu
  next hid =>
    obtain rfl := Option.some.inj hu
    exact Or.inr (Or.inr ⟨List.mem_singleton.2 hid, rule, rfl⟩)
  next =>
    split at hu
    next =>
      obtain rfl := Option.some.inj hu
      exact Or.inr (Or.inl ⟨t, rfl⟩)
    next => exact Or.inl hu

theorem Folds.renews {values : List Tensor} {ρ : Output → Output} (h : g.Folds root values ρ g₁ g₂) :
    g.Renews root [] (g₂.release [root]) := by
  obtain ⟨w, -, hw, -, -, hc, -⟩ := fold?_eq_some h.fold?_eq
  refine h.diverts.renews h.leave h.internal (List.mem_singleton_self root)
    (mem_operations.2 ⟨w, hw, hc⟩) fun {id w} hw => ?_
  rcases Nat.lt_or_ge id g.nodes.size with hlt | hge
  · exact Or.inl ((h.augments.view_eq hlt).symm.trans hw)
  · obtain ⟨t, -, rfl⟩ := h.augments.view_new hge hw
    exact Or.inr (Or.inl ⟨t, rfl⟩)

end Graph

/-! ### The rules -/

theorem Negation.renews_of_applyAt (hwf : s.graph.WellFormed)
    (happly : (rule : Rule σ).applyAt id s = .ok true s') :
    s.graph.Renews id [s.graph.product] s'.graph := by
  obtain ⟨m, g', hm, rfl, hedit, rfl⟩ := Rule.applyAt_ofEdit_eq_ok hwf happly
  obtain ⟨x, w, d, hw, hkind, -, -, -, descs, hscaled, hdiverts⟩ := apply_eq_ok hwf hm hedit
  exact Graph.renews_of_scaled hw (by rw [hkind]; decide) hscaled hdiverts
    (Pattern.root_mem_visited hm)

theorem MultiplyChain.Fuses.renews {x y c₁ c₂ : Output} {rule : Broadcast} {a b t : Tensor}
    {descs : List Desc} {ids : List NodeId} (h : Fuses g root x y c₁ c₂ rule a b t descs ids g') :
    g.Renews root [g.product] (g'.release ids) := by
  obtain ⟨outs, houter⟩ := h.chain.outer
  have hkind : Kind.multiply ∉ [Kind.parameter, .result, .constant] := by decide
  exact Graph.renews_of_scaled houter hkind h.wellFormed h.diverts h.root_mem

namespace Identity

/-- The node `id` has been bypassed to `source`, which has the description of the node.  Everything else
that the node has read is constant. -/
structure Bypasses (g : Graph) (id : NodeId) (source : Output) (g₁ g' : Graph) : Prop where
  exists_view : ∃ w d, g.view? id = some w ∧ w.op.kind ∈ [Kind.convert, .multiply, .add] ∧
    source ∈ w.inputs ∧ g.desc? source = some d ∧ w.descs = [d] ∧
    ∀ v ∈ w.inputs, v = source ∨ ∃ t, g.constantValue? v = some t
  diverts : g.Diverts id (fun _ => source) g₁
  renews : g.Renews id [] g'
  restricts : g'.Restricts g₁

/-- What a rule that bypasses the root of its matches has done at a node. -/
theorem exists_bypasses {name : String} {pattern : Pattern} {action : Match → Edit Bool}
    (hwf : s.graph.WellFormed)
    (happly : (Rule.ofEdit name pattern action : Rule σ).applyAt id s = .ok true s')
    (haction : ∀ {m : Match} {g' : Graph}, pattern.matchNode? s.graph id = some m → m.root.node = id →
      action m s.graph = .ok true g' → ∃ w d index source, s.graph.view? id = some w ∧
        w.op.kind ∈ [Kind.convert, .multiply, .add] ∧ w.inputs[index]? = some source ∧
        s.graph.desc? source = some d ∧ w.descs = [d] ∧
        (∀ v ∈ w.inputs, v = source ∨ ∃ t, s.graph.constantValue? v = some t) ∧
        Edit.bypass id index s.graph = .ok true g') :
    ∃ source g₁, Bypasses s.graph id source g₁ s'.graph := by
  obtain ⟨m, g', hm, hroot, hok, rfl⟩ := Rule.applyAt_ofEdit_eq_ok hwf happly
  obtain ⟨w, d, index, source, hw, hkind, hs, hd, hdescs, hrest, hbypass⟩ := haction hm hroot hok
  obtain ⟨source', g₁, hsource, hdiverts, rfl⟩ := Edit.bypass_eq_ok hwf hbypass
  obtain rfl := Option.some.inj (((Graph.source?_of_view? hw).trans hs).symm.trans hsource)
  have hkinds : ∀ k ∈ [Kind.convert, .multiply, .add], k ≠ .parameter ∧ k ≠ .result ∧
      k ≠ .constant := by decide
  obtain ⟨hp, hr, hc⟩ := hkinds _ hkind
  have hwf₁ := hdiverts.wellFormed
  have hrelease := Graph.restricts_releaseStack hwf₁ [id].reverse
  have hvisited := Graph.restricts_releaseStack hrelease.wellFormed m.visited.reverse
  have hrenews : s.graph.Renews id [] (g₁.release [id]) :=
    hdiverts.renews (fun _ _ _ _ => (hwf.source_exists hsource).1) (hwf.internal hw hp hr)
      (List.mem_singleton_self id) (Graph.mem_operations.2 ⟨w, hw, hc⟩) fun hw => Or.inl hw
  exact ⟨source, g₁, ⟨w, d, hw, hkind, List.mem_of_getElem? hs, hd, hdescs, hrest⟩, hdiverts,
    hrenews.restrict hvisited, hvisited.trans hrelease⟩

theorem exists_bypasses_convertRule {τ : Typing} {rank : NodeId → Nat}
    (ht : Graph.Typed g₀ τ rank s.graph) (hid : g₀.Relevant id)
    (happly : (convertRule : Rule σ).applyAt id s = .ok true s') :
    ∃ source g₁, Bypasses s.graph id source g₁ s'.graph := by
  refine exists_bypasses ht.wellFormed happly fun {m g'} hm hroot hok => ?_
  obtain ⟨x, w, hx, hw, hkind, hin⟩ := Pattern.view?_of_match_unary hm
  obtain ⟨x', d, hx', hop, hdesc, hok⟩ := bypassConversion_eq_ok hok
  obtain rfl := Option.some.inj (hx.symm.trans hx')
  rw [hroot] at hw hop hok
  obtain ⟨d', hd', -, -, hinfer⟩ := ht.reads_single hid hw hin
  obtain rfl := Option.some.inj (hdesc.symm.trans hd')
  rw [Graph.op_eq_of_view? hw hop] at hinfer
  obtain ⟨-, -, hdescs⟩ := Op.infer_convert.1 hinfer
  refine ⟨w, d, 0, x, hw, by simp [hkind], by rw [hin]; rfl, hdesc, hdescs, fun v hv => ?_, hok⟩
  exact Or.inl (List.mem_singleton.1 (hin ▸ hv))

theorem exists_bypasses_bypassOperation {name : String} {kind : Kind} {identity : Float}
    (hkind : kind ∈ [Kind.convert, .multiply, .add]) (hwf : s.graph.WellFormed)
    (happly : (Rule.ofEdit name (.ofKind kind) (bypassOperation identity) : Rule σ).applyAt id s =
      .ok true s') : ∃ source g₁, Bypasses s.graph id source g₁ s'.graph := by
  refine exists_bypasses hwf happly fun {m g'} hm hroot hok => ?_
  obtain ⟨u, hu, hukind⟩ := Pattern.view?_of_match_ofKind hm
  rw [bypassOperation, get_bind, hroot] at hok
  rw [hroot] at hu
  cases hi : s.graph.identityOperand? id identity with
  | none =>
    rw [hi] at hok
    cases (pure_eq_ok.1 hok).1
  | some index =>
    rw [hi] at hok
    obtain ⟨w, data, other, c, d, hw, hin, hc, -, hd, hdescs⟩ := Graph.identityOperand?_eq_some hi
    obtain rfl := Option.some.inj (hu.symm.trans hw)
    refine ⟨u, d, index, data, hu, hukind ▸ hkind, ?_, hd, hdescs, fun v hv => ?_, hok⟩
    · rcases hin with ⟨rfl, hin⟩ | ⟨rfl, hin⟩ <;> rw [hin] <;> rfl
    · have hmem : v = data ∨ v = other := by
        rcases hin with ⟨-, hin⟩ | ⟨-, hin⟩ <;> rw [hin] at hv <;> simpa [or_comm] using hv
      rcases hmem with rfl | rfl
      exacts [Or.inl rfl, Or.inr ⟨c, hc⟩]

/-- **The rules for operations without effect bypass the node.** -/
theorem exists_bypasses_of_applyAt {τ : Typing} {rank : NodeId → Nat}
    (ht : Graph.Typed g₀ τ rank s.graph) (hid : g₀.Relevant id) {r : Rule σ}
    (hr : r ∈ [convertRule, multiplyRule, addRule]) (happly : r.applyAt id s = .ok true s') :
    ∃ source g₁, Bypasses s.graph id source g₁ s'.graph := by
  simp only [List.mem_cons, List.not_mem_nil, or_false] at hr
  rcases hr with rfl | rfl | rfl
  · exact exists_bypasses_convertRule ht hid happly
  · exact exists_bypasses_bypassOperation (by decide) ht.wellFormed happly
  · exact exists_bypasses_bypassOperation (by decide) ht.wellFormed happly

end Identity

/-! ### What becomes no more -/

namespace Graph

variable {products : List NodeId} {q : NodeId}

/-- Of what passes look for, there is no more in `g'` than there is in `g`. -/
structure Subsides (g g' : Graph) : Prop where
  negates : ∀ {q}, Negation.Negates g' q → Negation.Negates g q
  card_le : g'.operations.card ≤ g.operations.card

instance : IsTrans Graph Subsides where
  trans _ _ _ h h' :=
    ⟨fun hq => h.negates (h'.negates hq), Nat.le_trans h'.card_le h.card_le⟩

theorem Restricts.operations_subset (h : g'.Restricts g) : g'.operations ⊆ g.operations := by
  intro q hq
  obtain ⟨w, hw, hkind⟩ := mem_operations.1 hq
  exact mem_operations.2 ⟨w, h.view_eq hw, hkind⟩

theorem Restricts.subsides (h : g'.Restricts g) : g.Subsides g' where
  negates := fun ⟨w, d, hw, hrest⟩ => ⟨w, d, h.view_eq hw, hrest⟩
  card_le := Finset.card_le_card h.operations_subset

namespace Renews

variable (h : g.Renews root products g')

include h

/-- New nodes are constants and multiplications. -/
theorem negates (hq : Negation.Negates g' q) : Negation.Negates g q := by
  obtain ⟨w, d, hw, hop, hdescs, hsigned⟩ := hq
  rcases h.view_cases hw with ⟨w₀, hw₀, hsame⟩ | ⟨t, hnew⟩ | ⟨-, rule, hnew⟩
  · obtain ⟨hop₀, hdescs₀⟩ := Prod.mk.inj hsame
    exact ⟨w₀, d, hw₀, hop₀.symm.trans hop, hdescs₀.symm.trans hdescs, hsigned⟩
  · cases hop.symm.trans (Prod.mk.inj hnew).1
  · cases hop.symm.trans hnew

theorem operations_subset : g'.operations ⊆ g.operations.erase root ∪ products.toFinset := by
  intro q hq
  obtain ⟨w, hw, hkind⟩ := mem_operations.1 hq
  have hne : q ≠ root := fun he => h.gone (he ▸ contains_of_view? hw)
  rw [Finset.mem_union, List.mem_toFinset]
  rcases h.view_cases hw with ⟨w₀, hw₀, hsame⟩ | ⟨t, hnew⟩ | ⟨hmem, -⟩
  · refine Or.inl (Finset.mem_erase.2 ⟨hne, mem_operations.2 ⟨w₀, hw₀, ?_⟩⟩)
    rw [← (Prod.mk.inj hsame).1]
    exact hkind
  · exact absurd (congrArg Op.kind (Prod.mk.inj hnew).1) hkind
  · exact Or.inr hmem

theorem card_operations_lt :
    g'.operations.card < g.operations.card + products.length := by
  have hle := Finset.card_le_card h.operations_subset
  have hunion := Finset.card_union_le (g.operations.erase root) products.toFinset
  have hproducts := List.toFinset_card_le products
  have hpos : 0 < g.operations.card := Finset.card_pos.2 ⟨root, h.root_mem⟩
  rw [Finset.card_erase_of_mem h.root_mem] at hunion
  omega

/-- A change that adds one operation at most leaves no more of anything. -/
theorem subsides (hproducts : products.length ≤ 1) : g.Subsides g' where
  negates := h.negates
  card_le := by
    have hlt := h.card_operations_lt
    omega

end Renews

end Graph

/-! ### What changes leave no more of -/

theorem Graph.Folds.subsides {values : List Tensor} {ρ : Output → Output}
    (h : g.Folds root values ρ g₁ g₂) : g.Subsides (g₂.release [root]) :=
  h.renews.subsides (Nat.zero_le 1)

theorem Negation.subsides_of_applyAt (hwf : s.graph.WellFormed)
    (happly : (rule : Rule σ).applyAt id s = .ok true s') : s.graph.Subsides s'.graph :=
  (renews_of_applyAt hwf happly).subsides (Nat.le_refl 1)

theorem MultiplyChain.Fuses.subsides {x y c₁ c₂ : Output} {rule : Broadcast} {a b t : Tensor}
    {descs : List Desc} {ids : List NodeId} (h : Fuses g root x y c₁ c₂ rule a b t descs ids g') :
    g.Subsides (g'.release ids) :=
  h.renews.subsides (Nat.le_refl 1)

theorem Identity.Bypasses.subsides {source : Output} (h : Bypasses g id source g₁ g') :
    g.Subsides g' :=
  h.renews.subsides (Nat.zero_le 1)

end OpGraph
