import OpGraph.Proofs.Op.Combined
import OpGraph.Proofs.Optimize.Progress
import OpGraph.Proofs.Optimize.TypedRules
import OpGraph.Proofs.Pattern.Binding
import OpGraph.Proofs.Rule.Settled

/-!
# Where multiplications are fused

A chain is a product with a constant that is read by another such product and by nothing else.  On a
graph whose descriptions are up to date the rule fires at a chain if and only if the shapes of the two
constants combine (`hit_iff_fusable`): that the types of the constants merge and that the description of
the result stays the same follows from the descriptions.

After a fusion the new product reads the data, so the release stops at the chain
(`Fuses.mem_of_expendable`), and the readers of the chain read the new product.  A chain that is left has
been one before, or the new product is its outer one; then the inner product of the fused chain has been
the outer one of a chain whose constants combine (`Fuses.fusable_release`).  So the rule settles
(`settling_rule`).
-/

namespace OpGraph

theorem ElementType.exists_merge {a b c ab r : ElementType} (hab : a.merge b = some ab)
    (hr : ab.merge c = some r) : ∃ bc, b.merge c = some bc := by
  simp only [merge] at *
  grind

namespace MultiplyChain

open Relation (TransGen)

open OpGraph.Graph (Typed)

/-- The product `y` of `x` and a constant is read by the product `root` of `y` and a constant, under the
same broadcasting rule, and by nothing else. -/
structure Chain (g : Graph) (root : NodeId) (x y c₁ c₂ : Output) (rule : Broadcast) (a b : Tensor) :
    Prop where
  outer : ∃ descs, g.view? root = some ⟨.binary .multiply rule, [y, c₂], descs⟩
  inner : ∃ descs, g.view? y.node = some ⟨.binary .multiply rule, [x, c₁], descs⟩
  lone : ∀ i, g.source? i = some y → i = ⟨root, 0⟩
  first : g.constantValue? c₁ = some a
  second : g.constantValue? c₂ = some b

/-- A chain whose constants combine. -/
def Fusable (g : Graph) (root : NodeId) : Prop :=
  ∃ x y c₁ c₂ rule a b s, Chain g root x y c₁ c₂ rule a b ∧ a.shape.broadcast b.shape = some s

variable {g₀ g g' : Graph} {τ : Typing} {rank : NodeId → Nat} {root q : NodeId}
  {x y c₁ c₂ : Output} {rule : Broadcast} {a b t : Tensor} {m : Match}

/-! ### Chains have matches -/

/-- The binding of the five nodes of the pattern. -/
def binding (x c₁ y c₂ v : Output) : Fin 5 → Option Output
  | 0 => some x
  | 1 => some c₁
  | 2 => some y
  | 3 => some c₂
  | 4 => some v

namespace Chain

variable (h : Chain g root x y c₁ c₂ rule a b)

include h

theorem source?_root_zero : g.source? ⟨root, 0⟩ = some y :=
  h.outer.elim fun _ houter => (Graph.source?_of_view? houter).trans rfl

theorem source?_root_one : g.source? ⟨root, 1⟩ = some c₂ :=
  h.outer.elim fun _ houter => (Graph.source?_of_view? houter).trans rfl

theorem source?_inner_zero : g.source? ⟨y.node, 0⟩ = some x :=
  h.inner.elim fun _ hinner => (Graph.source?_of_view? hinner).trans rfl

theorem source?_inner_one : g.source? ⟨y.node, 1⟩ = some c₁ :=
  h.inner.elim fun _ hinner => (Graph.source?_of_view? hinner).trans rfl

theorem exists_match (hwf : g.WellFormed) (hout : g.hasOutput ⟨root, 0⟩) :
    ∃ m, pattern.matchNode? g root = some m := by
  have hread {i : Input} {v : Output} (hi : g.source? i = some v) : g.hasOutput v := by
    obtain ⟨d, hd⟩ := Graph.exists_targets?_iff.1 (hwf.source_exists hi).2
    exact Graph.hasOutput_of_desc? hd
  have hconstant {v : Output} {t : Tensor} (hv : g.constantValue? v = some t) :
      ∃ w, g.view? v.node = some w ∧ w.op.kind ∈ [Kind.constant] := by
    obtain ⟨w, hw, hop⟩ := Graph.constantValue?_eq_some.1 hv
    exact ⟨w, hw, by rw [hop]; exact List.mem_singleton.2 rfl⟩
  obtain ⟨outs, houter⟩ := h.outer
  obtain ⟨ins, hinner⟩ := h.inner
  have hbinding : pattern.IsBinding g ⟨root, 0⟩ (binding x c₁ y c₂ ⟨root, 0⟩) := by
    refine ⟨rfl, show ∀ (i : Fin 5) u, binding x c₁ y c₂ ⟨root, 0⟩ i = some u → _ from ?_⟩
    intro i u hu
    match i with
    | 0 =>
      obtain rfl := Option.some.inj hu
      exact ⟨hread h.source?_inner_zero, rfl⟩
    | 1 =>
      obtain rfl := Option.some.inj hu
      obtain ⟨w, hw, hkind⟩ := hconstant h.first
      exact ⟨hread h.source?_inner_one, rfl, w, hw, hkind, fun hne => absurd rfl hne⟩
    | 2 =>
      obtain rfl := Option.some.inj hu
      have hcount := hwf.consumerCount_eq_one h.source?_root_zero h.lone
      refine ⟨hread h.source?_root_zero, beq_iff_eq.2 hcount, _, hinner, List.mem_singleton.2 rfl,
        fun _ => ?_⟩
      exact .cons rfl (.cons rfl .nil)
    | 3 =>
      obtain rfl := Option.some.inj hu
      obtain ⟨w, hw, hkind⟩ := hconstant h.second
      exact ⟨hread h.source?_root_one, rfl, w, hw, hkind, fun hne => absurd rfl hne⟩
    | 4 =>
      obtain rfl := Option.some.inj hu
      refine ⟨hout, rfl, _, houter, List.mem_singleton.2 rfl, fun _ => ?_⟩
      exact .cons rfl (.cons rfl .nil)
  exact hbinding.exists_matchNode? hwf

/-- What inference has found along the chain. -/
theorem exists_infer (ht : Typed g₀ τ rank g) (hid : g₀.Relevant root) :
    ∃ d e out, g.desc? x = some d ∧ BinaryOp.infer rule [d, a.desc] = .ok [e] ∧
      BinaryOp.infer rule [e, b.desc] = .ok [out] ∧
        ∀ v o, v.node = root → g.desc? v = some o → o = out := by
  have hdesc {v : Output} {t : Tensor} {d : Desc} (hv : g.constantValue? v = some t)
      (hd : g.desc? v = some d) (hrel : g₀.Relevant v.node) : d = t.desc :=
    Graph.desc?_of_constantValue? (ht.consistentAt hrel (Graph.contains_of_desc? hd)) hv hd
  have hsingle {id : NodeId} {w : Node.View} {v : Output} {o out : Desc} (hw : g.view? id = some w)
      (hdescs : w.descs = [out]) (hv : v.node = id) (ho : g.desc? v = some o) : o = out := by
    rw [Graph.desc?_of_view? (hv ▸ hw), hdescs] at ho
    exact List.mem_singleton.1 (List.mem_of_getElem? ho)
  obtain ⟨outs, houter⟩ := h.outer
  obtain ⟨ins, hinner⟩ := h.inner
  obtain ⟨e, d₂, ⟨he, hrely⟩, ⟨hd₂, hrel₂⟩, houts⟩ := ht.reads_pair hid houter rfl
  obtain ⟨d, d₁, ⟨hd, -⟩, ⟨hd₁, hrel₁⟩, hins⟩ := ht.reads_pair hrely hinner rfl
  obtain rfl := hdesc h.first hd₁ hrel₁
  obtain rfl := hdesc h.second hd₂ hrel₂
  obtain ⟨out, hout⟩ := Op.infer_singleton (ht.isBuiltIn hid houter) houts
  obtain ⟨e', he'⟩ := Op.infer_singleton (ht.isBuiltIn hrely hinner) hins
  obtain rfl := hsingle hinner he' rfl he
  exact ⟨d, e, out, hd, hins.trans (congrArg _ he'), houts.trans (congrArg _ hout),
    fun v o hv ho => hsingle houter hout hv ho⟩

/-- Where the shapes of the constants combine, the rule has nothing else to object. -/
theorem exists_scale? (ht : Typed g₀ τ rank g) (hid : g₀.Relevant root) {s : Shape}
    (hs : a.shape.broadcast b.shape = some s) {v : Output} (hv : v.node = root)
    (hout : g.hasOutput v) : ∃ t, scale? g x c₁ c₂ y.node v = .ok (some (t, rule)) := by
  obtain ⟨d, e, out, hd, hinner, houter, hall⟩ := h.exists_infer ht hid
  obtain ⟨o, ho⟩ := Graph.exists_desc?_of_hasOutput hout
  obtain rfl := hall v o hv ho
  -- the types merge because they have merged with the type of the data
  obtain ⟨_, _, type₁, shape₁, hin, htype₁, -, -, hout₁⟩ := BinaryOp.infer_eq_ok.1 hinner
  cases hin
  obtain rfl := List.singleton_injective hout₁
  obtain ⟨_, _, type₂, shape₂, hin, htype₂, -, -, -⟩ := BinaryOp.infer_eq_ok.1 houter
  cases hin
  obtain ⟨type, htype⟩ : ∃ type, a.elementType.merge b.elementType = some type :=
    ElementType.exists_merge htype₁ htype₂
  obtain ⟨t, ht, -⟩ := Tensor.exists_zipBroadcast hs type (· * ·)
  obtain ⟨rfl, hshape⟩ := Tensor.zipBroadcast_eq_some ht
  have hcombined : BinaryOp.infer rule [d, t.desc] = .ok [o] :=
    BinaryOp.infer_combined hinner houter htype (Shape.broadcast_eq_some hshape)
  obtain ⟨outs, hroot⟩ := h.outer
  obtain ⟨ins, hy⟩ := h.inner
  have hrule : broadcast? g v.node = some rule :=
    broadcast?_eq_some.2 (Graph.op?_of_view? (hv ▸ hroot))
  have hrule' : broadcast? g y.node = some rule := broadcast?_eq_some.2 (Graph.op?_of_view? hy)
  refine ⟨t, ?_⟩
  simp [scale?, h.first, h.second, hrule, hrule', htype, ht, Graph.desc_eq_ok_iff_desc?.2 hd,
    Graph.desc_eq_ok_iff_desc?.2 ho, hcombined, bind, Except.bind, pure, Except.pure]

/-- The constants of a chain read nothing. -/
theorem source?_constant (ht : Typed g₀ τ rank g) (hid : g₀.Relevant root) {i : Input} {v : Output}
    (hi : g.source? i = some v) : i.node ≠ c₁.node ∧ i.node ≠ c₂.node := by
  have hempty {u : Output} {t : Tensor} (hrel : g₀.Relevant u.node)
      (hu : g.constantValue? u = some t) : i.node ≠ u.node := by
    intro hnode
    obtain ⟨w, hw, hop⟩ := Graph.constantValue?_eq_some.1 hu
    obtain ⟨ds, hds, hinfer⟩ := ht.reads hrel hw
    rw [Graph.source?_of_view? (hnode ▸ hw)] at hi
    obtain ⟨d, hd, -⟩ := forall₂_getElem? hds hi
    rw [hop, Op.infer] at hinfer
    split at hinfer
    next hds =>
      rw [List.isEmpty_iff.1 hds] at hd
      cases hd
    next => cases hinfer
  obtain ⟨outs, houter⟩ := h.outer
  obtain ⟨ins, hinner⟩ := h.inner
  obtain ⟨-, -, ⟨-, hrely⟩, ⟨-, hrel₂⟩, -⟩ := ht.reads_pair hid houter rfl
  obtain ⟨-, -, -, ⟨-, hrel₁⟩, -⟩ := ht.reads_pair hrely hinner rfl
  exact ⟨hempty hrel₁ h.first, hempty hrel₂ h.second⟩

end Chain

/-! ### Matches have chains -/

/-- The inner product of a match has a single reader. -/
theorem consumerCount_of_match {id : NodeId} (hm : pattern.matchNode? g id = some m)
    (hy : m.get? 2 = some y) : g.consumerCount y = 1 := by
  obtain ⟨-, hall⟩ := Pattern.explains_of_matchNode? hm
  obtain ⟨-, hcount, -⟩ := hall 2 (by decide) y hy
  exact beq_iff_eq.1 hcount

theorem mem_visited {id j : NodeId} (hm : pattern.matchNode? g id = some m) (hx : m.get? 0 = some x)
    (hc₁ : m.get? 1 = some c₁) (hy : m.get? 2 = some y) (hc₂ : m.get? 3 = some c₂)
    (hj : j ∈ m.visited) : j ∈ [x.node, c₁.node, y.node, c₂.node, m.root.node] := by
  obtain ⟨i, v, hv, rfl⟩ := (Pattern.mem_visited_iff hm).1 hj
  obtain ⟨n, -, hvalue⟩ := Option.bind_eq_some_iff.1 hm
  obtain ⟨u, -, hvalue⟩ := List.exists_of_findSome?_eq_some hvalue
  obtain ⟨hroot, -⟩ := Pattern.explains_of_matchNode? hm
  match i, Pattern.lt_size_of_matchValue? hvalue hv with
  | 0, _ => simp [Option.some.inj (hv.symm.trans hx)]
  | 1, _ => simp [Option.some.inj (hv.symm.trans hc₁)]
  | 2, _ => simp [Option.some.inj (hv.symm.trans hy)]
  | 3, _ => simp [Option.some.inj (hv.symm.trans hc₂)]
  | 4, _ => simp [Option.some.inj (hv.symm.trans hroot)]

/-- The rule has fused a chain, and the nodes `ids` will be released. -/
structure Fuses (g : Graph) (root : NodeId) (x y c₁ c₂ : Output) (rule : Broadcast) (a b t : Tensor)
    (descs : List Desc) (ids : List NodeId) (g' : Graph) : Prop where
  chain : Chain g root x y c₁ c₂ rule a b
  merged : ∃ type, a.elementType.merge b.elementType = some type ∧
    a.zipBroadcast b type (· * ·) = some t
  accepted : ∃ d v out, g.desc? x = some d ∧ v.node = root ∧ g.desc? v = some out ∧
    BinaryOp.infer rule [d, t.desc] = .ok [out]
  wellFormed : (g.scaled rule x t descs).WellFormed
  diverts : (g.scaled rule x t descs).Diverts root (Edit.outputsOf g.product) g'
  inferred : (g.insert (.constant t) [] [t.desc]).inferNew (.binary .multiply rule)
    [x, ⟨g.nodes.size, 0⟩] = .ok descs
  fused : Edit.fuse [y.node, root] root g.product (g.scaled rule x t descs) = .ok () g'
  root_mem : root ∈ ids
  visited : ∀ j ∈ ids, j ∈ [x.node, c₁.node, y.node, c₂.node, root]

/-- What the rule has done at a match. -/
theorem exists_fuses {id : NodeId} (hwf : g.WellFormed) (ha : g.Acyclic)
    (hm : pattern.matchNode? g id = some m) (hok : apply m g = .ok true g') :
    ∃ x y c₁ c₂ rule a b t descs, Fuses g m.root.node x y c₁ c₂ rule a b t descs m.visited g' := by
  obtain ⟨x, y, c₁, c₂, inner, outer, r, ⟨hx, hc₁, hy, hc₂⟩, houter, hin, hinner, hin', hscale,
    hend⟩ := apply_eq_ok hwf ha hm hok
  cases r with
  | none => cases hend.1
  | some p =>
  obtain ⟨t, rule⟩ := p
  obtain ⟨-, descs, hscaled, hdiverts, hinferred, hfused⟩ := hend
  obtain ⟨a, b, type, data, expected, ha, hb, hop', hop, htype, hzip, hdata, hexpected, hinfer⟩ :=
    scale?_eq_some hscale
  obtain ⟨outerOp, outerInputs, outs⟩ := outer
  obtain ⟨innerOp, innerInputs, ins⟩ := inner
  obtain rfl : outerOp = _ := Graph.op_eq_of_view? houter hop
  obtain rfl : innerOp = _ := Graph.op_eq_of_view? hinner hop'
  obtain rfl : outerInputs = _ := hin
  obtain rfl : innerInputs = _ := hin'
  have hread : g.source? ⟨m.root.node, 0⟩ = some y := (Graph.source?_of_view? houter).trans rfl
  refine ⟨x, y, c₁, c₂, rule, a, b, t, descs, ⟨⟨outs, houter⟩, ⟨ins, hinner⟩, fun i hi => ?_, ha, hb⟩,
    ⟨type, htype, hzip⟩, ⟨data, m.root, expected, hdata, rfl, hexpected, hinfer⟩, hscaled, hdiverts,
    hinferred, hfused, Pattern.root_mem_visited hm, fun j => mem_visited hm hx hc₁ hy hc₂⟩
  exact hwf.eq_of_consumerCount (consumerCount_of_match hm hy) hi hread

/-! ### After a fusion -/

theorem Chain.cases_of_root (h : Chain g root x y c₁ c₂ rule a b) {i : Input} {v : Output}
    (hi : g.source? i = some v) (hroot : i.node = root) :
    i = ⟨root, 0⟩ ∧ v = y ∨ v = c₂ := by
  obtain ⟨outs, houter⟩ := h.outer
  rw [Graph.source?_of_view? (hroot ▸ houter)] at hi
  obtain ⟨id, k⟩ := i
  obtain rfl : id = root := hroot
  match k, hi with
  | 0, hi => exact Or.inl ⟨rfl, (Option.some.inj hi).symm⟩
  | 1, hi => exact Or.inr (Option.some.inj hi).symm

theorem Chain.cases_of_inner (h : Chain g root x y c₁ c₂ rule a b) {i : Input} {v : Output}
    (hi : g.source? i = some v) (hnode : i.node = y.node) :
    i = ⟨y.node, 0⟩ ∧ v = x ∨ v = c₁ := by
  obtain ⟨ins, hinner⟩ := h.inner
  rw [Graph.source?_of_view? (hnode ▸ hinner)] at hi
  obtain ⟨id, k⟩ := i
  obtain rfl : id = y.node := hnode
  match k, hi with
  | 0, hi => exact Or.inl ⟨rfl, (Option.some.inj hi).symm⟩
  | 1, hi => exact Or.inr (Option.some.inj hi).symm

/-- The products and the constants are there. -/
theorem Chain.exists_view? (h : Chain g root x y c₁ c₂ rule a b) {id : NodeId}
    (hid : id ∈ [root, y.node, c₁.node, c₂.node]) : ∃ w, g.view? id = some w := by
  obtain ⟨outs, houter⟩ := h.outer
  obtain ⟨ins, hinner⟩ := h.inner
  obtain ⟨w₁, hw₁, -⟩ := Graph.constantValue?_eq_some.1 h.first
  obtain ⟨w₂, hw₂, -⟩ := Graph.constantValue?_eq_some.1 h.second
  simp only [List.mem_cons, List.not_mem_nil, or_false] at hid
  rcases hid with rfl | rfl | rfl | rfl
  exacts [⟨_, houter⟩, ⟨_, hinner⟩, ⟨_, hw₁⟩, ⟨_, hw₂⟩]

theorem Chain.lt_size (h : Chain g root x y c₁ c₂ rule a b) {id : NodeId}
    (hid : id ∈ [root, y.node, c₁.node, c₂.node]) : id < g.nodes.size := by
  obtain ⟨w, hw⟩ := h.exists_view? hid
  exact Graph.lt_size_of_view? hw

theorem Chain.produces_root (h : Chain g root x y c₁ c₂ rule a b) : g.Produces y.node root :=
  Graph.produces_of_source? h.source?_root_zero

theorem Chain.produces_inner (h : Chain g root x y c₁ c₂ rule a b) : g.Produces x.node y.node :=
  Graph.produces_of_source? h.source?_inner_zero

namespace Fuses

variable {descs : List Desc} {ids : List NodeId} {id : NodeId} {w : Node.View}
  (h : Fuses g root x y c₁ c₂ rule a b t descs ids g') (ha : g.Acyclic)
  (hconstant : ∀ {i v}, g.source? i = some v → i.node ≠ c₁.node ∧ i.node ≠ c₂.node)

include h

theorem combined : a.shape.broadcast b.shape = some t.shape := by
  obtain ⟨type, -, hzip⟩ := h.merged
  exact (Tensor.zipBroadcast_eq_some hzip).2

theorem contains_root : g.contains root := by
  obtain ⟨outs, houter⟩ := h.chain.outer
  exact Graph.contains_of_view? houter

/-- The product is described by what inference finds from the data and the combined constant. -/
theorem infer_eq {d : Desc} (hx : g.desc? x = some d) : BinaryOp.infer rule [d, t.desc] = .ok descs := by
  obtain ⟨ds, hds, hinfer⟩ := Edit.inferNew_eq_ok.1 h.inferred
  obtain ⟨d₁, l, hd₁, hrest, rfl⟩ := List.forall₂_cons_left_iff.1 hds
  obtain ⟨d₂, l, hd₂, hnil, rfl⟩ := List.forall₂_cons_left_iff.1 hrest
  obtain rfl := List.forall₂_nil_left_iff.1 hnil
  rw [Graph.desc_eq_ok_iff_desc?, Graph.desc?_insert_of_desc? g _ _ _ hx, Option.some.injEq] at hd₁
  rw [Graph.desc_eq_ok_iff_desc?, Graph.desc?_insert_size] at hd₂
  obtain rfl := hd₁
  obtain rfl := Option.some.inj hd₂
  exact hinfer

include ha

theorem ne_root : x.node ≠ root := by
  intro hx
  exact ha root (.head (hx ▸ h.chain.produces_inner) (.single h.chain.produces_root))

/-- What did not read the root is as it was, or new. -/
theorem view?_eq (hid : ¬ g.Produces root id) :
    g'.view? id = (g.scaled rule x t descs).view? id :=
  h.diverts.view_eq_of_not_produces
    (mt (Graph.produces_scaled (h.ne_root ha) h.contains_root).1 hid)

theorem view?_of_view? (hw : g.view? id = some w) (hid : ¬ g.Produces root id) :
    g'.view? id = some w :=
  (h.view?_eq ha hid).trans (Graph.view?_scaled_of_view? hw)

theorem view?_product :
    g'.view? g.product = some ⟨.binary .multiply rule, [x, ⟨g.nodes.size, 0⟩], descs⟩ := by
  rw [h.view?_eq ha, Graph.view?_scaled, if_pos rfl]
  intro hp
  exact absurd (Graph.lt_size_of_contains (Graph.contains_of_produces_right hp))
    (Nat.not_lt_of_le (Nat.le_succ _))

theorem source?_product : g'.source? ⟨g.product, 0⟩ = some x :=
  (Graph.source?_of_view? (h.view?_product ha)).trans rfl

include hconstant

/-- What a node of the chain hangs on belongs to the chain. -/
theorem mem_of_produces {p c : NodeId} (hp : g'.Produces p c)
    (hc : c ∈ [root, y.node, c₁.node, c₂.node]) : p ∈ [x.node, y.node, c₁.node, c₂.node] := by
  have hnode {i : Input} {v : Output} (hi : g.source? i = some v) (hic : i.node = c) :
      c = root ∨ c = y.node := by
    obtain ⟨hne₁, hne₂⟩ := hconstant hi
    rw [hic] at hne₁ hne₂
    simpa [hne₁, hne₂] using hc
  -- so the node does not read the root, and it still reads what it did
  have hnot : ¬ g.Produces root c := by
    intro hroot
    obtain ⟨i, v, hic, hv, -⟩ := Graph.produces_iff_source.1 hroot
    rcases hnode hv hic with rfl | rfl
    · exact ha c (.single hroot)
    · exact ha root (.head hroot (.single h.chain.produces_root))
  obtain ⟨w, hw⟩ := h.chain.exists_view? hc
  obtain ⟨i, v, hic, hv, rfl⟩ := Graph.produces_iff_source.1 hp
  rw [Graph.source?_of_view? (hic ▸ h.view?_of_view? ha hw hnot), ← Graph.source?_of_view?
    (hic ▸ hw)] at hv
  rcases hnode hv hic with rfl | rfl
  · rcases h.chain.cases_of_root hv hic with ⟨-, rfl⟩ | rfl <;> simp
  · rcases h.chain.cases_of_inner hv hic with ⟨-, rfl⟩ | rfl <;> simp

/-- **The release takes the products of the chain and the constants at most.**  The data is read by the
new product. -/
theorem mem_of_expendable (hid : g'.Expendable ids id) : id ∈ [root, y.node, c₁.node, c₂.node] := by
  have hdata {p : NodeId} (hp : p ∈ [x.node, root, y.node, c₁.node, c₂.node])
      (hcs : ∀ c, g'.Produces p c → c ∈ [root, y.node, c₁.node, c₂.node]) :
      p ∈ [root, y.node, c₁.node, c₂.node] := by
    rcases List.mem_cons.1 hp with rfl | hp
    · have hread := Graph.produces_of_source? (h.source?_product ha)
      exact absurd (h.chain.lt_size (hcs g.product hread)) (Nat.not_lt_of_le (Nat.le_succ _))
    · exact hp
  induction hid with
  | listed _ hmem _ ih =>
    refine hdata ?_ ih
    have := h.visited _ hmem
    simp only [List.mem_cons, List.not_mem_nil, or_false] at this ⊢
    tauto
  | producer _ hp _ _ ihc ih =>
    refine hdata ?_ ih
    have := h.mem_of_produces ha hconstant hp ihc
    simp only [List.mem_cons, List.not_mem_nil, or_false] at this ⊢
    tauto

theorem source?_release {i : Input} {v : Output} (hi : g'.source? i = some v)
    (hnode : i.node ∉ [root, y.node, c₁.node, c₂.node]) : (g'.release ids).source? i = some v := by
  rw [Graph.source?_eq_view] at hi ⊢
  obtain ⟨w, hw, hv⟩ := Option.bind_eq_some_iff.1 hi
  have hstays : ¬ g'.Expendable ids i.node := fun hgone =>
    hnode (h.mem_of_expendable ha hconstant hgone)
  exact Option.bind_eq_some_iff.2
    ⟨w, (Graph.view?_release_eq_some h.diverts.wellFormed).2 ⟨hstays, hw⟩, hv⟩

/-- The new product stays. -/
theorem source?_product_release : (g'.release ids).source? ⟨g.product, 0⟩ = some x := by
  refine h.source?_release ha hconstant (h.source?_product ha) fun hmem => ?_
  exact absurd (h.chain.lt_size hmem) (Nat.not_lt_of_le (Nat.le_succ _))

/-- What has been read is still read, apart from the root, unless it has been read in the chain. -/
theorem reads {i : Input} {v : Output} (hi : g.source? i = some v) (hv : v.node ≠ root) :
    (g'.release ids).source? i = some v ∨ i = ⟨root, 0⟩ ∧ v = y ∨ i = ⟨y.node, 0⟩ ∧ v = x ∨
      ∃ t, g.constantValue? v = some t := by
  obtain ⟨hne₁, hne₂⟩ := hconstant hi
  by_cases hroot : i.node = root
  · rcases h.chain.cases_of_root hi hroot with hy | rfl
    · exact Or.inr (Or.inl hy)
    · exact Or.inr (Or.inr (Or.inr ⟨b, h.chain.second⟩))
  by_cases hinner : i.node = y.node
  · rcases h.chain.cases_of_inner hi hinner with hx | rfl
    · exact Or.inr (Or.inr (Or.inl hx))
    · exact Or.inr (Or.inr (Or.inr ⟨a, h.chain.first⟩))
  refine Or.inl (h.source?_release ha hconstant ?_ (by simp [hroot, hinner, hne₁, hne₂]))
  obtain ⟨w, hw, hwv⟩ := Option.bind_eq_some_iff.1 ((Graph.source?_eq_view g i) ▸ hi)
  rw [h.diverts.source?_eq, Graph.source?_of_view? (Graph.view?_scaled_of_view? hw), hwv,
    Option.map_some, Graph.divert, if_neg hv]

omit hconstant in
/-- What is left is new, or it has been there; if it has not read the root it is as it was. -/
theorem view?_cases (hw : (g'.release ids).view? id = some w) : id ≠ root ∧
    (id = g.product ∧ w = ⟨.binary .multiply rule, [x, ⟨g.nodes.size, 0⟩], descs⟩ ∨
      id = g.nodes.size ∧ w.op = .constant t ∨
      ∃ w', g.view? id = some w' ∧ w'.op = w.op ∧ (g.Produces root id ∨ w' = w)) := by
  obtain ⟨hstays, hw⟩ := (Graph.view?_release_eq_some h.diverts.wellFormed).1 hw
  constructor
  · rintro rfl
    refine hstays (h.diverts.expendable (fun _ _ _ _ => ?_) ?_ h.root_mem)
    · exact Nat.ne_of_gt (Nat.lt_succ_of_lt (Graph.lt_size_of_contains h.contains_root))
    · obtain ⟨outs, houter⟩ := h.chain.outer
      obtain ⟨hp, hr⟩ := Op.binary_declares_nothing .multiply rule
      exact h.wellFormed.internal (Graph.view?_scaled_of_view? houter) hp hr
  by_cases hid : g.Produces root id
  · obtain ⟨w', hw'⟩ := Graph.contains_iff_view.1 (Graph.contains_of_produces_right hid)
    rw [h.diverts.view_eq, Graph.view?_scaled_of_view? hw'] at hw
    obtain rfl := Option.some.inj hw
    exact Or.inr (Or.inr ⟨w', hw', rfl, Or.inl hid⟩)
  rw [h.view?_eq ha hid, Graph.view?_scaled] at hw
  split at hw
  next hnew => exact Or.inl ⟨hnew, (Option.some.inj hw).symm⟩
  next =>
    split at hw
    next hnew =>
      obtain rfl := Option.some.inj hw
      exact Or.inr (Or.inl ⟨hnew, rfl⟩)
    next => exact Or.inr (Or.inr ⟨w, hw, rfl, Or.inr rfl⟩)

omit hconstant in
theorem view?_of_lt_size (hw : (g'.release ids).view? id = some w) (hlt : id < g.nodes.size) :
    id ≠ root ∧ ∃ w', g.view? id = some w' ∧ w'.op = w.op ∧ (g.Produces root id ∨ w' = w) := by
  obtain ⟨hne, ⟨rfl, -⟩ | ⟨rfl, -⟩ | hold⟩ := h.view?_cases ha hw
  · exact absurd hlt (Nat.not_lt_of_le (Nat.le_succ _))
  · exact absurd hlt (Nat.lt_irrefl _)
  · exact ⟨hne, hold⟩

omit hconstant in
theorem constantValue? {v : Output} {s : Tensor} (hv : g.contains v.node)
    (hs : (g'.release ids).constantValue? v = some s) : g.constantValue? v = some s := by
  obtain ⟨w, hw, hop⟩ := Graph.constantValue?_eq_some.1 hs
  obtain ⟨-, w', hw', hop', -⟩ := h.view?_of_lt_size ha hw (Graph.lt_size_of_contains hv)
  exact Graph.constantValue?_eq_some.2 ⟨w', hw', hop'.trans hop⟩

variable (hwf : g.WellFormed)

include hwf

/-- Where the new product is the outer product of a chain, the old inner product has been one. -/
theorem fusable_inner {x' y' c₁' c₂' : Output} {rule' : Broadcast} {a' b' : Tensor} {s : Shape}
    (hchain : Chain (g'.release ids) g.product x' y' c₁' c₂' rule' a' b')
    (hs : a'.shape.broadcast b'.shape = some s) : Fusable g y.node := by
  obtain ⟨outs, houter⟩ := hchain.outer
  obtain ⟨ins, hinner⟩ := hchain.inner
  have hlt : g.nodes.size < g.product := Nat.lt_succ_self _
  obtain ⟨-, ⟨-, hw⟩ | ⟨hnode, -⟩ | ⟨w, hw, -⟩⟩ := h.view?_cases ha houter
  rotate_left
  · exact absurd hnode (Nat.ne_of_gt hlt)
  · exact absurd (Graph.lt_size_of_view? hw) (Nat.not_lt_of_gt hlt)
  -- it reads the data and the combined constant
  cases hw
  obtain ⟨wb, hwb, hopb⟩ := Graph.constantValue?_eq_some.1 hchain.second
  obtain ⟨-, ⟨hnode, -⟩ | ⟨-, hopt⟩ | ⟨w, hw, -⟩⟩ := h.view?_cases ha hwb
  · exact absurd hnode (Nat.ne_of_lt hlt)
  rotate_left
  · exact absurd (Graph.lt_size_of_view? hw) (Nat.lt_irrefl _)
  obtain rfl : t = b' := Op.constant.inj (hopt.symm.trans hopb)
  -- so the data is a product with a constant in the old graph
  have hx := hwf.contains_of_produces h.chain.produces_inner
  obtain ⟨-, w, hw, -, hroot | rfl⟩ := h.view?_of_lt_size ha hinner (Graph.lt_size_of_contains hx)
  · exact absurd (.head hroot (.head h.chain.produces_inner (.single h.chain.produces_root))) (ha root)
  have hread : g.source? ⟨x.node, 1⟩ = some c₁' := (Graph.source?_of_view? hw).trans rfl
  obtain ⟨u, hu⟩ := Shape.exists_broadcast_of_combined h.combined hs
  refine ⟨x', x, c₁', c₁, rule, a', a, u, ⟨h.chain.inner, ⟨ins, hw⟩, fun i hi => ?_, ?_,
    h.chain.first⟩, hu⟩
  · rcases h.reads ha hconstant hi (h.ne_root ha) with hstays | ⟨-, rfl⟩ | ⟨rfl, -⟩ | ⟨s, hs⟩
    · obtain rfl := hchain.lone i hstays
      exact absurd (Graph.lt_size_of_contains (Graph.contains_of_source? hi)) (Nat.not_lt_of_gt hlt)
    · exact absurd (.single h.chain.produces_inner) (ha x.node)
    · rfl
    · obtain ⟨w, hw', hop⟩ := Graph.constantValue?_eq_some.1 hs
      obtain rfl := Option.some.inj (hw'.symm.trans hw)
      cases hop
  · exact h.constantValue? ha (hwf.contains_of_read hread) hchain.first

/-- **What may fire after a fusion could have fired before**, unless it hangs on the root.  If it is the
new product, the old inner product could have fired. -/
theorem fusable_release (hq : Fusable (g'.release ids) q) :
    q ≠ root ∧ Fusable g q ∨ TransGen g.Produces root q ∨
      ∃ p, TransGen g.Produces p root ∧ Fusable g p := by
  obtain ⟨x', y', c₁', c₂', rule', a', b', s, hchain, hs⟩ := hq
  obtain ⟨outs, houter⟩ := hchain.outer
  obtain ⟨ins, hinner⟩ := hchain.inner
  obtain ⟨hne, ⟨rfl, -⟩ | ⟨-, hop⟩ | ⟨w, hw, -, hroot | rfl⟩⟩ := h.view?_cases ha houter
  · exact Or.inr (Or.inr ⟨y.node, .single h.chain.produces_root,
      h.fusable_inner ha hconstant hwf hchain hs⟩)
  · cases hop
  · exact Or.inr (Or.inl (.single hroot))
  -- an old node that has been a product with a constant before
  have hy : g.source? ⟨q, 0⟩ = some y' := (Graph.source?_of_view? hw).trans rfl
  have hc₂ : g.source? ⟨q, 1⟩ = some c₂' := (Graph.source?_of_view? hw).trans rfl
  obtain ⟨hney, w, hwy, -, hroot | rfl⟩ :=
    h.view?_of_lt_size ha hinner (Graph.lt_size_of_contains (hwf.contains_of_read hy))
  · exact Or.inr (Or.inl (.head hroot (.single (Graph.produces_of_source? hy))))
  have hc₁ : g.source? ⟨y'.node, 1⟩ = some c₁' := (Graph.source?_of_view? hwy).trans rfl
  refine Or.inl ⟨hne, x', y', c₁', c₂', rule', a', b', s, ⟨⟨outs, hw⟩, ⟨ins, hwy⟩, fun i hi => ?_,
    h.constantValue? ha (hwf.contains_of_read hc₁) hchain.first,
    h.constantValue? ha (hwf.contains_of_read hc₂) hchain.second⟩, hs⟩
  rcases h.reads ha hconstant hi hney with hstays | ⟨-, rfl⟩ | ⟨-, rfl⟩ | ⟨s, hs⟩
  · exact hchain.lone i hstays
  · exact absurd (congrArg Input.node (h.chain.lone _ hy)) hne
  · have hnew : g.product = q :=
      congrArg Input.node (hchain.lone _ (h.source?_product_release ha hconstant))
    exact absurd (hnew ▸ Graph.lt_size_of_view? hw) (Nat.not_lt_of_le (Nat.le_succ _))
  · obtain ⟨w, hw', hop⟩ := Graph.constantValue?_eq_some.1 hs
    obtain rfl := Option.some.inj (hw'.symm.trans hwy)
    cases hop

end Fuses

/-! ### Where the rule fires -/

variable {σ : Type} {s s' : Session σ} {hit : Bool}

/-- What the rule has done at a node. -/
theorem exists_fuses_of_applyAt {id : NodeId} (hwf : s.graph.WellFormed) (ha : s.graph.Acyclic)
    (happly : (MultiplyChain.rule : Rule σ).applyAt id s = .ok true s') :
    ∃ x y c₁ c₂ rule a b t descs ids g', Fuses s.graph id x y c₁ c₂ rule a b t descs ids g' ∧
      s'.graph = g'.release ids := by
  obtain ⟨m, g', hm, rfl, hedit, rfl⟩ := Rule.applyAt_ofEdit_eq_ok hwf happly
  obtain ⟨x, y, c₁, c₂, rule, a, b, t, descs, hfuses⟩ := exists_fuses hwf ha hm hedit
  exact ⟨x, y, c₁, c₂, rule, a, b, t, descs, m.visited, g', hfuses, rfl⟩

/-- A chain whose constants combine has a match, and there the rule does not decline. -/
theorem Chain.not_declined (hchain : Chain s.graph root x y c₁ c₂ rule a b)
    (ht : Typed g₀ τ rank s.graph) (hid : g₀.Relevant root) {u : Shape}
    (hu : a.shape.broadcast b.shape = some u) :
    (MultiplyChain.rule : Rule σ).applyAt root s ≠ .ok false s' := by
  intro happly
  obtain ⟨outs, houter⟩ := hchain.outer
  obtain ⟨ins, hinner⟩ := hchain.inner
  obtain ⟨ds, -, hinfer⟩ := ht.reads hid houter
  obtain ⟨out, rfl⟩ := Op.infer_singleton (ht.isBuiltIn hid houter) hinfer
  have hdesc : s.graph.desc? ⟨root, 0⟩ = some out := by
    rw [Graph.desc?_of_view? houter]
    rfl
  obtain ⟨m, hm⟩ := hchain.exists_match ht.wellFormed (Graph.hasOutput_of_desc? hdesc)
  obtain ⟨hnone, -⟩ | ⟨m', s₁, hm', haction, -⟩ := applyAt_eq_ok happly
  · cases hnone.symm.trans hm
  obtain rfl := Option.some.inj (hm'.symm.trans hm)
  obtain ⟨g', hedit, -⟩ := Action.edit_eq_ok.1 haction
  obtain ⟨hout, n, hn, hroot⟩ := Pattern.root_of_matchNode? hm'
  rw [ht.wellFormed.id_eq hn] at hroot
  obtain ⟨x', y', c₁', c₂', inner, outer, r, -, houter', hin, hinner', hin', hscale, hend⟩ :=
    apply_eq_ok ht.wellFormed ht.acyclic hm' hedit
  rw [hroot] at houter'
  obtain rfl := Option.some.inj (houter'.symm.trans houter)
  cases hin
  obtain rfl := Option.some.inj (hinner'.symm.trans hinner)
  cases hin'
  obtain ⟨t, hsome⟩ := hchain.exists_scale? ht hid hu hroot hout
  obtain rfl := Except.ok.inj (hscale.symm.trans hsome)
  cases hend.1

theorem hit_iff_fusable (h : g₀.Conserves s.graph) (hid : g₀.Relevant root)
    (happly : (MultiplyChain.rule : Rule σ).applyAt root s = .ok hit s') :
    hit = true ↔ Fusable s.graph root := by
  obtain ⟨τ, rank, ht⟩ := h
  cases hit with
  | true =>
    obtain ⟨x, y, c₁, c₂, rule, a, b, t, descs, ids, g', hfuses, -⟩ :=
      exists_fuses_of_applyAt ht.wellFormed ht.acyclic happly
    exact ⟨fun _ => ⟨x, y, c₁, c₂, rule, a, b, t.shape, hfuses.chain, hfuses.combined⟩, fun _ => rfl⟩
  | false =>
    refine ⟨fun hfalse => (nomatch hfalse), fun hfusable => ?_⟩
    obtain ⟨x, y, c₁, c₂, rule, a, b, u, hchain, hu⟩ := hfusable
    exact absurd happly (hchain.not_declined ht hid hu)

/-- **The fusion of chains settles.** -/
theorem settling_rule : (MultiplyChain.rule : Rule σ).Settling Fusable where
  local_rule := local_rule
  frees := frees_rule
  conserving _ := Rule.conserving_ofEdit fun ht hid hm => ends_apply_of_typed ht hid hm
  hit_iff := hit_iff_fusable
  after_hit := by
    intro g₀ s s' id q h hid happly hq
    obtain ⟨τ, rank, ht⟩ := h
    obtain ⟨x, y, c₁, c₂, rule, a, b, t, descs, ids, g', hfuses, hs'⟩ :=
      exists_fuses_of_applyAt ht.wellFormed ht.acyclic happly
    rw [hs'] at hq
    exact hfuses.fusable_release ht.acyclic (fun hi => hfuses.chain.source?_constant ht hid hi)
      ht.wellFormed hq

end MultiplyChain

end OpGraph
