import OpGraph.Proofs.Optimize.Links
import OpGraph.Proofs.Optimize.Settled
import OpGraph.Proofs.Pass.Enabled

/-!
# Chains of products collapse

The rule for chains of products fuses a product with the one that it reads.  On a graph that is a chain of
products by scalars, one traversal fuses all of them (`chain_collapses`).

A fusion at the second product makes a chain in which one link stands for the first two
(`ChainGraph.step`): it holds the product of their numbers, it is called as the second one is, and it lists
the names of both.  A traversal comes to each product after what stands before it, so that the second product
is the only one where the rule can hit (`ChainGraph.second_of_chain`).  What all links come to together
(`total`) stays the same with every hit (`Collapsing.step`), and at the end a single link is left.
-/

namespace OpGraph

/-- Scalars combine to a scalar. -/
theorem Tensor.zipBroadcast_scalar {a b t : Tensor} {type : ElementType} {f : Float → Float → Float}
    (ha : a.shape = []) (hb : b.shape = []) (h : a.zipBroadcast b type f = some t) :
    t.elementType = type ∧ t.shape = [] ∧ t.get [] = type.coerce (f (a.get []) (b.get [])) := by
  obtain ⟨s, hs, rfl⟩ := zipBroadcast_eq_some_iff_broadcast.1 h
  rw [ha, hb] at hs
  obtain rfl : [] = s := Option.some.inj hs
  have hin : Shape.InBounds [] [] := trivial
  refine ⟨rfl, rfl, ?_⟩
  rw [get_ofIndex hin, ha, hb]
  rfl

namespace MultiplyChain

open Relation (TransGen ReflTransGen)

open OpGraph.Graph

variable {g g' : Graph} {d : Desc} {p r id root : NodeId} {links : List Link} {l l' : Link}
  {u v w x y c₁ c₂ : Output} {rule : Broadcast} {a b t : Tensor} {descs : List Desc}
  {ids : List NodeId}

/-- The link that stands for two neighbours. -/
def Link.merge (type : ElementType) (constant product : NodeId) (l l' : Link) : Link where
  constant := constant
  product := product
  value := type.coerce (l.value * l'.value)
  name := l'.name
  fused? := some (l.names.union l'.names)

/-- A release leaves a chain alone that the boundary hangs on. -/
theorem Laid.release (h : Laid g d p r links) (hwf : g.WellFormed) (ids : List NodeId) :
    Laid (g.release ids) d p r links := by
  have hrestricts : (g.release ids).Restricts g := restricts_releaseStack hwf _
  have hstays {id : NodeId} (hid : id ∈ nodes p r links) : ¬ g.Expendable ids id := fun hgone =>
    hgone.not_reachable (h.reachable hid)
  have hview {id : NodeId} {w : Node.View} (hid : id ∈ nodes p r links) (hw : g.view? id = some w) :
      (g.release ids).view? id = some w :=
    (view?_release_eq_some hwf).2 ⟨hstays hid, hw⟩
  obtain ⟨w, hw, hr⟩ := h.result
  refine ⟨hrestricts.parameters_eq.trans h.parameters_eq, hrestricts.results_eq.trans h.results_eq,
    hview parameter_mem_nodes h.parameter, w, ?_, hview result_mem_nodes hr⟩
  refine hw.map (ρ := fun v => v) fun l hl => ⟨rfl, fun u hlink => ?_⟩
  obtain ⟨t, ht, hvalue⟩ := hlink.constant
  exact ⟨⟨t, hview (constant_mem_nodes hl) ht, hvalue⟩, hview (product_mem_nodes hl) hlink.product,
    hlink.labelled.congr (content?_release hwf (hstays (product_mem_nodes hl)))⟩

/-! ### The first two links -/

/-- A fusion at the second product of a chain fuses it with the first one. -/
theorem Fuses.at_second (hf : Fuses g l'.product x y c₁ c₂ rule a b t descs ids g')
    (hl : HasLink g d ⟨p, 0⟩ l) (hl' : HasLink g d ⟨l.product, 0⟩ l') :
    (x = ⟨p, 0⟩ ∧ y = ⟨l.product, 0⟩ ∧ rule = .numpy) ∧ t.elementType = d.elementType ∧
      t.shape = [] ∧ t.get [] = d.elementType.coerce (l.value * l'.value) := by
  obtain ⟨outs, houter⟩ := hf.chain.outer
  obtain ⟨ins, hinner⟩ := hf.chain.inner
  cases houter.symm.trans hl'.product
  cases hinner.symm.trans hl.product
  refine ⟨⟨rfl, rfl, rfl⟩, ?_⟩
  have hconstant {k : NodeId} {x : Float} {s : Tensor} (hk : HoldsScalar g k d.elementType x)
      (hs : g.constantValue? ⟨k, 0⟩ = some s) :
      s.elementType = d.elementType ∧ s.shape = [] ∧ s.get [] = x := by
    obtain ⟨s', hview, hfacts⟩ := hk
    obtain ⟨w, hw, hop⟩ := constantValue?_eq_some.1 hs
    obtain rfl := Option.some.inj (hview.symm.trans hw)
    cases hop
    exact hfacts
  obtain ⟨hatype, hashape, havalue⟩ := hconstant hl.constant hf.chain.first
  obtain ⟨hbtype, hbshape, hbvalue⟩ := hconstant hl'.constant hf.chain.second
  obtain ⟨type, htype, hzip⟩ := hf.merged
  rw [hatype, hbtype, ElementType.merge_self] at htype
  obtain rfl := Option.some.inj htype
  rw [← havalue, ← hbvalue]
  exact Tensor.zipBroadcast_scalar hashape hbshape hzip

/-- The new product goes by the name of the outer one and stands for what both have stood for.  The other
nodes keep their labels. -/
theorem Fuses.labelled (hf : Fuses g root x y c₁ c₂ rule a b t descs ids g') {outer : Node.View}
    (hview : g.view? root = some outer) (hlen : outer.descs.length = descs.length)
    {name name' : String} {fused? fused?' : Option NameSet} (hinner : g.Labelled y.node name fused?)
    (houter : g.Labelled root name' fused?') :
    g'.Labelled g.product name' (some ((fused?.getD (.ofList [name])).union
      (fused?'.getD (.ofList [name'])))) ∧ ∀ id, id < g.nodes.size → g'.content? id = g.content? id := by
  have hlt {id : NodeId} (hid : id < g.nodes.size) : id < g.product := Nat.lt_succ_of_lt hid
  have hroot : root < g.nodes.size := lt_size_of_view? hview
  have hscaled {id : NodeId} {name : String} {fused? : Option NameSet}
      (h : g.Labelled id name fused?) : (g.scaled rule x t descs).Labelled id name fused? := by
    obtain ⟨n, hn, hfacts⟩ := h
    exact Labelled.congr ⟨n, hn, hfacts⟩ (content?_scaled (lt_size_of_node? hn))
  have hcount {n : Node} (hn : (g.scaled rule x t descs).node? root = some n) :
      n.outputs.length = (descs.map fun e => (⟨e, []⟩ : Slot)).length := by
    have hdescs : n.view = outer := Option.some.inj
      ((congrArg (Option.map Node.view) hn).symm.trans (view?_scaled_of_view? hview))
    rw [List.length_map, ← hlen, ← hdescs]
    exact (List.length_map ..).symm
  obtain ⟨hlabel, hother⟩ := Edit.labelled_fuse hf.wellFormed (Nat.ne_of_lt (hlt hroot))
    (hscaled hinner) (hscaled houter) node?_scaled_product rfl hcount hf.fused
  refine ⟨hlabel, fun id hid => ?_⟩
  rw [hother id (Nat.ne_of_lt (hlt hid)), content?_scaled hid]

/-- **After a fusion of the first two links the chain goes on from the new product.** -/
theorem Fuses.laid (hf : Fuses g l'.product x y c₁ c₂ rule a b t descs ids g')
    (h : ChainGraph g d p r (l :: l' :: links)) :
    Laid g' d p r (l.merge d.elementType g.nodes.size g.product l' :: links) := by
  obtain ⟨w, ⟨hl, hl', hrest⟩, hr⟩ := h.result
  obtain ⟨⟨rfl, rfl, rfl⟩, htype, hshape, hvalue⟩ := hf.at_second hl hl'
  obtain rfl : descs = [d] := Except.ok.inj ((hf.infer_eq h.desc?_parameter).symm.trans
    (BinaryOp.infer_scalar h.not_boolean htype hshape))
  obtain ⟨hlabel, hother⟩ := hf.labelled hl'.product rfl hl.labelled hl'.labelled
  -- who has read the second product reads the new one
  have hview {id : NodeId} {w : Node.View} (hw : g.view? id = some w) : g'.view? id =
      some { w with inputs := w.inputs.map (divert l'.product (Edit.outputsOf g.product)) } := by
    rw [hf.diverts.view_eq, view?_scaled_of_view? hw, Option.map_some]
  have hkeep {id : NodeId} (hid : id ≠ l'.product) :
      divert l'.product (Edit.outputsOf g.product) ⟨id, 0⟩ = ⟨id, 0⟩ := if_neg hid
  have hmove : divert l'.product (Edit.outputsOf g.product) ⟨l'.product, 0⟩ = ⟨g.product, 0⟩ :=
    if_pos rfl
  -- the new product reads the data and the new constant
  have hconstant : g'.view? g.nodes.size = some ⟨.constant t, [], [t.desc]⟩ := by
    refine (hf.view?_eq h.acyclic fun hp => ?_).trans view?_scaled_constant
    exact absurd (lt_size_of_contains (contains_of_produces_right hp)) (Nat.lt_irrefl _)
  have hproduct := hf.view?_product h.acyclic
  refine ⟨hf.diverts.parameters_eq.trans ?_, hf.diverts.results_eq.trans ?_, hview h.parameter, _,
    ⟨⟨⟨t, hconstant, htype, hshape, hvalue⟩, hproduct, hlabel⟩, ?_⟩, hview hr⟩
  · exact (parameters_insert _ _ _ (Op.binary_declares_nothing .multiply .numpy).1).trans
      ((parameters_insert _ _ _ (Op.constant_declares_nothing t).1).trans h.parameters_eq)
  · exact (results_insert _ _ _ (Op.binary_declares_nothing .multiply .numpy).2).trans
      ((results_insert _ _ _ (Op.constant_declares_nothing t).2).trans h.results_eq)
  have hlinked : Linked g' d _ links _ :=
    hrest.map (ρ := divert l'.product (Edit.outputsOf g.product)) fun m hm => ⟨hkeep ?_, ?_⟩
  · rwa [hmove] at hlinked
  · obtain ⟨_, _, u, -, hu, hlink, -⟩ := hrest.split hm
    exact fun heq => h.acyclic l'.product (.tail' hu.path (heq ▸ hlink.produces))
  · intro u hlink
    obtain ⟨s, hs, hfacts⟩ := hlink.constant
    have hinput := hkeep (hl'.ne_constant hlink.constant)
    refine ⟨⟨s, hview hs, hfacts⟩, ?_, ?_⟩
    · rw [hview hlink.product, List.map_cons, List.map_singleton, hinput]
    · exact hlink.labelled.congr (hother _ (lt_size_of_view? hlink.product))

namespace ChainGraph

variable {σ : Type} {s s' : Session σ}

/-- **A fusion at the second product leaves a chain in which one link stands for the first two.** -/
theorem step (h : ChainGraph s.graph d p r (l :: l' :: links))
    (happly : (MultiplyChain.rule : Rule σ).applyAt l'.product s = .ok true s') :
    ChainGraph s'.graph d p r
      (l.merge d.elementType s.graph.nodes.size s.graph.product l' :: links) := by
  obtain ⟨x, y, c₁, c₂, rule, a, b, t, descs, ids, g', hf, hs'⟩ :=
    exists_fuses_of_applyAt h.wellFormed h.acyclic happly
  have hlaid := hs' ▸ (hf.laid h).release hf.diverts.wellFormed ids
  have hrule : (MultiplyChain.rule : Rule σ) ∈ lawfulRules := by simp [lawfulRules]
  obtain ⟨rank, htidy⟩ := (Rule.keeps_applyAt_of_mem_lawfulRules hrule _).of_ok h.tidyBut happly
  exact ⟨hlaid, htidy.wellFormed, acyclic_of_rank rank fun _ _ => htidy.rank_lt, h.not_boolean,
    fun hid => hlaid.mem_of_reachable (htidy.reachable hid)⟩

/-- Where nothing could be fused upstream, only the first two links can be. -/
theorem second_of_chain (h : ChainGraph g d p r links) (hchain : Chain g root x y c₁ c₂ rule a b)
    (hquiet : ∀ q, TransGen g.Produces q root → ¬ Fusable g q) :
    ∃ l l' links', links = l :: l' :: links' ∧ root = l'.product := by
  obtain ⟨w, hw, hr⟩ := h.result
  obtain ⟨outs, houter⟩ := hchain.outer
  obtain ⟨ins, hinner⟩ := hchain.inner
  rcases mem_nodes_iff.1 (h.live (contains_of_view? houter)) with rfl | rfl | ⟨m, hm, hnode⟩
  · cases houter.symm.trans h.parameter
  · cases houter.symm.trans hr
  obtain ⟨links₁, links₂, u, rfl, hu, hlink, -⟩ := hw.split hm
  rcases hnode with rfl | rfl
  · obtain ⟨s, hs, -⟩ := hlink.constant
    cases houter.symm.trans hs
  cases houter.symm.trans hlink.product
  -- how many links there are before the one that is fused
  obtain rfl | ⟨before, l, rfl⟩ := links₁.eq_nil_or_concat'
  · obtain rfl : y = ⟨p, 0⟩ := hu
    cases hinner.symm.trans h.parameter
  obtain rfl | ⟨before, l₀, rfl⟩ := before.eq_nil_or_concat'
  · exact ⟨l, m, links₂, rfl, rfl⟩
  · obtain ⟨u, -, hl, rfl⟩ := Linked.append_iff.1 hu
    have hneighbours : before ++ [l₀] ++ [l] ++ m :: links₂ = before ++ l₀ :: l :: m :: links₂ := by simp
    exact absurd (h.fusable hneighbours) (hquiet l.product (.single hlink.produces))

end ChainGraph

/-! ### The whole run -/

/-- What links come to, from the first to the last: the number that scales the data, the name of the last
product, and the names of all nodes that the products stand for. -/
def total (type : ElementType) (l : Link) (links : List Link) : Float × String × NameSet :=
  links.foldl (fun e m => (type.coerce (e.1 * m.value), m.name, e.2.2.union m.names))
    (l.value, l.name, l.names)

/-- Products that were not fused from others stand for themselves. -/
theorem total_of_fresh (type : ElementType) (h : ∀ m ∈ l :: links, m.fused? = none) :
    total type l links = ((links.map (·.value)).foldl (fun a b => type.coerce (a * b)) l.value,
      ((l :: links).getLast (List.cons_ne_nil l links)).name, .ofList ((l :: links).map (·.name))) := by
  have hnames {m : Link} (hm : m ∈ l :: links) : m.names = .ofList [m.name] := by
    rw [Link.names, h m hm, Option.getD_none]
  induction links using List.reverseRecOn with
  | nil => rw [total, List.foldl_nil, hnames List.mem_cons_self]; rfl
  | append_singleton links m ih =>
    rw [← List.cons_append] at h hnames
    rw [total, List.foldl_concat, ← total,
      ih (fun m hm => h m (List.mem_append_left _ hm)) fun hm => hnames (List.mem_append_left _ hm),
      hnames (List.mem_append_right _ List.mem_cons_self), ← NameSet.ofList_append]
    simp

/-- Hits of the rule have come so far: one link stands for the first ones. -/
def Collapsing (d : Desc) (p r : NodeId) (l : Link) (links : List Link) (changed : Bool) (g : Graph) :
    Prop :=
  ∃ l' links', ChainGraph g d p r (l' :: links') ∧
    total d.elementType l' links' = total d.elementType l links ∧
      if changed then l'.fused?.isSome ∧ links'.length < links.length else l' = l ∧ links' = links

variable {σ : Type} {s s' : Session σ}

/-- **A traversal fuses the first two links again and again**: at every other product it could have fused
further up. -/
theorem Collapsing.step {g₀ : Graph} {changed : Bool} (h : Collapsing d p r l links changed s.graph)
    (hcalm : Calm Fusable g₀ (id :: ids) s.graph)
    (happly : (MultiplyChain.rule : Rule σ).applyAt id s = .ok true s') :
    Collapsing d p r l links true s'.graph := by
  obtain ⟨l₁, links', hchain, htotal, hcase⟩ := h
  obtain ⟨x, y, c₁, c₂, rule, a, b, t, descs, gone, g', hf, -⟩ :=
    exists_fuses_of_applyAt hchain.wellFormed hchain.acyclic happly
  have hquiet : ∀ q, TransGen s.graph.Produces q id → ¬ Fusable s.graph q := fun q hq =>
    hcalm.quiet (hcalm.abreast.of_path hq).1 (hcalm.abreast.of_path hq).2
  obtain ⟨l₁, l₂, rest, heq, rfl⟩ := hchain.second_of_chain hf.chain hquiet
  cases heq
  refine ⟨_, rest, hchain.step happly, htotal, ?_⟩
  have hlen : (l₂ :: rest).length ≤ links.length := by
    cases changed with
    | false => exact Nat.le_of_eq (congrArg List.length hcase.2)
    | true => exact Nat.le_of_lt hcase.2
  exact ⟨rfl, hlen⟩

/-- **A chain of products collapses.**  A run of the rule tells whether there has been more than one product,
and it leaves the parameter, one constant, one product and the result.  The constant holds the product of all
numbers, multiplied from the first to the last in the type of the chain.  The product is called as the last
one was, and unless it has been the only one, it lists the names of all of them from the first to the last,
each name once. -/
theorem chain_collapses (h : ChainGraph g d p r (l :: links))
    (hfresh : ∀ m ∈ l :: links, m.fused? = none) {filter : PassFilter}
    (hfilter : ¬ filter.isDisabled (MultiplyChain.rule : Rule σ).name) (config : TraversalConfig)
    (memory : σ) :
    ∃ m s, (Pass.rule { (MultiplyChain.rule : Rule σ) with config }).run filter ⟨g, memory⟩ =
        .ok (decide (2 ≤ (l :: links).length)) s ∧
      s.graph.ids.Perm [p, r, m.constant, m.product] ∧ ChainGraph s.graph d p r [m] ∧
      m.value = (links.map (·.value)).foldl (fun a b => d.elementType.coerce (a * b)) l.value ∧
      m.name = ((l :: links).getLast (List.cons_ne_nil l links)).name ∧
      (2 ≤ (l :: links).length →
        m.fused?.map (·.names) = some ((l :: links).map (·.name)).eraseDups) := by
  obtain ⟨changed, s, hfirst, hcalm, m, links', hchain, htotal, hcase⟩ :=
    exists_calm_traverse_keeping (s := ⟨g, memory⟩) settling_rule h.wellFormed h.acyclic h.consistent
      (fun _ _ _ hop => h.isBuiltIn hop) hfilter (P := Collapsing d p r l links)
      (fun hcalm hc happly => hc.step hcalm happly) ⟨l, links, h, rfl, rfl, rfl⟩
  have hsecond := traverse_of_lacks settling_rule hcalm.conserves hcalm.lacks filter
  -- at the end no two links are left, since they could be fused
  obtain rfl : links' = [] := by
    cases links' with
    | nil => rfl
    | cons l' links' =>
      obtain ⟨τ, rank, ht⟩ := hcalm.conserves
      have hreach := hchain.reachable (product_mem_nodes (List.mem_cons_of_mem m List.mem_cons_self))
      exact absurd (hchain.fusable (List.nil_append _).symm)
        (hcalm.lacks (ht.relevant_of_reachable hreach))
  rw [total_of_fresh d.elementType hfresh, total, List.foldl_nil, Prod.mk.injEq, Prod.mk.injEq] at htotal
  obtain ⟨hvalue, hname, hnames⟩ := htotal
  have hchanged : changed = decide (2 ≤ (l :: links).length) := by
    cases changed with
    | false =>
      obtain ⟨-, rfl⟩ := hcase
      rfl
    | true => exact (decide_eq_true (Nat.succ_le_succ hcase.2)).symm
  refine ⟨m, s, ?_, hchain.ids_perm, hchain, hvalue, hname, fun hlen => ?_⟩
  · rw [← hchanged, run_rule_with_config]
    exact runRules_of_settled hfirst hsecond config
  · rw [hchanged, if_pos (decide_eq_true hlen)] at hcase
    obtain ⟨names, hsome⟩ := Option.isSome_iff_exists.1 hcase.1
    rw [Link.names, hsome, Option.getD_some] at hnames
    rw [hsome, Option.map_some, hnames, NameSet.names_ofList]

/-- A value of unknown rank that is scaled three times.  The first and the last product are called the same,
and the one between them has no name. -/
def threeScales : Graph := chainOf ⟨.f64, .unranked⟩ [(2, some "scale"), (3, none), (0.5, some "scale")]

/-- The links of the three products. -/
def threeLinks : List Link :=
  [⟨1, 2, 2, "scale", none⟩, ⟨3, 4, 3, "Multiply_4", none⟩, ⟨5, 6, 0.5, "scale", none⟩]

theorem chainGraph_threeScales : ChainGraph threeScales ⟨.f64, .unranked⟩ 0 7 threeLinks :=
  chainGraph_chainOf (by decide) _

/-- The three products become one, which has the two names that the three have had. -/
theorem chain_collapses_threeScales :
    ChainGraph threeScales ⟨.f64, .unranked⟩ 0 7 threeLinks ∧ ∃ (m : Link) (s : Session Unit),
      (Pass.rule (MultiplyChain.rule : Rule Unit)).run {} ⟨threeScales, ()⟩ = .ok true s ∧
        s.graph.ids.Perm [0, 7, m.constant, m.product] ∧
        ChainGraph s.graph ⟨.f64, .unranked⟩ 0 7 [m] ∧ m.value = 2 * 3 * 0.5 ∧ m.name = "scale" ∧
        m.fused?.map (·.names) = some ["scale", "Multiply_4"] := by
  refine ⟨chainGraph_threeScales, ?_⟩
  obtain ⟨m, s, hrun, hids, hchain, hvalue, hname, hnames⟩ :=
    chain_collapses chainGraph_threeScales (by simp) (not_isDisabled_empty _) {} ()
  exact ⟨m, s, hrun, hids, hchain, hvalue, hname, hnames (by decide)⟩

end MultiplyChain

end OpGraph
