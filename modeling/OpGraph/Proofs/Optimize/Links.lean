import OpGraph.Proofs.Edit.Cycles
import OpGraph.Proofs.Edit.Provenance
import OpGraph.Proofs.Optimize.Fusion
import OpGraph.Proofs.Optimize.Liveness
import OpGraph.Proofs.Shape.Admits

/-!
# Graphs that are a chain of products

`ChainGraph g d p r links` says that the graph `g` is a parameter `p`, a product with a scalar constant for
each of the links, and a result `r`, and nothing else.  A `Link` tells what there is to know about one of the
products: where it is, which number its constant holds, what it is called and which names it lists.

The links of a graph are read one after the other, from the value that the first one reads to the one that
the result reads (`Linked`).  A path leads from each of them to the result, so nothing but the next product
reads a product (`ChainGraph.lone`), and any two neighbours could be fused (`ChainGraph.fusable`).

There is such a graph for any type that is multiplied, for any shape and for any numbers and names
(`chainGraph_chainOf`).
-/

namespace OpGraph

namespace Graph

variable {g : Graph} {id : NodeId} {v : Output} {rule : Broadcast} {t : Tensor} {descs : List Desc}

/-! ### Graphs that are built node by node -/

/-- A new node ranks above what it reads. -/
theorem ranked_insert (h : g.Ranked fun q => q) {op : Op} {inputs : List Output}
    (hin : ∀ v ∈ inputs, ∃ d, g.desc? v = some d) :
    (g.insert op inputs descs).Ranked fun q => q where
  wellFormed := wellFormed_insert h.wellFormed fun v hv => exists_targets?_iff.2 (hin v hv)
  rank_lt := by
    intro q id hq
    obtain ⟨w, hw, v, hv, rfl⟩ := produces_iff_view.1 hq
    obtain ⟨rfl, rfl⟩ | hw := view?_of_view?_insert _ _ _ _ hw
    · obtain ⟨d, hd⟩ := hin v hv
      exact lt_size_of_contains (contains_of_desc? hd)
    · exact h.rank_lt (produces_of_view? hw hv)

theorem restricts_takeName (h : g.WellFormed) (id : NodeId) (name? : Option String) :
    (g.takeName id name?).Restricts g := by
  cases name? with
  | none => exact h.restricts
  | some name => exact restricts_modifyNode h fun _ => ⟨rfl, rfl, rfl, rfl⟩

theorem view?_takeName (g : Graph) (id : NodeId) (name? : Option String) (j : NodeId) :
    (g.takeName id name?).view? j = g.view? j := by
  cases name? with
  | none => rfl
  | some name =>
    rw [takeName, view?_relabel]
    exact fun _ => ⟨rfl, rfl, rfl, rfl⟩

theorem node?_scaled_product : (g.scaled rule v t descs).node? g.product =
    some ⟨g.product, .binary .multiply rule, [v, ⟨g.nodes.size, 0⟩], descs.map (⟨·, []⟩), none, ∅⟩ := by
  rw [scaled, node?_insert, size_insert]
  exact if_pos rfl

theorem content?_scaled (h : id < g.nodes.size) :
    (g.scaled rule v t descs).content? id = g.content? id :=
  (content?_insert _ _ _ _ (by rw [size_insert]; exact Nat.lt_succ_of_lt h)).trans
    (content?_insert _ _ _ _ h)

end Graph

namespace MultiplyChain

open Relation (TransGen ReflTransGen)

open OpGraph.Graph

/-- One product of a chain and its constant. -/
structure Link where
  constant : NodeId
  product : NodeId
  /-- The number that the constant holds. -/
  value : Float
  /-- What the product is called. -/
  name : String
  /-- The names that the product lists, if it was fused from others. -/
  fused? : Option NameSet

/-- The names of the nodes that the product stands for. -/
def Link.names (l : Link) : NameSet := l.fused?.getD (.ofList [l.name])

/-- The node is a constant that holds one number of the given type. -/
def HoldsScalar (g : Graph) (id : NodeId) (type : ElementType) (x : Float) : Prop :=
  ∃ t, g.view? id = some ⟨.constant t, [], [t.desc]⟩ ∧
    t.elementType = type ∧ t.shape = [] ∧ t.get [] = x

/-- The graph has the product of the value `v` that the link tells of. -/
structure HasLink (g : Graph) (d : Desc) (v : Output) (l : Link) : Prop where
  constant : HoldsScalar g l.constant d.elementType l.value
  product : g.view? l.product = some ⟨.binary .multiply .numpy, [v, ⟨l.constant, 0⟩], [d]⟩
  labelled : g.Labelled l.product l.name l.fused?

/-- The links lead from the value `v` to the value `w`. -/
def Linked (g : Graph) (d : Desc) : Output → List Link → Output → Prop
  | v, [], w => w = v
  | v, l :: links, w => HasLink g d v l ∧ Linked g d ⟨l.product, 0⟩ links w

/-- The boundary is a parameter and a result, and the links lead from one to the other. -/
structure Laid (g : Graph) (d : Desc) (p r : NodeId) (links : List Link) : Prop where
  parameters_eq : g.parameters = [p]
  results_eq : g.results = [r]
  parameter : g.view? p = some ⟨.parameter d.elementType d.shape, [], [d]⟩
  result : ∃ w, Linked g d ⟨p, 0⟩ links w ∧ g.view? r = some ⟨.result, [w], [d]⟩

/-- The nodes of a chain. -/
def nodes (p r : NodeId) (links : List Link) : List NodeId :=
  p :: r :: links.flatMap fun l => [l.constant, l.product]

/-- The graph is a parameter, the products of the links with their constants, and a result. -/
structure ChainGraph (g : Graph) (d : Desc) (p r : NodeId) (links : List Link) : Prop
    extends Laid g d p r links where
  wellFormed : g.WellFormed
  acyclic : g.Acyclic
  not_boolean : d.elementType ≠ .boolean
  live : ∀ {id}, g.contains id → id ∈ nodes p r links

variable {g g' : Graph} {d : Desc} {p r id : NodeId} {links links₁ links₂ : List Link} {l l' : Link}
  {u v w : Output}

/-! ### Links -/

theorem HasLink.produces (h : HasLink g d v l) : g.Produces v.node l.product :=
  produces_of_view? h.product List.mem_cons_self

theorem HasLink.produces_constant (h : HasLink g d v l) : g.Produces l.constant l.product :=
  produces_iff_view.2 ⟨_, h.product, ⟨l.constant, 0⟩, by simp, rfl⟩

theorem HasLink.desc? (h : HasLink g d v l) : g.desc? ⟨l.product, 0⟩ = some d :=
  (desc?_of_view? h.product).trans rfl

/-- A product reads one value besides its constant. -/
theorem HasLink.input_eq (h : HasLink g d u l) (h' : HasLink g d v l) : u = v := by
  have hview := h.product.symm.trans h'.product
  simp only [Option.some.injEq, Node.View.mk.injEq, List.cons.injEq] at hview
  exact hview.2.1.1

theorem HasLink.ne_constant (h : HasLink g d v l) {type : ElementType} {x : Float}
    (hid : HoldsScalar g id type x) : id ≠ l.product := by
  rintro rfl
  obtain ⟨t, ht, -⟩ := hid
  cases h.product.symm.trans ht

/-- Constants read nothing. -/
theorem HoldsScalar.source? {type : ElementType} {x : Float} (h : HoldsScalar g id type x) {i : Input}
    (hi : i.node = id) : g.source? i = none := by
  obtain ⟨t, ht, -⟩ := h
  rw [source?_of_view? (hi ▸ ht)]
  rfl

namespace Linked

theorem append_iff : Linked g d v (links₁ ++ links₂) w ↔
    ∃ u, Linked g d v links₁ u ∧ Linked g d u links₂ w := by
  induction links₁ generalizing v with
  | nil => simp [Linked]
  | cons l links₁ ih => simp [Linked, ih, and_assoc]

/-- From each value that is read a path leads to the end. -/
theorem path (h : Linked g d v links w) : ReflTransGen g.Produces v.node w.node := by
  induction links generalizing v with
  | nil => exact (show w = v from h) ▸ .refl
  | cons l links ih => exact .head h.1.produces (ih h.2)

theorem desc? (h : Linked g d v links w) (hv : g.desc? v = some d) : g.desc? w = some d := by
  induction links generalizing v with
  | nil => exact (show w = v from h) ▸ hv
  | cons l links ih => exact ih h.2 h.1.desc?

/-- Links end where they begin, or at the last product. -/
theorem end_cases (h : Linked g d v links w) : w = v ∨ ∃ l ∈ links, w = ⟨l.product, 0⟩ := by
  induction links generalizing v with
  | nil => exact Or.inl h
  | cons l links ih =>
    obtain rfl | ⟨l', hl', rfl⟩ := ih h.2
    · exact Or.inr ⟨l, List.mem_cons_self, rfl⟩
    · exact Or.inr ⟨l', List.mem_cons_of_mem l hl', rfl⟩

/-- The links before and after one of them. -/
theorem split (h : Linked g d v links w) (hl : l ∈ links) :
    ∃ links₁ links₂ u, links = links₁ ++ l :: links₂ ∧ Linked g d v links₁ u ∧ HasLink g d u l ∧
      Linked g d ⟨l.product, 0⟩ links₂ w := by
  obtain ⟨links₁, links₂, rfl⟩ := List.append_of_mem hl
  obtain ⟨u, h₁, hlink, h₂⟩ := append_iff.1 h
  exact ⟨links₁, links₂, u, rfl, h₁, hlink, h₂⟩

theorem path_of_mem (h : Linked g d v links w) (hl : l ∈ links) :
    ReflTransGen g.Produces l.product w.node := by
  obtain ⟨_, _, _, -, -, -, h₂⟩ := h.split hl
  exact h₂.path

/-- Links are found in another graph where each product reads what it should. -/
theorem map {ρ : Output → Output} (h : Linked g d v links w)
    (hlink : ∀ l ∈ links, ρ ⟨l.product, 0⟩ = ⟨l.product, 0⟩ ∧
      ∀ u, HasLink g d u l → HasLink g' d (ρ u) l) :
    Linked g' d (ρ v) links (ρ w) := by
  induction links generalizing v with
  | nil => exact congrArg ρ h
  | cons l links ih =>
    obtain ⟨⟨hsame, hl⟩, hlinks⟩ := List.forall_mem_cons.1 hlink
    exact ⟨hl v h.1, hsame ▸ ih h.2 hlinks⟩

/-- Links stay in a graph that nodes are added to. -/
theorem of_added (h : Linked g d v links w)
    (hview : ∀ {id n}, g.view? id = some n → g'.view? id = some n)
    (hcontent : ∀ {id}, id < g.nodes.size → g'.content? id = g.content? id) :
    Linked g' d v links w := by
  refine h.map (ρ := fun v => v) fun l _ => ⟨rfl, fun u hlink => ?_⟩
  obtain ⟨t, ht, hvalue⟩ := hlink.constant
  exact ⟨⟨t, hview ht, hvalue⟩, hview hlink.product,
    hlink.labelled.congr (hcontent (lt_size_of_view? hlink.product))⟩

end Linked

/-! ### The boundary and the links -/

theorem mem_nodes_iff :
    id ∈ nodes p r links ↔ id = p ∨ id = r ∨ ∃ l ∈ links, id = l.constant ∨ id = l.product := by
  simp [nodes]

theorem parameter_mem_nodes : p ∈ nodes p r links := List.mem_cons_self

theorem result_mem_nodes : r ∈ nodes p r links := List.mem_cons_of_mem p List.mem_cons_self

theorem constant_mem_nodes (hl : l ∈ links) : l.constant ∈ nodes p r links :=
  mem_nodes_iff.2 (Or.inr (Or.inr ⟨l, hl, Or.inl rfl⟩))

theorem product_mem_nodes (hl : l ∈ links) : l.product ∈ nodes p r links :=
  mem_nodes_iff.2 (Or.inr (Or.inr ⟨l, hl, Or.inr rfl⟩))

namespace Laid

variable (h : Laid g d p r links)

include h

/-- Of the nodes of the chain the result reads what the links lead to, and each product reads what the links
before it lead to and its constant. -/
theorem source_cases (hw : Linked g d ⟨p, 0⟩ links w) (hr : g.view? r = some ⟨.result, [w], [d]⟩)
    {i : Input} (hi : g.source? i = some v) (hid : i.node ∈ nodes p r links) :
    v = w ∨ ∃ links₁ l links₂ u, links = links₁ ++ l :: links₂ ∧ Linked g d ⟨p, 0⟩ links₁ u ∧
      HasLink g d u l ∧ (v = ⟨l.constant, 0⟩ ∨ i = ⟨l.product, 0⟩ ∧ v = u) := by
  obtain ⟨id, k⟩ := i
  rcases mem_nodes_iff.1 hid with rfl | rfl | ⟨l, hl, hnode⟩
  · rw [source?_of_view? h.parameter] at hi
    cases hi
  · rw [source?_of_view? hr] at hi
    exact Or.inl (List.mem_singleton.1 (List.mem_of_getElem? hi))
  · obtain ⟨links₁, links₂, u, hlinks, hu, hlink, -⟩ := hw.split hl
    refine Or.inr ⟨links₁, l, links₂, u, hlinks, hu, hlink, ?_⟩
    rcases hnode with rfl | rfl
    · cases (hlink.constant.source? rfl).symm.trans hi
    rw [source?_of_view? hlink.product] at hi
    match k, hi with
    | 0, hi => exact Or.inr ⟨rfl, (Option.some.inj hi).symm⟩
    | 1, hi => exact Or.inl (Option.some.inj hi).symm

/-- The boundary hangs on nodes of the chain only. -/
theorem mem_of_reachable (hid : g.Reachable id) : id ∈ nodes p r links := by
  obtain ⟨w, hw, hr⟩ := h.result
  have hend {u : Output} {links₁ : List Link} (hu : Linked g d ⟨p, 0⟩ links₁ u)
      (hsub : ∀ l ∈ links₁, l ∈ links) : u.node ∈ nodes p r links := by
    obtain rfl | ⟨l, hl, rfl⟩ := hu.end_cases
    · exact parameter_mem_nodes
    · exact product_mem_nodes (hsub l hl)
  induction hid with
  | parameter hid =>
    rw [h.parameters_eq, List.mem_singleton] at hid
    exact hid ▸ parameter_mem_nodes
  | result hid =>
    rw [h.results_eq, List.mem_singleton] at hid
    exact hid ▸ result_mem_nodes
  | producer _ hp ih =>
    obtain ⟨i, v, rfl, hi, rfl⟩ := produces_iff_source.1 hp
    obtain rfl | ⟨links₁, l, links₂, u, rfl, hu, -, rfl | ⟨-, rfl⟩⟩ := h.source_cases hw hr hi ih
    · exact hend hw fun _ hl => hl
    · exact constant_mem_nodes (by simp)
    · exact hend hu fun _ hl => List.mem_append_left _ hl

/-- The boundary hangs on all of them. -/
theorem reachable (hid : id ∈ nodes p r links) : g.Reachable id := by
  obtain ⟨w, hw, hr⟩ := h.result
  have hresult : g.Reachable r := .result (by simp [h.results_eq])
  have hend : g.Reachable w.node :=
    hresult.producer (produces_of_view? hr List.mem_cons_self)
  rcases mem_nodes_iff.1 hid with rfl | rfl | ⟨l, hl, hnode⟩
  · exact .parameter (by simp [h.parameters_eq])
  · exact hresult
  · obtain ⟨links₁, links₂, u, -, -, hlink, -⟩ := hw.split hl
    have hproduct : g.Reachable l.product :=
      (hw.path_of_mem hl).head_induction_on hend fun hstep _ hid => hid.producer hstep
    rcases hnode with rfl | rfl
    · exact hproduct.producer hlink.produces_constant
    · exact hproduct

end Laid

/-! ### The whole graph -/

theorem BinaryOp.infer_scalar (hd : d.elementType ≠ .boolean) {t : Tensor}
    (htype : t.elementType = d.elementType) (hshape : t.shape = []) :
    BinaryOp.infer .numpy [d, t.desc] = .ok [d] := by
  have hdesc : t.desc = ⟨d.elementType, .ofShape []⟩ := by
    rw [Tensor.desc, Tensor.partialShape, htype, hshape]
  refine BinaryOp.infer_eq_ok.2 ⟨d, t.desc, d.elementType, d.shape, rfl, ?_, hd, ?_, rfl⟩
  · rw [hdesc]
    exact ElementType.merge_self _
  · rw [hdesc]
    exact PartialShape.broadcast_scalar _

namespace ChainGraph

variable (h : ChainGraph g d p r links)

include h

theorem desc?_parameter : g.desc? ⟨p, 0⟩ = some d := (desc?_of_view? h.parameter).trans rfl

theorem reachable_of_contains (hid : g.contains id) : g.Reachable id := h.reachable (h.live hid)

/-- Each description is the one that inference finds: a scalar constant leaves the description alone. -/
theorem consistentAt (hid : g.contains id) : g.ConsistentAt id := by
  obtain ⟨w, hw, hr⟩ := h.result
  refine consistentAt_iff_view.2 ?_
  rcases mem_nodes_iff.1 (h.live hid) with rfl | rfl | ⟨l, hl, hnode⟩
  · exact ⟨_, [], h.parameter, .nil, rfl⟩
  · exact ⟨_, [d], hr, .cons (hw.desc? h.desc?_parameter) .nil, rfl⟩
  · obtain ⟨links₁, links₂, u, -, hu, hlink, -⟩ := hw.split hl
    obtain ⟨t, ht, htype, hshape, hvalue⟩ := hlink.constant
    rcases hnode with rfl | rfl
    · exact ⟨_, [], ht, .nil, rfl⟩
    · have hconstant : g.desc? ⟨l.constant, 0⟩ = some t.desc := (desc?_of_view? ht).trans rfl
      refine ⟨_, [d, t.desc], hlink.product,
        .cons (hu.desc? h.desc?_parameter) (.cons hconstant .nil), ?_⟩
      exact BinaryOp.infer_scalar h.not_boolean htype hshape

theorem isBuiltIn {op : Op} (hop : g.op? id = some op) : op.isBuiltIn := by
  obtain ⟨w, hw, hr⟩ := h.result
  obtain ⟨view, hview, rfl⟩ := exists_view_of_op? hop
  rcases mem_nodes_iff.1 (h.live (contains_of_view? hview)) with rfl | rfl | ⟨l, hl, hnode⟩
  · cases hview.symm.trans h.parameter
    rfl
  · cases hview.symm.trans hr
    rfl
  · obtain ⟨-, -, u, -, -, hlink, -⟩ := hw.split hl
    obtain ⟨t, ht, -⟩ := hlink.constant
    rcases hnode with rfl | rfl
    · cases hview.symm.trans ht
      rfl
    · cases hview.symm.trans hlink.product
      rfl

theorem consistent : g.Consistent := fun _ hid =>
  h.consistentAt (h.wellFormed.contains_of_reachable hid)

theorem tidyBut : g.TidyBut [] := by
  obtain ⟨rank, hrank⟩ := exists_rank h.wellFormed h.acyclic
  exact ⟨rank, tidy_of_reachable h.wellFormed hrank (fun _ _ hop => h.isBuiltIn hop)
    fun _ hid => h.reachable_of_contains hid⟩

/-- Nothing but the next product reads a product: what stands before it leads to it, and what stands behind
the next one hangs on it, so an edge to any of them would close a cycle. -/
theorem lone (hlinks : links = links₁ ++ l :: l' :: links₂) {i : Input}
    (hi : g.source? i = some ⟨l.product, 0⟩) : i = ⟨l'.product, 0⟩ := by
  obtain ⟨w, hw, hr⟩ := h.result
  obtain ⟨u, hu, hl, hl', hw'⟩ := Linked.append_iff.1 (hlinks ▸ hw)
  have hnext {q : NodeId} (hq : ReflTransGen g.Produces l'.product q) : q ≠ l.product := by
    rintro rfl
    exact h.acyclic l.product (.head' hl'.produces hq)
  have hprevious {q : NodeId} (hq : ReflTransGen g.Produces q l.product) :
      ¬ g.Produces l.product q := fun hp => h.acyclic l.product (.head' hp hq)
  obtain hend | ⟨m₁, m, m₂, v, hm, -, hlink, hconstant | ⟨rfl, rfl⟩⟩ :=
    h.source_cases hw hr hi (h.live (contains_of_source? hi))
  · exact absurd (congrArg Output.node hend).symm (hnext hw'.path)
  · exact absurd (congrArg Output.node hconstant).symm (hl.ne_constant hlink.constant)
  have hmem : m ∈ links₁ ++ l :: l' :: links₂ := hlinks ▸ hm ▸ by simp
  rcases List.mem_append.1 hmem with hbefore | hrest
  · exact absurd hlink.produces (hprevious ((hu.path_of_mem hbefore).tail hl.produces))
  rcases List.mem_cons.1 hrest with rfl | hrest
  · exact absurd hlink.produces (hprevious .refl)
  rcases List.mem_cons.1 hrest with rfl | hbehind
  · rfl
  · obtain ⟨_, _, u', -, hu', hlink', -⟩ := hw'.split hbehind
    exact absurd (congrArg Output.node (hlink'.input_eq hlink)) (hnext hu'.path)

/-- Two neighbours could be fused. -/
theorem fusable (hlinks : links = links₁ ++ l :: l' :: links₂) : Fusable g l'.product := by
  obtain ⟨w, hw, -⟩ := h.result
  obtain ⟨u, -, hl, hl', -⟩ := Linked.append_iff.1 (hlinks ▸ hw)
  obtain ⟨a, ha, -, hashape, -⟩ := hl.constant
  obtain ⟨b, hb, -, hbshape, -⟩ := hl'.constant
  refine ⟨u, ⟨l.product, 0⟩, ⟨l.constant, 0⟩, ⟨l'.constant, 0⟩, .numpy, a, b, [],
    ⟨⟨_, hl'.product⟩, ⟨_, hl.product⟩, fun i hi => h.lone hlinks hi,
      constantValue?_eq_some.2 ⟨_, ha, rfl⟩, constantValue?_eq_some.2 ⟨_, hb, rfl⟩⟩, ?_⟩
  rw [hashape, hbshape]
  rfl

omit h in
/-- With a single link the live nodes are the parameter, the result, the constant and the product. -/
theorem ids_perm (h : ChainGraph g d p r [l]) : g.ids.Perm [p, r, l.constant, l.product] := by
  obtain ⟨w, ⟨hl, -⟩, hr⟩ := h.result
  obtain ⟨t, ht, -⟩ := hl.constant
  have hkinds : (nodes p r [l]).map g.kind? =
      [some .parameter, some .result, some .constant, some .multiply] := by
    simp [nodes, kind?_eq_view, h.parameter, ht, hl.product, hr, Op.kind, BinaryOp.kind]
  have hnodup : (nodes p r [l]).Nodup := .of_map g.kind? (by rw [hkinds]; decide)
  refine (List.perm_ext_iff_of_nodup g.ids_nodup hnodup).2 fun id => ?_
  rw [← contains_iff_mem_ids]
  exact ⟨h.live, fun hid => h.wellFormed.contains_of_reachable (h.reachable hid)⟩

end ChainGraph

/-! ### Chains of any length -/

/-- A chain that no result ends yet: the links lead from the parameter to the value `v`. -/
structure OpenChain (g : Graph) (d : Desc) (p : NodeId) (links : List Link) (v : Output) : Prop where
  ranked : g.Ranked fun q => q
  parameters_eq : g.parameters = [p]
  results_eq : g.results = []
  parameter : g.view? p = some ⟨.parameter d.elementType d.shape, [], [d]⟩
  linked : Linked g d ⟨p, 0⟩ links v
  live : ∀ {id}, g.contains id → id = p ∨ ∃ l ∈ links, id = l.constant ∨ id = l.product

/-- The graph with one more product by a number, which may be given a name. -/
def scaleBy (g : Graph) (d : Desc) (v : Output) (x : Float) (name? : Option String) : Graph :=
  (g.scaled .numpy v (.scalar d.elementType x) [d]).takeName g.product name?

/-- The link that `scaleBy` adds to a graph with `n` nodes. -/
def scaleLink (d : Desc) (n : Nat) (x : Float) (name? : Option String) : Link where
  constant := n
  product := n + 1
  value := d.elementType.coerce x
  name := name?.getD (Node.generatedName .multiply (n + 1))
  fused? := none

theorem size_scaleBy (g : Graph) (d : Desc) (v : Output) (x : Float) (name? : Option String) :
    (scaleBy g d v x name?).nodes.size = g.nodes.size + 2 := by
  have hscaled : (g.scaled .numpy v (.scalar d.elementType x) [d]).nodes.size = g.nodes.size + 2 := by
    rw [scaled, size_insert, size_insert]
  cases name? with
  | none => exact hscaled
  | some name => exact (size_nodes_modifyNode ..).trans hscaled

theorem hasLink_scaleBy (g : Graph) (d : Desc) (v : Output) (x : Float) (name? : Option String) :
    HasLink (scaleBy g d v x name?) d v (scaleLink d g.nodes.size x name?) := by
  have hview (j : NodeId) : (scaleBy g d v x name?).view? j =
      (g.scaled .numpy v (.scalar d.elementType x) [d]).view? j := view?_takeName ..
  refine ⟨⟨_, (hview _).trans view?_scaled_constant, rfl, rfl, rfl⟩,
    (hview _).trans view?_scaled_product, ?_⟩
  have hcontent := (content?_takeName (g.scaled .numpy v (.scalar d.elementType x) [d]) g.product name?
    g.product).trans (congrArg _ (content?_of_node? node?_scaled_product))
  rw [Option.map_some, if_pos rfl] at hcontent
  cases name? <;> exact labelled_of_content? hcontent

theorem content?_scaleBy (h : id < g.nodes.size) (x : Float) (name? : Option String) :
    (scaleBy g d v x name?).content? id = g.content? id := by
  have hne : id ≠ g.product := Nat.ne_of_lt (Nat.lt_succ_of_lt h)
  refine (content?_takeName ..).trans ?_
  rw [content?_scaled h, funext fun c => if_neg hne]
  exact Option.map_id' ..

namespace OpenChain

theorem desc? (h : OpenChain g d p links v) : g.desc? v = some d :=
  h.linked.desc? ((desc?_of_view? h.parameter).trans rfl)

theorem scaleBy (h : OpenChain g d p links v) (x : Float) (name? : Option String) :
    OpenChain (scaleBy g d v x name?) d p (links ++ [scaleLink d g.nodes.size x name?])
      ⟨g.product, 0⟩ := by
  have hview (id : NodeId) : (MultiplyChain.scaleBy g d v x name?).view? id =
      (g.scaled .numpy v (.scalar d.elementType x) [d]).view? id := view?_takeName ..
  have hkeep {id : NodeId} {n : Node.View} (hn : g.view? id = some n) :
      (MultiplyChain.scaleBy g d v x name?).view? id = some n :=
    (hview id).trans (view?_scaled_of_view? hn)
  have hscaled : (g.scaled .numpy v (.scalar d.elementType x) [d]).Ranked fun q => q := by
    refine ranked_insert (ranked_insert h.ranked (by simp)) fun u hu => ?_
    rcases List.mem_pair.1 hu with rfl | rfl
    · exact ⟨d, desc?_insert_of_desc? _ _ _ _ h.desc?⟩
    · exact ⟨_, desc?_insert_size _ _ _ _ 0⟩
  have hrestricts := restricts_takeName hscaled.wellFormed g.product name?
  refine ⟨hereditary_ranked.restrict hscaled hrestricts,
    hrestricts.parameters_eq.trans h.parameters_eq, hrestricts.results_eq.trans h.results_eq,
    hkeep h.parameter, ?_, ?_⟩
  · exact Linked.append_iff.2 ⟨v, h.linked.of_added hkeep fun hid => content?_scaleBy hid x name?,
      hasLink_scaleBy g d v x name?, rfl⟩
  · intro id hid
    obtain ⟨n, hn⟩ := contains_iff_view.1 hid
    rw [hview, view?_scaled] at hn
    split at hn
    next hid => exact Or.inr ⟨_, List.mem_append_right _ List.mem_cons_self, Or.inr hid⟩
    next =>
      split at hn
      next hid => exact Or.inr ⟨_, List.mem_append_right _ List.mem_cons_self, Or.inl hid⟩
      next =>
        refine (h.live (contains_of_view? hn)).imp_right fun ⟨l, hl, hnode⟩ => ?_
        exact ⟨l, List.mem_append_left _ hl, hnode⟩

/-- A result ends the chain. -/
theorem close (h : OpenChain g d p links v) (hd : d.elementType ≠ .boolean) :
    ChainGraph (g.insert .result [v] [d]) d p g.nodes.size links := by
  have hkeep {id : NodeId} {n : Node.View} (hn : g.view? id = some n) :
      (g.insert .result [v] [d]).view? id = some n := view?_insert_of_view? _ _ _ _ hn
  have hranked : (g.insert .result [v] [d]).Ranked fun q => q :=
    ranked_insert h.ranked fun u hu => ⟨d, List.mem_singleton.1 hu ▸ h.desc?⟩
  have hlinked := h.linked.of_added hkeep fun hid => content?_insert _ _ _ _ hid
  refine ⟨⟨(parameters_insert _ _ _ (by decide)).trans h.parameters_eq, ?_, hkeep h.parameter, v,
    hlinked, (view?_insert ..).trans (if_pos rfl)⟩, hranked.wellFormed, hranked.acyclic, hd, ?_⟩
  · exact congrArg (· ++ [g.nodes.size]) h.results_eq
  · intro id hid
    rw [contains_insert, Bool.or_eq_true, decide_eq_true_iff] at hid
    rcases hid with rfl | hid
    · exact result_mem_nodes
    · exact mem_nodes_iff.2 ((h.live hid).imp_right Or.inr)

end OpenChain

/-- The graph with a product for each of the given numbers, called as given, and a result. -/
def scaleAll (g : Graph) (d : Desc) (v : Output) : List (Float × Option String) → Graph
  | [] => g.insert .result [v] [d]
  | (x, name?) :: scales => scaleAll (scaleBy g d v x name?) d ⟨g.product, 0⟩ scales

/-- The links of these products in a graph that has had `n` nodes. -/
def scaleLinks (d : Desc) (n : Nat) : List (Float × Option String) → List Link
  | [] => []
  | (x, name?) :: scales => scaleLink d n x name? :: scaleLinks d (n + 2) scales

theorem OpenChain.scaleAll {scales : List (Float × Option String)} (h : OpenChain g d p links v)
    (hd : d.elementType ≠ .boolean) :
    ChainGraph (scaleAll g d v scales) d p (g.nodes.size + 2 * scales.length)
      (links ++ scaleLinks d g.nodes.size scales) := by
  induction scales generalizing g links v with
  | nil => exact (List.append_nil links).symm ▸ h.close hd
  | cons scale scales ih =>
    obtain ⟨x, name?⟩ := scale
    have hchain := ih (h.scaleBy x name?)
    rw [size_scaleBy, List.append_assoc] at hchain
    rw [List.length_cons, Nat.mul_succ, Nat.add_comm _ 2, ← Nat.add_assoc]
    exact hchain

/-- A graph with nothing but a parameter. -/
def lonely (d : Desc) : Graph :=
  ({ name := "chain" } : Graph).insert (.parameter d.elementType d.shape) [] [d]

theorem openChain_lonely (d : Desc) : OpenChain (lonely d) d 0 [] ⟨0, 0⟩ where
  ranked := by
    refine ranked_insert ⟨wellFormed_empty _, fun hp => ?_⟩ (by simp)
    exact absurd (lt_size_of_contains (contains_of_produces_right hp)) (Nat.not_lt_zero _)
  parameters_eq := rfl
  results_eq := rfl
  parameter := rfl
  linked := rfl
  live hid := Or.inl (Nat.lt_one_iff.1 (lt_size_of_contains hid))

/-- A parameter that is scaled by the given numbers. -/
def chainOf (d : Desc) (scales : List (Float × Option String)) : Graph :=
  scaleAll (lonely d) d ⟨0, 0⟩ scales

/-- There is a chain for every type, for every shape and for any numbers and names. -/
theorem chainGraph_chainOf (hd : d.elementType ≠ .boolean) (scales : List (Float × Option String)) :
    ChainGraph (chainOf d scales) d 0 (1 + 2 * scales.length) (scaleLinks d 1 scales) :=
  (openChain_lonely d).scaleAll hd

end MultiplyChain

end OpGraph
