import OpGraph.Proofs.Edit.Diversion
import OpGraph.Proofs.Optimize.MultiplyChain
import OpGraph.Proofs.Optimize.Negation

/-!
# Products in the place of nodes

Two rules add a constant and a product with it and let the product be read in the place of the root
of the match.  `g.scaled rule x t descs` is the graph with the two new nodes, and what an action makes
of the graph is that graph with the readers of the root diverted to the product
(`Negation.apply_eq_ok`, `MultiplyChain.apply_eq_ok`).
-/

namespace OpGraph

namespace Graph

variable {g g' : Graph} {rule : Broadcast} {x : Output} {t : Tensor} {descs : List Desc}
  {root id : NodeId}

/-- The graph with a constant and a product of `x` and the constant added to it. -/
def scaled (g : Graph) (rule : Broadcast) (x : Output) (t : Tensor) (descs : List Desc) : Graph :=
  (g.insert (.constant t) [] [t.desc]).insert (.binary .multiply rule) [x, ⟨g.nodes.size, 0⟩] descs

/-- The node that the product has in `g.scaled`. -/
def product (g : Graph) : NodeId := g.nodes.size + 1

theorem view?_scaled (id : NodeId) :
    (g.scaled rule x t descs).view? id =
      if id = g.product then some ⟨.binary .multiply rule, [x, ⟨g.nodes.size, 0⟩], descs⟩
      else if id = g.nodes.size then some ⟨.constant t, [], [t.desc]⟩ else g.view? id := by
  rw [scaled, view?_insert, view?_insert, size_insert, product]

theorem view?_scaled_of_view? {w : Node.View} (h : g.view? id = some w) :
    (g.scaled rule x t descs).view? id = some w :=
  view?_insert_of_view? _ _ _ _ (view?_insert_of_view? _ _ _ _ h)

theorem view?_scaled_product : (g.scaled rule x t descs).view? g.product =
    some ⟨.binary .multiply rule, [x, ⟨g.nodes.size, 0⟩], descs⟩ := by
  rw [view?_scaled, if_pos rfl]

theorem view?_scaled_constant : (g.scaled rule x t descs).view? g.nodes.size =
    some ⟨.constant t, [], [t.desc]⟩ := by
  have hne : g.nodes.size ≠ g.product := Nat.ne_of_lt (Nat.lt_succ_self _)
  rw [view?_scaled, if_neg hne, if_pos rfl]

theorem released_insert (g : Graph) (op : Op) (inputs : List Output) (descs : List Desc) :
    (g.insert op inputs descs).released = g.released :=
  foldl_addTarget_keeps (φ := Graph.released) (fun _ _ _ => rfl) _ _ _

theorem released_scaled : (g.scaled rule x t descs).released = g.released := by
  rw [scaled, released_insert, released_insert]

/-- The new nodes do not read what is not read in them on purpose. -/
theorem produces_scaled (hx : x.node ≠ root) (hroot : g.contains root) :
    (g.scaled rule x t descs).Produces root id ↔ g.Produces root id := by
  rw [produces_iff_view, produces_iff_view, view?_scaled]
  have hsize : root ≠ g.nodes.size := Nat.ne_of_lt (lt_size_of_contains hroot)
  have hnew : ∀ {j}, g.nodes.size ≤ j → g.view? j = none := by
    intro j hj
    cases hw : g.view? j with
    | none => rfl
    | some w => exact absurd (lt_size_of_view? hw) (Nat.not_lt_of_le hj)
  split
  next hid =>
    rw [hid, hnew (j := g.product) (Nat.le_succ _)]
    simp [hx, hsize.symm]
  next =>
    split
    next hid =>
      rw [hid, hnew (Nat.le_refl _)]
      simp
    next => exact Iff.rfl

/-- **A product is read in the place of a node that it does not read.** -/
theorem ends_scaled_diverts (hwf : g.WellFormed) (hroot : g.contains root) (hx : x.node ≠ root)
    {rest : Output → NodeId → Edit Bool} (hrest : ∀ c, Edit.Supplants root (rest c)) :
    Ends (fun g' => ∃ descs, (g.scaled rule x t descs).WellFormed ∧
        (g.scaled rule x t descs).Diverts root (Edit.outputsOf g.product) g' ∧
        (g.insert (.constant t) [] [t.desc]).inferNew (.binary .multiply rule)
          [x, ⟨g.nodes.size, 0⟩] = .ok descs ∧
        ∃ b, rest ⟨g.nodes.size, 0⟩ g.product (g.scaled rule x t descs) = .ok b g')
      Edit.Anything ((do
        let c ← Edit.addConstant t
        let new ← Edit.addNode (.binary .multiply rule) [x, c]
        rest c new) g) := by
  rw [Edit.bind_of_ok (Edit.addConstant_eq t g)]
  refine ends_bind_of_ok (fun _ => trivial) fun new g₂ hnew => ?_
  obtain ⟨descs, hinfer, rfl, rfl⟩ := Edit.addNode_eq_ok.1 hnew
  have hconstant : (g.insert (.constant t) [] [t.desc]).WellFormed := wellFormed_insert hwf (by simp)
  have hscaled : (g.scaled rule x t descs).WellFormed :=
    wellFormed_insert hconstant fun v hv => Edit.exists_targets_of_inferNew hinfer hv
  have hsize : (g.insert (.constant t) [] [t.desc]).nodes.size = g.product := size_insert ..
  have hlt : root < g.nodes.size := lt_size_of_contains hroot
  rw [hsize]
  refine ((hrest ⟨g.nodes.size, 0⟩).ends_diverts hscaled ?_ ?_).and_ok.imp
    fun g' h => ⟨descs, hscaled, h.1, hinfer, h.2⟩
  · exact Nat.ne_of_gt (Nat.lt_succ_of_lt hlt)
  · rw [produces_scaled hx hroot]
    exact fun hp => absurd (lt_size_of_contains (contains_of_produces_right hp))
      (Nat.not_lt_of_le (Nat.le_succ _))

end Graph

/-! ### The two rules -/

namespace Negation

variable {g g' : Graph} {root id : NodeId} {m : Match} {changed : Bool}

/-- The names and the metadata of the product leave the reader of the negation as it is. -/
theorem supplants_takeover (root : NodeId) (minusOne : Output) :
    Edit.Supplants root fun product => (do
      let n ← Edit.query (·.node root)
      Edit.setName product n.friendlyName
      Edit.copyMetadata [n.id] [product, minusOne.node]
      Edit.replaceNode n.id product
      return true : Edit Bool) where
  keeps hP hm := keeps_takeover hP hm minusOne
  moves := by
    intro g product i k hwf hi hne
    have hreads : Edit.Reading i [⟨root, k⟩] g := Edit.reading_singleton.2 ⟨hwf, hi⟩
    refine Edit.ends_query_bind fun n hn => ?_
    rw [hwf.id_eq (Graph.node_eq_ok.1 hn)]
    refine ends_then (Edit.keeps_setName_of_renamable Edit.renamable_reading _ _ g hreads)
      fun _ g₁ hg₁ => ?_
    refine ends_then (Edit.keeps_copyMetadata_of_renamable Edit.renamable_reading _ _ g₁ hg₁)
      fun _ g₂ hg₂ => ?_
    obtain ⟨hwf, hi₂⟩ := Edit.reading_singleton.1 hg₂
    exact ends_bind (Edit.ends_replaceNode_reading hwf hi₂ hne) fun _ => keeps_pure true

/-- What the rule does with a negation. -/
theorem apply_eq_ok (hwf : g.WellFormed) (hm : pattern.matchNode? g id = some m)
    (hok : apply m g = .ok changed g') :
    ∃ x w d, g.view? m.root.node = some w ∧ w.op.kind = .negative ∧ w.inputs = [x] ∧
      g.desc? x = some d ∧ changed = d.elementType.isSigned ∧
      if changed then ∃ descs, (g.scaled .numpy x (.scalar d.elementType (-1)) descs).WellFormed ∧
        (g.scaled .numpy x (.scalar d.elementType (-1)) descs).Diverts m.root.node
          (Edit.outputsOf g.product) g'
      else g' = g := by
  obtain ⟨x, w, d, hw, hkind, hin, hdesc, hsigned, hdone⟩ := apply_cases hm hok
  have hread : g.source? ⟨m.root.node, 0⟩ = some x := by
    rw [Graph.source?_of_view? hw, hin]
    rfl
  refine ⟨x, w, d, hw, hkind, hin, hdesc, hsigned, ?_⟩
  cases changed with
  | false => exact hdone
  | true =>
    obtain ⟨descs, hscaled, hdiverts, -⟩ := (Graph.ends_scaled_diverts hwf
      (Graph.contains_of_view? hw) (hwf.source_exists hread).1
      (supplants_takeover m.root.node)).of_ok hdone
    exact ⟨descs, hscaled, hdiverts⟩

end Negation

namespace MultiplyChain

variable {g g' : Graph} {root id : NodeId} {m : Match} {changed : Bool}

theorem supplants_fuse (group : List NodeId) (root : NodeId) :
    Edit.Supplants root fun fused => (do
      Edit.fuse group root fused
      return true : Edit Bool) where
  keeps hP hm := keeps_bind (Edit.keeps_fuse_of_movable hP hm) fun _ => keeps_pure true
  moves hwf hi hne := ends_bind (Edit.ends_fuse_reading hwf hi hne) fun _ => keeps_pure true

/-- What the rule does with a product of a product: `x` and `c₁` are read by the inner one, `y` and
`c₂` by the outer one. -/
theorem apply_eq_ok (hwf : g.WellFormed) (ha : g.Acyclic) (hm : pattern.matchNode? g id = some m)
    (hok : apply m g = .ok changed g') :
    ∃ x y c₁ c₂ inner outer r, (m.get? 0 = some x ∧ m.get? 1 = some c₁ ∧ m.get? 2 = some y ∧
        m.get? 3 = some c₂) ∧
      g.view? m.root.node = some outer ∧ outer.inputs = [y, c₂] ∧
      g.view? y.node = some inner ∧ inner.inputs = [x, c₁] ∧
      scale? g x c₁ c₂ y.node m.root = .ok r ∧
      match r with
      | none => changed = false ∧ g' = g
      | some (t, rule) => changed = true ∧ ∃ descs, (g.scaled rule x t descs).WellFormed ∧
        (g.scaled rule x t descs).Diverts m.root.node (Edit.outputsOf g.product) g' ∧
        (g.insert (.constant t) [] [t.desc]).inferNew (.binary .multiply rule)
          [x, ⟨g.nodes.size, 0⟩] = .ok descs ∧
        Edit.fuse [y.node, m.root.node] m.root.node g.product (g.scaled rule x t descs) = .ok () g' := by
  obtain ⟨x, y, c₁, c₂, inner, outer, r, hget, houter, hin, hinner, hin', hscale, hdone⟩ :=
    apply_cases hm hok
  have hinnermost : g.Produces x.node y.node :=
    Graph.produces_of_view? hinner (by simp [hin'])
  have houtermost : g.Produces y.node m.root.node :=
    Graph.produces_of_view? houter (by simp [hin])
  have hne : x.node ≠ m.root.node := fun heq =>
    ha m.root.node (.head (heq ▸ hinnermost) (.single houtermost))
  refine ⟨x, y, c₁, c₂, inner, outer, r, hget, houter, hin, hinner, hin', hscale, ?_⟩
  cases r with
  | none => exact hdone
  | some p =>
    obtain ⟨t, rule⟩ := p
    obtain ⟨rfl, hdone⟩ := hdone
    obtain ⟨descs, hscaled, hdiverts, hinfer, b, hend⟩ := (Graph.ends_scaled_diverts hwf
      (Graph.contains_of_view? houter) hne
      fun _ => supplants_fuse [y.node, m.root.node] m.root.node).of_ok hdone
    obtain ⟨u, g₁, hfuse, hpure⟩ := bind_eq_ok.1 hend
    obtain ⟨-, rfl⟩ := pure_eq_ok.1 hpure
    exact ⟨rfl, descs, hscaled, hdiverts, hinfer, hfuse⟩

end MultiplyChain

end OpGraph
