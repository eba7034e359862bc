import OpGraph.Graph.Bypass
import OpGraph.Proofs.Graph.Consistent
import OpGraph.Proofs.Op.Infer
import OpGraph.Proofs.Shape.Admits

/-!
# Shapes behind an identity operand

`Graph.identityOperand?` compares descriptions to find out that a constant does not broadcast the
operand beside it.  For an operand of known rank this carries over to every shape that the operand can
have.  An unknown rank hides the rank that the constant brings along: then it carries over only if the
node does not broadcast, or if the constant has no axes.

The main statement is `identityOperand?_keeps_shape_iff`.
-/

namespace OpGraph

namespace Broadcast

/-- The shape that a node produces when its input `index` has the shape `s` and its other input the
shape `c`. -/
def shapeThrough (rule : Broadcast) (index : Nat) (s c : Shape) : Option PartialShape :=
  if index = 0 then rule.shape? (.ofShape s) (.ofShape c) else rule.shape? (.ofShape c) (.ofShape s)

theorem shapeThrough_eq (rule : Broadcast) (index : Nat) (s c : Shape) :
    rule.shapeThrough index s c = rule.shape? (.ofShape s) (.ofShape c) := by
  rw [shapeThrough]
  split
  · rfl
  · exact shape?_comm ..

/-- A constant of shape `c` that leaves a description as it is leaves the shapes that the description
admits as they are. -/
def KeepsShape (rule : Broadcast) (d : PartialShape) (c : Shape) : Prop :=
  ∀ s r, d.Admits s → rule.shape? (.ofShape s) (.ofShape c) = some r → r = .ofShape s

theorem keepsShape_none (d : PartialShape) (c : Shape) : Broadcast.none.KeepsShape d c := by
  intro s r _ hr
  exact (PartialShape.merge_ofShape_eq_some.1 hr).2

theorem keepsShape_scalar (rule : Broadcast) (d : PartialShape) : rule.KeepsShape d [] := by
  intro s r hs hr
  cases rule with
  | none => exact keepsShape_none d [] s r hs hr
  | numpy =>
    obtain ⟨t, rfl, hl, hk⟩ := PartialShape.broadcast_ofShape_eq_some.1 hr
    refine congrArg _ (Shape.fromEnd_ext (by simpa using hl) fun k => ?_)
    have := hk k
    rw [Shape.fromEnd_nil, Dim.broadcast_one_right, Option.some.injEq] at this
    exact (Dim.static.inj this).symm

/-- A constant of shape `c` that leaves a description of known rank as it is broadcasts none of the
shapes that the description admits. -/
theorem broadcast_admitted {rule : Broadcast} {d : PartialShape} {c s : Shape}
    (h : rule.shape? d (.ofShape c) = some d) (hd : d.isRanked) (hs : d.Admits s) :
    PartialShape.broadcast (.ofShape c) (.ofShape s) = some (.ofShape s) := by
  cases d with
  | unranked => cases hd
  | ranked dims =>
  obtain ⟨hls, hs⟩ := PartialShape.admits_ranked.1 hs
  have hdim : c.length ≤ dims.length ∧ ∀ k,
      (OpGraph.fromEnd dims k).broadcast (.static (c.fromEnd k)) = some (OpGraph.fromEnd dims k) := by
    cases rule with
    | none =>
      obtain ⟨cs, he, -, hl, hk⟩ := PartialShape.merge_eq_some.1 h
      obtain rfl := PartialShape.ranked.inj he
      rw [List.length_map] at hl
      refine ⟨Nat.le_of_eq hl, fun k => ?_⟩
      have := hk k
      rw [fromEnd_map_static] at this
      rw [Dim.eq_of_merge_eq this, Dim.broadcast_static]
      omega
    | numpy =>
      obtain ⟨cs, he, hl, hk⟩ := PartialShape.broadcast_eq_some.1 h
      obtain rfl := PartialShape.ranked.inj he
      rw [List.length_map] at hl
      refine ⟨by omega, fun k => ?_⟩
      have := hk k
      rwa [fromEnd_map_static] at this
  refine PartialShape.broadcast_ofShape_eq_some.2 ⟨s, rfl, by omega, fun k => ?_⟩
  exact Dim.broadcast_admitted (hdim.2 k) (hs k)

theorem keepsShape_of_isRanked {rule : Broadcast} {d : PartialShape} {c : Shape}
    (h : rule.shape? d (.ofShape c) = some d) (hd : d.isRanked) : rule.KeepsShape d c := by
  intro s r hs hr
  cases rule with
  | none => exact keepsShape_none d c s r hs hr
  | numpy =>
    rw [shape?_comm] at hr
    exact Option.some.inj (hr.symm.trans (broadcast_admitted h hd hs))

theorem keepsShape_iff {rule : Broadcast} {d : PartialShape} {c : Shape}
    (h : rule.shape? d (.ofShape c) = some d) :
    rule.KeepsShape d c ↔ d.isRanked ∨ rule = .none ∨ c = [] := by
  constructor
  · intro hkeep
    cases d with
    | ranked dims => exact Or.inl rfl
    | unranked =>
      cases rule with
      | none => exact Or.inr (Or.inl rfl)
      | numpy =>
        -- the operand may turn out to have no axes, and then the result has those of the constant
        have hc : PartialShape.broadcast (.ofShape []) (.ofShape c) = some (.ofShape c) :=
          PartialShape.broadcast_ofShape_eq_some.2
            ⟨c, rfl, by simp, fun k => by rw [Shape.fromEnd_nil, Dim.broadcast_one_left]⟩
        exact Or.inr (Or.inr (PartialShape.ofShape_injective (hkeep [] _ trivial hc)))
  · intro hd
    rcases hd with hd | rfl | rfl
    · exact keepsShape_of_isRanked h hd
    · exact keepsShape_none d c
    · exact keepsShape_scalar rule d

end Broadcast

theorem Tensor.allEqual_filled (t : ElementType) {s : Shape} (hs : s.addressable) (x y : Float) :
    (filled t s x).allEqual y = (decide (s.numel ≠ 0) && t.coerce x == y) := by
  rw [allEqual, filled, dif_pos hs]
  by_cases h : s.numel = 0
  · simp [h]
  · rw [← Array.all_toList, Array.toList_replicate, List.all_replicate]
    simp [h]

namespace Graph

variable {g : Graph} {id : NodeId}

/-- What the search for an identity operand has checked. -/
theorem identityOperand?_eq_some {identity : Float} {index : Nat}
    (h : g.identityOperand? id identity = some index) :
    ∃ w data other c d, g.view? id = some w ∧
      (index = 0 ∧ w.inputs = [data, other] ∨ index = 1 ∧ w.inputs = [other, data]) ∧
      g.constantValue? other = some c ∧ c.allEqual identity ∧ g.desc? data = some d ∧
      w.descs = [d] := by
  unfold identityOperand? at h
  obtain ⟨n, hn, h⟩ := Option.bind_eq_some_iff.1 h
  refine ⟨n.view, ?_⟩
  split at h
  next a b out hin hout =>
    extract_lets passes at h
    have hpasses : ∀ {data other : Output}, passes data other = true →
        ∃ c, g.constantValue? other = some c ∧ c.allEqual identity ∧
          g.desc? data = some out.desc := by
      intro data other hp
      obtain ⟨hc, hd⟩ := Bool.and_eq_true_iff.1 hp
      obtain ⟨c, hc, hall⟩ := (Option.any_eq_true ..).1 hc
      refine ⟨c, hc, hall, ?_⟩
      split at hd
      next d hdesc => exact of_decide_eq_true hd ▸ desc_eq_ok_iff_desc?.1 hdesc
      next => cases hd
    have hdescs : n.view.descs = [out.desc] := by rw [Node.view, Node.descs, hout]; rfl
    rcases ite_eq_iff.1 h with ⟨hp, h⟩ | ⟨-, h⟩
    · obtain ⟨c, hc, hall, hd⟩ := hpasses hp
      exact ⟨a, b, c, out.desc, view?_eq_some.2 ⟨n, hn, rfl⟩,
        Or.inl ⟨(Option.some.inj h).symm, hin⟩, hc, hall, hd, hdescs⟩
    · rcases ite_eq_iff.1 h with ⟨hp, h⟩ | ⟨-, h⟩
      · obtain ⟨c, hc, hall, hd⟩ := hpasses hp
        exact ⟨b, a, c, out.desc, view?_eq_some.2 ⟨n, hn, rfl⟩,
          Or.inr ⟨(Option.some.inj h).symm, hin⟩, hc, hall, hd, hdescs⟩
      · cases h
  next => cases h

/-- The description of the operand is what the constant leaves of it. -/
theorem shape?_of_identityOperand? (hc : g.ConsistentAt id)
    (hp : ∀ p, g.Produces p id → g.ConsistentAt p) {identity : Float} {index : Nat}
    (hi : g.identityOperand? id identity = some index) {op : BinaryOp} {rule : Broadcast}
    (hop : g.op? id = some (.binary op rule)) :
    ∃ w data other c d, g.view? id = some w ∧
      (index = 0 ∧ w.inputs = [data, other] ∨ index = 1 ∧ w.inputs = [other, data]) ∧
      g.constantValue? other = some c ∧ g.desc? data = some d ∧
      rule.shape? d.shape (.ofShape c.shape) = some d.shape := by
  obtain ⟨w, data, other, c, d, hw, hin, hcv, -, hd, hdescs⟩ := identityOperand?_eq_some hi
  refine ⟨w, data, other, c, d, hw, hin, hcv, hd, ?_⟩
  have hother : other ∈ w.inputs := by
    rcases hin with ⟨-, hin⟩ | ⟨-, hin⟩ <;> simp [hin]
  have hcons := hp other.node (produces_of_view? hw hother)
  obtain ⟨w', ds, hw', hds, hinfer⟩ := consistentAt_iff_view.1 hc
  obtain rfl := Option.some.inj (hw'.symm.trans hw)
  have hwop : w'.op = .binary op rule := op_eq_of_view? hw hop
  rw [hwop, Op.infer, hdescs] at hinfer
  obtain ⟨a, b, type, shape, rfl, -, -, hshape, hout⟩ := BinaryOp.infer_eq_ok.1 hinfer
  obtain rfl := (List.cons.inj hout).1
  rcases hin with ⟨-, hin⟩ | ⟨-, hin⟩
  · rw [hin] at hds
    obtain ⟨hda, hdb⟩ : g.desc? data = some a ∧ g.desc? other = some b := by simpa using hds
    rw [hda, Option.some.injEq] at hd
    rw [desc?_of_constantValue? hcons hcv hdb, hd] at hshape
    exact hshape
  · rw [hin] at hds
    obtain ⟨hda, hdb⟩ : g.desc? other = some a ∧ g.desc? data = some b := by simpa using hds
    rw [hdb, Option.some.injEq] at hd
    rw [desc?_of_constantValue? hcons hcv hda, hd, Broadcast.shape?_comm] at hshape
    exact hshape

/-- **A node with an identity operand produces the shape of its data**, whatever shape the data have
when the graph runs, if and only if the rank of the data is known, or the node does not broadcast, or
the constant has no axes. -/
theorem identityOperand?_keeps_shape_iff (hc : g.ConsistentAt id)
    (hp : ∀ p, g.Produces p id → g.ConsistentAt p) {identity : Float} {index : Nat}
    (hi : g.identityOperand? id identity = some index) {op : BinaryOp} {rule : Broadcast}
    (hop : g.op? id = some (.binary op rule)) :
    ∃ data c d, g.source? ⟨id, index⟩ = some data ∧ g.constantInput? id (1 - index) = some c ∧
      g.desc? data = some d ∧
      ((∀ s r, d.shape.Admits s → rule.shapeThrough index s c.shape = some r → r = .ofShape s) ↔
        d.shape.isRanked ∨ rule = .none ∨ c.shape = []) := by
  obtain ⟨w, data, other, c, d, hw, hin, hcv, hd, hshape⟩ :=
    shape?_of_identityOperand? hc hp hi hop
  refine ⟨data, c, d, ?_, ?_, hd, ?_⟩
  · rw [source?_of_view? hw]
    rcases hin with ⟨rfl, hin⟩ | ⟨rfl, hin⟩ <;> rw [hin] <;> rfl
  · obtain ⟨n, hn, rfl⟩ := view?_eq_some.1 hw
    have hsrc : n.inputs[1 - index]? = some other := by
      rcases hin with ⟨rfl, hin⟩ | ⟨rfl, hin⟩ <;> exact congrArg (·[_]?) hin
    rw [constantInput?, hn, Option.bind_some, hsrc, Option.bind_some, hcv]
  · simp only [Broadcast.shapeThrough_eq]
    exact Broadcast.keepsShape_iff hshape

/-! ### An operand of unknown rank -/

/-- A parameter of unknown rank times a matrix of ones. -/
def unrankedTimesOnes : Graph :=
  ((({ name := "unranked" } : Graph).insert (.parameter .f64 .unranked) [] [⟨.f64, .unranked⟩]).insert
    (.constant (.filled .f64 [2, 3] 1)) [] [⟨.f64, .ofShape [2, 3]⟩]).insert
      .multiply [⟨0, 0⟩, ⟨1, 0⟩] [⟨.f64, .unranked⟩]

theorem wellFormed_unrankedTimesOnes : unrankedTimesOnes.WellFormed := by
  refine wellFormed_insert (wellFormed_insert (wellFormed_insert (wellFormed_empty _) ?_) ?_) ?_
  · simp
  · simp
  · intro v hv
    rcases List.mem_pair.1 hv with rfl | rfl <;> exact ⟨_, rfl⟩

theorem consistentAt_unrankedTimesOnes (id : NodeId) (h : unrankedTimesOnes.contains id) :
    unrankedTimesOnes.ConsistentAt id := by
  obtain ⟨n, hn⟩ := contains_iff.1 h
  have hlt : id < 3 := lt_size_of_node? hn
  match id, hlt with
  | 0, _ => exact ⟨_, rfl, rfl⟩
  | 1, _ => exact ⟨_, rfl, rfl⟩
  | 2, _ => exact ⟨_, rfl, rfl⟩

theorem identityOperand?_unrankedTimesOnes :
    unrankedTimesOnes.identityOperand? 2 1 = some 0 := by
  have hones : unrankedTimesOnes.isConstantFilledWith ⟨1, 0⟩ 1 = true := by
    have haddressable : Shape.addressable [2, 3] := rfl
    exact (Tensor.allEqual_filled .f64 haddressable 1 1).trans (by decide)
  show (if unrankedTimesOnes.isConstantFilledWith ⟨1, 0⟩ 1 && true then some 0 else _) = some 0
  rw [hones]
  rfl

theorem identityOperand?_keeps_shape_iff_unrankedTimesOnes :
    ∃ data c d, unrankedTimesOnes.source? ⟨2, 0⟩ = some data ∧
      unrankedTimesOnes.constantInput? 2 1 = some c ∧ unrankedTimesOnes.desc? data = some d ∧
      ((∀ s r, d.shape.Admits s → Broadcast.numpy.shapeThrough 0 s c.shape = some r →
        r = .ofShape s) ↔ d.shape.isRanked ∨ Broadcast.numpy = .none ∨ c.shape = []) :=
  identityOperand?_keeps_shape_iff (consistentAt_unrankedTimesOnes 2 rfl)
    (fun p hp => consistentAt_unrankedTimesOnes p
      (wellFormed_unrankedTimesOnes.contains_of_produces hp))
    identityOperand?_unrankedTimesOnes rfl

/-- The parameter can turn out to be a number, and the product is a matrix all the same. -/
theorem identityOperand?_changes_unranked_shape :
    unrankedTimesOnes.WellFormed ∧
      (∀ id, unrankedTimesOnes.contains id → unrankedTimesOnes.ConsistentAt id) ∧
      unrankedTimesOnes.op? 2 = some (.binary .multiply .numpy) ∧
      unrankedTimesOnes.identityOperand? 2 1 = some 0 ∧
      unrankedTimesOnes.desc? ⟨0, 0⟩ = some ⟨.f64, .unranked⟩ ∧
      PartialShape.unranked.Admits [] ∧
      Broadcast.numpy.shapeThrough 0 [] [2, 3] = some (.ofShape [2, 3]) ∧
      PartialShape.ofShape [2, 3] ≠ .ofShape [] :=
  ⟨wellFormed_unrankedTimesOnes, consistentAt_unrankedTimesOnes, rfl,
    identityOperand?_unrankedTimesOnes, rfl, trivial, rfl, by decide⟩

end Graph

end OpGraph
