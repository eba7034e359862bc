import Mathlib.Logic.Relation
import OpGraph.Proofs.Graph.WellFormed
import OpGraph.Proofs.Pattern.Explained

/-!
# What a pattern describes

A binding gives values of the graph to nodes of a pattern.  It describes a match of the root against a
value if it gives that value to the root, and if every node that it binds asks for nothing but what the
binding gives (`Pattern.IsBinding`).  Nothing is said here about an order of search.

The search finds a match if and only if there is such a binding, and then it finds the least one: it binds
the nodes that are reached from the root, each to the value that it is reached with
(`Pattern.matchValue?_eq_least_binding`).

* Soundness is that everything which the search binds is explained.
* Completeness goes by induction on the pattern node (`PatternTable.exists_extend`): bindings that stay
  within a given one never meet a refusal.
* That nothing is bound in excess follows from completeness, for the part of a binding that is reached
  from the root is a binding of its own (`Pattern.IsBinding.restrict`).
-/

namespace OpGraph

namespace PatternTable

variable {g : Graph} {t : PatternTable}

theorem lt_size_of_reference (t : PatternTable) (i : Fin t.size) (j : Fin i) : j.val < t.size :=
  Nat.lt_trans j.isLt i.isLt

/-- A node that the node `i` refers to. -/
def below (t : PatternTable) (i : Fin t.size) (j : Fin i) : Fin t.size :=
  ⟨j, t.lt_size_of_reference i j⟩

/-- The test of a pattern node on its own. -/
inductive Passes (g : Graph) (t : PatternTable) : Fin t.size → Output → Prop where
  | any {i : Fin t.size} {p : Predicate} {v : Output} (hn : t.node i = .any p) (hp : p g v) :
      Passes g t i v
  | kinds {i : Fin t.size} {kinds : List Kind} {inputs : List (Fin i)} {p : Predicate} {v : Output}
      {w : Node.View} (hn : t.node i = .kinds kinds inputs p) (hw : g.view? v.node = some w)
      (hkind : w.op.kind ∈ kinds) (hp : p g v) : Passes g t i v
  | either {i : Fin t.size} {alternatives : List (Fin i)} {j : Fin i} {v : Output}
      (hn : t.node i = .either alternatives) (hj : j ∈ alternatives)
      (hpass : Passes g t (t.below i j) v) : Passes g t i v

/-- The first of several alternatives that passes. -/
def FirstPassing (g : Graph) (t : PatternTable) (i : Fin t.size) (alternatives : List (Fin i))
    (v : Output) (j : Fin i) : Prop :=
  ∃ before after, alternatives = before ++ j :: after ∧ t.Passes g (t.below i j) v ∧
    ∀ k ∈ before, ¬t.Passes g (t.below i k) v

/-- What the node `i` asks for when it is bound to `v`. -/
def Allows (g : Graph) (t : PatternTable) (β : Fin t.size → Option Output) (i : Fin t.size)
    (v : Output) : Prop :=
  g.hasOutput v ∧
    match t.node i with
    | .any p => p g v
    | .kinds kinds inputs p => p g v ∧ ∃ w, g.view? v.node = some w ∧ w.op.kind ∈ kinds ∧
        (inputs ≠ [] → List.Forall₂ (fun j u => β (t.below i j) = some u) inputs w.inputs)
    | .either alternatives =>
        ∃ j, t.FirstPassing g i alternatives v j ∧ β (t.below i j) = some v

/-- A node that is bound to a value asks for another node to be bound to a value. -/
inductive Asks (g : Graph) (t : PatternTable) : Fin t.size × Output → Fin t.size × Output → Prop where
  | input {i : Fin t.size} {kinds : List Kind} {inputs : List (Fin i)} {p : Predicate} {v u : Output}
      {w : Node.View} {k : Nat} {j : Fin i} (hn : t.node i = .kinds kinds inputs p)
      (hw : g.view? v.node = some w) (hj : inputs[k]? = some j) (hu : w.inputs[k]? = some u) :
      Asks g t (i, v) (t.below i j, u)
  | alternative {i : Fin t.size} {alternatives : List (Fin i)} {v : Output} {j : Fin i}
      (hn : t.node i = .either alternatives) (hj : t.FirstPassing g i alternatives v j) :
      Asks g t (i, v) (t.below i j, v)

theorem accepts_iff_passes {i : Nat} {hi : i < t.size} {v : Output} :
    t.accepts g i hi v = true ↔ t.Passes g ⟨i, hi⟩ v := by
  induction i using Nat.strongRecOn generalizing v with
  | _ i ih =>
  rw [accepts]
  constructor
  · intro h
    split at h
    next p hn => exact .any hn h
    next kinds inputs p hn =>
      obtain ⟨hkind, hp⟩ := Bool.and_eq_true_iff.1 h
      obtain ⟨op, hop, hkind⟩ := (Option.any_eq_true ..).1 hkind
      obtain ⟨w, hw, rfl⟩ := Graph.exists_view_of_op? hop
      exact .kinds hn hw (of_decide_eq_true hkind) hp
    next alternatives hn =>
      obtain ⟨j, hj, hpass⟩ := List.any_eq_true.1 h
      exact .either hn hj ((ih j j.isLt).1 hpass)
  · intro h
    cases h with
    | any hn hp =>
      rw [hn]
      exact hp
    | @kinds _ kinds _ _ _ w hn hw hkind hp =>
      rw [hn]
      refine Bool.and_eq_true_iff.2 ⟨?_, hp⟩
      rw [Graph.op?_eq_view, hw]
      exact decide_eq_true hkind
    | either hn hj hpass =>
      rw [hn]
      exact List.any_eq_true.2 ⟨_, hj, (ih _ (Fin.isLt _)).2 hpass⟩

theorem find?_eq_some_iff_firstPassing {i : Fin t.size} {alternatives : List (Fin i)} {v : Output}
    {j : Fin i} :
    (alternatives.find? fun j => t.accepts g j.val (Nat.lt_trans j.isLt i.isLt) v) = some j ↔
      t.FirstPassing g i alternatives v j := by
  rw [List.find?_eq_some_iff_append]
  simp only [Bool.not_eq_true', Bool.eq_false_iff, ne_eq, accepts_iff_passes]
  constructor
  · intro h
    obtain ⟨hj, before, after, hl, hbefore⟩ := h
    exact ⟨before, after, hl, hj, hbefore⟩
  · intro h
    obtain ⟨before, after, hl, hj, hbefore⟩ := h
    exact ⟨hj, before, after, hl, hbefore⟩

/-- What a match has explained is what the pattern asks for. -/
theorem explains_iff_allows {b : Bindings} {i : Fin t.size} {v : Output} :
    t.Explains g b i v ↔ t.Allows g (fun k => b.get? k) i v := by
  unfold Explains Allows
  simp only [find?_eq_some_iff_firstPassing]
  exact Iff.rfl

/-! ### Completeness -/

/-- Whatever has been bound so far, the binding `β` binds to the same value. -/
def Within (t : PatternTable) (b : Bindings) (β : Fin t.size → Option Output) : Prop :=
  ∀ (i : Fin t.size) u, b.get? i = some u → β i = some u

section

variable {β : Fin t.size → Option Output} {b : Bindings} {v : Output}

theorem Within.record (hb : t.Within b β) {i : Fin t.size} (hi : β i = some v) :
    t.Within (b.record i v) β := by
  intro k u hu
  rw [Bindings.get?_record] at hu
  split at hu
  next hk =>
    obtain rfl := Fin.ext hk
    exact hi.trans hu
  next => exact hb k u hu

theorem Within.bind (hb : t.Within b β) {i : Fin t.size} (hi : β i = some v) :
    t.Within (b.bind i v) β := by
  intro k u hu
  rw [Bindings.get?_bind, ← Bindings.get?_record] at hu
  exact hb.record hi k u hu

theorem exists_foldlM_extend {i : Fin t.size}
    (ih : ∀ (j : Fin i) u b, β (t.below i j) = some u → t.Within b β →
      ∃ b', t.extend g j.val (Nat.lt_trans j.isLt i.isLt) u b = some b' ∧ t.Within b' β)
    {l : List (Fin i × Output)} (hl : ∀ e ∈ l, β (t.below i e.1) = some e.2) (hb : t.Within b β) :
    ∃ b', l.foldlM (fun b (j, u) => t.extend g j.val (Nat.lt_trans j.isLt i.isLt) u b) b = some b' ∧
      t.Within b' β := by
  induction l generalizing b with
  | nil => exact ⟨b, rfl, hb⟩
  | cons e l ihl =>
    obtain ⟨b₁, h₁, hb₁⟩ := ih e.1 e.2 b (hl e List.mem_cons_self) hb
    obtain ⟨b', h', hb'⟩ := ihl (fun e he => hl e (List.mem_cons_of_mem _ he)) hb₁
    refine ⟨b', ?_, hb'⟩
    rw [List.foldlM_cons]
    exact Option.bind_eq_some_iff.2 ⟨b₁, h₁, h'⟩

/-- **The search succeeds wherever the pattern can be bound**, and it stays within the binding. -/
theorem exists_extend (hβ : ∀ i v, β i = some v → t.Allows g β i v) {i : Nat} {hi : i < t.size}
    (hv : β ⟨i, hi⟩ = some v) (hb : t.Within b β) :
    ∃ b', t.extend g i hi v b = some b' ∧ t.Within b' β := by
  induction i using Nat.strongRecOn generalizing v b with
  | _ i ih =>
  rw [extend]
  split
  next bound hbound =>
    have hsame : bound = v := Option.some.inj ((hb ⟨i, hi⟩ bound hbound).symm.trans hv)
    exact ⟨b, if_pos hsame, hb⟩
  next =>
  obtain ⟨hout, hallows⟩ := hβ ⟨i, hi⟩ v hv
  rw [if_neg (by simpa using hout)]
  split
  next p hn =>
    rw [hn] at hallows
    exact ⟨_, if_pos hallows, hb.bind hv⟩
  next kinds inputs p hn =>
    rw [hn] at hallows
    obtain ⟨hp, w, hw, hkind, hin⟩ := hallows
    have hpass : t.accepts g i hi v = true := accepts_iff_passes.2 (.kinds hn hw hkind hp)
    rw [if_neg (by simpa using hpass)]
    split
    next => exact ⟨_, rfl, hb.bind hv⟩
    next hne =>
      have hin := hin fun h => hne (List.isEmpty_iff.2 h)
      obtain ⟨n, hnode, rfl⟩ := Graph.view?_eq_some.1 hw
      have hlen : n.inputs.length = inputs.length := hin.length_eq.symm
      rw [hnode, Option.bind_eq_bind, Option.bind_some, if_neg (not_not.2 hlen)]
      exact exists_foldlM_extend (i := ⟨i, hi⟩) (fun j u b hj hb => ih j.val j.isLt hj hb)
        (fun e he => (List.forall₂_iff_zip.1 hin).2 he) (hb.bind hv)
  next alternatives hn =>
    rw [hn] at hallows
    obtain ⟨j, hj, hjv⟩ := hallows
    obtain ⟨b₁, h₁, hb₁⟩ := ih j.val j.isLt hjv hb
    refine ⟨b₁.record i v, ?_, hb₁.record hv⟩
    rw [find?_eq_some_iff_firstPassing.2 hj, Option.bind_eq_bind, Option.bind_some, h₁]
    rfl

end

end PatternTable

/-! ### Bindings of a pattern -/

namespace Pattern

variable {p : Pattern} {g : Graph} {v : Output} {β : Fin p.table.size → Option Output} {m : Match}

/-- A binding that describes a match of the root against a value. -/
structure IsBinding (p : Pattern) (g : Graph) (v : Output) (β : Fin p.table.size → Option Output) :
    Prop where
  root : β p.root = some v
  allows : ∀ i u, β i = some u → p.table.Allows g β i u

/-- The root, bound to `v`, asks step by step for the node `i` to be bound to `u`. -/
def Reaches (p : Pattern) (g : Graph) (v : Output) (i : Fin p.table.size) (u : Output) : Prop :=
  Relation.ReflTransGen (p.table.Asks g) (p.root, v) (i, u)

theorem IsBinding.of_asks (h : p.IsBinding g v β) {x y : Fin p.table.size × Output}
    (hx : β x.1 = some x.2) (hxy : p.table.Asks g x y) : β y.1 = some y.2 := by
  obtain ⟨-, hallows⟩ := h.allows x.1 x.2 hx
  cases hxy with
  | input hn hw hj hu =>
    rw [hn] at hallows
    obtain ⟨-, w', hw', -, hin⟩ := hallows
    obtain rfl := Option.some.inj (hw'.symm.trans hw)
    obtain ⟨u', hu', hβ⟩ := forall₂_getElem? (hin fun hnil => by simp [hnil] at hj) hj
    rw [hu] at hu'
    exact hβ.trans hu'.symm
  | alternative hn hj =>
    rw [hn] at hallows
    obtain ⟨j', hj', hβ⟩ := hallows
    rw [← PatternTable.find?_eq_some_iff_firstPassing] at hj hj'
    obtain rfl := Option.some.inj (hj'.symm.trans hj)
    exact hβ

/-- What is reached from the root, every binding binds. -/
theorem IsBinding.of_reaches (h : p.IsBinding g v β) {i : Fin p.table.size} {u : Output}
    (hr : p.Reaches g v i u) : β i = some u := by
  suffices hall : ∀ x, Relation.ReflTransGen (p.table.Asks g) (p.root, v) x → β x.1 = some x.2 from
    hall (i, u) hr
  intro x hx
  induction hx with
  | refl => exact h.root
  | tail _ hxy ih => exact h.of_asks ih hxy

open Classical in
/-- The part of a binding that is reached from the root. -/
noncomputable def reachedPart (p : Pattern) (g : Graph) (v : Output)
    (β : Fin p.table.size → Option Output) (i : Fin p.table.size) : Option Output :=
  (β i).filter fun u => p.Reaches g v i u

theorem reachedPart_eq_some {i : Fin p.table.size} {u : Output} :
    p.reachedPart g v β i = some u ↔ β i = some u ∧ p.Reaches g v i u := by
  simp only [reachedPart, Option.filter_eq_some_iff, decide_eq_true_eq]

theorem IsBinding.restrict (h : p.IsBinding g v β) : p.IsBinding g v (p.reachedPart g v β) := by
  refine ⟨reachedPart_eq_some.2 ⟨h.root, Relation.ReflTransGen.refl⟩, fun i u hu => ?_⟩
  obtain ⟨hu, hr⟩ := reachedPart_eq_some.1 hu
  have hnext : ∀ {j w}, β j = some w → p.table.Asks g (i, u) (j, w) →
      p.reachedPart g v β j = some w := fun hj hask => reachedPart_eq_some.2 ⟨hj, hr.tail hask⟩
  obtain ⟨hout, hallows⟩ := h.allows i u hu
  refine ⟨hout, ?_⟩
  split
  next q hn =>
    rw [hn] at hallows
    exact hallows
  next kinds inputs q hn =>
    rw [hn] at hallows
    obtain ⟨hq, w, hw, hkind, hin⟩ := hallows
    refine ⟨hq, w, hw, hkind, fun hne => ?_⟩
    obtain ⟨hlen, hin⟩ := forall₂_iff_getElem?.1 (hin hne)
    refine forall₂_iff_getElem?.2 ⟨hlen, fun k j s hj hs => ?_⟩
    exact hnext (hin k j s hj hs) (.input hn hw hj hs)
  next alternatives hn =>
    rw [hn] at hallows
    obtain ⟨j, hj, hβ⟩ := hallows
    exact ⟨j, hj, hnext hβ (.alternative hn hj)⟩

/-! ### The match -/

theorem isBinding_of_matchValue? (h : p.matchValue? g v = some m) :
    p.IsBinding g v fun i => m.get? i := by
  obtain ⟨-, hroot, hall⟩ := explains_of_matchValue? h
  exact ⟨hroot, fun i u hu => PatternTable.explains_iff_allows.1 (hall i i.isLt u hu)⟩

theorem lt_size_of_matchValue? (h : p.matchValue? g v = some m) {i : Nat} {u : Output}
    (hu : m.get? i = some u) : i < p.table.size := by
  obtain ⟨b, hb, rfl⟩ := Option.map_eq_some_iff.1 h
  by_contra hi
  have hroot := p.root.isLt
  rw [Match.get?, (PatternTable.grows_of_extend hb).above i (by omega)] at hu
  cases hu

theorem IsBinding.exists_match (h : p.IsBinding g v β) :
    ∃ m, p.matchValue? g v = some m ∧ p.table.Within m.bindings β := by
  obtain ⟨b, hb, hwithin⟩ := PatternTable.exists_extend (b := {}) h.allows h.root fun i u hu => by
    cases hu
  exact ⟨⟨v, b⟩, by rw [matchValue?, hb]; rfl, hwithin⟩

/-- Where the pattern can be bound to an output of a node, the node has a match. -/
theorem IsBinding.exists_matchNode? (h : p.IsBinding g v β) (hwf : g.WellFormed) :
    ∃ m, p.matchNode? g v.node = some m := by
  obtain ⟨m, hm, -⟩ := h.exists_match
  obtain ⟨hout, -⟩ := h.allows p.root v h.root
  obtain ⟨n, hn, hlt⟩ := (Option.any_eq_true ..).1 hout
  have hmem : v ∈ n.values := by
    refine List.mem_map.2 ⟨v.index, List.mem_range.2 (of_decide_eq_true hlt), ?_⟩
    rw [hwf.id_eq hn]
  rw [matchNode?, hn, Option.bind_eq_bind, Option.bind_some]
  refine Option.isSome_iff_exists.1 (List.findSome?_isSome_iff.2 ⟨v, hmem, ?_⟩)
  rw [hm]
  rfl

/-- The binding of the two nodes of a unary pattern. -/
def unaryBinding (x v : Output) : Fin 2 → Option Output
  | 0 => some x
  | 1 => some v

/-- An operation of the kind that reads one value has a match. -/
theorem exists_match_unary (hwf : g.WellFormed) {kind : Kind} {id : NodeId} {w : Node.View}
    {x : Output} (hw : g.view? id = some w) (hkind : w.op.kind = kind) (hin : w.inputs = [x])
    (hout : g.hasOutput ⟨id, 0⟩) (hx : g.hasOutput x) :
    ∃ m, (unary kind).matchNode? g id = some m := by
  have hbinding : (unary kind).IsBinding g ⟨id, 0⟩ (unaryBinding x ⟨id, 0⟩) := by
    refine ⟨rfl, show ∀ (i : Fin 2) u, unaryBinding x ⟨id, 0⟩ i = some u → _ from ?_⟩
    intro i u hu
    match i with
    | 0 =>
      obtain rfl := Option.some.inj hu
      exact ⟨hx, rfl⟩
    | 1 =>
      obtain rfl := Option.some.inj hu
      refine ⟨hout, rfl, w, hw, List.mem_singleton.2 hkind, fun _ => ?_⟩
      rw [hin]
      exact .cons rfl .nil
  exact hbinding.exists_matchNode? hwf

/-- The match binds nothing that another binding does not bind to the same value. -/
theorem IsBinding.of_matchValue? (h : p.IsBinding g v β) (hm : p.matchValue? g v = some m)
    {i : Fin p.table.size} {u : Output} (hu : m.get? i = some u) : β i = some u := by
  obtain ⟨m', hm', hwithin⟩ := h.exists_match
  obtain rfl := Option.some.inj (hm'.symm.trans hm)
  exact hwithin i u hu

/-- **A match is found if and only if the pattern can be bound**, and it is the least binding: what it
binds, every binding binds to the same value, and the pattern nodes that it binds are those that are
reached from the root. -/
theorem matchValue?_eq_least_binding (p : Pattern) (g : Graph) (v : Output) :
    ((p.matchValue? g v).isSome ↔ ∃ β, p.IsBinding g v β) ∧
    ∀ m, p.matchValue? g v = some m →
      m.root = v ∧ (p.IsBinding g v fun i => m.get? i) ∧
      (∀ β, p.IsBinding g v β → ∀ i u, m.get? i = some u → ∃ hi, β ⟨i, hi⟩ = some u) ∧
      ∀ i u, m.get? i = some u ↔ ∃ hi, p.Reaches g v ⟨i, hi⟩ u := by
  constructor
  · constructor
    · intro h
      obtain ⟨m, hm⟩ := Option.isSome_iff_exists.1 h
      exact ⟨_, isBinding_of_matchValue? hm⟩
    · intro h
      obtain ⟨β, hβ⟩ := h
      obtain ⟨m, hm, -⟩ := hβ.exists_match
      exact Option.isSome_iff_exists.2 ⟨m, hm⟩
  · intro m hm
    have hself := isBinding_of_matchValue? hm
    refine ⟨(explains_of_matchValue? hm).1, hself, fun β hβ i u hu => ?_, fun i u => ?_⟩
    · exact ⟨lt_size_of_matchValue? hm hu, hβ.of_matchValue? hm hu⟩
    · constructor
      · intro hu
        have hi := lt_size_of_matchValue? hm hu
        exact ⟨hi, (reachedPart_eq_some.1 (hself.restrict.of_matchValue? (i := ⟨i, hi⟩) hm hu)).2⟩
      · intro h
        obtain ⟨hi, hr⟩ := h
        exact hself.of_reaches hr

end Pattern

end OpGraph
