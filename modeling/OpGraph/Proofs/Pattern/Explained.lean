import OpGraph.Pattern.Match
import OpGraph.Proofs.Graph.Edges
import OpGraph.Proofs.Pointwise

/-!
# What a match has found

A pattern node that is bound to a value is explained when the value passes the test of the node and the
nodes that it refers to are bound to what the value is made from.  Every binding of a successful match
is explained (`Pattern.explains_of_matchValue?`).

The search binds a node before it looks at the nodes below it, so the induction goes over what has been
bound since it started (`PatternTable.Grows`).
-/

namespace OpGraph

namespace Bindings

/-- What was bound is still bound to the same value. -/
def Extends (b' b : Bindings) : Prop := ∀ i v, b.get? i = some v → b'.get? i = some v

theorem Extends.refl (b : Bindings) : b.Extends b := fun _ _ h => h

theorem Extends.trans {b b' b'' : Bindings} (h : b'.Extends b) (h' : b''.Extends b') :
    b''.Extends b := fun i v hv => h' i v (h i v hv)

theorem get?_record (b : Bindings) (i : Nat) (v : Output) (k : Nat) :
    (b.record i v).get? k = if k = i then some v else b.get? k := by
  unfold get? record
  rw [List.lookup_cons]
  by_cases h : k = i
  · simp [h]
  · rw [if_neg h, beq_false_of_ne h]

theorem get?_bind (b : Bindings) (i : Nat) (v : Output) (k : Nat) :
    (b.bind i v).get? k = if k = i then some v else b.get? k :=
  get?_record b i v k

theorem extends_record {b : Bindings} {i : Nat} (h : b.get? i = none) (v : Output) :
    (b.record i v).Extends b := by
  intro k u hu
  rw [get?_record]
  split
  next hk =>
    rw [hk, h] at hu
    cases hu
  next => exact hu

end Bindings

namespace PatternTable

variable {g : Graph} {t : PatternTable}

/-- What a pattern asks for at one of its nodes. -/
def Explains (g : Graph) (t : PatternTable) (b : Bindings) (i : Fin t.size) (v : Output) : Prop :=
  g.hasOutput v ∧
    match t.node i with
    | .any p => p g v
    | .kinds kinds inputs p => p g v ∧ ∃ w, g.view? v.node = some w ∧ w.op.kind ∈ kinds ∧
        (inputs ≠ [] → List.Forall₂ (fun j u => b.get? j.val = some u) inputs w.inputs)
    | .either alternatives =>
        ∃ j, (alternatives.find? fun j => t.accepts g j.val (Nat.lt_trans j.isLt i.isLt) v) = some j ∧
          b.get? j.val = some v

theorem Explains.mono {b b' : Bindings} (h : b'.Extends b) {i : Fin t.size} {v : Output}
    (hi : t.Explains g b i v) : t.Explains g b' i v := by
  obtain ⟨hv, hi⟩ := hi
  refine ⟨hv, ?_⟩
  cases hn : t.node i with
  | any p =>
    rw [hn] at hi
    exact hi
  | kinds kinds inputs p =>
    rw [hn] at hi
    obtain ⟨hp, w, hw, hkind, hin⟩ := hi
    exact ⟨hp, w, hw, hkind, fun hne => (hin hne).imp fun _ u => h _ u⟩
  | either alternatives =>
    rw [hn] at hi
    obtain ⟨j, hj, hb⟩ := hi
    exact ⟨j, hj, h _ _ hb⟩

/-- A pattern node and nodes below it have been bound, and all that is new is explained. -/
structure Grows (g : Graph) (t : PatternTable) (i : Nat) (v : Output) (b b' : Bindings) :
    Prop where
  extends_old : b'.Extends b
  bound : b'.get? i = some v
  above : ∀ k, i < k → b'.get? k = b.get? k
  explained : ∀ k (hk : k < t.size) u, b.get? k = none → b'.get? k = some u →
    t.Explains g b' ⟨k, hk⟩ u

/-- The inputs of a value are matched one after the other. -/
theorem grows_foldlM {i : Nat} (hi : i < t.size)
    (ih : ∀ (j : Fin i) u b b', t.extend g j.val (Nat.lt_trans j.isLt hi) u b = some b' →
      t.Grows g j.val u b b') {l : List (Fin i × Output)} {b b' : Bindings}
    (h : l.foldlM (fun b (j, u) => t.extend g j.val (Nat.lt_trans j.isLt hi) u b) b = some b') :
    b'.Extends b ∧ (∀ e ∈ l, b'.get? e.1.val = some e.2) ∧
      (∀ k, i ≤ k → b'.get? k = b.get? k) ∧
      ∀ k (hk : k < t.size) u, b.get? k = none → b'.get? k = some u →
        t.Explains g b' ⟨k, hk⟩ u := by
  induction l generalizing b with
  | nil =>
    obtain rfl := Option.some.inj h
    refine ⟨Bindings.Extends.refl b, by simp, fun _ _ => rfl, fun k hk u hnone hsome => ?_⟩
    rw [hnone] at hsome
    cases hsome
  | cons e l ihl =>
    rw [List.foldlM_cons] at h
    obtain ⟨b₁, h₁, h⟩ := Option.bind_eq_some_iff.1 h
    have hgrow := ih e.1 e.2 b b₁ h₁
    obtain ⟨hext, hall, habove, hexpl⟩ := ihl h
    refine ⟨hgrow.extends_old.trans hext, ?_, fun k hk => ?_, fun k hk u hnone hsome => ?_⟩
    · intro e' he'
      rcases List.mem_cons.1 he' with rfl | he'
      · exact hext _ _ hgrow.bound
      · exact hall e' he'
    · rw [habove k hk, hgrow.above k (Nat.lt_of_lt_of_le e.1.isLt hk)]
    · cases hmid : b₁.get? k with
      | none => exact hexpl k hk u hmid hsome
      | some u' =>
        obtain rfl := Option.some.inj ((hext k u' hmid).symm.trans hsome)
        exact (hgrow.explained k hk u' hnone hmid).mono hext

/-- A node that is bound now grows the bindings if it is explained in the end. -/
theorem grows_of_bind {i : Nat} {v : Output} {b b' : Bindings} (hb : b.get? i = none)
    (hext : b'.Extends (b.bind i v)) (habove : ∀ k, i ≤ k → b'.get? k = (b.bind i v).get? k)
    (hself : ∀ hi : i < t.size, t.Explains g b' ⟨i, hi⟩ v)
    (hexpl : ∀ k (hk : k < t.size) u, (b.bind i v).get? k = none → b'.get? k = some u →
      t.Explains g b' ⟨k, hk⟩ u) : t.Grows g i v b b' := by
  have hbound : b'.get? i = some v := hext i v (by rw [Bindings.get?_bind, if_pos rfl])
  refine
    { extends_old := (Bindings.extends_record hb v).trans hext
      bound := hbound
      above := fun k hk => ?_
      explained := fun k hk u hnone hsome => ?_ }
  · rw [habove k (Nat.le_of_lt hk), Bindings.get?_bind, if_neg (Nat.ne_of_gt hk)]
  · by_cases hki : k = i
    · subst hki
      obtain rfl := Option.some.inj (hbound.symm.trans hsome)
      exact hself hk
    · refine hexpl k hk u ?_ hsome
      rw [Bindings.get?_bind, if_neg hki]
      exact hnone

/-- A node without anything below it that is to be matched. -/
theorem grows_bind {i : Nat} {v : Output} {b : Bindings} (hb : b.get? i = none)
    (hself : ∀ hi : i < t.size, t.Explains g (b.bind i v) ⟨i, hi⟩ v) :
    t.Grows g i v b (b.bind i v) := by
  refine grows_of_bind hb (Bindings.Extends.refl _) (fun _ _ => rfl) hself ?_
  intro k hk u hnone hsome
  rw [hnone] at hsome
  cases hsome

/-- **Every step of the search explains what it binds.** -/
theorem grows_of_extend {i : Nat} {hi : i < t.size} {v : Output} {b b' : Bindings}
    (h : t.extend g i hi v b = some b') : t.Grows g i v b b' := by
  induction i using Nat.strongRecOn generalizing v b b' with
  | _ i ih =>
  rw [extend] at h
  split at h
  next bound hb =>
    obtain ⟨rfl, hsame⟩ := Option.ite_none_right_eq_some.1 h
    obtain rfl := Option.some.inj hsame
    refine ⟨Bindings.Extends.refl b, hb, fun _ _ => rfl, fun k hk u hnone hsome => ?_⟩
    rw [hnone] at hsome
    cases hsome
  next hb =>
  obtain ⟨hout, h⟩ := Option.ite_none_left_eq_some.1 h
  have hout : g.hasOutput v := by simpa using hout
  split at h
  next p hn =>
    obtain ⟨hp, h⟩ := Option.ite_none_right_eq_some.1 h
    obtain rfl := Option.some.inj h
    refine grows_bind hb fun hi => ⟨hout, ?_⟩
    rw [hn]
    exact hp
  next kinds inputs p hn =>
    obtain ⟨hacc, h⟩ := Option.ite_none_left_eq_some.1 h
    have hacc : t.accepts g i hi v = true := by simpa using hacc
    rw [accepts, hn, Bool.and_eq_true] at hacc
    obtain ⟨hkind, hp⟩ := hacc
    obtain ⟨op, hop, hkind⟩ := (Option.any_eq_true ..).1 hkind
    obtain ⟨w, hw, rfl⟩ := Graph.exists_view_of_op? hop
    rcases ite_eq_iff.1 h with ⟨hempty, h⟩ | ⟨-, h⟩
    · obtain rfl := Option.some.inj h
      refine grows_bind hb fun hi => ⟨hout, ?_⟩
      rw [hn]
      exact ⟨hp, w, hw, of_decide_eq_true hkind, fun hne => absurd (List.isEmpty_iff.1 hempty) hne⟩
    · obtain ⟨n, hnode, h⟩ := Option.bind_eq_some_iff.1 h
      obtain ⟨hlen, h⟩ := Option.ite_none_left_eq_some.1 h
      have hlen : n.inputs.length = inputs.length := not_not.1 hlen
      obtain ⟨hext, hall, habove, hexpl⟩ :=
        grows_foldlM hi (fun j u b b' hj => ih j.val j.isLt hj) h
      refine grows_of_bind hb hext habove (fun hi => ⟨hout, ?_⟩) hexpl
      rw [hn]
      refine ⟨hp, w, hw, of_decide_eq_true hkind, fun _ => ?_⟩
      obtain ⟨m, hm, rfl⟩ := Graph.view?_eq_some.1 hw
      obtain rfl := Option.some.inj (hm.symm.trans hnode)
      exact List.forall₂_iff_zip.2 ⟨hlen.symm, fun hmem => hall _ hmem⟩
  next alternatives hn =>
    obtain ⟨j, hj, h⟩ := Option.bind_eq_some_iff.1 h
    obtain ⟨b₁, h₁, h⟩ := Option.bind_eq_some_iff.1 h
    obtain rfl := Option.some.inj h
    have hgrow := ih j.val j.isLt h₁
    have hfree : b₁.get? i = none := (hgrow.above i j.isLt).trans hb
    have hext := Bindings.extends_record hfree v
    refine
      { extends_old := hgrow.extends_old.trans hext
        bound := by rw [Bindings.get?_record, if_pos rfl]
        above := fun k hk => ?_
        explained := fun k hk u hnone hsome => ?_ }
    · rw [Bindings.get?_record, if_neg (Nat.ne_of_gt hk), hgrow.above k (Nat.lt_trans j.isLt hk)]
    · rw [Bindings.get?_record] at hsome
      split at hsome
      next hki =>
        subst hki
        obtain rfl := Option.some.inj hsome
        refine ⟨hout, ?_⟩
        rw [hn]
        exact ⟨j, hj, hext _ _ hgrow.bound⟩
      next => exact (hgrow.explained k hk u hnone hsome).mono hext

end PatternTable

/-! ### What has been visited -/

/-- The nodes of the bound values have been visited, and no others. -/
def Bindings.Visits (b : Bindings) : Prop :=
  ∀ id, id ∈ b.visited ↔ ∃ i v, b.get? i = some v ∧ v.node = id

theorem Bindings.Visits.record {b : Bindings} (h : b.Visits) {i : Nat} (hi : b.get? i = none)
    {v : Output} (hv : v.node ∈ b.visited) : (b.record i v).Visits := by
  intro id
  show id ∈ b.visited ↔ _
  rw [h id]
  constructor
  · rintro ⟨k, u, hu, rfl⟩
    exact ⟨k, u, extends_record hi v k u hu, rfl⟩
  · rintro ⟨k, u, hu, rfl⟩
    rw [get?_record] at hu
    split at hu
    · exact Option.some.inj hu ▸ (h v.node).1 hv
    · exact ⟨k, u, hu, rfl⟩

theorem Bindings.Visits.bind {b : Bindings} (h : b.Visits) {i : Nat} (hi : b.get? i = none)
    (v : Output) : (b.bind i v).Visits := by
  have hvisited : ∀ id, id ∈ (b.bind i v).visited ↔ id ∈ b.visited ∨ v.node = id := by
    intro id
    show id ∈ (if v.node ∈ b.visited then b.visited else b.visited ++ [v.node]) ↔ _
    split
    next hv => exact ⟨Or.inl, fun hid => hid.elim (·) fun heq => heq ▸ hv⟩
    next => rw [List.mem_append, List.mem_singleton, eq_comm]
  intro id
  rw [hvisited, h id]
  constructor
  · rintro (⟨k, u, hu, rfl⟩ | rfl)
    · exact ⟨k, u, extends_record hi v k u hu, rfl⟩
    · exact ⟨i, v, by rw [get?_bind, if_pos rfl], rfl⟩
  · rintro ⟨k, u, hu, rfl⟩
    rw [get?_bind] at hu
    split at hu
    · exact Or.inr (congrArg Output.node (Option.some.inj hu))
    · exact Or.inl ⟨k, u, hu, rfl⟩

namespace PatternTable

variable {g : Graph} {t : PatternTable}

theorem keeps_foldlM {P : Bindings → Prop} {α : Type} {f : Bindings → α → Option Bindings}
    (hf : ∀ {a b b'}, f b a = some b' → P b → P b') {l : List α} {b b' : Bindings}
    (h : l.foldlM f b = some b') (hb : P b) : P b' := by
  induction l generalizing b with
  | nil => exact Option.some.inj h ▸ hb
  | cons a l ih =>
    rw [List.foldlM_cons] at h
    obtain ⟨b₁, h₁, h⟩ := Option.bind_eq_some_iff.1 h
    exact ih h (hf h₁ hb)

/-- What survives that a free node is bound survives the search.  A node is recorded without a visit only
where another node is bound to the same value. -/
theorem keeps_of_extend {P : Bindings → Prop}
    (hbind : ∀ {b i v}, P b → b.get? i = none → P (b.bind i v))
    (hrecord : ∀ {b i j v}, P b → b.get? i = none → b.get? j = some v → P (b.record i v))
    {i : Nat} {hi : i < t.size} {v : Output} {b b' : Bindings}
    (h : t.extend g i hi v b = some b') (hb : P b) : P b' := by
  induction i using Nat.strongRecOn generalizing v b b' with
  | _ i ih =>
  rw [extend] at h
  split at h
  next =>
    obtain ⟨-, hsame⟩ := Option.ite_none_right_eq_some.1 h
    exact Option.some.inj hsame ▸ hb
  next hfree =>
  obtain ⟨-, h⟩ := Option.ite_none_left_eq_some.1 h
  split at h
  next =>
    obtain ⟨-, h⟩ := Option.ite_none_right_eq_some.1 h
    exact Option.some.inj h ▸ hbind hb hfree
  next inputs _ _ =>
    obtain ⟨-, h⟩ := Option.ite_none_left_eq_some.1 h
    rcases ite_eq_iff.1 h with ⟨-, h⟩ | ⟨-, h⟩
    · exact Option.some.inj h ▸ hbind hb hfree
    · obtain ⟨n, -, h⟩ := Option.bind_eq_some_iff.1 h
      obtain ⟨-, h⟩ := Option.ite_none_left_eq_some.1 h
      exact keeps_foldlM (P := P) (fun {e _ _} he => ih e.1.val e.1.isLt he) h (hbind hb hfree)
  next alternatives _ =>
    obtain ⟨j, -, h⟩ := Option.bind_eq_some_iff.1 h
    obtain ⟨b₁, h₁, h⟩ := Option.bind_eq_some_iff.1 h
    obtain rfl := Option.some.inj h
    have hgrow := grows_of_extend h₁
    exact hrecord (ih j.val j.isLt h₁ hb) ((hgrow.above i j.isLt).trans hfree) hgrow.bound

theorem visits_of_extend {i : Nat} {hi : i < t.size} {v : Output} {b b' : Bindings}
    (h : t.extend g i hi v b = some b') (hb : b.Visits) : b'.Visits :=
  keeps_of_extend (fun hb hi => hb.bind hi _)
    (fun hb hi hj => hb.record hi ((hb _).2 ⟨_, _, hj, rfl⟩)) h hb

end PatternTable

namespace Pattern

variable {g : Graph} {p : Pattern} {m : Match}

/-- **The root of a match stands for the value, and every binding is explained.** -/
theorem explains_of_matchValue? {v : Output} (h : p.matchValue? g v = some m) :
    m.root = v ∧ m.get? p.root = some v ∧
      ∀ k (hk : k < p.table.size) u, m.get? k = some u → p.table.Explains g m.bindings ⟨k, hk⟩ u := by
  obtain ⟨b, hb, rfl⟩ := Option.map_eq_some_iff.1 h
  have hgrow := PatternTable.grows_of_extend hb
  exact ⟨rfl, hgrow.bound, fun k hk u hu => hgrow.explained k hk u rfl hu⟩

theorem explains_of_matchNode? {id : NodeId} (h : p.matchNode? g id = some m) :
    m.get? p.root = some m.root ∧
      ∀ k (hk : k < p.table.size) u, m.get? k = some u → p.table.Explains g m.bindings ⟨k, hk⟩ u := by
  obtain ⟨n, -, h⟩ := Option.bind_eq_some_iff.1 h
  obtain ⟨v, -, h⟩ := List.exists_of_findSome?_eq_some h
  obtain ⟨rfl, hroot, hall⟩ := explains_of_matchValue? h
  exact ⟨hroot, hall⟩

/-- A match at a node stands for one of its outputs. -/
theorem root_of_matchNode? {id : NodeId} (h : p.matchNode? g id = some m) :
    g.hasOutput m.root ∧ ∃ n, g.node? id = some n ∧ m.root.node = n.id := by
  obtain ⟨hroot, hall⟩ := explains_of_matchNode? h
  obtain ⟨hout, -⟩ := hall p.root p.root.isLt m.root hroot
  obtain ⟨n, hn, h⟩ := Option.bind_eq_some_iff.1 h
  obtain ⟨v, hv, h⟩ := List.exists_of_findSome?_eq_some h
  obtain ⟨rfl, -⟩ := explains_of_matchValue? h
  obtain ⟨k, -, hv⟩ := List.mem_map.1 hv
  exact ⟨hout, n, hn, congrArg Output.node hv.symm⟩

theorem mem_visited_of_matchValue? {v : Output} (h : p.matchValue? g v = some m) {id : NodeId} :
    id ∈ m.visited ↔ ∃ i u, m.get? i = some u ∧ u.node = id := by
  obtain ⟨b, hb, rfl⟩ := Option.map_eq_some_iff.1 h
  have hstart : ({} : Bindings).Visits := fun id => by simp [Bindings.get?]
  exact PatternTable.visits_of_extend hb hstart id

theorem mem_visited_iff {id : NodeId} (h : p.matchNode? g id = some m) {j : NodeId} :
    j ∈ m.visited ↔ ∃ i v, m.get? i = some v ∧ v.node = j := by
  obtain ⟨n, -, h⟩ := Option.bind_eq_some_iff.1 h
  obtain ⟨v, -, h⟩ := List.exists_of_findSome?_eq_some h
  exact mem_visited_of_matchValue? h

theorem root_mem_visited {id : NodeId} (h : p.matchNode? g id = some m) :
    m.root.node ∈ m.visited := by
  obtain ⟨hroot, -⟩ := explains_of_matchNode? h
  exact (mem_visited_iff h).2 ⟨_, _, hroot, rfl⟩

theorem view?_of_match_ofKind {kind : Kind} {id : NodeId}
    (h : (ofKind kind).matchNode? g id = some m) :
    ∃ w, g.view? m.root.node = some w ∧ w.op.kind = kind := by
  obtain ⟨hroot, hall⟩ := explains_of_matchNode? h
  obtain ⟨-, -, w, hw, hkind, -⟩ := hall 0 Nat.one_pos m.root hroot
  exact ⟨w, hw, List.mem_singleton.1 hkind⟩

theorem view?_of_match_unary {kind : Kind} {id : NodeId}
    (h : (unary kind).matchNode? g id = some m) :
    ∃ x w, m.get? 0 = some x ∧ g.view? m.root.node = some w ∧ w.op.kind = kind ∧
      w.inputs = [x] := by
  obtain ⟨hroot, hall⟩ := explains_of_matchNode? h
  obtain ⟨-, -, w, hw, hkind, hin⟩ := hall 1 Nat.one_lt_two m.root hroot
  obtain ⟨x, u, hx, hnil, hinputs⟩ := List.forall₂_cons_left_iff.1 (hin (by simp))
  obtain rfl := List.forall₂_nil_left_iff.1 hnil
  exact ⟨x, w, hx, hw, List.mem_singleton.1 hkind, hinputs⟩

end Pattern

end OpGraph
