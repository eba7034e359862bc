import Mathlib.Tactic.Tauto
import OpGraph.Graph.Release

/-!
# Both sides of the edges

A graph is read through two views.  `Graph.view?` is what a node computes: its operation, the values
it reads and the descriptions of its outputs.  `Graph.targets?` lists the inputs that read a value.
Every change of a graph is made of `addTarget`, `dropTarget`, `modifyNode`, `insert` and `detach`, and
this file says what each of them does to the two views: `view?_rewire`, `targets?_rewire`,
`view?_insert`, `targets?_insert`, `view?_detach`, `targets?_detach`.
-/

namespace OpGraph

/-- What a node computes: the node without its readers, its name and its metadata. -/
structure Node.View where
  op : Op
  inputs : List Output
  descs : List Desc

/-- What the node computes. -/
def Node.view (n : Node) : Node.View := ⟨n.op, n.inputs, n.descs⟩

theorem Node.length_descs (n : Node) : n.view.descs.length = n.outputs.length := List.length_map _

theorem Op.constant_declares_nothing (t : Tensor) :
    (constant t).kind ≠ .parameter ∧ (constant t).kind ≠ .result :=
  show Kind.constant ≠ .parameter ∧ Kind.constant ≠ .result by decide

theorem Op.binary_declares_nothing (op : BinaryOp) (rule : Broadcast) :
    (binary op rule).kind ≠ .parameter ∧ (binary op rule).kind ≠ .result := by
  show op.kind ≠ .parameter ∧ op.kind ≠ .result
  cases op <;> decide

namespace Graph

/-- What a live node computes. -/
def view? (g : Graph) (id : NodeId) : Option Node.View := (g.node? id).map Node.view

/-- The value that an input reads, if there is such an input. -/
def source? (g : Graph) (i : Input) : Option Output :=
  (g.node? i.node).bind (·.inputs[i.index]?)

/-- The inputs listed as readers of a value, if there is such a value. -/
def targets? (g : Graph) (v : Output) : Option (List Input) :=
  (g.node? v.node).bind fun n => n.outputs[v.index]?.map (·.targets)

/-- The kind of a live node. -/
def kind? (g : Graph) (id : NodeId) : Option Kind := (g.node? id).map (·.kind)

/-- The description of a value, if there is such a value. -/
def desc? (g : Graph) (v : Output) : Option Desc :=
  (g.view? v.node).bind (·.descs[v.index]?)

theorem source?_eq_view (g : Graph) (i : Input) :
    g.source? i = (g.view? i.node).bind (·.inputs[i.index]?) := by
  rw [source?, view?]
  cases g.node? i.node <;> rfl

theorem kind?_eq_view (g : Graph) (id : NodeId) :
    g.kind? id = (g.view? id).map (·.op.kind) := by
  rw [kind?, view?]
  cases g.node? id <;> rfl

theorem op?_eq_view (g : Graph) (id : NodeId) : g.op? id = (g.view? id).map (·.op) := by
  rw [op?, view?]
  cases g.node? id <;> rfl

theorem source?_of_view? {g : Graph} {i : Input} {w : Node.View} (h : g.view? i.node = some w) :
    g.source? i = w.inputs[i.index]? := by
  rw [source?_eq_view, h, Option.bind_some]

theorem desc?_of_view? {g : Graph} {v : Output} {w : Node.View} (h : g.view? v.node = some w) :
    g.desc? v = w.descs[v.index]? := by
  rw [desc?, h, Option.bind_some]

theorem op?_of_view? {g : Graph} {id : NodeId} {w : Node.View} (h : g.view? id = some w) :
    g.op? id = some w.op := by
  rw [op?_eq_view, h, Option.map_some]

theorem exists_view_of_op? {g : Graph} {id : NodeId} {op : Op} (h : g.op? id = some op) :
    ∃ w, g.view? id = some w ∧ w.op = op := by
  rw [op?_eq_view] at h
  exact Option.map_eq_some_iff.1 h

theorem op_eq_of_view? {g : Graph} {id : NodeId} {w : Node.View} {op : Op}
    (h : g.view? id = some w) (hop : g.op? id = some op) : w.op = op :=
  Option.some.inj ((op?_of_view? h).symm.trans hop)

theorem view?_eq_some {g : Graph} {id : NodeId} {w : Node.View} :
    g.view? id = some w ↔ ∃ n, g.node? id = some n ∧ n.view = w := by
  rw [view?]
  rw [Option.map_eq_some_iff]

theorem contains_eq_view (g : Graph) (id : NodeId) : g.contains id = (g.view? id).isSome := by
  rw [contains, view?]
  rw [Option.isSome_map]

/-! ### Queries -/

theorem node_eq_ok {g : Graph} {id : NodeId} {n : Node} :
    g.node id = .ok n ↔ g.node? id = some n := by
  rw [node]
  cases g.node? id <;> simp

theorem slot_eq_ok {g : Graph} {v : Output} {s : Slot} :
    g.slot v = .ok s ↔ ∃ n, g.node? v.node = some n ∧ n.outputs[v.index]? = some s := by
  rw [slot, node]
  cases hn : g.node? v.node with
  | none => simp [bind, Except.bind]
  | some n =>
    simp only [bind, Except.bind, Node.slot, Option.some.injEq, exists_eq_left']
    cases n.outputs[v.index]? <;> simp

theorem desc_eq_ok {g : Graph} {v : Output} {d : Desc} :
    g.desc v = .ok d ↔
      ∃ n s, g.node? v.node = some n ∧ n.outputs[v.index]? = some s ∧ s.desc = d := by
  rw [desc]
  cases h : g.slot v with
  | error e =>
    refine ⟨fun h' => by simp [bind, Except.bind] at h', ?_⟩
    intro hx
    rcases hx with ⟨n, s, hn, hs, -⟩
    rw [slot_eq_ok.2 ⟨n, hn, hs⟩] at h
    cases h
  | ok s =>
    obtain ⟨n, hn, hs⟩ := slot_eq_ok.1 h
    simp [bind, Except.bind, pure, Except.pure, hn, hs]

theorem desc_eq_ok_iff_desc? {g : Graph} {v : Output} {d : Desc} :
    g.desc v = .ok d ↔ g.desc? v = some d := by
  rw [desc_eq_ok, desc?, Option.bind_eq_some_iff]
  constructor
  · intro h
    rcases h with ⟨n, s, hn, hs, rfl⟩
    exact ⟨n.view, view?_eq_some.2 ⟨n, hn, rfl⟩, by simp [Node.view, Node.descs, hs]⟩
  · intro h
    rcases h with ⟨w, hw, hd⟩
    obtain ⟨n, hn, rfl⟩ := view?_eq_some.1 hw
    rw [Node.view, Node.descs, List.getElem?_map, Option.map_eq_some_iff] at hd
    obtain ⟨s, hs, rfl⟩ := hd
    exact ⟨n, s, hn, hs, rfl⟩

theorem exists_desc?_of_hasOutput {g : Graph} {v : Output} (h : g.hasOutput v) :
    ∃ d, g.desc? v = some d := by
  obtain ⟨n, hn, hlt⟩ := (Option.any_eq_true ..).1 h
  have hlt : v.index < n.descs.length := by
    rw [Node.descs, List.length_map]
    exact of_decide_eq_true hlt
  exact ⟨n.descs[v.index], (desc?_of_view? (view?_eq_some.2 ⟨n, hn, rfl⟩)).trans
    (List.getElem?_eq_getElem hlt)⟩

theorem hasOutput_of_desc? {g : Graph} {v : Output} {d : Desc} (h : g.desc? v = some d) :
    g.hasOutput v := by
  obtain ⟨w, hw, hd⟩ := Option.bind_eq_some_iff.1 h
  obtain ⟨n, hn, rfl⟩ := view?_eq_some.1 hw
  obtain ⟨hlt, -⟩ := List.getElem?_eq_some_iff.1 hd
  rw [Node.length_descs] at hlt
  rw [hasOutput, hn]
  exact decide_eq_true hlt

theorem targets_eq_ok {g : Graph} {v : Output} {ts : List Input} :
    g.targets v = .ok ts ↔ g.targets? v = some ts := by
  rw [targets, targets?]
  cases h : g.slot v with
  | error e =>
    refine ⟨fun h' => by simp [bind, Except.bind] at h', fun h' => ?_⟩
    obtain ⟨n, hn, h'⟩ := Option.bind_eq_some_iff.1 h'
    obtain ⟨s, hs, -⟩ := Option.map_eq_some_iff.1 h'
    rw [slot_eq_ok.2 ⟨n, hn, hs⟩] at h
    cases h
  | ok s =>
    obtain ⟨n, hn, hs⟩ := slot_eq_ok.1 h
    simp [bind, Except.bind, pure, Except.pure, hn, hs]

theorem source_eq_ok {g : Graph} {i : Input} {v : Output} :
    g.source i = .ok v ↔ g.source? i = some v := by
  rw [source, source?, node]
  cases hn : g.node? i.node with
  | none => simp [bind, Except.bind]
  | some n =>
    simp only [bind, Except.bind, Node.source, Option.bind_some]
    cases n.inputs[i.index]? <;> simp

theorem contains_iff {g : Graph} {id : NodeId} : g.contains id ↔ ∃ n, g.node? id = some n := by
  rw [contains, Option.isSome_iff_exists]

theorem contains_of_kind? {g : Graph} {id : NodeId} {k : Kind} (h : g.kind? id = some k) :
    g.contains id := by
  obtain ⟨n, hn, -⟩ := Option.map_eq_some_iff.1 h
  exact contains_iff.2 ⟨n, hn⟩

theorem lt_size_of_node? {g : Graph} {id : NodeId} {n : Node} (h : g.node? id = some n) :
    id < g.nodes.size := by
  rcases Nat.lt_or_ge id g.nodes.size with hlt | hge
  · exact hlt
  · rw [node?, Array.getElem?_eq_none hge] at h
    cases h

/-! ### Handles of live nodes -/

theorem contains_iff_view {g : Graph} {id : NodeId} :
    g.contains id ↔ ∃ w, g.view? id = some w := by
  rw [contains_eq_view, Option.isSome_iff_exists]

theorem contains_of_view? {g : Graph} {id : NodeId} {w : Node.View} (h : g.view? id = some w) :
    g.contains id :=
  contains_iff_view.2 ⟨w, h⟩

theorem contains_of_source? {g : Graph} {i : Input} {v : Output} (h : g.source? i = some v) :
    g.contains i.node := by
  obtain ⟨n, hn, -⟩ := Option.bind_eq_some_iff.1 h
  exact contains_iff.2 ⟨n, hn⟩

theorem contains_of_targets? {g : Graph} {v : Output} {ts : List Input}
    (h : g.targets? v = some ts) : g.contains v.node := by
  obtain ⟨n, hn, -⟩ := Option.bind_eq_some_iff.1 h
  exact contains_iff.2 ⟨n, hn⟩

theorem contains_of_desc? {g : Graph} {v : Output} {d : Desc} (h : g.desc? v = some d) :
    g.contains v.node := by
  obtain ⟨w, hw, -⟩ := Option.bind_eq_some_iff.1 h
  exact contains_of_view? hw

theorem lt_size_of_contains {g : Graph} {id : NodeId} (h : g.contains id) : id < g.nodes.size := by
  obtain ⟨n, hn⟩ := contains_iff.1 h
  exact lt_size_of_node? hn

theorem lt_size_of_view? {g : Graph} {id : NodeId} {w : Node.View} (h : g.view? id = some w) :
    id < g.nodes.size :=
  lt_size_of_contains (contains_of_view? h)

theorem node?_size (g : Graph) : g.node? g.nodes.size = none := by
  simp [node?]

/-! ### Changes of one node -/

theorem view?_modifyNode (g : Graph) (id j : NodeId) (f : Node → Node) :
    (g.modifyNode id f).view? j =
      if id = j then (g.node? j).map fun n => (f n).view else g.view? j := by
  rw [view?]
  rw [node?_modifyNode]
  split
  · rw [Option.map_map]
    rfl
  · rfl

/-- A change of one node that leaves alone what it computes. -/
theorem view?_modifyNode_eq {g : Graph} {id : NodeId} {f : Node → Node}
    (h : ∀ n, g.node? id = some n → (f n).view = n.view) (j : NodeId) :
    (g.modifyNode id f).view? j = g.view? j := by
  rw [view?_modifyNode]
  split
  next hj =>
    subst hj
    rw [view?]
    cases hn : g.node? id with
    | none => rfl
    | some n => simp [h n hn]
  next => rfl

/-- A node with another name or other metadata computes the same. -/
theorem view?_relabel {g : Graph} {id : NodeId} {f : Node → Node}
    (hf : ∀ n, (f n).id = n.id ∧ (f n).op = n.op ∧ (f n).inputs = n.inputs ∧
      (f n).outputs = n.outputs) (j : NodeId) :
    (g.modifyNode id f).view? j = g.view? j := by
  refine view?_modifyNode_eq (fun n _ => ?_) j
  obtain ⟨-, hop, hin, hout⟩ := hf n
  rw [Node.view, Node.view, Node.descs, Node.descs, hop, hin, hout]

/-- A change of one node that leaves its target lists alone. -/
theorem targets?_modifyNode_eq {g : Graph} {id : NodeId} {f : Node → Node}
    (h : ∀ n, g.node? id = some n →
      (f n).outputs.map (·.targets) = n.outputs.map (·.targets)) (v : Output) :
    (g.modifyNode id f).targets? v = g.targets? v := by
  unfold targets?
  rw [node?_modifyNode]
  split
  next hv =>
    subst hv
    cases hn : g.node? v.node with
    | none => rfl
    | some n => simp only [Option.map_some, Option.bind_some, ← List.getElem?_map, h n hn]
  next => rfl

/-! ### Changes of a target list -/

/-- The readers of an output are no part of its description. -/
theorem map_desc_modify (outputs : List Slot) (k : Nat) (f : List Input → List Input) :
    (outputs.modify k fun s => { s with targets := f s.targets }).map (·.desc) =
      outputs.map (·.desc) := by
  apply List.ext_getElem?
  intro j
  simp only [List.getElem?_map, List.getElem?_modify]
  by_cases hj : k = j <;> cases outputs[j]? <;> simp [hj]

theorem view?_modifySlot_targets (g : Graph) (v : Output) (f : List Input → List Input)
    (id : NodeId) :
    (g.modifySlot v fun s => { s with targets := f s.targets }).view? id = g.view? id := by
  apply view?_modifyNode_eq
  intro n _
  simp [Node.view, Node.descs, map_desc_modify]

theorem targets?_modifySlot (g : Graph) (v : Output) (f : List Input → List Input) (w : Output) :
    (g.modifySlot v fun s => { s with targets := f s.targets }).targets? w =
      if w = v then (g.targets? w).map f else g.targets? w := by
  unfold targets? modifySlot
  rw [node?_modifyNode]
  by_cases hn : v.node = w.node
  · rw [if_pos hn]
    cases g.node? w.node with
    | none => simp
    | some n =>
      simp only [Option.map_some, Option.bind_some, List.getElem?_modify]
      by_cases hi : v.index = w.index
      · have hv : w = v := by cases w; cases v; simp_all
        rw [if_pos hv]
        cases n.outputs[w.index]? <;> simp [hi]
      · have hv : ¬ w = v := by rintro rfl; exact hi rfl
        rw [if_neg hv]
        cases n.outputs[w.index]? <;> simp [hi]
  · have hv : ¬ w = v := by rintro rfl; exact hn rfl
    rw [if_neg hn, if_neg hv]

@[simp] theorem view?_addTarget (g : Graph) (v : Output) (i : Input) (id : NodeId) :
    (g.addTarget v i).view? id = g.view? id :=
  view?_modifySlot_targets g v (· ++ [i]) id

@[simp] theorem view?_dropTarget (g : Graph) (v : Output) (i : Input) (id : NodeId) :
    (g.dropTarget v i).view? id = g.view? id :=
  view?_modifySlot_targets g v (·.filter (· ≠ i)) id

theorem targets?_addTarget (g : Graph) (v : Output) (i : Input) (w : Output) :
    (g.addTarget v i).targets? w =
      if w = v then (g.targets? w).map (· ++ [i]) else g.targets? w :=
  targets?_modifySlot g v (· ++ [i]) w

theorem targets?_dropTarget (g : Graph) (v : Output) (i : Input) (w : Output) :
    (g.dropTarget v i).targets? w =
      if w = v then (g.targets? w).map (·.filter (· ≠ i)) else g.targets? w :=
  targets?_modifySlot g v (·.filter (· ≠ i)) w

/-! ### Moving an input -/

theorem view?_rewire (g : Graph) (i : Input) (old new : Output) (id : NodeId) :
    (g.rewire i old new).view? id =
      if i.node = id then
        (g.view? id).map fun w => { w with inputs := w.inputs.set i.index new }
      else g.view? id := by
  rw [rewire]
  rw [view?_addTarget, view?_modifyNode]
  split
  · rw [← view?_dropTarget g old i id, view?, Option.map_map]
    rfl
  · rw [view?_dropTarget]

/-- What a node was before an input moved. -/
theorem view?_of_view?_rewire {g : Graph} {i : Input} {old new : Output} {id : NodeId}
    {w : Node.View} (hw : (g.rewire i old new).view? id = some w) :
    g.view? id = some w ∨ ∃ w', id = i.node ∧ g.view? i.node = some w' ∧
      w = { w' with inputs := w'.inputs.set i.index new } := by
  rw [view?_rewire] at hw
  split at hw
  next hid =>
    subst hid
    obtain ⟨w', hw', rfl⟩ := Option.map_eq_some_iff.1 hw
    exact Or.inr ⟨w', rfl, hw', rfl⟩
  next => exact Or.inl hw

theorem source?_rewire (g : Graph) (i : Input) (old new : Output) (j : Input) :
    (g.rewire i old new).source? j =
      if j = i then (g.source? j).map fun _ => new else g.source? j := by
  rw [source?_eq_view, source?_eq_view, view?_rewire]
  by_cases hn : i.node = j.node
  · rw [if_pos hn]
    cases g.view? j.node with
    | none => simp
    | some w =>
      simp only [Option.map_some, Option.bind_some, List.getElem?_set]
      by_cases hi : i.index = j.index
      · have hj : j = i := by cases i; cases j; simp_all
        rw [if_pos hi, if_pos hj, hi]
        split
        · rename_i hlt
          simp [List.getElem?_eq_getElem hlt]
        · rename_i hge
          simp [List.getElem?_eq_none (Nat.le_of_not_lt hge)]
      · have hj : ¬ j = i := by rintro rfl; exact hi rfl
        rw [if_neg hi, if_neg hj]
  · have hj : ¬ j = i := by rintro rfl; exact hn rfl
    rw [if_neg hn, if_neg hj]

theorem targets?_rewire (g : Graph) (i : Input) {old new : Output} (h : old ≠ new) (w : Output) :
    (g.rewire i old new).targets? w =
      if w = new then (g.targets? w).map (· ++ [i])
      else if w = old then (g.targets? w).map (·.filter (· ≠ i))
      else g.targets? w := by
  have hmod : ∀ u, ((g.dropTarget old i).modifyNode i.node fun n =>
      { n with inputs := n.inputs.set i.index new }).targets? u =
        (g.dropTarget old i).targets? u := by
    intro u
    apply targets?_modifyNode_eq
    intro n _
    rfl
  rw [rewire]
  rw [targets?_addTarget, hmod, targets?_dropTarget]
  by_cases hw : w = new
  · subst hw
    simp [Ne.symm h]
  · simp [hw]

/-! ### Adding a node -/

/-- The inputs of a node that read a value, in order. -/
def readersIn (id : NodeId) (inputs : List Output) (v : Output) : List Input :=
  (inputs.zipIdx.filter (·.1 = v)).map fun e => ⟨id, e.2⟩

theorem mem_readersIn {id : NodeId} {inputs : List Output} {v : Output} {i : Input} :
    i ∈ readersIn id inputs v ↔ i.node = id ∧ inputs[i.index]? = some v := by
  rw [readersIn]
  simp only [List.mem_map, List.mem_filter, decide_eq_true_eq, Prod.exists,
    List.mk_mem_zipIdx_iff_getElem?]
  constructor
  · intro h
    rcases h with ⟨w, k, ⟨hk, rfl⟩, rfl⟩
    exact ⟨rfl, hk⟩
  · intro h
    rcases h with ⟨rfl, hk⟩
    exact ⟨v, i.index, ⟨hk, rfl⟩, rfl⟩

theorem nodup_readersIn (id : NodeId) (inputs : List Output) (v : Output) :
    (readersIn id inputs v).Nodup := by
  rw [readersIn]
  have hk : (inputs.zipIdx.map (·.2)).Nodup := by
    rw [List.zipIdx_map_snd]
    exact List.nodup_range'
  have hp : (inputs.zipIdx.filter (·.1 = v)).Pairwise fun a b => a.2 ≠ b.2 :=
    (List.pairwise_map.1 hk).filter _
  rw [List.Nodup, List.pairwise_map]
  refine hp.imp fun hne he => hne ?_
  exact (Input.mk.inj he).2

/-- What no entry in a target list changes is not changed by several of them. -/
theorem foldl_addTarget_keeps {α : Type} {φ : Graph → α}
    (hφ : ∀ g v i, φ (g.addTarget v i) = φ g) (id : NodeId) (l : List (Output × Nat)) (g : Graph) :
    φ (l.foldl (fun g (v, i) => g.addTarget v ⟨id, i⟩) g) = φ g := by
  induction l generalizing g with
  | nil => rfl
  | cons e l ih => rw [List.foldl_cons, ih, hφ]

theorem targets?_foldl_addTarget (id : NodeId) (l : List (Output × Nat)) (g : Graph) (w : Output) :
    (l.foldl (fun g (v, i) => g.addTarget v ⟨id, i⟩) g).targets? w =
      (g.targets? w).map (· ++ (l.filter (·.1 = w)).map fun e => (⟨id, e.2⟩ : Input)) := by
  induction l generalizing g with
  | nil =>
    rw [List.foldl_nil]
    cases g.targets? w <;> simp
  | cons e l ih =>
    rw [List.foldl_cons, ih, targets?_addTarget]
    by_cases hw : w = e.1
    · subst hw
      cases g.targets? e.1 <;> simp
    · rw [if_neg hw, List.filter_cons_of_neg (by simpa using Ne.symm hw)]

theorem size_foldl_addTarget (id : NodeId) (l : List (Output × Nat)) (g : Graph) :
    (l.foldl (fun g (v, i) => g.addTarget v ⟨id, i⟩) g).nodes.size = g.nodes.size :=
  foldl_addTarget_keeps (φ := fun g => g.nodes.size) (fun _ _ _ => size_nodes_modifyNode ..) id l g

section Insert

variable (g : Graph) (op : Op) (inputs : List Output) (descs : List Desc)

@[simp] theorem size_insert : (g.insert op inputs descs).nodes.size = g.nodes.size + 1 := by
  rw [insert]
  simp [size_foldl_addTarget]

theorem node?_insert (j : NodeId) :
    (g.insert op inputs descs).node? j =
      if j = g.nodes.size then
        some ⟨j, op, inputs, descs.map (⟨·, []⟩), none, ∅⟩
      else
        (inputs.zipIdx.foldl (fun g' (v, i) => g'.addTarget v ⟨g.nodes.size, i⟩) g).node? j := by
  rw [insert, node?]
  simp only [Array.getElem?_push, size_foldl_addTarget]
  split
  · rename_i h
    subst h
    rfl
  · rfl

theorem view?_insert (j : NodeId) :
    (g.insert op inputs descs).view? j =
      if j = g.nodes.size then some ⟨op, inputs, descs⟩ else g.view? j := by
  rw [view?, node?_insert]
  split
  · have hd : (descs.map fun d => (⟨d, []⟩ : Slot)).map (·.desc) = descs := by
      simp [Function.comp_def]
    simp [Node.view, Node.descs, hd]
  · exact foldl_addTarget_keeps (φ := fun g => g.view? j) (fun _ _ _ => view?_addTarget ..) _ _ _

/-- The nodes that are there stay as they are. -/
theorem view?_insert_of_lt {j : NodeId} (h : j < g.nodes.size) :
    (g.insert op inputs descs).view? j = g.view? j := by
  rw [view?_insert, if_neg (Nat.ne_of_lt h)]

theorem view?_insert_of_view? {j : NodeId} {w : Node.View} (h : g.view? j = some w) :
    (g.insert op inputs descs).view? j = some w :=
  (view?_insert_of_lt g op inputs descs (lt_size_of_view? h)).trans h

/-- A node is the new one or was there before. -/
theorem view?_of_view?_insert {j : NodeId} {w : Node.View}
    (hw : (g.insert op inputs descs).view? j = some w) :
    j = g.nodes.size ∧ w = ⟨op, inputs, descs⟩ ∨ g.view? j = some w := by
  rw [view?_insert] at hw
  split at hw
  next hj => exact Or.inl ⟨hj, (Option.some.inj hw).symm⟩
  next => exact Or.inr hw

theorem desc?_insert_of_desc? {v : Output} {d : Desc} (h : g.desc? v = some d) :
    (g.insert op inputs descs).desc? v = some d := by
  obtain ⟨w, hw, hd⟩ := Option.bind_eq_some_iff.1 h
  exact (desc?_of_view? (view?_insert_of_view? g op inputs descs hw)).trans hd

theorem desc?_insert_size (k : Nat) :
    (g.insert op inputs descs).desc? ⟨g.nodes.size, k⟩ = descs[k]? := by
  rw [desc?, view?_insert, if_pos rfl]
  rfl

theorem source?_insert (i : Input) :
    (g.insert op inputs descs).source? i =
      if i.node = g.nodes.size then inputs[i.index]? else g.source? i := by
  rw [source?_eq_view, source?_eq_view, view?_insert]
  split <;> rfl

theorem targets?_insert (v : Output) :
    (g.insert op inputs descs).targets? v =
      if v.node = g.nodes.size then descs[v.index]?.map fun _ => []
      else (g.targets? v).map (· ++ readersIn g.nodes.size inputs v) := by
  rw [targets?, node?_insert]
  split
  · simp [Function.comp_def]
  · exact targets?_foldl_addTarget ..

variable {op}

theorem parameters_insert (h : op.kind ≠ .parameter) :
    (g.insert op inputs descs).parameters = g.parameters := by
  rw [insert]
  exact if_neg h

theorem results_insert (h : op.kind ≠ .result) :
    (g.insert op inputs descs).results = g.results := by
  rw [insert]
  exact if_neg h

end Insert

/-! ### Taking a node out -/

/-- What no entry struck from a target list changes is not changed by several of them. -/
theorem foldl_dropTarget_keeps {α : Type} {φ : Graph → α}
    (hφ : ∀ g v i, φ (g.dropTarget v i) = φ g) (id : NodeId) (l : List (Output × Nat))
    (g : Graph) : φ (l.foldl (fun g (v, i) => g.dropTarget v ⟨id, i⟩) g) = φ g := by
  induction l generalizing g with
  | nil => rfl
  | cons e l ih => rw [List.foldl_cons, ih, hφ]

theorem targets?_foldl_dropTarget (id : NodeId) (l : List (Output × Nat)) (g : Graph)
    (w : Output) :
    (l.foldl (fun g (v, i) => g.dropTarget v ⟨id, i⟩) g).targets? w =
      (g.targets? w).map (·.filter fun t => (w, t.index) ∉ l ∨ t.node ≠ id) := by
  induction l generalizing g with
  | nil =>
    rw [List.foldl_nil]
    cases g.targets? w with
    | none => rfl
    | some ts => exact congrArg some (List.filter_eq_self.2 (by simp)).symm
  | cons e l ih =>
    obtain ⟨v, k⟩ := e
    rw [List.foldl_cons, ih, targets?_dropTarget]
    cases g.targets? w with
    | none => simp
    | some ts =>
      by_cases hw : w = v
      · subst hw
        rw [if_pos rfl, Option.map_some, Option.map_some, List.filter_filter]
        refine congrArg some (List.filter_congr fun t _ => ?_)
        have ht : t = ⟨id, k⟩ ↔ t.node = id ∧ t.index = k := by cases t; simp
        simp only [List.mem_cons, Prod.mk.injEq, true_and, ne_eq, ht, ← Bool.decide_and,
          decide_eq_decide]
        tauto
      · simp only [if_neg hw, Option.map_some, Option.some.injEq]
        apply List.filter_congr
        intro t _
        simp [hw]

/-- The graph with the slot of a node emptied. -/
def vacate (g : Graph) (id : NodeId) : Graph :=
  { g with nodes := g.nodes.setIfInBounds id none, released := g.released + 1 }

theorem node?_vacate (g : Graph) (id j : NodeId) :
    (g.vacate id).node? j = if j = id then none else g.node? j := by
  unfold vacate node?
  rw [Array.getElem?_setIfInBounds]
  by_cases h : id = j
  · subst h
    by_cases hlt : id < g.nodes.size <;> simp [hlt]
  · simp [h, Ne.symm h]

theorem detach_of_gone {g : Graph} {id : NodeId} (h : g.node? id = none) : g.detach id = g := by
  rw [detach]
  rw [h]

theorem detach_eq {g : Graph} {id : NodeId} {n : Node} (h : g.node? id = some n) :
    g.detach id =
      n.inputs.zipIdx.foldl (fun g (v, i) => g.dropTarget v ⟨id, i⟩) (g.vacate id) := by
  rw [detach]
  rw [h]
  rfl

theorem view?_detach (g : Graph) (id j : NodeId) :
    (g.detach id).view? j = if j = id then none else g.view? j := by
  cases h : g.node? id with
  | none =>
    rw [detach_of_gone h]
    by_cases hj : j = id
    · rw [if_pos hj, hj, view?, h, Option.map_none]
    · rw [if_neg hj]
  | some n =>
    rw [detach_eq h, foldl_dropTarget_keeps (φ := fun g => g.view? j)
      fun _ _ _ => view?_dropTarget .., view?, node?_vacate]
    split <;> rfl

theorem source?_detach (g : Graph) (id : NodeId) (i : Input) :
    (g.detach id).source? i = if i.node = id then none else g.source? i := by
  rw [source?_eq_view, source?_eq_view, view?_detach]
  split <;> rfl

theorem targets?_detach {g : Graph} {id : NodeId} {n : Node} (h : g.node? id = some n)
    (v : Output) :
    (g.detach id).targets? v =
      if v.node = id then none
      else (g.targets? v).map (·.filter fun t => g.source? t ≠ some v ∨ t.node ≠ id) := by
  rw [detach_eq h, targets?_foldl_dropTarget, targets?, node?_vacate]
  split
  · rfl
  · rw [← targets?]
    cases g.targets? v with
    | none => rfl
    | some ts =>
      refine congrArg some (List.filter_congr fun t _ => ?_)
      rw [decide_eq_decide, List.mk_mem_zipIdx_iff_getElem?]
      by_cases ht : t.node = id
      · rw [source?, ht, h, Option.bind_some]
      · simp [ht]

/-- What neither an emptied slot nor an entry struck from a target list changes. -/
theorem detach_keeps {α : Type} {φ : Graph → α} (hφ : ∀ g v i, φ (g.dropTarget v i) = φ g)
    {g : Graph} {id : NodeId} (hv : g.contains id → φ (g.vacate id) = φ g) :
    φ (g.detach id) = φ g := by
  cases h : g.node? id with
  | none => rw [detach_of_gone h]
  | some n =>
    rw [detach_eq h, foldl_dropTarget_keeps hφ]
    exact hv (contains_iff.2 ⟨n, h⟩)

@[simp] theorem size_detach (g : Graph) (id : NodeId) : (g.detach id).nodes.size = g.nodes.size :=
  detach_keeps (φ := fun g => g.nodes.size) (fun _ _ _ => size_nodes_modifyNode ..) fun _ => by
    rw [vacate, Array.size_setIfInBounds]

@[simp] theorem parameters_detach (g : Graph) (id : NodeId) :
    (g.detach id).parameters = g.parameters :=
  detach_keeps (φ := Graph.parameters) (fun _ _ _ => rfl) fun _ => rfl

@[simp] theorem results_detach (g : Graph) (id : NodeId) : (g.detach id).results = g.results :=
  detach_keeps (φ := Graph.results) (fun _ _ _ => rfl) fun _ => rfl

theorem released_detach {g : Graph} {id : NodeId} (h : g.contains id) :
    (g.detach id).released = g.released + 1 := by
  obtain ⟨n, hn⟩ := contains_iff.1 h
  rw [detach_eq hn]
  exact foldl_dropTarget_keeps (φ := Graph.released) (fun _ _ _ => rfl) _ _ _

end Graph

end OpGraph
