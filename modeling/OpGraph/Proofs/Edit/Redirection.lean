import OpGraph.Proofs.Edit.Total

/-!
# Readers that move

`Edit.replaceOutput` goes through the readers that a value has at the start and moves them one after
the other.  Every move changes the list of readers that it goes through and the one that it appends to,
so this file first says what all moves come to: `moveAll` is the graph after them, and
`source?_moveAll` and `targets?_moveAll` read both sides of its edges.

`g'.Redirects g old new` says what `g'` is after a replacement, down to the order of the readers, and
`replaceOutput_redirects` that a replacement of an existing value by an existing value comes to that.
-/

namespace OpGraph

/-- A node without its edges. -/
structure Node.Content where
  id : NodeId
  op : Op
  descs : List Desc
  givenName : Option String
  metadata : Metadata

/-- What a node holds apart from its edges. -/
def Node.content (n : Node) : Node.Content := ⟨n.id, n.op, n.descs, n.givenName, n.metadata⟩

namespace Node.Content

/-- The given name of `old`, if `new` is to take it over. -/
def nameFor (old new : Content) : Option String :=
  if old.descs.length = 1 ∧ new.givenName = none ∧ new.op.kind ≠ .parameter then old.givenName
  else none

/-- The node with the name that it takes over, if there is one. -/
def inherit (c : Content) (name : Option String) : Content :=
  { c with givenName := name.or c.givenName }

theorem nameFor_content (old new : Node) : old.content.nameFor new.content = old.nameFor new := by
  refine if_congr ?_ rfl rfl
  simp [Node.content, Node.descs, Node.kind]

/-- The given name, or the node's own name if it was given none. -/
def friendlyName (c : Content) : String := c.givenName.getD (generatedName c.op.kind c.id)

theorem friendlyName_content (n : Node) : n.content.friendlyName = n.friendlyName := rfl

/-- A node has no name to pass on to itself. -/
theorem nameFor_self (c : Content) : c.nameFor c = none := by
  rw [nameFor]
  split
  next h => exact h.2.1
  next => rfl

end Node.Content

/-- A graph without its nodes. -/
structure Graph.Header where
  name : String
  size : Nat
  parameters : List NodeId
  results : List NodeId
  released : Nat

namespace Graph

/-- What a graph holds apart from its nodes. -/
def header (g : Graph) : Header := ⟨g.name, g.nodes.size, g.parameters, g.results, g.released⟩

/-- The inputs that read a value; a value that is not there has none. -/
def readers (g : Graph) (v : Output) : List Input := (g.targets? v).getD []

/-- What the node at a position holds apart from its edges. -/
def content? (g : Graph) (id : NodeId) : Option Node.Content := (g.node? id).map Node.content

variable {g g' : Graph} {old new : Output}

theorem content?_of_node? {id : NodeId} {n : Node} (h : g.node? id = some n) :
    g.content? id = some n.content := by
  rw [content?, h, Option.map_some]

theorem header_modifyNode (g : Graph) (id : NodeId) (f : Node → Node) :
    (g.modifyNode id f).header = g.header := by
  rw [header, size_nodes_modifyNode]
  rfl

theorem content?_modifySlot_targets (g : Graph) (v : Output) (f : List Input → List Input)
    (id : NodeId) :
    (g.modifySlot v fun s => { s with targets := f s.targets }).content? id = g.content? id := by
  apply map_modifyNode
  intro n
  simp [Node.content, Node.descs, map_desc_modify]

/-- A node with another name or other metadata reads the same. -/
theorem source?_relabel {id : NodeId} {f : Node → Node}
    (hf : ∀ n, (f n).id = n.id ∧ (f n).op = n.op ∧ (f n).inputs = n.inputs ∧
      (f n).outputs = n.outputs) (i : Input) : (g.modifyNode id f).source? i = g.source? i := by
  rw [source?_eq_view, view?_relabel hf, ← source?_eq_view]

/-! ### One reader -/

theorem header_rewire (g : Graph) (i : Input) (old new : Output) :
    (g.rewire i old new).header = g.header :=
  (header_modifyNode ..).trans ((header_modifyNode ..).trans (header_modifyNode ..))

theorem content?_rewire (g : Graph) (i : Input) (old new : Output) (id : NodeId) :
    (g.rewire i old new).content? id = g.content? id := by
  have hset : ((g.dropTarget old i).modifyNode i.node fun n =>
      { n with inputs := n.inputs.set i.index new }).content? id =
        (g.dropTarget old i).content? id := by
    apply map_modifyNode
    intro n
    rfl
  have hdrop : (g.dropTarget old i).content? id = g.content? id :=
    content?_modifySlot_targets g old (·.filter (· ≠ i)) id
  have hadd (g : Graph) : (g.addTarget new i).content? id = g.content? id :=
    content?_modifySlot_targets g new (· ++ [i]) id
  rw [rewire, hadd, hset, hdrop]

/-! ### Several readers -/

/-- The inputs leave `old` for `new`, one after the other. -/
def moveAll (g : Graph) (readers : List Input) (old new : Output) : Graph :=
  readers.foldl (fun g i => g.rewire i old new) g

theorem moveAll_cons (g : Graph) (i : Input) (readers : List Input) (old new : Output) :
    g.moveAll (i :: readers) old new = (g.rewire i old new).moveAll readers old new := rfl

/-- What no move changes is not changed by several of them. -/
theorem moveAll_keeps {α : Type} {φ : Graph → α} (hφ : ∀ g i, φ (g.rewire i old new) = φ g)
    (readers : List Input) (g : Graph) : φ (g.moveAll readers old new) = φ g := by
  induction readers generalizing g with
  | nil => rfl
  | cons i readers ih => rw [moveAll_cons, ih, hφ]

theorem source?_moveAll (readers : List Input) (old new : Output) (g : Graph) (j : Input) :
    (g.moveAll readers old new).source? j =
      if j ∈ readers then (g.source? j).map fun _ => new else g.source? j := by
  induction readers generalizing g with
  | nil => simp [moveAll]
  | cons i readers ih =>
    rw [moveAll_cons, ih, source?_rewire]
    by_cases hj : j = i
    · cases g.source? j <;> simp [hj]
    · simp [hj]

/-- The readers that move are struck from the list of `old` and put at the end of that of `new`, in
their order. -/
theorem targets?_moveAll (readers : List Input) (h : old ≠ new) (g : Graph) (w : Output) :
    (g.moveAll readers old new).targets? w =
      if w = new then (g.targets? w).map (· ++ readers)
      else if w = old then (g.targets? w).map (·.filter (· ∉ readers))
      else g.targets? w := by
  induction readers generalizing g with
  | nil => cases hw : g.targets? w <;> simp [moveAll, hw]
  | cons i readers ih =>
    rw [moveAll_cons, ih, targets?_rewire g i h]
    cases g.targets? w with
    | none => simp
    | some ts =>
      by_cases hn : w = new
      · simp [hn]
      · by_cases ho : w = old
        · rw [if_neg hn, if_neg hn, if_neg hn, if_pos ho, if_pos ho, if_pos ho, Option.map_some,
            Option.map_some, Option.map_some, List.filter_filter]
          refine congrArg some (List.filter_congr fun j _ => ?_)
          simp [List.mem_cons, not_or, Bool.and_comm]
        · simp [hn, ho]

end Graph

namespace Edit

open OpGraph.Graph

variable {g : Graph} {old new : Output}

/-- Readers of one value move to another one, which none of them belongs to. -/
theorem forM_connect_eq {readers : List Input} (hnodup : readers.Nodup) (hne : old ≠ new)
    (hreads : ∀ i ∈ readers, g.source? i = some old) (hapart : ∀ i ∈ readers, new.node ≠ i.node)
    (hnew : ∃ ts, g.targets? new = some ts) :
    readers.forM (connect · new) g = .ok () (g.moveAll readers old new) := by
  induction readers generalizing g with
  | nil => rfl
  | cons i readers ih =>
    obtain ⟨hi, hnodup⟩ := List.nodup_cons.1 hnodup
    obtain ⟨hsource, hreads⟩ := List.forall_mem_cons.1 hreads
    obtain ⟨hnode, hapart⟩ := List.forall_mem_cons.1 hapart
    have hstep : connect i new g = .ok () (g.rewire i old new) := by
      rw [connect_of_source? hsource hnew hnode, if_neg hne]
    refine (bind_of_ok hstep).trans (ih hnodup (fun j hj => ?_) hapart ?_)
    · have hji : j ≠ i := fun h => hi (h ▸ hj)
      rw [source?_rewire, if_neg hji, hreads j hj]
    · obtain ⟨ts, hts⟩ := hnew
      exact ⟨ts ++ [i], by rw [targets?_rewire g i hne, if_pos rfl, hts, Option.map_some]⟩

/-- Where the moves are made, they have moved all readers. -/
theorem eq_moveAll_of_forM_connect {readers : List Input} {g' : Graph} (hnodup : readers.Nodup)
    (hne : old ≠ new) (hreads : ∀ i ∈ readers, g.source? i = some old)
    (h : readers.forM (connect · new) g = .ok () g') : g' = g.moveAll readers old new := by
  induction readers generalizing g with
  | nil => exact (pure_eq_ok.1 h).2.symm
  | cons i readers ih =>
    obtain ⟨hi, hnodup⟩ := List.nodup_cons.1 hnodup
    obtain ⟨hsource, hreads⟩ := List.forall_mem_cons.1 hreads
    obtain ⟨u, g₁, hstep, h⟩ := bind_eq_ok.1 h
    obtain rfl : g₁ = g.rewire i old new := by
      obtain ⟨err, he⟩ | ⟨v, hv, -, -, hok⟩ := connect_cases i new g
      · cases he.symm.trans hstep
      · obtain rfl := Option.some.inj (hv.symm.trans hsource)
        rw [if_neg hne] at hok
        cases hok.symm.trans hstep
        rfl
    refine ih hnodup (fun j hj => ?_) h
    have hji : j ≠ i := fun h => hi (h ▸ hj)
    rw [source?_rewire, if_neg hji, hreads j hj]

end Edit

/-! ### One value -/

namespace Graph

variable {g g' : Graph} {old new : Output}

/-- `g'` is `g` after everything that has read `old` has moved to `new`, apart from the node of `new`
itself.  The node of `new` has taken over the given name as `Node.nameFor` says. -/
structure Redirects (g' g : Graph) (old new : Output) : Prop where
  wellFormed : g'.WellFormed
  header_eq : g'.header = g.header
  content : ∀ {c d}, g.content? old.node = some c → g.content? new.node = some d → ∀ id,
    g'.content? id = (g.content? id).map fun e =>
      if id = new.node then e.inherit (c.nameFor d) else e
  source : ∀ i, g'.source? i = (g.source? i).map fun v =>
    if v = old ∧ i.node ≠ new.node then new else v
  targets : ∀ v, g'.targets? v = (g.targets? v).map fun ts =>
    if old = new then ts
    else if v = new then ts ++ (g.readers old).filter (·.node ≠ new.node)
    else if v = old then ts.filter (·.node = new.node)
    else ts

/-- The node at a position takes over a name, if there is one to take over. -/
def takeName (g : Graph) (id : NodeId) : Option String → Graph
  | some name => g.modifyNode id fun n => { n with givenName := some name }
  | none => g

theorem header_takeName (g : Graph) (id : NodeId) (name : Option String) :
    (g.takeName id name).header = g.header := by
  cases name with
  | none => rfl
  | some name => exact header_modifyNode ..

theorem content?_takeName (g : Graph) (id : NodeId) (name : Option String) (j : NodeId) :
    (g.takeName id name).content? j = (g.content? j).map fun c =>
      if j = id then c.inherit name else c := by
  cases name with
  | none => cases hj : g.content? j <;> simp [takeName, hj, Node.Content.inherit]
  | some name =>
    rw [takeName, content?, node?_modifyNode, content?]
    by_cases hj : id = j
    · cases g.node? j <;> simp [hj, Node.content, Node.Content.inherit, Node.descs]
    · cases g.node? j <;> simp [hj, Ne.symm hj]

theorem source?_takeName (g : Graph) (id : NodeId) (name : Option String) (i : Input) :
    (g.takeName id name).source? i = g.source? i := by
  cases name with
  | none => rfl
  | some name =>
    rw [takeName, source?_relabel]
    exact fun _ => ⟨rfl, rfl, rfl, rfl⟩

theorem targets?_takeName (g : Graph) (id : NodeId) (name : Option String) (v : Output) :
    (g.takeName id name).targets? v = g.targets? v := by
  cases name with
  | none => rfl
  | some name =>
    apply targets?_modifyNode_eq
    intro n _
    rfl

theorem WellFormed.redirects_self (hwf : g.WellFormed) (h : old = new) :
    g.Redirects g old new where
  wellFormed := hwf
  header_eq := rfl
  content := by
    intro c d hc hd id
    obtain rfl := Option.some.inj (hc.symm.trans (h ▸ hd))
    cases g.content? id <;> simp [Node.Content.nameFor_self, Node.Content.inherit]
  source := by
    intro i
    cases g.source? i with
    | none => rfl
    | some v =>
      show some v = some (if v = old ∧ i.node ≠ new.node then new else v)
      split
      next hv => rw [hv.1, h]
      next => rfl
  targets := by
    intro v
    simp only [if_pos h, Option.map_id']

/-- The readers that do not belong to the node of `new` move, and then the name does. -/
theorem WellFormed.redirects (hwf : g.WellFormed) (hne : old ≠ new) {ts : List Input}
    (hts : g.targets? old = some ts) {n m : Node} (hn : g.node? old.node = some n)
    (hm : g.node? new.node = some m)
    (hg' : g' = (g.moveAll (ts.filter (·.node ≠ new.node)) old new).takeName new.node (n.nameFor m))
    (hwf' : g'.WellFormed) : g'.Redirects g old new where
  wellFormed := hwf'
  header_eq := by
    rw [hg', header_takeName]
    exact moveAll_keeps (fun g i => header_rewire g i old new) _ g
  content := by
    intro c d hc hd id
    obtain rfl : n.content = c := by simpa [content?, hn] using hc
    obtain rfl : m.content = d := by simpa [content?, hm] using hd
    have hkeep := moveAll_keeps (φ := (·.content? id)) (fun g i => content?_rewire g i old new id)
      (ts.filter (·.node ≠ new.node)) g
    rw [hg', content?_takeName, hkeep, Node.Content.nameFor_content]
  source := by
    intro i
    have hmem : i ∈ ts.filter (·.node ≠ new.node) ↔ g.source? i = some old ∧ i.node ≠ new.node := by
      rw [List.mem_filter, decide_eq_true_eq]
      exact and_congr_left fun _ => ⟨hwf.target_reads hts, hwf.mem_targets hts⟩
    rw [hg', source?_takeName, source?_moveAll]
    cases hi : g.source? i with
    | none => simp
    | some v =>
      simp only [hmem, hi, Option.some.injEq, Option.map_some]
      split <;> rfl
  targets := by
    intro v
    simp only [hg', targets?_takeName, targets?_moveAll _ hne, if_neg hne, readers, hts,
      Option.getD_some]
    cases hv : g.targets? v with
    | none => simp
    | some us =>
      by_cases hvn : v = new
      · simp [hvn]
      · by_cases hvo : v = old
        · -- a reader that is not struck belongs to the node of `new`
          obtain rfl := Option.some.inj (hts.symm.trans (hvo ▸ hv))
          rw [if_neg hvn, if_pos hvo, Option.map_some, Option.map_some, if_neg hvn, if_pos hvo]
          refine congrArg some (List.filter_congr fun i hi => ?_)
          simp [hi]
        · simp [hvn, hvo]

end Graph

namespace Edit

open OpGraph.Graph

variable {g : Graph} {old new : Output}

/-- A replacement of an existing value by an existing value comes to its end. -/
theorem replaceOutput_redirects (hwf : g.WellFormed) (hold : ∃ ts, g.targets? old = some ts)
    (hnew : ∃ ts, g.targets? new = some ts) :
    ∃ g', replaceOutput old new g = .ok () g' ∧ g'.Redirects g old new := by
  obtain ⟨ts, hts⟩ := hold
  obtain ⟨d, hd⟩ := exists_targets?_iff.1 hnew
  obtain ⟨n, hn⟩ := contains_iff.1 (contains_of_targets? hts)
  obtain ⟨m, hm⟩ := contains_iff.1 (contains_of_desc? hd)
  have hend := invariant_wellFormed.keeps_replaceOutput old new
  by_cases hne : old = new
  · -- nothing moves, and no node takes over its own name
    refine ⟨g, ?_, hwf.redirects_self hne⟩
    rw [replaceOutput, bind_of_ok (query_of_ok (desc_eq_ok_iff_desc?.2 hd)),
      bind_of_ok (query_of_ok (targets_eq_ok.2 hts)), if_neg (not_not.2 hne)]
    rfl
  · have hmove : ((ts.filter (·.node ≠ new.node)).forM (connect · new)) g =
        .ok () (g.moveAll (ts.filter (·.node ≠ new.node)) old new) :=
      forM_connect_eq ((hwf.targets_nodup hts).filter _) hne
        (fun i hi => hwf.target_reads hts (List.mem_of_mem_filter hi))
        (fun i hi => Ne.symm (by simpa using (List.mem_filter.1 hi).2)) hnew
    have hok : replaceOutput old new g = .ok () ((g.moveAll (ts.filter (·.node ≠ new.node)) old
        new).takeName new.node (n.nameFor m)) := by
      rw [replaceOutput, bind_of_ok (query_of_ok (desc_eq_ok_iff_desc?.2 hd)),
        bind_of_ok (query_of_ok (targets_eq_ok.2 hts)), if_pos hne,
        bind_of_ok (query_of_ok (node_eq_ok.2 hn)), bind_of_ok (query_of_ok (node_eq_ok.2 hm)),
        bind_of_ok hmove]
      cases n.nameFor m with
      | none => rfl
      | some name =>
        have hlive : (g.moveAll (ts.filter (·.node ≠ new.node)) old new).contains new.node := by
          rw [contains_iff_mem_ids, moveAll_keeps (φ := ids) fun g i => ids_rewire g i old new]
          exact contains_iff_mem_ids.1 (contains_of_desc? hd)
        exact updateNode_of_contains hlive _
    exact ⟨_, hok, hwf.redirects hne hts hn hm rfl (hend.of_ok hwf hok)⟩

end Edit

end OpGraph
