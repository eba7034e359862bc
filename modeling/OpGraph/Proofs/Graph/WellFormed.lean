import OpGraph.Proofs.Graph.Edges

/-!
# Well-formed graphs

`WellFormed g` says that the arena, both sides of the edges, the boundary and the count of released
nodes agree.  This file shows that each way to change a graph keeps it:

* `wellFormed_modifyNode`: a node changes in its name, metadata or descriptions.
* `wellFormed_insert`: a node is added that reads existing values.
* `wellFormed_rewire`: an input moves to an existing value of another node.
* `wellFormed_detach`: a node goes that nothing reads and that is not on the boundary.
* `wellFormed_foldl_detach`: several nodes go at once, and nothing that stays reads them.
-/

namespace OpGraph.Graph

/-- The data of a graph agree with each other. -/
structure WellFormed (g : Graph) : Prop where
  /-- A node knows its position. -/
  id_eq : ∀ {id n}, g.node? id = some n → n.id = id
  /-- What an input reads is an existing output of another live node. -/
  source_exists : ∀ {i v}, g.source? i = some v → v.node ≠ i.node ∧ ∃ ts, g.targets? v = some ts
  /-- An input is listed exactly once as a reader of what it reads, and nowhere else. -/
  count_targets : ∀ {v ts}, g.targets? v = some ts →
    ∀ i, ts.count i = if g.source? i = some v then 1 else 0
  parameters_nodup : g.parameters.Nodup
  /-- The declared parameters are the live nodes of that kind. -/
  mem_parameters : ∀ {id}, id ∈ g.parameters ↔ g.kind? id = some .parameter
  results_nodup : g.results.Nodup
  /-- The declared results are live nodes of that kind. -/
  kind_of_mem_results : ∀ {id}, id ∈ g.results → g.kind? id = some .result
  /-- Every node that was ever added is live or has been released. -/
  nodeCount_add_released : g.nodeCount + g.released = g.nodes.size

namespace WellFormed

variable {g : Graph} (h : g.WellFormed)

include h

/-- An input occurs exactly once in the target list of what it reads. -/
theorem source_listed {i : Input} {v : Output} (hi : g.source? i = some v) :
    ∃ ts, g.targets? v = some ts ∧ ts.count i = 1 := by
  obtain ⟨-, ts, hts⟩ := h.source_exists hi
  exact ⟨ts, hts, by rw [h.count_targets hts, if_pos hi]⟩

/-- Whatever is listed as a reader of a value reads it. -/
theorem target_reads {v : Output} {ts : List Input} (hts : g.targets? v = some ts) {i : Input}
    (hi : i ∈ ts) : g.source? i = some v := by
  have hpos := List.count_pos_iff.2 hi
  rw [h.count_targets hts] at hpos
  split at hpos
  · assumption
  · omega

theorem mem_targets {v : Output} {ts : List Input} (hts : g.targets? v = some ts) {i : Input}
    (hi : g.source? i = some v) : i ∈ ts := by
  rw [← List.count_pos_iff, h.count_targets hts, if_pos hi]
  exact Nat.one_pos

theorem targets_nodup {v : Output} {ts : List Input} (hts : g.targets? v = some ts) :
    ts.Nodup := by
  rw [List.nodup_iff_count]
  intro i
  rw [h.count_targets hts]
  split <;> omega

theorem contains_of_mem_results {id : NodeId} (hid : id ∈ g.results) : g.contains id :=
  contains_of_kind? (h.kind_of_mem_results hid)

theorem contains_of_mem_parameters {id : NodeId} (hid : id ∈ g.parameters) : g.contains id :=
  contains_of_kind? (h.mem_parameters.1 hid)

end WellFormed

theorem ids_nodup (g : Graph) : g.ids.Nodup := List.nodup_range.filter _

/-! ### A new graph -/

/-- A graph without nodes is well-formed. -/
theorem wellFormed_empty (name : String) : ({ name : Graph }).WellFormed := by
  have hnode : ∀ id, ({ name : Graph }).node? id = none := fun id => by simp [node?]
  refine ⟨?_, ?_, ?_, List.nodup_nil, ?_, List.nodup_nil, by simp, rfl⟩
  · intro id n hn
    simp [hnode] at hn
  · intro i v hi
    simp [source?, hnode] at hi
  · intro v ts hts
    simp [targets?, hnode] at hts
  · intro id
    simp [kind?, hnode]

/-! ### Changes of one node -/

/-- What a change of one node leaves alone in it stays everywhere. -/
theorem map_modifyNode {α : Type} {φ : Node → α} {f : Node → Node} (hf : ∀ n, φ (f n) = φ n)
    (g : Graph) (id j : NodeId) :
    ((g.modifyNode id f).node? j).map φ = (g.node? j).map φ := by
  rw [node?_modifyNode]
  split
  · rw [Option.map_map]
    exact congrArg (fun k => Option.map k (g.node? j)) (funext hf)
  · rfl

theorem map_id_modifySlot (g : Graph) (v : Output) (f : Slot → Slot) (j : NodeId) :
    ((g.modifySlot v f).node? j).map (·.id) = (g.node? j).map (·.id) := by
  apply map_modifyNode
  intro n
  rfl

/-- A change of a node that keeps its position, its kind, its inputs and its target lists. -/
theorem wellFormed_modifyNode {g : Graph} (h : g.WellFormed) {id : NodeId} {f : Node → Node}
    (hf : ∀ n, g.node? id = some n → (f n).id = n.id ∧ (f n).kind = n.kind ∧
      (f n).inputs = n.inputs ∧ (f n).outputs.map (·.targets) = n.outputs.map (·.targets)) :
    (g.modifyNode id f).WellFormed := by
  have hs : ∀ i, (g.modifyNode id f).source? i = g.source? i := by
    intro i
    unfold source?
    rw [node?_modifyNode]
    split
    next hi =>
      subst hi
      cases hn : g.node? i.node with
      | none => rfl
      | some n => simp [(hf n hn).2.2.1]
    next => rfl
  have hk : ∀ j, (g.modifyNode id f).kind? j = g.kind? j := by
    intro j
    unfold kind?
    rw [node?_modifyNode]
    split
    next hj =>
      subst hj
      cases hn : g.node? id with
      | none => rfl
      | some n => simp [(hf n hn).2.1]
    next => rfl
  have ht : ∀ v, (g.modifyNode id f).targets? v = g.targets? v :=
    targets?_modifyNode_eq fun n hn => (hf n hn).2.2.2
  constructor
  case id_eq =>
    intro j n hn
    rw [node?_modifyNode] at hn
    split at hn
    next hj =>
      subst hj
      obtain ⟨m, hm, rfl⟩ := Option.map_eq_some_iff.1 hn
      rw [(hf m hm).1, h.id_eq hm]
    next => exact h.id_eq hn
  case source_exists =>
    intro i v hi
    rw [hs] at hi
    simpa only [ht] using h.source_exists hi
  case count_targets =>
    intro v ts hts i
    rw [ht] at hts
    rw [hs, h.count_targets hts]
  case parameters_nodup => exact h.parameters_nodup
  case mem_parameters =>
    intro j
    rw [hk]
    exact h.mem_parameters
  case results_nodup => exact h.results_nodup
  case kind_of_mem_results =>
    intro j hj
    rw [hk]
    exact h.kind_of_mem_results hj
  case nodeCount_add_released =>
    rw [nodeCount, ids_modifyNode, size_nodes_modifyNode]
    exact h.nodeCount_add_released

/-! ### A new node -/

theorem contains_insert (g : Graph) (op : Op) (inputs : List Output) (descs : List Desc)
    (j : NodeId) :
    (g.insert op inputs descs).contains j = (decide (j = g.nodes.size) || g.contains j) := by
  rw [contains_eq_view, contains_eq_view, view?_insert]
  split
  next hj => simp [hj]
  next hj => simp [hj]

theorem ids_insert (g : Graph) (op : Op) (inputs : List Output) (descs : List Desc) :
    (g.insert op inputs descs).ids = g.ids ++ [g.nodes.size] := by
  rw [ids]
  rw [size_insert, List.range_succ, List.filter_append]
  congr 1
  · refine List.filter_congr fun j hj => ?_
    have hne : j ≠ g.nodes.size := Nat.ne_of_lt (List.mem_range.1 hj)
    simp [contains_insert, hne]
  · simp [contains_insert]

theorem kind?_insert (g : Graph) (op : Op) (inputs : List Output) (descs : List Desc)
    (j : NodeId) : (g.insert op inputs descs).kind? j =
      if j = g.nodes.size then some op.kind else g.kind? j := by
  rw [kind?_eq_view, kind?_eq_view, view?_insert]
  split <;> rfl

theorem kind?_size (g : Graph) : g.kind? g.nodes.size = none := by
  rw [kind?, node?_size, Option.map_none]

theorem node_ne_size_of_targets? {g : Graph} {v : Output} {ts : List Input}
    (hts : g.targets? v = some ts) : v.node ≠ g.nodes.size := by
  intro hv
  rw [targets?, hv, node?_size] at hts
  cases hts

theorem exists_targets?_insert {g : Graph} {op : Op} {inputs : List Output} {descs : List Desc}
    {v : Output} (hv : ∃ ts, g.targets? v = some ts) :
    ∃ ts, (g.insert op inputs descs).targets? v = some ts := by
  obtain ⟨ts, hts⟩ := hv
  exact ⟨_, by rw [targets?_insert, if_neg (node_ne_size_of_targets? hts), hts, Option.map_some]⟩

theorem id_eq_insert {g : Graph} (h : g.WellFormed) {op : Op} {inputs : List Output}
    {descs : List Desc} {j : NodeId} {n : Node}
    (hn : (g.insert op inputs descs).node? j = some n) : n.id = j := by
  rw [node?_insert] at hn
  split at hn
  · obtain rfl := Option.some.inj hn
    rfl
  · have hid := foldl_addTarget_keeps (φ := fun g => (g.node? j).map (·.id))
      (fun _ _ _ => map_id_modifySlot ..) g.nodes.size inputs.zipIdx g
    simp only [hn] at hid
    obtain ⟨m, hm, hmid⟩ := Option.map_eq_some_iff.1 hid.symm
    exact hmid.symm.trans (h.id_eq hm)

/-- What the inputs of the old nodes and of the new one read was there before. -/
theorem exists_targets?_of_source?_insert {g : Graph} (h : g.WellFormed) {op : Op}
    {inputs : List Output} {descs : List Desc}
    (hin : ∀ v ∈ inputs, ∃ ts, g.targets? v = some ts) {i : Input} {v : Output}
    (hi : (g.insert op inputs descs).source? i = some v) :
    v.node ≠ i.node ∧ ∃ ts, g.targets? v = some ts := by
  rw [source?_insert] at hi
  split at hi
  next hnode =>
    obtain ⟨ts, hts⟩ := hin v (List.mem_of_getElem? hi)
    exact ⟨hnode ▸ node_ne_size_of_targets? hts, ts, hts⟩
  next => exact h.source_exists hi

theorem count_targets_insert {g : Graph} (h : g.WellFormed) {op : Op} {inputs : List Output}
    {descs : List Desc} (hin : ∀ v ∈ inputs, ∃ ts, g.targets? v = some ts) {v : Output}
    {ts : List Input} (hts : (g.insert op inputs descs).targets? v = some ts) (i : Input) :
    ts.count i = if (g.insert op inputs descs).source? i = some v then 1 else 0 := by
  rw [targets?_insert] at hts
  split at hts
  next hv =>
    -- nothing reads the new node yet: everything that is read existed before
    obtain ⟨d, -, rfl⟩ := Option.map_eq_some_iff.1 hts
    have hno : ¬ (g.insert op inputs descs).source? i = some v := by
      intro hi
      obtain ⟨-, us, hus⟩ := exists_targets?_of_source?_insert h hin hi
      exact node_ne_size_of_targets? hus hv
    rw [if_neg hno, List.count_nil]
  next hv =>
    obtain ⟨us, hus, rfl⟩ := Option.map_eq_some_iff.1 hts
    rw [List.count_append, h.count_targets hus, (nodup_readersIn _ _ _).count, source?_insert]
    by_cases hi : i.node = g.nodes.size
    · have hnone : g.source? i = none := by rw [source?, hi, node?_size, Option.bind_none]
      simp [mem_readersIn, hi, hnone]
    · simp [mem_readersIn, hi]

/-- A node that is declared on the boundary if `p` holds. -/
theorem mem_declared {l : List NodeId} {id j : NodeId} {p : Prop} [Decidable p] :
    j ∈ (if p then l ++ [id] else l) ↔ j ∈ l ∨ p ∧ j = id := by
  split
  next hp => simp [hp]
  next hp => simp [hp]

theorem nodup_declared {l : List NodeId} (hl : l.Nodup) {id : NodeId} (hid : id ∉ l) (p : Prop)
    [Decidable p] : (if p then l ++ [id] else l).Nodup := by
  split
  · refine List.nodup_append.2 ⟨hl, by simp, fun a ha b hb hab => hid ?_⟩
    rw [← List.mem_singleton.1 hb, ← hab]
    exact ha
  · exact hl

/-- A node that reads existing values is added. -/
theorem wellFormed_insert {g : Graph} (h : g.WellFormed) {op : Op} {inputs : List Output}
    {descs : List Desc} (hin : ∀ v ∈ inputs, ∃ ts, g.targets? v = some ts) :
    (g.insert op inputs descs).WellFormed := by
  have hparameter : ¬ g.nodes.size ∈ g.parameters := by
    rw [h.mem_parameters, kind?_size]
    simp
  have hresult : ¬ g.nodes.size ∈ g.results := by
    intro hmem
    have hkind := h.kind_of_mem_results hmem
    rw [kind?_size] at hkind
    cases hkind
  constructor
  case id_eq =>
    intro j n hn
    exact id_eq_insert h hn
  case source_exists =>
    intro i v hi
    obtain ⟨hne, hts⟩ := exists_targets?_of_source?_insert h hin hi
    exact ⟨hne, exists_targets?_insert hts⟩
  case count_targets =>
    intro v ts hts i
    exact count_targets_insert h hin hts i
  case parameters_nodup => exact nodup_declared h.parameters_nodup hparameter _
  case mem_parameters =>
    intro j
    refine mem_declared.trans ?_
    rw [kind?_insert]
    by_cases hj : j = g.nodes.size
    · subst hj
      simp [hparameter]
    · simp [hj, h.mem_parameters]
  case results_nodup => exact nodup_declared h.results_nodup hresult _
  case kind_of_mem_results =>
    intro j hj
    rw [kind?_insert]
    rcases mem_declared.1 hj with hj | ⟨hop, rfl⟩
    · have hne : j ≠ g.nodes.size := by
        intro heq
        exact hresult (heq ▸ hj)
      rw [if_neg hne, h.kind_of_mem_results hj]
    · rw [if_pos rfl, hop]
  case nodeCount_add_released =>
    have hrel : (g.insert op inputs descs).released = g.released :=
      foldl_addTarget_keeps (φ := Graph.released) (fun _ _ _ => rfl) _ _ _
    have := h.nodeCount_add_released
    rw [nodeCount] at this ⊢
    rw [ids_insert, size_insert, hrel, List.length_append, List.length_singleton]
    omega

theorem wellFormed_insert_singleton {g : Graph} (h : g.WellFormed) {op : Op} {v : Output}
    {descs : List Desc} (hv : ∃ ts, g.targets? v = some ts) :
    (g.insert op [v] descs).WellFormed :=
  wellFormed_insert h fun _ hu => List.mem_singleton.1 hu ▸ hv

/-! ### A moved input -/

theorem kind?_rewire (g : Graph) (i : Input) (old new : Output) (id : NodeId) :
    (g.rewire i old new).kind? id = g.kind? id := by
  rw [kind?_eq_view, kind?_eq_view, view?_rewire]
  split
  · rw [Option.map_map]
    rfl
  · rfl

theorem map_id_rewire (g : Graph) (i : Input) (old new : Output) (id : NodeId) :
    ((g.rewire i old new).node? id).map (·.id) = (g.node? id).map (·.id) := by
  have hset := map_modifyNode (φ := (·.id))
    (f := fun n => { n with inputs := n.inputs.set i.index new }) (fun _ => rfl)
    (g.dropTarget old i) i.node id
  exact (map_id_modifySlot ..).trans (hset.trans (map_id_modifySlot ..))

@[simp] theorem ids_rewire (g : Graph) (i : Input) (old new : Output) :
    (g.rewire i old new).ids = g.ids :=
  (ids_modifyNode ..).trans ((ids_modifyNode ..).trans (ids_dropTarget ..))

@[simp] theorem size_rewire (g : Graph) (i : Input) (old new : Output) :
    (g.rewire i old new).nodes.size = g.nodes.size :=
  (size_nodes_modifyNode ..).trans
    ((size_nodes_modifyNode ..).trans (size_nodes_modifyNode ..))

/-- An input moves from what it reads to another existing value of another node. -/
theorem wellFormed_rewire {g : Graph} (h : g.WellFormed) {i : Input} {old new : Output}
    (hi : g.source? i = some old) (hne : old ≠ new) (hnode : new.node ≠ i.node)
    (hnew : ∃ ts, g.targets? new = some ts) : (g.rewire i old new).WellFormed := by
  have hexists : ∀ {v}, (∃ ts, g.targets? v = some ts) →
      ∃ ts, (g.rewire i old new).targets? v = some ts := by
    intro v h'
    rcases h' with ⟨ts, hts⟩
    rw [targets?_rewire g i hne, hts]
    split
    · exact ⟨_, rfl⟩
    · split <;> exact ⟨_, rfl⟩
  constructor
  case id_eq =>
    intro j n hn
    have hid := map_id_rewire g i old new j
    rw [hn] at hid
    obtain ⟨m, hm, hmid⟩ := Option.map_eq_some_iff.1 hid.symm
    exact hmid.symm.trans (h.id_eq hm)
  case source_exists =>
    intro j v hj
    rw [source?_rewire] at hj
    split at hj
    next hji =>
      obtain ⟨-, -, rfl⟩ := Option.map_eq_some_iff.1 hj
      exact ⟨hji ▸ hnode, hexists hnew⟩
    next =>
      obtain ⟨hjne, hts⟩ := h.source_exists hj
      exact ⟨hjne, hexists hts⟩
  case count_targets =>
    intro v ts hts j
    rw [targets?_rewire g i hne] at hts
    rw [source?_rewire]
    split at hts
    next hv =>
      -- the new source gains `i`, which it did not list before
      subst hv
      obtain ⟨us, hus, rfl⟩ := Option.map_eq_some_iff.1 hts
      rw [List.count_append, h.count_targets hus]
      by_cases hji : j = i
      · subst hji
        simp [hi, hne]
      · simp [hji, Ne.symm hji]
    next hv =>
      split at hts
      next hvold =>
        -- the old source loses `i`
        subst hvold
        obtain ⟨us, hus, rfl⟩ := Option.map_eq_some_iff.1 hts
        by_cases hji : j = i
        · subst hji
          rw [List.count_eq_zero_of_not_mem (by simp)]
          simp [hi, Ne.symm hne]
        · rw [List.count_filter (by simpa using hji), h.count_targets hus, if_neg hji]
      next hvold =>
        rw [h.count_targets hts]
        by_cases hji : j = i
        · subst hji
          simp [hi, Ne.symm hv, Ne.symm hvold]
        · rw [if_neg hji]
  case parameters_nodup => exact h.parameters_nodup
  case mem_parameters =>
    intro j
    rw [kind?_rewire]
    exact h.mem_parameters
  case results_nodup => exact h.results_nodup
  case kind_of_mem_results =>
    intro j hj
    rw [kind?_rewire]
    exact h.kind_of_mem_results hj
  case nodeCount_add_released =>
    rw [nodeCount, ids_rewire, size_rewire]
    exact h.nodeCount_add_released

/-! ### Released nodes -/

theorem view?_foldl_detach (l : List NodeId) (g : Graph) (j : NodeId) :
    (l.foldl detach g).view? j = if j ∈ l then none else g.view? j := by
  induction l generalizing g with
  | nil => simp
  | cons id l ih =>
    rw [List.foldl_cons, ih, view?_detach]
    by_cases hl : j ∈ l
    · simp [hl]
    · by_cases hj : j = id <;> simp [hl, hj]

theorem nodeCount_detach {g : Graph} {id : NodeId} (h : g.contains id) :
    (g.detach id).nodeCount + 1 = g.nodeCount := by
  have hone : g.ids.countP (· = id) = 1 := by
    have := g.ids_nodup.count (a := id)
    rw [if_pos (contains_iff_mem_ids.1 h)] at this
    exact this
  have hsum := List.length_eq_countP_add_countP (fun j => decide (j ≠ id)) (l := g.ids)
  simp only [ne_eq, decide_not, Bool.not_eq_true', decide_eq_false_iff_not,
    Decidable.not_not] at hsum
  unfold nodeCount
  rw [ids_detach, ← List.countP_eq_length_filter]
  simp only [ne_eq, decide_not]
  omega

theorem nodeCount_add_released_detach (g : Graph) (id : NodeId) :
    (g.detach id).nodeCount + (g.detach id).released = g.nodeCount + g.released := by
  by_cases h : g.contains id
  · have := nodeCount_detach h
    have := released_detach h
    omega
  · rw [detach_of_gone (Option.not_isSome_iff_eq_none.1 h)]

theorem exists_targets?_detach {g : Graph} {id : NodeId} {v : Output} :
    (∃ ts, (g.detach id).targets? v = some ts) ↔
      v.node ≠ id ∧ ∃ ts, g.targets? v = some ts := by
  cases hn : g.node? id with
  | none =>
    rw [detach_of_gone hn]
    refine ⟨fun ⟨ts, hts⟩ => ⟨?_, ts, hts⟩, fun h => h.2⟩
    intro heq
    subst heq
    rw [targets?, hn] at hts
    cases hts
  | some n =>
    rw [targets?_detach hn]
    by_cases hv : v.node = id
    · simp [hv]
    · cases g.targets? v <;> simp [hv]

theorem id_eq_detach {g : Graph} {id : NodeId} (h : ∀ j n, g.node? j = some n → n.id = j) :
    ∀ j n, (g.detach id).node? j = some n → n.id = j := by
  intro j n hn
  cases hid : g.node? id with
  | none =>
    rw [detach_of_gone hid] at hn
    exact h j n hn
  | some m =>
    have hmap := foldl_dropTarget_keeps (φ := fun g => (g.node? j).map (·.id))
      (fun _ _ _ => map_id_modifySlot ..) id m.inputs.zipIdx (g.vacate id)
    rw [detach_eq hid] at hn
    simp only [hn, node?_vacate] at hmap
    split at hmap
    · cases hmap
    · obtain ⟨k, hk, hkid⟩ := Option.map_eq_some_iff.1 hmap.symm
      exact hkid.symm.trans (h j k hk)

/-- Target lists stay exact when a node goes, whoever reads it. -/
theorem count_targets_detach {g : Graph} {id : NodeId}
    (h : ∀ v ts, g.targets? v = some ts →
      ∀ i, ts.count i = if g.source? i = some v then 1 else 0) :
    ∀ v ts, (g.detach id).targets? v = some ts →
      ∀ i, ts.count i = if (g.detach id).source? i = some v then 1 else 0 := by
  intro v ts hts i
  cases hn : g.node? id with
  | none =>
    rw [detach_of_gone hn] at hts ⊢
    exact h v ts hts i
  | some n =>
    rw [targets?_detach hn] at hts
    rw [source?_detach]
    split at hts
    · cases hts
    · obtain ⟨us, hus, rfl⟩ := Option.map_eq_some_iff.1 hts
      by_cases hi : i.node = id
      · have hnot : i ∉ us.filter fun t => g.source? t ≠ some v ∨ t.node ≠ id := by
          intro hmem
          obtain ⟨hmem, hp⟩ := List.mem_filter.1 hmem
          have hc := h v us hus i
          have := List.count_pos_iff.2 hmem
          split at hc
          next hs => simp [hs, hi] at hp
          next => omega
        rw [List.count_eq_zero_of_not_mem hnot, if_pos hi]
        simp
      · rw [List.count_filter (by simp [hi]), h v us hus i, if_neg hi]

/-- What the loss of one node keeps holds after several have gone. -/
theorem foldl_detach_keeps {P : Graph → Prop}
    (hP : ∀ {g : Graph} (id : NodeId), P g → P (g.detach id)) (l : List NodeId) {g : Graph}
    (hg : P g) : P (l.foldl detach g) := by
  induction l generalizing g with
  | nil => exact hg
  | cons id l ih => exact ih (hP id hg)

/-- The boundary, the number of positions and the number of nodes ever added stay as they are. -/
theorem counts_foldl_detach (l : List NodeId) (g : Graph) :
    (l.foldl detach g).parameters = g.parameters ∧ (l.foldl detach g).results = g.results ∧
      (l.foldl detach g).nodes.size = g.nodes.size ∧
      (l.foldl detach g).nodeCount + (l.foldl detach g).released = g.nodeCount + g.released := by
  refine foldl_detach_keeps (P := fun g' => g'.parameters = g.parameters ∧
    g'.results = g.results ∧ g'.nodes.size = g.nodes.size ∧
    g'.nodeCount + g'.released = g.nodeCount + g.released) ?_ l ⟨rfl, rfl, rfl, rfl⟩
  intro g' id hg
  obtain ⟨hp, hres, hsize, hcount⟩ := hg
  exact ⟨(parameters_detach g' id).trans hp, (results_detach g' id).trans hres,
    (size_detach g' id).trans hsize, (nodeCount_add_released_detach g' id).trans hcount⟩

theorem exists_targets?_foldl_detach (l : List NodeId) (g : Graph) (v : Output) :
    (∃ ts, (l.foldl detach g).targets? v = some ts) ↔
      v.node ∉ l ∧ ∃ ts, g.targets? v = some ts := by
  induction l generalizing g with
  | nil => simp
  | cons id l ih =>
    rw [List.foldl_cons, ih, exists_targets?_detach, List.mem_cons, not_or]
    tauto

/-- Nodes go that are not on the boundary and that nothing else reads. -/
theorem wellFormed_foldl_detach {g : Graph} (h : g.WellFormed) {l : List NodeId}
    (hb : ∀ id ∈ l, id ∉ g.parameters ∧ id ∉ g.results)
    (hr : ∀ {i v}, g.source? i = some v → v.node ∈ l → i.node ∈ l) :
    (l.foldl detach g).WellFormed := by
  have hview := view?_foldl_detach l g
  have hsource : ∀ i, (l.foldl detach g).source? i =
      if i.node ∈ l then none else g.source? i := by
    intro i
    rw [source?_eq_view, source?_eq_view, hview]
    split <;> rfl
  have hkind : ∀ j, (l.foldl detach g).kind? j = if j ∈ l then none else g.kind? j := by
    intro j
    rw [kind?_eq_view, kind?_eq_view, hview]
    split <;> rfl
  obtain ⟨hp, hres, hsize, hcount⟩ := counts_foldl_detach l g
  constructor
  case id_eq =>
    have hids := foldl_detach_keeps (P := fun g => ∀ j n, g.node? j = some n → n.id = j)
      (fun _ => id_eq_detach) l fun j n hn => h.id_eq hn
    intro j n hn
    exact hids j n hn
  case source_exists =>
    intro i v hi
    rw [hsource] at hi
    split at hi
    · cases hi
    next hil =>
      obtain ⟨hne, hv⟩ := h.source_exists hi
      exact ⟨hne, (exists_targets?_foldl_detach l g v).2 ⟨fun hvl => hil (hr hi hvl), hv⟩⟩
  case count_targets =>
    have hcounts := foldl_detach_keeps (P := fun g => ∀ v ts, g.targets? v = some ts →
      ∀ i, ts.count i = if g.source? i = some v then 1 else 0)
      (fun _ => count_targets_detach) l fun v ts hts => h.count_targets hts
    intro v ts hts
    exact hcounts v ts hts
  case parameters_nodup => exact hp ▸ h.parameters_nodup
  case mem_parameters =>
    intro j
    rw [hp, hkind]
    split
    next hj => simp [(hb j hj).1]
    next => exact h.mem_parameters
  case results_nodup => exact hres ▸ h.results_nodup
  case kind_of_mem_results =>
    intro j hj
    rw [hres] at hj
    rw [hkind, if_neg fun hjl => (hb j hjl).2 hj]
    exact h.kind_of_mem_results hj
  case nodeCount_add_released =>
    rw [hcount, hsize]
    exact h.nodeCount_add_released

end OpGraph.Graph
