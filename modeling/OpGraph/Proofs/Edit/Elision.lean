import OpGraph.Proofs.Edit.Diversion
import OpGraph.Proofs.Edit.Provenance

/-!
# What a bypass does

`Edit.bypass_elides` says what a bypass of a node with a single output comes to in a graph without cycles.
It is refused exactly if the node is withheld: a result reads it, and the value behind it cannot take over
its name.  Otherwise it is made, and `g.Elides` says what the graph is then, down to the order of the
readers, the names and the metadata.

Before the release the readers have moved and the label has been handed on (`Graph.Hands`).  The readers of
the node stay, for each of them would have to be behind the node to go, which is a cycle
(`Graph.Hands.not_expendable_of_reader`).  So nothing that has moved is lost, and what goes besides the node
can be told from the graph before the bypass (`Graph.Hands.expendable_iff`).
-/

namespace OpGraph

open Relation (TransGen)

/-- The node behind a bypassed node with the name and the metadata that it takes over. -/
def Node.Content.succeed (heir passed : Node.Content) : Node.Content :=
  { heir with
    givenName := some passed.friendlyName
    metadata := heir.metadata.merge (Metadata.gather [heir.metadata, passed.metadata]) }

namespace Graph

variable {g g' : Graph} {id j p c : NodeId} {index : Nat} {source : Output} {gone : List NodeId}
  {heir : Node.Content} {n : Node}

/-- A result reads the node. -/
def FeedsResult (g : Graph) (id : NodeId) : Prop := ∃ c, g.Produces id c ∧ g.kind? c = some .result

/-- The node of the input `i` cannot be bypassed through it: a result reads the node, and the value that
the input reads comes from a parameter or is read elsewhere too. -/
def Withheld (g : Graph) (i : Input) (source : Output) : Prop :=
  g.FeedsResult i.node ∧
    (g.kind? source.node = some .parameter ∨ ∃ j, j ≠ i ∧ g.source? j = some source)

/-- `g'` is `g` after the node `id` has been bypassed to `source`.  The nodes `gone` are not there any more,
and `heir` is what the node of `source` holds. -/
structure Elides (g : Graph) (id : NodeId) (source : Output) (gone : List NodeId)
    (heir : Node.Content) (g' : Graph) : Prop where
  header_eq : g'.header = { g.header with released := g.released + gone.length }
  nodup : gone.Nodup
  contains_iff : ∀ j, g'.contains j ↔ g.contains j ∧ j ∉ gone
  /-- What has read the node reads `source`. -/
  moved : ∀ i, g.source? i = some ⟨id, 0⟩ → g'.source? i = some source
  /-- Every other input of a node that is still there reads what it did. -/
  kept : ∀ i, i.node ∉ gone → g.source? i ≠ some ⟨id, 0⟩ → g'.source? i = g.source? i
  /-- The readers that have moved come last among those of `source`, in their order. -/
  targets : ∀ v, v.node ∉ gone → v ≠ ⟨id, 0⟩ → g'.targets? v = (g.targets? v).map fun ts =>
    ts.filter (·.node ∉ gone) ++ if v = source then g.readers ⟨id, 0⟩ else []
  /-- Names and metadata change on the node of `source` alone. -/
  content : ∀ j, j ∉ gone → g'.content? j = if j = source.node then some heir else g.content? j
  /-- The node goes.  A parameter reads nothing, so it cannot be bypassed; what passes for one stays, as
  it is on the boundary. -/
  removed : id ∈ gone ↔ g.kind? id ≠ some .parameter
  /-- Other nodes go with it if they are off the boundary and nothing is left that reads them. -/
  further : ∀ j, j ≠ id → (j ∈ gone ↔ g.Internal j ∧ (∃ c ∈ gone, g.Produces j c) ∧
    (∀ c, g.Produces j c → c ∈ gone) ∧ (j = source.node → ∀ c, ¬ g.Produces id c))
  /-- Whatever goes with it, the node hangs on. -/
  upstream : ∀ j ∈ gone, j ≠ id → TransGen g.Produces j id

/-! ### The check -/

theorem exists_targets?_of_length (hn : g.node? id = some n) (hlen : n.outputs.length = 1) :
    ∃ ts, g.targets? ⟨id, 0⟩ = some ts := by
  obtain ⟨s, hs⟩ := List.length_eq_one_iff.1 hlen
  refine ⟨s.targets, ?_⟩
  rw [targets?, hn, Option.bind_some, hs]
  rfl

theorem WellFormed.source?_of_produces (hwf : g.WellFormed) (hn : g.node? id = some n)
    (hlen : n.outputs.length = 1) (hc : g.Produces id c) :
    ∃ i, i.node = c ∧ g.source? i = some ⟨id, 0⟩ := by
  obtain ⟨i, ⟨node, k⟩, hi, hv, rfl⟩ := produces_iff_source.1 hc
  have hlt : k < n.outputs.length := Edit.lt_length_outputs hwf hv hn
  obtain rfl : k = 0 := by omega
  exact ⟨i, hi, hv⟩

/-- The program asks the readers of the only output. -/
theorem WellFormed.feedsResult_eq (hwf : g.WellFormed) (hn : g.node? id = some n)
    (hlen : n.outputs.length = 1) :
    ∃ feeds, g.feedsResult id = .ok feeds ∧ (feeds = true ↔ g.FeedsResult id) := by
  obtain ⟨ts, hts⟩ := exists_targets?_of_length hn hlen
  refine ⟨ts.any fun i => g.isKind i.node .result, ?_, ?_⟩
  · rw [feedsResult, targets_eq_ok.2 hts]
    rfl
  · simp only [List.any_eq_true, isKind_iff]
    constructor
    · rintro ⟨i, hi, hkind⟩
      exact ⟨i.node, produces_of_source? (hwf.target_reads hts hi), hkind⟩
    · rintro ⟨c, hc, hkind⟩
      obtain ⟨i, rfl, hi⟩ := hwf.source?_of_produces hn hlen hc
      exact ⟨i, hwf.mem_targets hts hi, hkind⟩

theorem canBypass_of_source? (hn : g.node? id = some n) (hlen : n.outputs.length = 1)
    (hsource : g.source? ⟨id, index⟩ = some source) {feeds : Bool}
    (hfeeds : g.feedsResult id = .ok feeds) : g.canBypass id index =
      .ok (!feeds || !g.isKind source.node .parameter && g.consumerCount source == 1) := by
  have hread : n.source index = .ok source := by
    have hquery := source_eq_ok.2 hsource
    rwa [Graph.source, node_eq_ok.2 hn] at hquery
  rw [canBypass, node_eq_ok.2 hn]
  show (if n.outputs.length ≠ 1 then _ else _) = _
  rw [if_neg (not_not.2 hlen), hread, hfeeds]
  cases feeds <;> rfl

/-- The check refuses exactly what is withheld. -/
theorem WellFormed.canBypass_eq (hwf : g.WellFormed) (hn : g.node? id = some n)
    (hlen : n.outputs.length = 1) (hsource : g.source? ⟨id, index⟩ = some source) :
    ∃ allowed, g.canBypass id index = .ok allowed ∧
      (allowed = false ↔ g.Withheld ⟨id, index⟩ source) := by
  obtain ⟨feeds, hfeeds, hresult⟩ := hwf.feedsResult_eq hn hlen
  have hcount : g.consumerCount source = 1 ↔ ¬ ∃ j, j ≠ ⟨id, index⟩ ∧ g.source? j = some source := by
    constructor
    · rintro h ⟨j, hne, hj⟩
      exact hne (hwf.eq_of_consumerCount h hj hsource)
    · intro h
      exact hwf.consumerCount_eq_one hsource fun j hj => by_contra fun hne => h ⟨j, hne, hj⟩
  refine ⟨_, canBypass_of_source? hn hlen hsource hfeeds, ?_⟩
  rw [Withheld, ← hresult, ← isKind_iff]
  cases feeds
  · simp
  · simp only [Bool.not_true, Bool.false_or, true_and, Bool.and_eq_false_iff, beq_eq_false_iff_ne,
      ne_eq, hcount, not_not, Bool.not_eq_false']

/-! ### Before the release -/

/-- `g'` is `g` after what has read the node `id` has moved to `source`, and `heir` is what the node of
`source` holds then. -/
structure Hands (g : Graph) (id : NodeId) (source : Output) (heir : Node.Content) (g' : Graph) :
    Prop where
  diverts : g.Diverts id (fun _ => source) g'
  name_eq : g'.name = g.name
  content : ∀ j, g'.content? j = if j = source.node then some heir else g.content? j
  targets : ∀ v, v ≠ ⟨id, 0⟩ → g'.targets? v = (g.targets? v).map fun ts =>
    ts ++ if v = source then g.readers ⟨id, 0⟩ else []

/-- The node of `source` gets another name or other metadata. -/
theorem Hands.modifyNode (h : g.Hands id source heir g') {f : Node → Node}
    {φ : Node.Content → Node.Content} (hf : ∀ n, (f n).id = n.id ∧ (f n).op = n.op ∧
      (f n).inputs = n.inputs ∧ (f n).outputs = n.outputs)
    (hφ : ∀ n, (f n).content = φ n.content) :
    g.Hands id source (φ heir) (g'.modifyNode source.node f) where
  diverts := h.diverts.modifyNode hf
  name_eq := h.name_eq
  content := by
    intro j
    rw [content?_modifyNode hφ, h.content]
    split
    · rfl
    · exact Option.map_id'
  targets := by
    intro v hv
    rw [targets?_modifyNode_eq fun n _ => congrArg (List.map _) (hf n).2.2.2, h.targets v hv]

theorem Hands.header_eq (h : g.Hands id source heir g') : g'.header = g.header := by
  rw [header, header, h.name_eq, h.diverts.size_eq, h.diverts.parameters_eq, h.diverts.results_eq,
    h.diverts.released_eq]

/-! ### The release -/

theorem Hands.produces_iff (h : g.Hands id source heir g') :
    g'.Produces p c ↔ g.Produces p c ∧ p ≠ id ∨ p = source.node ∧ g.Produces id c := by
  constructor
  · intro hp
    obtain ⟨i, u, rfl, hu, rfl⟩ := produces_iff_source.1 hp
    rw [h.diverts.source?_eq] at hu
    obtain ⟨v, hv, rfl⟩ := Option.map_eq_some_iff.1 hu
    have hread := produces_of_source? hv
    rw [divert]
    split
    next hnode => exact Or.inr ⟨rfl, hnode ▸ hread⟩
    next hnode => exact Or.inl ⟨hread, hnode⟩
  · rintro (⟨hp, hne⟩ | ⟨rfl, hp⟩)
    · obtain ⟨i, v, rfl, hv, rfl⟩ := produces_iff_source.1 hp
      refine produces_iff_source.2 ⟨i, v, rfl, ?_, rfl⟩
      rw [h.diverts.source?_eq, hv, Option.map_some, divert, if_neg hne]
    · obtain ⟨i, v, rfl, hv, hnode⟩ := produces_iff_source.1 hp
      refine produces_iff_source.2 ⟨i, source, rfl, ?_, rfl⟩
      rw [h.diverts.source?_eq, hv, Option.map_some, divert, if_pos hnode]

theorem Hands.internal_iff (h : g.Hands id source heir g') : g'.Internal j ↔ g.Internal j := by
  rw [Internal, Internal, h.diverts.contains_eq, h.diverts.parameters_eq, h.diverts.results_eq]

theorem Acyclic.not_upstream (hacyclic : g.Acyclic) (hc : g.Produces id c) :
    ¬ (c = id ∨ TransGen g.Produces c id) := by
  rintro (rfl | hpath)
  · exact hacyclic c (.single hc)
  · exact hacyclic id (.head hc hpath)

/-- What goes with a node, the node has hung on before. -/
theorem Hands.upstream (h : g.Hands id source heir g') (hacyclic : g.Acyclic)
    (hj : g'.Expendable [id] j) : j = id ∨ TransGen g.Produces j id := by
  induction hj with
  | listed _ hid => exact Or.inl (List.mem_singleton.1 hid)
  | producer _ hp _ _ ihc =>
    rcases h.produces_iff.1 hp with ⟨hp, -⟩ | ⟨-, hreader⟩
    · rcases ihc with rfl | hpath
      · exact Or.inr (.single hp)
      · exact Or.inr (.head hp hpath)
    · exact absurd ihc (hacyclic.not_upstream hreader)

/-- **The readers of a node stay when it goes.** -/
theorem Hands.not_expendable_of_reader (h : g.Hands id source heir g') (hacyclic : g.Acyclic)
    (hc : g.Produces id c) : ¬ g'.Expendable [id] c := fun hgone =>
  hacyclic.not_upstream hc (h.upstream hacyclic hgone)

/-- The node itself goes unless it belongs to the boundary. -/
theorem Hands.expendable_self_iff (h : g.Hands id source heir g') (hnode : source.node ≠ id) :
    g'.Expendable [id] id ↔ g.Internal id := by
  rw [Expendable.iff, h.internal_iff]
  refine and_iff_left ⟨Or.inl (List.mem_singleton_self id), fun c hc => ?_⟩
  exact absurd hc (h.diverts.not_produces (fun _ _ _ _ => hnode) c)

/-- **What goes besides the node can be told from the graph before the bypass.** -/
theorem Hands.expendable_iff (h : g.Hands id source heir g') (hacyclic : g.Acyclic) (hj : j ≠ id) :
    g'.Expendable [id] j ↔ g.Internal j ∧ (∃ c, g'.Expendable [id] c ∧ g.Produces j c) ∧
      (∀ c, g.Produces j c → g'.Expendable [id] c) ∧
      (j = source.node → ∀ c, ¬ g.Produces id c) := by
  have hstays : ∀ {c}, g.Produces id c → ¬ g'.Expendable [id] c :=
    h.not_expendable_of_reader hacyclic
  rw [Expendable.iff, h.internal_iff]
  simp only [h.produces_iff]
  constructor
  · rintro ⟨hi, hlisted, hall⟩
    have hfresh : j = source.node → ∀ c, ¬ g.Produces id c := fun hsource c hc =>
      hstays hc (hall c (Or.inr ⟨hsource, hc⟩))
    obtain ⟨c, hc, ⟨hp, -⟩ | ⟨-, hp⟩⟩ := hlisted.resolve_left (mt List.mem_singleton.1 hj)
    · exact ⟨hi, ⟨c, hc, hp⟩, fun c hp => hall c (Or.inl ⟨hp, hj⟩), hfresh⟩
    · exact absurd hc (hstays hp)
  · rintro ⟨hi, ⟨c, hc, hp⟩, hall, hfresh⟩
    refine ⟨hi, Or.inr ⟨c, hc, Or.inl ⟨hp, hj⟩⟩, fun c hc => ?_⟩
    rcases hc with ⟨hp, -⟩ | ⟨hsource, hp⟩
    · exact hall c hp
    · exact absurd hp (hfresh hsource c)

theorem WellFormed.source?_of_mem_readers (hwf : g.WellFormed) {i : Input} {v : Output}
    (hi : i ∈ g.readers v) : g.source? i = some v := by
  rw [readers] at hi
  cases hts : g.targets? v with
  | none =>
    rw [hts] at hi
    cases hi
  | some ts =>
    rw [hts] at hi
    exact hwf.target_reads hts hi

/-- What the release makes of the graph. -/
theorem Hands.elides (h : g.Hands id source heir g') (hwf : g.WellFormed) (hacyclic : g.Acyclic)
    (hn : g.node? id = some n) (hlen : n.outputs.length = 1) (hid : id ∉ g.results)
    (hnode : source.node ≠ id) :
    ∃ gone, g'.release [id] = g'.without gone ∧ g.Elides id source gone heir (g'.without gone) := by
  obtain ⟨gone, hnodup, hgone, hrelease⟩ := exists_release h.diverts.wellFormed [id]
  have hstays : ∀ i, g.source? i = some ⟨id, 0⟩ → i.node ∉ gone := fun i hi hmem =>
    h.not_expendable_of_reader hacyclic (produces_of_source? hi) ((hgone _).1 hmem)
  refine ⟨gone, hrelease, ?_⟩
  constructor
  case header_eq =>
    rw [← h.header_eq, ← h.diverts.released_eq, header, size_without]
    rfl
  case nodup => exact hnodup
  case contains_iff =>
    intro j
    rw [contains_without, h.diverts.contains_eq]
    exact and_comm
  case moved =>
    intro i hi
    rw [source?_without, if_neg (hstays i hi), h.diverts.source?_eq, hi, Option.map_some, divert,
      if_pos rfl]
  case kept =>
    intro i hi hne
    rw [source?_without, if_neg hi, h.diverts.source?_eq]
    cases hv : g.source? i with
    | none => rfl
    | some v =>
      rw [Option.map_some, divert, if_neg]
      intro hread
      have hlt := Edit.lt_length_outputs hwf hv (hread ▸ hn)
      have hindex : v.index = 0 := by omega
      exact hne (by rw [hv, ← hread, ← hindex])
  case targets =>
    intro v hv hne
    rw [targets?_without, if_neg hv, h.targets v hne, Option.map_map]
    refine congrArg (Option.map · (g.targets? v)) (funext fun ts => ?_)
    have hreaders : (g.readers ⟨id, 0⟩).filter (·.node ∉ gone) = g.readers ⟨id, 0⟩ :=
      List.filter_eq_self.2 fun i hi => by simpa using hstays i (hwf.source?_of_mem_readers hi)
    rw [Function.comp_apply, List.filter_append]
    split
    · rw [hreaders]
    · rw [List.filter_nil]
  case content =>
    intro j hj
    rw [content?_without hj, h.content]
  case removed =>
    rw [hgone, h.expendable_self_iff hnode, Internal, hwf.mem_parameters]
    exact ⟨fun hi => hi.2.1, fun hkind => ⟨contains_iff.2 ⟨n, hn⟩, hkind, hid⟩⟩
  case further =>
    intro j hj
    simp only [hgone]
    exact h.expendable_iff hacyclic hj
  case upstream =>
    intro j hj hne
    exact (h.upstream hacyclic ((hgone j).1 hj)).resolve_left hne

end Graph

namespace Edit

open OpGraph.Graph

variable {g : Graph} {id : NodeId} {index : Nat} {source : Output} {n m : Node}

/-- Everything that reads the node moves. -/
theorem forM_connect_hands (hwf : g.WellFormed) (hacyclic : g.Acyclic) (hn : g.node? id = some n)
    (hlen : n.outputs.length = 1) (hsource : g.source? ⟨id, index⟩ = some source)
    (hm : g.node? source.node = some m) :
    ∃ ts g₁, g.targets? ⟨id, 0⟩ = some ts ∧ ts.forM (connect · source) g = .ok () g₁ ∧
      g.Hands id source m.content g₁ := by
  obtain ⟨ts, hts⟩ := exists_targets?_of_length hn hlen
  obtain ⟨hnode, hlive⟩ := hwf.source_exists hsource
  have hne : (⟨id, 0⟩ : Output) ≠ source := fun h => hnode (congrArg Output.node h).symm
  have hreads : ∀ i ∈ ts, g.source? i = some ⟨id, 0⟩ := fun i hi => hwf.target_reads hts hi
  -- a reader at `source` would be on a cycle through the node
  have hapart : ∀ i ∈ ts, source.node ≠ i.node := by
    intro i hi h
    have hbehind : g.Produces id source.node := h ▸ produces_of_source? (hreads i hi)
    exact hacyclic id (.tail (.single hbehind) (produces_of_source? hsource))
  have hmove := forM_connect_eq (hwf.targets_nodup hts) hne hreads hapart hlive
  refine ⟨ts, _, hts, hmove, ?_⟩
  constructor
  case diverts => exact (ends_forM_connect_diverts hwf hts hn hlen hnode).of_ok hmove
  case name_eq => exact congrArg Header.name (moveAll_keeps (fun g i => header_rewire g i _ _) ts g)
  case content =>
    intro j
    have hkeep := moveAll_keeps (φ := (·.content? j))
      (fun g i => content?_rewire g i ⟨id, 0⟩ source j) ts g
    rw [hkeep]
    split
    next hj => rw [hj, content?_of_node? hm]
    next => rfl
  case targets =>
    intro v hv
    rw [targets?_moveAll ts hne, if_neg hv, readers, hts, Option.getD_some]
    split
    · rfl
    · simp

/-- The metadata of the node goes to the one behind it. -/
theorem copyMetadata_of_hands {g' : Graph} {heir : Node.Content} (h : g.Hands id source heir g')
    (hnode : source.node ≠ id) (hn : g.node? id = some n) :
    copyMetadata [source.node, id] [source.node] g' =
      .ok () (g'.modifyNode source.node fun x =>
        { x with metadata := x.metadata.merge (Metadata.gather [heir.metadata, n.metadata]) }) := by
  have hheir : g'.content? source.node = some heir := by rw [h.content, if_pos rfl]
  have hpassed : g'.content? id = some n.content := by
    rw [h.content, if_neg (Ne.symm hnode), content?_of_node? hn]
  obtain ⟨m', hm', rfl⟩ := Option.map_eq_some_iff.1 hheir
  obtain ⟨n', hn', hcontent⟩ := Option.map_eq_some_iff.1 hpassed
  have hmetadata : n'.metadata = n.metadata := congrArg Node.Content.metadata hcontent
  rw [copyMetadata_of_nodes (.cons hm' (.cons hn' .nil))
    (List.forall_mem_singleton.2 (contains_iff.2 ⟨m', hm'⟩))]
  simp only [List.map_cons, List.map_nil, hmetadata]
  rfl

/-- A bypass that is not refused hands the readers, and to a result the label, on to what the node reads, and
releases the node. -/
theorem bypass_hands (hwf : g.WellFormed) (hacyclic : g.Acyclic) (hn : g.node? id = some n)
    (hlen : n.outputs.length = 1) (hsource : g.source? ⟨id, index⟩ = some source)
    (hm : g.node? source.node = some m) (hallowed : g.canBypass id index = .ok true) :
    ∃ heir g₂, g.Hands id source heir g₂ ∧ bypass id index g = .ok true (g₂.release [id]) ∧
      (g.FeedsResult id → heir = m.content.succeed n.content) ∧
      (¬ g.FeedsResult id → heir = m.content) := by
  obtain ⟨ts, g₁, hts, hmove, h₁⟩ := forM_connect_hands hwf hacyclic hn hlen hsource hm
  obtain ⟨feeds, hfeeds, hresult⟩ := hwf.feedsResult_eq hn hlen
  have hstart {r : EStateM.Result GraphError Graph Bool} (h : (do
      if feeds then
        setName source.node n.friendlyName
        copyMetadata [source.node, id] [source.node]
      let _ ← release [id]
      return true : Edit Bool) g₁ = r) : bypass id index g = r := by
    refine (bind_of_ok (query_of_ok hallowed)).trans ?_
    refine (bind_of_ok (query_of_ok (node_eq_ok.2 hn))).trans ?_
    refine (bind_of_ok (query_of_ok (source_eq_ok.2 hsource))).trans ?_
    refine (bind_of_ok (query_of_ok hfeeds)).trans ?_
    refine (bind_of_ok (query_of_ok (targets_eq_ok.2 hts))).trans ?_
    exact (bind_of_ok hmove).trans h
  cases feeds with
  | false =>
    have hno : ¬ g.FeedsResult id := mt hresult.2 Bool.false_ne_true
    exact ⟨m.content, g₁, h₁, hstart rfl, fun h => absurd h hno, fun _ => rfl⟩
  | true =>
    have hlive : g₁.contains source.node := by
      rw [h₁.diverts.contains_eq]
      exact contains_iff.2 ⟨m, hm⟩
    have h₂ := h₁.modifyNode (f := fun x => { x with givenName := some n.friendlyName })
      (φ := fun c => { c with givenName := some n.friendlyName }) (fun _ => ⟨rfl, rfl, rfl, rfl⟩)
      fun _ => rfl
    have h₃ := h₂.modifyNode (f := fun x =>
        { x with metadata := x.metadata.merge (Metadata.gather [m.metadata, n.metadata]) })
      (φ := fun c =>
        { c with metadata := c.metadata.merge (Metadata.gather [m.metadata, n.metadata]) })
      (fun _ => ⟨rfl, rfl, rfl, rfl⟩) fun _ => rfl
    have hcopy := copyMetadata_of_hands h₂ (hwf.source_exists hsource).1 hn
    refine ⟨_, _, h₃, hstart ?_, fun _ => rfl, fun h => absurd (hresult.1 rfl) h⟩
    exact (bind_of_ok (updateNode_of_contains hlive _)).trans (bind_of_ok hcopy)

/-- **The effect of a bypass.**  A node with a single output, other than a declared result, is to be bypassed
through an input in a graph without cycles.  That is refused, and nothing changes, exactly if the node is
withheld.  Otherwise the readers of the node move to what the input reads, the node goes with all that
nothing reads any more, and the node behind it takes over the name and the metadata exactly if a result is
among the readers. -/
theorem bypass_elides (hwf : g.WellFormed) (hacyclic : g.Acyclic) (hn : g.node? id = some n)
    (hlen : n.outputs.length = 1) (hid : id ∉ g.results)
    (hsource : g.source? ⟨id, index⟩ = some source) :
    (bypass id index g = .ok false g ↔ g.Withheld ⟨id, index⟩ source) ∧
      (¬ g.Withheld ⟨id, index⟩ source → ∃ g' gone m heir,
        bypass id index g = .ok true g' ∧ g.Elides id source gone heir g' ∧
        g.content? source.node = some m ∧
        (g.FeedsResult id → heir = m.succeed n.content) ∧ (¬ g.FeedsResult id → heir = m)) := by
  obtain ⟨hnode, ts, hlive⟩ := hwf.source_exists hsource
  obtain ⟨m, hm⟩ := contains_iff.1 (contains_of_targets? hlive)
  obtain ⟨allowed, hallowed, hiff⟩ := hwf.canBypass_eq hn hlen hsource
  cases allowed with
  | false =>
    have hrefused : bypass id index g = .ok false g :=
      (bind_of_ok (query_of_ok hallowed)).trans rfl
    exact ⟨iff_of_true hrefused (hiff.1 rfl), fun h => absurd (hiff.1 rfl) h⟩
  | true =>
    have hfree : ¬ g.Withheld ⟨id, index⟩ source := mt hiff.2 (by decide)
    obtain ⟨heir, g₂, hhands, hrun, hfeeds, hinner⟩ :=
      bypass_hands hwf hacyclic hn hlen hsource hm hallowed
    obtain ⟨gone, hrelease, helides⟩ := hhands.elides hwf hacyclic hn hlen hid hnode
    rw [hrelease] at hrun
    refine ⟨iff_of_false (fun h => ?_) hfree, fun _ => ?_⟩
    · cases hrun.symm.trans h
    · exact ⟨_, gone, m.content, heir, hrun, helides, content?_of_node? hm, hfeeds, hinner⟩

end Edit

namespace Graph

/-- An operation on a parameter, its product with a constant, and a result. -/
def scaledOnce : Graph :=
  let d : Desc := ⟨.f64, .ofShape [2]⟩
  ((((({ name := "scaled" } : Graph).insert (.parameter .f64 (.ofShape [2])) [] [d]).insert
    (.unary .relu) [⟨0, 0⟩] [d]).insert (.constant (.scalar .f64 1)) [] [⟨.f64, .ofShape []⟩]).insert
      (.binary .multiply .numpy) [⟨1, 0⟩, ⟨2, 0⟩] [d]).insert .result [⟨3, 0⟩] [d]

theorem wellFormed_scaledOnce : scaledOnce.WellFormed := by
  refine wellFormed_insert_singleton (wellFormed_insert (wellFormed_insert
    (wellFormed_insert_singleton (wellFormed_insert (wellFormed_empty _) (by simp)) ⟨_, rfl⟩)
    (by simp)) fun v hv => ?_) ⟨_, rfl⟩
  rcases List.mem_cons.1 hv with rfl | hv
  · exact ⟨_, rfl⟩
  · obtain rfl := List.mem_singleton.1 hv
    exact ⟨_, rfl⟩

theorem produces_scaledOnce (h : scaledOnce.Produces p c) :
    (p, c) ∈ [(0, 1), (1, 3), (2, 3), (3, 4)] := by
  have hsources : p ∈ scaledOnce.sourcesOf c := h
  match c, lt_size_of_contains (contains_of_produces_right h) with
  | 0, _ | 2, _ => cases hsources
  | 1, _ | 4, _ =>
    obtain rfl := List.mem_singleton.1 hsources
    decide
  | 3, _ =>
    rcases List.mem_cons.1 hsources with rfl | hsources
    · decide
    · obtain rfl := List.mem_singleton.1 hsources
      decide

theorem acyclic_scaledOnce : scaledOnce.Acyclic := by
  refine acyclic_of_rank (fun id => id) fun p c hp => ?_
  have hedge := produces_scaledOnce hp
  simp only [List.mem_cons, Prod.mk.injEq, List.not_mem_nil, or_false] at hedge
  rcases hedge with ⟨rfl, rfl⟩ | ⟨rfl, rfl⟩ | ⟨rfl, rfl⟩ | ⟨rfl, rfl⟩ <;> decide

end Graph

namespace Edit

open OpGraph.Graph

/-- The product is bypassed, its constant goes with it, and the operation goes by its name. -/
theorem bypass_elides_scaledOnce :
    scaledOnce.WellFormed ∧ scaledOnce.Acyclic ∧ 3 ∉ scaledOnce.results ∧
      scaledOnce.source? ⟨3, 0⟩ = some ⟨1, 0⟩ ∧ ¬ scaledOnce.Withheld ⟨3, 0⟩ ⟨1, 0⟩ ∧
      ∃ g', ∃ gone : List NodeId, bypass 3 0 scaledOnce = .ok true g' ∧ (3 ∈ gone ∧ 2 ∈ gone ∧ 1 ∉ gone) ∧
        g'.source? ⟨4, 0⟩ = some ⟨1, 0⟩ ∧ g'.targets? ⟨1, 0⟩ = some [⟨4, 0⟩] ∧
        (g'.content? 1).bind (·.givenName) = some "Multiply_3" := by
  have hsource : scaledOnce.source? ⟨3, 0⟩ = some ⟨1, 0⟩ := rfl
  obtain ⟨hrefused, hdone⟩ := bypass_elides wellFormed_scaledOnce acyclic_scaledOnce
    (show scaledOnce.node? 3 = some _ from rfl) rfl (by decide) hsource
  obtain ⟨g₁, hok⟩ : ∃ g₁, bypass 3 0 scaledOnce = .ok true g₁ := ⟨_, rfl⟩
  have hfree : ¬ scaledOnce.Withheld ⟨3, 0⟩ ⟨1, 0⟩ := fun h => by cases hok.symm.trans (hrefused.2 h)
  have hread : scaledOnce.Produces 3 4 := List.mem_singleton.2 rfl
  obtain ⟨g', gone, m, heir, hrun, h, hm, hheir, -⟩ := hdone hfree
  have hproduct : 3 ∈ gone := h.removed.2 (by decide)
  have hconstant : 2 ∈ gone := by
    refine (h.further 2 (by decide)).2 ⟨⟨rfl, by decide, by decide⟩, ⟨3, hproduct, ?_⟩, fun c hc => ?_,
      fun hsource => absurd hsource (by decide)⟩
    · exact List.mem_cons_of_mem _ (List.mem_singleton.2 rfl)
    · have hedge := produces_scaledOnce hc
      obtain rfl : c = 3 := by simpa using hedge
      exact hproduct
  have hrelu : 1 ∉ gone := fun hmem => ((h.further 1 (by decide)).1 hmem).2.2.2 rfl 4 hread
  refine ⟨wellFormed_scaledOnce, acyclic_scaledOnce, by decide, hsource, hfree, g', gone, hrun,
    ⟨hproduct, hconstant, hrelu⟩, h.moved _ rfl, ?_, ?_⟩
  · rw [h.targets ⟨1, 0⟩ hrelu (by decide)]
    have hts : scaledOnce.targets? ⟨1, 0⟩ = some [⟨3, 0⟩] := rfl
    have hreaders : scaledOnce.readers ⟨3, 0⟩ = [⟨4, 0⟩] := rfl
    simp [hts, hreaders, hproduct]
  · have hresult : scaledOnce.FeedsResult 3 := ⟨4, hread, rfl⟩
    rw [h.content 1 hrelu, if_pos rfl, hheir hresult]
    rfl

end Edit

end OpGraph
