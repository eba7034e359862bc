import OpGraph.Proofs.Edit.Rerouting
import OpGraph.Proofs.Graph.NamedBoundary

/-!
# One node takes the place of another one

Names and edges move one after the other.  On the way the graph is a `Succession`: the `heir` may have any
name, and what a result reads is what it has read, or the heir where that came from `root`.  Adding nodes,
moving readers and giving names keep a succession going (`Succession.insert`, `Succession.movable`,
`Succession.inheritable`).  Once the heir has the name of `root`, the graph presents what the first one
did (`Succession.presents`).

So does a graph after a fusion and after a bypass (`Edit.ends_fuse_presents`, `Edit.ends_bypass_presents`).
-/

namespace OpGraph

namespace Graph

/-- On the way from `g₀`, while `heir` takes the place of `root`.  The other nodes are called what they
were called.  The heir, if it is there yet, is no parameter, and its given name, if it has one, is as `φ`
says.  A result reads what it has read, or the heir where that came from `root`. -/
structure Succession (g₀ : Graph) (root heir : NodeId) (φ : Option String → Prop) (g : Graph) :
    Prop where
  wellFormed : g.WellFormed
  builtIn : g.BuiltIn
  parameters_eq : g.parameters = g₀.parameters
  results_eq : g.results = g₀.results
  kept : ∀ {id}, g₀.contains id → id ≠ heir → g.signature? id = g₀.signature? id
  named : ∀ {n}, g.node? heir = some n → n.kind ≠ .parameter ∧ φ n.givenName
  feeds : ∀ {r k v}, r ∈ g₀.results → g₀.source? ⟨r, k⟩ = some v →
    g.source? ⟨r, k⟩ = some v ∧ v.node ≠ heir ∨
      v.node = root ∧ ∃ j, g.source? ⟨r, k⟩ = some ⟨heir, j⟩

variable {g g' g₀ : Graph} {root heir : NodeId} {φ ψ : Option String → Prop}

/-- At the start no result reads the heir. -/
theorem succession_start (hwf : g.WellFormed) (hb : g.BuiltIn)
    (hread : ∀ {r k v}, r ∈ g.results → g.source? ⟨r, k⟩ = some v → v.node ≠ heir)
    (hnamed : ∀ {n}, g.node? heir = some n → n.kind ≠ .parameter ∧ φ n.givenName) :
    g.Succession root heir φ g :=
  ⟨hwf, hb, rfl, rfl, fun _ _ => rfl, hnamed, fun hr hv => Or.inl ⟨hv, hread hr hv⟩⟩

/-- A node that is still to come can be an heir. -/
theorem succession_start_of_size_le (hwf : g.WellFormed) (hb : g.BuiltIn)
    (hheir : g.nodes.size ≤ heir) : g.Succession root heir φ g := by
  have hne : ∀ {id}, g.contains id → id ≠ heir := fun hid =>
    Nat.ne_of_lt (Nat.lt_of_lt_of_le (lt_size_of_contains hid) hheir)
  refine succession_start hwf hb (fun _ hv => ?_) fun hn => ?_
  · exact hne (contains_iff.2 (hwf.exists_node_of_source? hv))
  · exact absurd rfl (hne (contains_iff.2 ⟨_, hn⟩))

namespace Succession

theorem insert (h : g₀.Succession root heir φ g) {op : Op} {inputs : List Output}
    {descs : List Desc} (hop : op.isBuiltIn) (hinfer : g.inferNew op inputs = .ok descs)
    (hkind : op.kind ≠ .parameter ∧ op.kind ≠ .result) (hsize : g₀.nodes.size ≤ g.nodes.size)
    (hnamed : g.nodes.size = heir → φ none) :
    g₀.Succession root heir φ (g.insert op inputs descs) where
  wellFormed := wellFormed_insert h.wellFormed fun v hv =>
    Edit.exists_targets_of_inferNew hinfer hv
  builtIn := h.builtIn.insert hop hinfer
  parameters_eq := (parameters_insert _ _ _ hkind.1).trans h.parameters_eq
  results_eq := (results_insert _ _ _ hkind.2).trans h.results_eq
  kept := by
    intro id hid hne
    rw [signature?_insert, h.kept hid hne]
    exact Nat.ne_of_lt (Nat.lt_of_lt_of_le (lt_size_of_contains hid) hsize)
  named := by
    intro n hn
    by_cases hheir : heir = g.nodes.size
    · rw [node?_insert, if_pos hheir, Option.some.injEq] at hn
      subst hn
      exact ⟨hkind.1, hnamed hheir.symm⟩
    · obtain ⟨m, hm, hs⟩ := exists_of_signature? (signature?_insert hheir) hn
      obtain ⟨hp, hφ⟩ := h.named hm
      exact ⟨Node.kind_eq_of_signature hs ▸ hp, Node.givenName_eq_of_signature hs ▸ hφ⟩
  feeds := by
    intro r k v hr hv
    have hne : r ≠ g.nodes.size := Nat.ne_of_lt (Nat.lt_of_lt_of_le
      (lt_size_of_contains (contains_of_source? hv)) hsize)
    rw [source?_insert, if_neg hne]
    exact h.feeds hr hv

/-- A new constant has no name. -/
theorem insert_constant (hwf : g.WellFormed) (hb : g.BuiltIn) (hheir : g.nodes.size ≤ heir)
    (root : NodeId) (t : Tensor) :
    g.Succession root heir (· = none) (g.insert (.constant t) [] [t.desc]) :=
  (succession_start_of_size_le hwf hb hheir).insert rfl rfl (Op.constant_declares_nothing t)
    (Nat.le_refl _) fun _ => rfl

/-- A reader of the root may move to the heir, and a value that no result reads may be left by its
readers. -/
theorem movable {old new : Output} (hold : old.node = root) (hroot : root ≠ heir)
    (h : new.node = heir ∨ ∀ r ∈ g₀.results, ∀ k, g₀.source? ⟨r, k⟩ ≠ some old) :
    Edit.Movable (g₀.Succession root heir φ) old new := by
  intro g i hg hi hne hnode hnew
  refine ⟨wellFormed_rewire hg.wellFormed hi hne hnode hnew, hg.builtIn.rewire i old new,
    hg.parameters_eq, hg.results_eq, fun hid hid' => ?_, fun {n} hn => ?_, fun {r k v} hr hv => ?_⟩
  · rw [signature?_rewire, hg.kept hid hid']
  · obtain ⟨m, hm, hs⟩ := exists_of_signature? (signature?_rewire g i old new heir) hn
    obtain ⟨hp, hφ⟩ := hg.named hm
    exact ⟨Node.kind_eq_of_signature hs ▸ hp, Node.givenName_eq_of_signature hs ▸ hφ⟩
  · have hfeeds := hg.feeds hr hv
    rw [source?_rewire]
    split
    next hri =>
      -- the result reads the root, so it is the heir that it reads next
      rw [hri, hi] at hfeeds
      rcases hfeeds with ⟨hsame, -⟩ | ⟨-, j, hj⟩
      · obtain rfl := Option.some.inj hsame
        rcases h with h | h
        · exact Or.inr ⟨hold, new.index, by rw [hri, hi, ← h, Option.map_some]⟩
        · exact absurd hv (h r hr k)
      · exact absurd (hold.symm.trans (congrArg Output.node (Option.some.inj hj))) hroot
    next => exact hfeeds

/-- A change that leaves edges alone, and the names of all nodes but the heir. -/
theorem of_signature (h : g₀.Succession root heir φ g) (hrestricts : g'.Restricts g)
    (hsignature : ∀ {id}, id ≠ heir → g'.signature? id = g.signature? id)
    (hnamed : ∀ {n}, g'.node? heir = some n → n.kind ≠ .parameter ∧ ψ n.givenName) :
    g₀.Succession root heir ψ g' where
  wellFormed := hrestricts.wellFormed
  builtIn := h.builtIn.restrict hrestricts
  parameters_eq := hrestricts.parameters_eq.trans h.parameters_eq
  results_eq := hrestricts.results_eq.trans h.results_eq
  kept hid hne := (hsignature hne).trans (h.kept hid hne)
  named := hnamed
  feeds := by
    intro r k v hr hv
    rw [hrestricts.source?_result (h.results_eq ▸ hr)]
    exact h.feeds hr hv

theorem imp (h : g₀.Succession root heir φ g) (hφ : ∀ name, φ name → ψ name) :
    g₀.Succession root heir ψ g :=
  h.of_signature h.wellFormed.restricts (fun _ => rfl) fun hn =>
    ⟨(h.named hn).1, hφ _ (h.named hn).2⟩

theorem annotate (h : g₀.Succession root heir φ g) (id : NodeId) (f : Node → Metadata) :
    g₀.Succession root heir φ (g.modifyNode id fun n => { n with metadata := f n }) := by
  have hsignature (j : NodeId) :
      (g.modifyNode id fun n => { n with metadata := f n }).signature? j = g.signature? j := by
    apply signature?_modifyNode_eq
    intro n
    rfl
  refine h.of_signature (restricts_modifyNode h.wellFormed fun _ => ⟨rfl, rfl, rfl, rfl⟩)
    (fun _ => hsignature _) fun hn => ?_
  obtain ⟨m, hm, hs⟩ := exists_of_signature? (hsignature heir) hn
  obtain ⟨hp, hφ⟩ := h.named hm
  exact ⟨Node.kind_eq_of_signature hs ▸ hp, Node.givenName_eq_of_signature hs ▸ hφ⟩

/-- The heir gets a name. -/
theorem rename (h : g₀.Succession root heir φ g) {name : String} (hψ : ψ (some name)) :
    g₀.Succession root heir ψ
      (g.modifyNode heir fun n => { n with givenName := some name }) := by
  refine h.of_signature (restricts_modifyNode h.wellFormed fun _ => ⟨rfl, rfl, rfl, rfl⟩)
    (fun hne => signature?_modifyNode_of_ne (Ne.symm hne) _ g) fun hn => ?_
  rw [node?_modifyNode, if_pos rfl] at hn
  obtain ⟨m, hm, rfl⟩ := Option.map_eq_some_iff.1 hn
  exact ⟨(h.named hm).1, hψ⟩

/-- The root is called what it was called. -/
theorem friendlyName_root (h : g₀.Succession root heir φ g) (hroot : root ≠ heir) {n n₀ : Node}
    (hn₀ : g₀.node? root = some n₀) (hn : g.node? root = some n) :
    n.friendlyName = n₀.friendlyName := by
  obtain ⟨m, hm, hs⟩ := exists_of_signature? (h.kept (contains_iff.2 ⟨n₀, hn₀⟩) hroot) hn
  obtain rfl := Option.some.inj (hn₀.symm.trans hm)
  exact Node.friendlyName_eq_of_signature hs

/-- The heir may take over a name that the root has been given. -/
theorem inheritable (hroot : root ≠ heir) {n₀ : Node} (hn₀ : g₀.node? root = some n₀)
    (hφ : φ (some n₀.friendlyName)) :
    Edit.Inheritable (g₀.Succession root heir φ) root heir where
  wellFormed h := h.wellFormed
  annotate h := h.annotate _ _
  inherit := by
    intro g g' n name h hn hname h'
    have hsame : name = n₀.friendlyName :=
      (Node.friendlyName_of_givenName hname).symm.trans (h.friendlyName_root hroot hn₀ hn)
    exact h'.rename (hsame ▸ hφ)

/-- So it may once it has been given that name. -/
theorem inheritable_named (hroot : root ≠ heir) {n₀ : Node} (hn₀ : g₀.node? root = some n₀) :
    Edit.Inheritable (g₀.Succession root heir (· = some n₀.friendlyName)) root heir :=
  inheritable hroot hn₀ rfl

/-- **At the end the heir has the name of the root**, unless no result has read the root. -/
theorem presents (h : g₀.Succession root heir φ g)
    (hname : ∀ {r k v n₀ n}, r ∈ g₀.results → g₀.source? ⟨r, k⟩ = some v → v.node = root →
      g₀.node? root = some n₀ → g.node? heir = some n → φ n.givenName →
        n.friendlyName = n₀.friendlyName)
    (hwf : g₀.WellFormed) : g.Presents g₀ where
  wellFormed := h.wellFormed
  builtIn := h.builtIn
  parameters_eq := h.parameters_eq
  results_eq := h.results_eq
  feeds := by
    intro r k v hr hv
    obtain ⟨n₀, hn₀⟩ := hwf.exists_node_of_source? hv
    rcases h.feeds hr hv with ⟨hv', hne⟩ | ⟨hroot, j, hv'⟩
    · obtain ⟨n, hn⟩ := h.wellFormed.exists_node_of_source? hv'
      obtain ⟨m, hm, hs⟩ := exists_of_signature? (h.kept (contains_iff.2 ⟨n₀, hn₀⟩) hne) hn
      obtain rfl := Option.some.inj (hn₀.symm.trans hm)
      refine ⟨v, n₀, n, hv', hn₀, hn, Node.friendlyName_eq_of_signature hs, fun hp => ?_⟩
      exact (Node.kind_eq_of_signature hs).symm.trans hp
    · obtain ⟨n, hn⟩ := h.wellFormed.exists_node_of_source? hv'
      obtain ⟨hp, hφ⟩ := h.named hn
      exact ⟨⟨heir, j⟩, n₀, n, hv', hn₀, hn, hname hr hv hroot (hroot ▸ hn₀) hn hφ,
        fun hkind => absurd hkind hp⟩

/-- A heir that has been given the name of the root. -/
theorem presents_of_named {n₀ : Node} (hn₀ : g₀.node? root = some n₀)
    (h : g₀.Succession root heir (· = some n₀.friendlyName) g) (hwf : g₀.WellFormed) :
    g.Presents g₀ := by
  refine h.presents (fun _ _ _ hm _ hname => ?_) hwf
  obtain rfl := Option.some.inj (hn₀.symm.trans hm)
  exact Node.friendlyName_of_givenName hname

end Succession

end Graph

namespace Edit

open OpGraph.Graph (Succession)

variable {g g₀ : Graph} {root heir : NodeId} {φ : Option String → Prop}

theorem ends_setName_succession (h : g₀.Succession root heir φ g) (name : String) :
    Ends (g₀.Succession root heir (· = some name)) Anything (setName heir name g) := by
  obtain ⟨err, he⟩ | ⟨-, hok⟩ := updateNode_cases heir
    (fun n => { n with givenName := some name }) g
  · rw [setName, he]
    trivial
  · rw [setName, hok]
    exact h.rename rfl

theorem ends_annotate (h : g₀.Succession root heir φ g) (id : NodeId) (f : Node → Metadata) :
    Ends (g₀.Succession root heir φ) Anything
      (updateNode id (fun n => { n with metadata := f n }) g) := by
  obtain ⟨err, he⟩ | ⟨-, hok⟩ := updateNode_cases id (fun n => { n with metadata := f n }) g
  · rw [he]
    trivial
  · rw [hok]
    exact h.annotate id f

/-- Where the heir has no name at the end of a fusion, it gets that of the root. -/
theorem ends_fuse_presents (hwf : g₀.WellFormed) {n₀ : Node} (hn₀ : g₀.node? root = some n₀)
    (hroot : root ≠ heir) (h : g₀.Succession root heir (· = none) g) (group : List NodeId) :
    Ends (·.Presents g₀) Anything (fuse group root heir g) := by
  -- the heir has no name yet, or the name that the root has been given
  have hinherits : Inheritable (g₀.Succession root heir
      fun name => name = none ∨ name = some n₀.friendlyName) root heir :=
    Succession.inheritable hroot hn₀ (Or.inr rfl)
  have hstart : g₀.Succession root heir
      (fun name => name = none ∨ name = some n₀.friendlyName) g := h.imp fun _ => Or.inl
  rw [fuse]
  refine ends_then (keeps_mapM (fun _ _ => keeps_asking _) g hstart) fun sets g₁ h₁ => ?_
  refine ends_query_bind fun n hn => ?_
  have hname := h₁.friendlyName_root hroot hn₀ (Graph.node_eq_ok.1 hn)
  refine ends_then (keeps_copyMetadata_of_inheritable hinherits group [heir] g₁ h₁)
    fun _ g₂ h₂ => ?_
  refine ends_then (keeps_replaceNode_of_inheritable hinherits (fun k => ?_) g₂ h₂)
    fun _ g₃ h₃ => ?_
  · exact Succession.movable rfl hroot (Or.inl rfl)
  refine ends_then (ends_annotate h₃ heir _) fun _ g₄ h₄ => ?_
  refine ends_query_bind fun m hm => ?_
  split
  · rw [hname]
    exact (ends_setName_succession h₄ _).imp fun _ h₅ => h₅.presents_of_named hn₀ hwf
  next hgiven =>
    -- the name that the heir has is the one it has taken over
    refine h₄.presents (fun _ _ _ hn₁ hm₁ hφ => ?_) hwf
    obtain rfl := Option.some.inj (hn₀.symm.trans hn₁)
    obtain rfl := Option.some.inj ((Graph.node_eq_ok.1 hm).symm.trans hm₁)
    exact Node.friendlyName_of_givenName (hφ.resolve_left hgiven)

end Edit

/-! ### Bypassing -/

namespace Graph

variable {g : Graph}

theorem isKind_iff {id : NodeId} {kind : Kind} : g.isKind id kind ↔ g.kind? id = some kind := by
  rw [isKind, op?, kind?]
  cases g.node? id with
  | none => simp
  | some n => simp [Node.kind]

theorem feedsResult_eq_ok {id : NodeId} {feeds : Bool} (h : g.feedsResult id = .ok feeds) :
    ∃ ts, g.targets? ⟨id, 0⟩ = some ts ∧ feeds = ts.any fun i => g.isKind i.node .result := by
  obtain ⟨ts, hts, hfeeds⟩ := except_bind_eq_ok.1 h
  exact ⟨ts, targets_eq_ok.1 hts, (Except.ok.inj hfeeds).symm⟩

/-- Where the answer is no, no result reads the node. -/
theorem WellFormed.source?_ne_of_feedsResult (hwf : g.WellFormed) {id : NodeId}
    (h : g.feedsResult id = .ok false) {r : NodeId} (hr : r ∈ g.results) (k : Nat) :
    g.source? ⟨r, k⟩ ≠ some ⟨id, 0⟩ := by
  intro hv
  obtain ⟨ts, hts, hfeeds⟩ := feedsResult_eq_ok h
  have hmem := hwf.mem_targets hts hv
  have hno := List.any_eq_false.1 hfeeds.symm _ hmem
  exact hno (isKind_iff.2 (hwf.kind_of_mem_results hr))

/-- A value with a single reader is read there only. -/
theorem WellFormed.eq_of_consumerCount (hwf : g.WellFormed) {v : Output}
    (h : g.consumerCount v = 1) {i j : Input} (hi : g.source? i = some v)
    (hj : g.source? j = some v) : i = j := by
  obtain ⟨-, ts, hts⟩ := hwf.source_exists hi
  rw [consumerCount, targets_eq_ok.2 hts] at h
  obtain ⟨t, rfl⟩ := List.length_eq_one_iff.1 h
  rw [List.mem_singleton.1 (hwf.mem_targets hts hi), List.mem_singleton.1 (hwf.mem_targets hts hj)]

/-- A value that is read in a single place has a single reader. -/
theorem WellFormed.consumerCount_eq_one (hwf : g.WellFormed) {v : Output} {i : Input}
    (hi : g.source? i = some v) (hlone : ∀ j, g.source? j = some v → j = i) :
    g.consumerCount v = 1 := by
  obtain ⟨ts, hts, hcount⟩ := hwf.source_listed hi
  have hall : ∀ j ∈ ts, j = i := fun j hj => hlone j (hwf.target_reads hts hj)
  rw [consumerCount, targets_eq_ok.2 hts, ← hcount]
  exact (List.count_eq_length.2 fun j hj => (hall j hj).symm).symm

/-- What a bypass has checked. -/
theorem canBypass_eq_ok {id : NodeId} {index : Nat} (h : g.canBypass id index = .ok true) :
    ∃ source feeds, g.source? ⟨id, index⟩ = some source ∧ g.feedsResult id = .ok feeds ∧
      (feeds → ¬ g.isKind source.node .parameter ∧ g.consumerCount source = 1) := by
  obtain ⟨n, hn, h⟩ := except_bind_eq_ok.1 h
  split at h
  · cases h
  obtain ⟨source, hsource, h⟩ := except_bind_eq_ok.1 h
  obtain ⟨feeds, hfeeds, h⟩ := except_bind_eq_ok.1 h
  refine ⟨source, feeds, source_eq_ok.1 ?_, hfeeds, fun hyes => ?_⟩
  · rw [Graph.source, hn]
    exact hsource
  · rw [if_pos hyes] at h
    simpa using Except.ok.inj h

/-- What is read is the only output of its node. -/
theorem BuiltIn.index_eq_zero (hb : g.BuiltIn) (hwf : g.WellFormed) {i : Input} {v : Output}
    (hv : g.source? i = some v) : v.index = 0 := by
  obtain ⟨n, hn⟩ := hwf.exists_node_of_source? hv
  have hlt := Edit.lt_length_outputs hwf hv hn
  have hlen := (hb (view?_eq_some.2 ⟨n, hn, rfl⟩)).2
  rw [Node.length_descs] at hlen
  omega

theorem BuiltIn.eq_of_node (hb : g.BuiltIn) (hwf : g.WellFormed) {i : Input} {v : Output}
    (hv : g.source? i = some v) {id : NodeId} (h : v.node = id) : v = ⟨id, 0⟩ := by
  rw [← h, ← hb.index_eq_zero hwf hv]

/-- A node that is bypassed in front of a result can pass its name on to what it reads: no result
reads that, and it is no parameter. -/
theorem succession_of_canBypass (hwf : g.WellFormed) (hb : g.BuiltIn) {id : NodeId}
    (hid : id ∉ g.results) {index : Nat} {source : Output}
    (hsource : g.source? ⟨id, index⟩ = some source) (hparam : ¬ g.isKind source.node .parameter)
    (hcount : g.consumerCount source = 1) :
    g.Succession id source.node (fun _ => True) g := by
  refine succession_start hwf hb (fun hr hv hnode => ?_) fun hn => ⟨fun hkind => ?_, trivial⟩
  · have hsame := (hb.eq_of_node hwf hv hnode).trans (hb.eq_of_node hwf hsource rfl).symm
    have hreader := hwf.eq_of_consumerCount hcount (hsame ▸ hv) hsource
    obtain rfl := congrArg Input.node hreader
    exact hid hr
  · refine hparam (isKind_iff.2 ?_)
    rw [kind?, hn, Option.map_some, hkind]

end Graph

namespace Edit

open OpGraph.Graph (Succession)

variable {g : Graph}

/-- A bypassed node leaves its readers to what it reads.  If results are among them, the node behind it
is no parameter and has no other reader, and it takes over the name. -/
theorem ends_bypass_presents (hwf : g.WellFormed) (hb : g.BuiltIn) {id : NodeId}
    (hid : id ∉ g.results) (index : Nat) :
    Ends (·.Presents g) Anything (bypass id index g) := by
  rw [bypass]
  refine ends_query_bind fun allowed hallowed => ?_
  dsimp only
  split
  swap
  · exact hwf.presents hb
  next hyes =>
  obtain ⟨source, feeds, hsource, hfeeds, hname⟩ := Graph.canBypass_eq_ok (hyes ▸ hallowed)
  refine ends_query_bind fun n hn => ends_query_bind fun source' hsource' => ?_
  obtain rfl := Option.some.inj ((Graph.source_eq_ok.1 hsource').symm.trans hsource)
  refine ends_query_bind fun feeds' hfeeds' => ends_query_bind fun targets htargets => ?_
  obtain rfl := Except.ok.inj (hfeeds'.symm.trans hfeeds)
  have hreads : ∀ i ∈ targets, g.source? i = some ⟨id, 0⟩ := fun i hi =>
    hwf.target_reads (Graph.targets_eq_ok.1 htargets) hi
  split
  next hyes =>
    -- what the node reads is the heir
    obtain ⟨hparam, hcount⟩ := hname hyes
    have hne : id ≠ source'.node := Ne.symm (hwf.source_exists hsource).1
    have hstart := Graph.succession_of_canBypass hwf hb hid hsource hparam hcount
    have hn₀ := Graph.node_eq_ok.1 hn
    refine ends_then (ends_forM_connect (Succession.movable rfl hne (Or.inl rfl)) hstart hreads)
      fun _ g₁ h₁ => ?_
    refine ends_then (ends_setName_succession h₁ _) fun _ g₂ h₂ => ?_
    refine ends_then (keeps_copyMetadata_of_inheritable (Succession.inheritable_named hne hn₀)
      [source'.node, id] [source'.node] g₂ h₂) fun _ g₃ h₃ => ?_
    exact ends_bind (keeps_release_presents [id] g₃ (h₃.presents_of_named hn₀ hwf)) fun _ =>
      keeps_pure true
  next hno =>
    -- no result reads the node, so nothing has to take its place
    have hunread : ∀ r ∈ g.results, ∀ k, g.source? ⟨r, k⟩ ≠ some ⟨id, 0⟩ := fun r hr k =>
      hwf.source?_ne_of_feedsResult (Bool.eq_false_iff.2 hno ▸ hfeeds') hr k
    have hstart : g.Succession id g.nodes.size (fun _ => True) g :=
      Graph.succession_start_of_size_le hwf hb (Nat.le_refl _)
    have hne : id ≠ g.nodes.size :=
      Nat.ne_of_lt (Graph.lt_size_of_contains (Graph.contains_of_source? hsource))
    refine ends_then (ends_forM_connect (Succession.movable rfl hne (Or.inr hunread)) hstart hreads)
      fun _ g₁ h₁ => ?_
    have hend : g₁.Presents g := h₁.presents (fun hr hv hroot _ _ _ =>
      absurd (hb.eq_of_node hwf hv hroot ▸ hv) (hunread _ hr _)) hwf
    exact ends_bind (keeps_release_presents [id] g₁ hend) fun _ => keeps_pure true

end Edit

end OpGraph
