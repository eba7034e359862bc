import OpGraph.Op.Unpack
import OpGraph.Proofs.Edit.Diversion
import OpGraph.Proofs.Edit.Redirection

/-!
# The names behind results after a bypass

A bypass in front of a result gives the name of the bypassed node to the node behind it.  It asks first
that nothing else reads the value that it passes through.  The node behind it may have other values,
though, and the bypassed node may be a result itself.  `Bypassed` is the graph before the release, with
the names that it gives, and `bypass_keeps_feeding_name_iff` says exactly when what a result reads has
another name in the end.
-/

namespace OpGraph

namespace Graph

variable {g g' g₀ : Graph} {id : NodeId}

/-- What is released has no part in the names of what stays. -/
theorem signature?_release (hwf : g.WellFormed) {ids : List NodeId}
    (h : (g.release ids).contains id) : (g.release ids).signature? id = g.signature? id := by
  obtain ⟨gone, -, -, hrelease⟩ := exists_release hwf ids
  rw [hrelease] at h ⊢
  rw [signature?, node?_without, if_neg (contains_without.1 h).1, Option.map_map]
  rfl

theorem signature?_rename (g : Graph) (id : NodeId) (name : String) :
    (g.modifyNode id fun n => { n with givenName := some name }).signature? id =
      (g.signature? id).map fun s => (s.1, s.2.1, some name) := by
  rw [signature?, node?_modifyNode, if_pos rfl, signature?]
  cases g.node? id <;> rfl

/-- `g'` is `g` with the readers of the node at `id` moved to `heir`.  The node of `heir` has taken over
a name, if there is one to take over. -/
structure Bypassed (g : Graph) (id : NodeId) (heir : Output) (name : Option String) (g' : Graph) :
    Prop where
  wellFormed : g'.WellFormed
  results_eq : g'.results = g.results
  source : ∀ i, g'.source? i = (g.source? i).map fun v => if v = ⟨id, 0⟩ then heir else v
  signature : ∀ j, g'.signature? j = (g.signature? j).map fun s =>
    if j = heir.node then (s.1, s.2.1, name.or s.2.2) else s

variable {heir : Output} {name : Option String}

/-- The readers have moved, and no name has. -/
theorem WellFormed.bypassed (hwf : g.WellFormed) {ts : List Input}
    (hts : g.targets? ⟨id, 0⟩ = some ts) (hwf' : (g.moveAll ts ⟨id, 0⟩ heir).WellFormed) :
    g.Bypassed id heir none (g.moveAll ts ⟨id, 0⟩ heir) where
  wellFormed := hwf'
  results_eq := moveAll_keeps (φ := Graph.results) (fun _ _ => rfl) ts g
  source := by
    intro i
    have hmem : i ∈ ts ↔ g.source? i = some ⟨id, 0⟩ := ⟨hwf.target_reads hts, hwf.mem_targets hts⟩
    rw [source?_moveAll]
    cases hi : g.source? i with
    | none => simp
    | some v =>
      simp only [hmem, hi, Option.some.injEq, Option.map_some]
      split <;> rfl
  signature := by
    intro j
    have hkeep := moveAll_keeps (φ := (·.signature? j))
      (fun g i => signature?_rewire g i ⟨id, 0⟩ heir j) ts g
    rw [hkeep]
    cases g.signature? j <;> simp

namespace Bypassed

theorem annotate (h : g₀.Bypassed id heir name g) (j : NodeId) (f : Node → Metadata) :
    g₀.Bypassed id heir name (g.modifyNode j fun n => { n with metadata := f n }) := by
  have hrestricts : (g.modifyNode j fun n => { n with metadata := f n }).Restricts g :=
    restricts_modifyNode h.wellFormed fun _ => ⟨rfl, rfl, rfl, rfl⟩
  refine ⟨hrestricts.wellFormed, hrestricts.results_eq.trans h.results_eq, fun i => ?_, fun k => ?_⟩
  · rw [source?_relabel, h.source]
    exact fun _ => ⟨rfl, rfl, rfl, rfl⟩
  · rw [← h.signature]
    apply signature?_modifyNode_eq
    intro n
    rfl

/-- The node behind the bypassed one takes over a name. -/
theorem rename (h : g₀.Bypassed id heir none g) (name : String) :
    g₀.Bypassed id heir (some name)
      (g.modifyNode heir.node fun n => { n with givenName := some name }) := by
  have hrestricts : (g.modifyNode heir.node fun n =>
      { n with givenName := some name }).Restricts g :=
    restricts_modifyNode h.wellFormed fun _ => ⟨rfl, rfl, rfl, rfl⟩
  refine ⟨hrestricts.wellFormed, hrestricts.results_eq.trans h.results_eq, fun i => ?_, fun j => ?_⟩
  · rw [source?_relabel, h.source]
    exact fun _ => ⟨rfl, rfl, rfl, rfl⟩
  · by_cases hj : j = heir.node
    · rw [hj, signature?_rename, h.signature, Option.map_map]
      simp [Function.comp_def]
    · rw [signature?_modifyNode_of_ne (Ne.symm hj), h.signature]
      simp [hj]

/-- What the nodes are called. -/
theorem friendlyName_eq (h : g₀.Bypassed id heir name g) {j : NodeId} {m m' : Node}
    (hm : g₀.node? j = some m) (hm' : g.signature? j = some m'.signature) :
    m'.friendlyName = if j = heir.node then name.getD m.friendlyName else m.friendlyName := by
  have hsame := h.signature j
  rw [hm', signature?, hm, Option.map_some, Option.map_some, Option.some.injEq] at hsame
  split at hsame
  next hj =>
    rw [if_pos hj]
    cases name with
    | none => exact Node.friendlyName_eq_of_signature hsame
    | some name => exact Node.friendlyName_of_givenName (congrArg (·.2.2) hsame)
  next hj =>
    rw [if_neg hj]
    exact Node.friendlyName_eq_of_signature hsame

end Bypassed

end Graph

namespace Edit

open OpGraph.Graph

variable {g g' : Graph} {id : NodeId}

/-- What a bypass comes to before the release. -/
theorem bypass_eq_ok_named (hwf : g.WellFormed) {index : Nat} (h : bypass id index g = .ok true g')
    {n : Node} (hn : g.node? id = some n) {source : Output}
    (hsource : g.source? ⟨id, index⟩ = some source) :
    ∃ feeds g₁, g.feedsResult id = .ok feeds ∧
      g.Bypassed id source (if feeds then some n.friendlyName else none) g₁ ∧
      g' = g₁.release [id] := by
  obtain ⟨m, heir, feeds, ts, g₁, g₂, -, hm, hheir, hfeeds, hts, hmove, hname, hend⟩ := bypass_steps h
  obtain rfl := Option.some.inj (hn.symm.trans hm)
  obtain rfl := Option.some.inj (hsource.symm.trans hheir)
  have hne : (⟨id, 0⟩ : Output) ≠ source := fun h =>
    (hwf.source_exists hsource).1 (congrArg Output.node h.symm)
  have hg₁ := eq_moveAll_of_forM_connect (hwf.targets_nodup hts) hne
    (fun i hi => hwf.target_reads hts hi) hmove
  have hwf₁ : g₁.WellFormed :=
    (keeps_forM fun i _ => invariant_wellFormed.keeps_connect i source).of_ok hwf hmove
  subst hg₁
  have h₁ := hwf.bypassed hts hwf₁
  refine ⟨feeds, g₂, hfeeds, ?_, hend⟩
  cases feeds with
  | false =>
    obtain rfl : g₂ = _ := hname
    exact h₁
  | true =>
    obtain ⟨g₀, hname, hcopy⟩ := hname
    have h₂ : g.Bypassed id source (some n.friendlyName) g₀ := by
      obtain ⟨err, he⟩ | ⟨-, hok⟩ := updateNode_cases source.node
        (fun m => { m with givenName := some n.friendlyName })
        (g.moveAll ts ⟨id, 0⟩ source)
      · cases he.symm.trans hname
      · cases hok.symm.trans hname
        exact h₁.rename _
    exact (keeps_copyMetadata_of_annotate (fun h => h.annotate _ _) _ _).of_ok h₂ hcopy

/-- What a result reads after a bypass, and what that is called. -/
theorem exists_feeding_of_bypass (hwf : g.WellFormed) {index : Nat}
    (h : bypass id index g = .ok true g') {n : Node} (hn : g.node? id = some n) {source : Output}
    (hsource : g.source? ⟨id, index⟩ = some source) {r : NodeId} (hr : r ∈ g.results) {k : Nat}
    {v : Output} (hv : g.source? ⟨r, k⟩ = some v) :
    ∃ feeds v' s m', g.feedsResult id = .ok feeds ∧ v' = (if v = ⟨id, 0⟩ then source else v) ∧
      g'.source? ⟨r, k⟩ = some v' ∧ g.node? v'.node = some s ∧ g'.node? v'.node = some m' ∧
      m'.friendlyName = if feeds ∧ v'.node = source.node then n.friendlyName else s.friendlyName := by
  obtain ⟨feeds, g₁, hfeeds, h₁, rfl⟩ := bypass_eq_ok_named hwf h hn hsource
  have hrestricts : (g₁.release [id]).Restricts g₁ := restricts_releaseStack h₁.wellFormed _
  have hv' : (g₁.release [id]).source? ⟨r, k⟩ = some (if v = ⟨id, 0⟩ then source else v) := by
    rw [hrestricts.source?_result (h₁.results_eq ▸ hr), h₁.source, hv, Option.map_some]
  obtain ⟨s, hs⟩ : ∃ s, g.node? (if v = ⟨id, 0⟩ then source else v).node = some s := by
    split
    next => exact hwf.exists_node_of_source? hsource
    next => exact hwf.exists_node_of_source? hv
  obtain ⟨m', hm'⟩ := hrestricts.wellFormed.exists_node_of_source? hv'
  have hsignature : g₁.signature? (if v = ⟨id, 0⟩ then source else v).node = some m'.signature := by
    rw [← signature?_release h₁.wellFormed (contains_iff.2 ⟨m', hm'⟩), signature?, hm',
      Option.map_some]
  refine ⟨feeds, _, s, m', hfeeds, rfl, hv', hs, hm', ?_⟩
  rw [h₁.friendlyName_eq hs hsignature]
  cases feeds <;> simp

/-- **Which results see another name.**  After a bypass, a result reads a node with the name that it has
read before, but for one case: the bypassed node feeds a result and passes on a name that is not that
of the node behind it, and this node, be it through another value, is what the result has read. -/
theorem bypass_keeps_feeding_name_iff (hwf : g.WellFormed) {index : Nat}
    (h : bypass id index g = .ok true g') {n : Node} (hn : g.node? id = some n) {source : Output}
    (hsource : g.source? ⟨id, index⟩ = some source) {r : NodeId} (hr : r ∈ g.results) {k : Nat}
    {v : Output} (hv : g.source? ⟨r, k⟩ = some v) {m : Node} (hm : g.node? v.node = some m) :
    ∃ v' m', g'.source? ⟨r, k⟩ = some v' ∧ g'.node? v'.node = some m' ∧
      (m'.friendlyName = m.friendlyName ↔
        ¬ (g.feedsResult id = .ok true ∧ v.node = source.node ∧
          m.friendlyName ≠ n.friendlyName)) := by
  obtain ⟨feeds, v', s, m', hfeeds, rfl, hv', hs, hm', hname⟩ :=
    exists_feeding_of_bypass hwf h hn hsource hr hv
  refine ⟨_, m', hv', hm', ?_⟩
  by_cases hroot : v = ⟨id, 0⟩
  · -- the result has read the bypassed node, and reads the node with its name now
    obtain rfl : n = m := Option.some.inj (hn.symm.trans (by rw [← hm, hroot]))
    have hyes : feeds = true := by
      cases feeds with
      | false => exact absurd (hroot ▸ hv) (hwf.source?_ne_of_feedsResult hfeeds hr k)
      | true => rfl
    rw [hname, if_pos ⟨hyes, by rw [if_pos hroot]⟩]
    exact iff_of_true rfl fun hno => (hwf.source_exists hsource).1 (by rw [← hno.2.1, hroot])
  · rw [if_neg hroot] at hs hname
    obtain rfl := Option.some.inj (hm.symm.trans hs)
    rw [hname, hfeeds]
    by_cases hheir : v.node = source.node
    · cases feeds <;> simp [hheir, eq_comm]
    · simp [hheir]

end Edit

namespace Graph

/-- A node with two values: one goes through an operation to a result, the other one straight to
another result. -/
def forked : Graph :=
  let half : Desc := ⟨.f64, .ofShape [3]⟩
  ((((({ name := "forked" } : Graph).insert (.parameter .f64 (.ofShape [2, 3])) []
    [⟨.f64, .ofShape [2, 3]⟩]).insert (.extension (unpack false)) [⟨0, 0⟩] [half, half]).insert
      (.unary .relu) [⟨1, 0⟩] [half]).insert .result [⟨2, 0⟩] [half]).insert .result [⟨1, 1⟩] [half]

theorem wellFormed_forked : forked.WellFormed := by
  have hparam : (({ name := "forked" } : Graph).insert (.parameter .f64 (.ofShape [2, 3])) []
      [⟨.f64, .ofShape [2, 3]⟩]).WellFormed := wellFormed_insert (wellFormed_empty _) (by simp)
  exact wellFormed_insert_singleton (wellFormed_insert_singleton (wellFormed_insert_singleton
    (wellFormed_insert_singleton hparam ⟨_, rfl⟩) ⟨_, rfl⟩) ⟨_, rfl⟩) ⟨_, rfl⟩

theorem acyclic_forked : forked.Acyclic := by
  refine acyclic_of_rank (fun id => id) fun p c hp => ?_
  have hsources : p ∈ forked.sourcesOf c := hp
  match c, lt_size_of_contains (contains_of_produces_right hp) with
  | 0, _ => cases hsources
  | 1, _ | 2, _ | 3, _ | 4, _ =>
    obtain rfl := List.mem_singleton.1 hsources
    decide

end Graph

namespace Edit

open OpGraph.Graph

/-- The result that reads the bypassed operation keeps its name. -/
theorem bypass_keeps_feeding_name_iff_forked :
    forked.WellFormed ∧ ∃ g' v' m', bypass 2 0 forked = .ok true g' ∧
      g'.source? ⟨3, 0⟩ = some v' ∧ g'.node? v'.node = some m' ∧ m'.friendlyName = "Relu_2" := by
  obtain ⟨g', hok⟩ : ∃ g', bypass 2 0 forked = .ok true g' := ⟨_, rfl⟩
  obtain ⟨v', m', hv', hm', hname⟩ := bypass_keeps_feeding_name_iff wellFormed_forked hok rfl rfl
    (r := 3) (k := 0) (by decide) rfl rfl
  exact ⟨wellFormed_forked, g', v', m', hok, hv', hm', hname.2 fun h => absurd h.2.1 (by decide)⟩

/-- The other result has read a node that is called otherwise. -/
theorem bypass_renames_forked :
    forked.WellFormed ∧ forked.Acyclic ∧ 4 ∈ forked.results ∧
      forked.source? ⟨4, 0⟩ = some ⟨1, 1⟩ ∧ (forked.node? 1).map Node.friendlyName = some "Unpack_1" ∧
      ∃ g', bypass 2 0 forked = .ok true g' ∧ g'.source? ⟨4, 0⟩ = some ⟨1, 1⟩ ∧
        (g'.node? 1).map Node.friendlyName = some "Relu_2" := by
  obtain ⟨g', hok⟩ : ∃ g', bypass 2 0 forked = .ok true g' := ⟨_, rfl⟩
  obtain ⟨feeds, v', s, m', hfeeds, rfl, hv', hs, hm', hname⟩ :=
    exists_feeding_of_bypass wellFormed_forked hok rfl rfl (r := 4) (k := 0) (by decide) rfl
  have hyes : feeds = true := Except.ok.inj (hfeeds.symm.trans rfl)
  refine ⟨wellFormed_forked, acyclic_forked, by decide, rfl, rfl, g', hok, hv', ?_⟩
  rw [show g'.node? 1 = some m' from hm', Option.map_some, hname, if_pos ⟨hyes, rfl⟩]
  rfl

end Edit

end OpGraph
