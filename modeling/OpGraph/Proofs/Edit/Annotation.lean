import OpGraph.Proofs.Edit.Provenance
import OpGraph.Proofs.Graph.Single

/-!
# Metadata that is passed on

`Edit.copyMetadata` merges the metadata of some nodes into that of others, and a node may be on both sides or
be listed several times.  `m'.Inherits m sources` says what a map is after all of `sources` have been merged
into it at once: the order of its keys and the value of each of them.

A map is determined by what is inserted last under each key (`get?_merge`, `get?_foldl_merge_of_last`) and
its keys by what is inserted first (`keys_foldl_insert`).  A map that is merged a second time stays as it is
(`merge_merge`), so `copyMetadata_merges_at_once` counts no target twice.
-/

namespace OpGraph

/-! ### Lists without repetitions -/

theorem eraseDups_of_nodup {l : List String} (h : l.Nodup) : l.eraseDups = l := by
  induction l using List.reverseRecOn with
  | nil => rfl
  | append_singleton l x ih =>
    obtain ⟨hl, -, hx⟩ := List.nodup_append.1 h
    have hmem : x ∉ l := fun hxl => hx x hxl x (List.mem_singleton.2 rfl) rfl
    rw [eraseDups_concat, if_neg hmem, ih hl]

/-- What is listed again later does not count. -/
theorem eraseDups_append_eraseDups (l l' : List String) :
    (l ++ l'.eraseDups).eraseDups = (l ++ l').eraseDups := by
  induction l' using List.reverseRecOn with
  | nil => rfl
  | append_singleton l' x ih =>
    have hall : (l ++ (l' ++ [x])).eraseDups =
        if x ∈ l ++ l' then (l ++ l').eraseDups else (l ++ l').eraseDups ++ [x] := by
      rw [← List.append_assoc, eraseDups_concat]
    rw [hall, eraseDups_concat]
    by_cases hx : x ∈ l'
    · rw [if_pos hx, if_pos (List.mem_append_right l hx), ih]
    · rw [if_neg hx, ← List.append_assoc, eraseDups_concat, ih]
      simp [hx]

namespace NameSet

/-- Sets that are united have each name once, where it comes first. -/
theorem names_foldl_union (sets : List NameSet) :
    (sets.foldl union ∅).names = (sets.flatMap (·.names)).eraseDups := by
  rw [← names_ofList, ofList, List.foldl_flatMap]
  rfl

end NameSet

namespace Metadata

variable {m m' source : Metadata} {key : String} {value : MetaValue} {sources : List Metadata}

/-! ### Entries -/

theorem nodup_keys (m : Metadata) : m.keys.Nodup := m.nodup

theorem get?_eq_none_iff : m.get? key = none ↔ key ∉ m.keys := by
  simp only [get?, keys, List.lookup_eq_none_iff, List.mem_map, not_exists, not_and, bne_iff_ne]
  exact forall₂_congr fun e _ => ne_comm

theorem get?_of_mem_entries (h : (key, value) ∈ m.entries) : m.get? key = some value := by
  obtain ⟨entries, hnodup⟩ := m
  obtain ⟨before, after, rfl⟩ := List.append_of_mem h
  rw [get?, List.lookup_eq_some_iff]
  refine ⟨before, after, rfl, fun e he => ?_⟩
  -- the key of an earlier entry comes again only if keys do
  rw [List.map_append, List.map_cons, List.nodup_append] at hnodup
  have hne := hnodup.2.2 e.1 (List.mem_map_of_mem he) key List.mem_cons_self
  simpa using Ne.symm hne

theorem mem_entries_of_get? (h : m.get? key = some value) : (key, value) ∈ m.entries := by
  obtain ⟨before, after, hentries, -⟩ := List.lookup_eq_some_iff.1 h
  rw [hentries]
  exact List.mem_append_right before List.mem_cons_self

/-- A value that a key has already can be inserted without effect. -/
theorem insert_of_get? (h : m.get? key = some value) : m.insert key value = m := by
  obtain ⟨entries, hnodup⟩ := m
  have hkey : key ∈ entries.map (·.1) := List.mem_map_of_mem (mem_entries_of_get? h)
  have hsame : overwrite key value entries = entries := by
    rw [overwrite, List.map_congr_left (g := id), List.map_id]
    intro e he
    split
    next heq =>
      subst heq
      rw [get?_of_mem_entries he] at h
      rw [← Option.some.inj h]
      rfl
    next => rfl
  simp only [insert, dif_pos hkey, hsame]

/-! ### Merging -/

/-- A key stands where it is inserted first. -/
theorem keys_foldl_insert (entries : List (String × MetaValue)) (m : Metadata) :
    (entries.foldl (fun m e => m.insert e.1 e.2) m).keys =
      (m.keys ++ entries.map (·.1)).eraseDups := by
  induction entries using List.reverseRecOn with
  | nil => rw [List.foldl_nil, List.map_nil, List.append_nil, eraseDups_of_nodup m.nodup_keys]
  | append_singleton entries e ih =>
    rw [List.foldl_concat, keys_insert, ih, List.map_append, List.map_singleton, ← List.append_assoc,
      eraseDups_concat]
    simp only [List.mem_eraseDups]

theorem keys_merge (m source : Metadata) :
    (m.merge source).keys = (m.keys ++ source.keys).eraseDups :=
  keys_foldl_insert source.entries m

theorem keys_foldl_merge (sources : List Metadata) (m : Metadata) :
    (sources.foldl merge m).keys = (m.keys ++ sources.flatMap keys).eraseDups := by
  have hentries : sources.foldl merge m =
      (sources.flatMap entries).foldl (fun m e => m.insert e.1 e.2) m :=
    List.foldl_flatMap.symm
  rw [hentries, keys_foldl_insert, List.map_flatMap]
  rfl

theorem get?_foldl_insert_of_not_mem {entries : List (String × MetaValue)}
    (h : key ∉ entries.map (·.1)) (m : Metadata) :
    (entries.foldl (fun m e => m.insert e.1 e.2) m).get? key = m.get? key := by
  induction entries generalizing m with
  | nil => rfl
  | cons e entries ih =>
    obtain ⟨he, hentries⟩ := not_or.1 (mt List.mem_cons.2 h)
    rw [List.foldl_cons, ih hentries, get?_insert, if_neg he]

/-- The merged values come before those that are there. -/
theorem get?_merge (m source : Metadata) (key : String) :
    (m.merge source).get? key = (source.get? key).or (m.get? key) := by
  cases hkey : source.get? key with
  | none => exact get?_foldl_insert_of_not_mem (get?_eq_none_iff.1 hkey) m
  | some value =>
    obtain ⟨before, after, hentries, -⟩ := List.lookup_eq_some_iff.1 hkey
    have hafter : key ∉ after.map (·.1) := by
      have hnodup := source.nodup
      rw [hentries, List.map_append, List.map_cons, List.nodup_append] at hnodup
      exact (List.nodup_cons.1 hnodup.2.1).1
    rw [merge, hentries, List.foldl_append, List.foldl_cons, get?_foldl_insert_of_not_mem hafter,
      get?_insert, if_pos rfl, Option.some_or]

/-- A map can be merged a second time without effect. -/
theorem merge_merge (m source : Metadata) : (m.merge source).merge source = m.merge source := by
  have hsame : ∀ {entries : List (String × MetaValue)}, (∀ e ∈ entries, e ∈ source.entries) →
      entries.foldl (fun m e => m.insert e.1 e.2) (m.merge source) = m.merge source := by
    intro entries hentries
    induction entries with
    | nil => rfl
    | cons e entries ih =>
      obtain ⟨he, hentries⟩ := List.forall_mem_cons.1 hentries
      have hget : (m.merge source).get? e.1 = some e.2 := by
        rw [get?_merge, get?_of_mem_entries he, Option.some_or]
      rw [List.foldl_cons, insert_of_get? hget, ih hentries]
  exact hsame fun _ => id

theorem get?_foldl_merge_of_forall_none (h : ∀ s ∈ sources, s.get? key = none) (m : Metadata) :
    (sources.foldl merge m).get? key = m.get? key := by
  induction sources generalizing m with
  | nil => rfl
  | cons s sources ih =>
    obtain ⟨hs, hsources⟩ := List.forall_mem_cons.1 h
    rw [List.foldl_cons, ih hsources, get?_merge, hs, Option.none_or]

/-- The last map that has a key decides on its value. -/
theorem get?_foldl_merge_of_last {before after : List Metadata} (hsource : source.get? key = some value)
    (hafter : ∀ s ∈ after, s.get? key = none) (m : Metadata) :
    ((before ++ source :: after).foldl merge m).get? key = some value := by
  rw [List.foldl_append, List.foldl_cons, get?_foldl_merge_of_forall_none hafter, get?_merge, hsource,
    Option.some_or]

/-! ### Gathering -/

/-- The names that a map lists under `fusedNames`; other values under that key list no names. -/
def listed (m : Metadata) : List String := (m.fusedNames?.map (·.names)).getD []

/-- `m'` is `m` after the maps have been merged into it at once. -/
structure Inherits (m' m : Metadata) (sources : List Metadata) : Prop where
  /-- The keys of `m` stay where they are, and new ones follow in the order in which they are met. -/
  keys_eq : m'.keys = m.keys ++ ((sources.flatMap keys).filter (· ∉ m.keys)).eraseDups
  /-- A key gets the value that the last map gives it. -/
  last : ∀ {before source after key value}, sources = before ++ source :: after →
    source.get? key = some value → (∀ s ∈ after, s.get? key = none) →
    (key = fusedNames → sources.flatMap listed = []) → m'.get? key = some value
  /-- The names of fused nodes are united, in the order in which they are met. -/
  united : sources.flatMap listed ≠ [] → ∃ names, m'.get? fusedNames = some (.names names) ∧
    names.names = (sources.flatMap listed).eraseDups
  /-- A key that no map has keeps its value. -/
  kept : ∀ {key}, (∀ s ∈ sources, s.get? key = none) → m'.get? key = m.get? key

theorem unionFusedNames_eq (sources : List Metadata) :
    unionFusedNames sources = .ofList (sources.flatMap listed) := by
  rw [NameSet.ofList, List.foldl_flatMap, unionFusedNames]
  refine congrArg (sources.foldl · ∅) (funext fun s => funext fun m => ?_)
  rw [listed]
  cases m.fusedNames? <;> rfl

theorem isEmpty_unionFusedNames_iff :
    (unionFusedNames sources).isEmpty ↔ sources.flatMap listed = [] := by
  rw [unionFusedNames_eq, NameSet.isEmpty, List.isEmpty_iff, NameSet.names_ofList]
  cases sources.flatMap listed <;> simp [List.eraseDups_cons]

theorem gather_of_forall_none (h : sources.flatMap listed = []) :
    gather sources = sources.foldl merge ∅ :=
  if_pos (isEmpty_unionFusedNames_iff.2 h)

theorem gather_of_listed (h : sources.flatMap listed ≠ []) :
    gather sources =
      (sources.foldl merge ∅).insert fusedNames (.names (.ofList (sources.flatMap listed))) := by
  rw [← unionFusedNames_eq]
  exact if_neg (mt isEmpty_unionFusedNames_iff.1 h)

/-- A map that lists names has the key. -/
theorem fusedNames_mem_keys (h : sources.flatMap listed ≠ []) :
    fusedNames ∈ sources.flatMap keys := by
  obtain ⟨x, hx⟩ := List.exists_mem_of_ne_nil _ h
  obtain ⟨s, hs, hx⟩ := List.mem_flatMap.1 hx
  refine List.mem_flatMap.2 ⟨s, hs, ?_⟩
  by_contra hkey
  rw [listed, fusedNames?, get?_eq_none_iff.2 hkey] at hx
  exact List.not_mem_nil hx

/-- Uniting the names adds no key. -/
theorem keys_gather (sources : List Metadata) :
    (gather sources).keys = (sources.flatMap keys).eraseDups := by
  have hmerged : (sources.foldl merge ∅).keys = (sources.flatMap keys).eraseDups :=
    keys_foldl_merge sources ∅
  by_cases h : sources.flatMap listed = []
  · rw [gather_of_forall_none h, hmerged]
  · rw [gather_of_listed h, keys_insert, hmerged,
      if_pos (List.mem_eraseDups.2 (fusedNames_mem_keys h))]

theorem get?_gather_of_united (h : sources.flatMap listed ≠ []) :
    (gather sources).get? fusedNames = some (.names (.ofList (sources.flatMap listed))) := by
  rw [gather_of_listed h, get?_insert, if_pos rfl]

theorem get?_gather (h : key = fusedNames → sources.flatMap listed = []) :
    (gather sources).get? key = (sources.foldl merge ∅).get? key := by
  by_cases hlisted : sources.flatMap listed = []
  · rw [gather_of_forall_none hlisted]
  · rw [gather_of_listed hlisted, get?_insert, if_neg (mt h hlisted)]

/-- Merging what has been gathered is merging all maps at once. -/
theorem merge_gather_inherits (m : Metadata) (sources : List Metadata) :
    (m.merge (gather sources)).Inherits m sources where
  keys_eq := by
    rw [keys_merge, keys_gather, eraseDups_append_eraseDups, List.eraseDups_append,
      eraseDups_of_nodup m.nodup_keys, List.removeAll]
    simp
  last := by
    intro before source after key value hsplit hsource hafter hkey
    rw [get?_merge, get?_gather hkey, hsplit, get?_foldl_merge_of_last hsource hafter, Option.some_or]
  united := by
    intro hlisted
    refine ⟨_, ?_, NameSet.names_ofList _⟩
    rw [get?_merge, get?_gather_of_united hlisted, Option.some_or]
  kept := by
    intro key hnone
    have hkey : key ∉ (gather sources).keys := by
      rw [keys_gather, List.mem_eraseDups, List.mem_flatMap]
      rintro ⟨s, hs, hmem⟩
      exact get?_eq_none_iff.1 (hnone s hs) hmem
    rw [get?_merge, get?_eq_none_iff.2 hkey, Option.none_or]

end Metadata

/-! ### Copies -/

namespace Graph

variable {g : Graph}

/-- The metadata of the nodes of a list. -/
def metadataOf (g : Graph) (ids : List NodeId) : List Metadata :=
  ids.filterMap fun id => (g.node? id).map (·.metadata)

theorem exists_nodes {ids : List NodeId} (h : ∀ id ∈ ids, g.contains id) :
    ∃ nodes, List.Forall₂ (fun id n => g.node? id = some n) ids nodes ∧
      nodes.map (·.metadata) = g.metadataOf ids := by
  induction ids with
  | nil => exact ⟨[], .nil, rfl⟩
  | cons id ids ih =>
    obtain ⟨hid, hids⟩ := List.forall_mem_cons.1 h
    obtain ⟨n, hn⟩ := contains_iff.1 hid
    obtain ⟨nodes, hnodes, hmeta⟩ := ih hids
    refine ⟨n :: nodes, .cons hn hnodes, ?_⟩
    rw [List.map_cons, hmeta]
    simp [metadataOf, hn]

/-- Where a second change has no effect, each node of a list is changed once. -/
theorem node?_foldl_modifyNode {f : Node → Node} (hf : ∀ n, f (f n) = f n) (ids : List NodeId)
    (g : Graph) (id : NodeId) :
    (ids.foldl (fun g id => g.modifyNode id f) g).node? id =
      if id ∈ ids then (g.node? id).map f else g.node? id := by
  induction ids generalizing g with
  | nil => simp
  | cons j ids ih =>
    rw [List.foldl_cons, ih, node?_modifyNode]
    by_cases hj : j = id
    · cases g.node? id <;> simp [hj, hf]
    · simp [hj, Ne.symm hj]

theorem header_foldl_modifyNode (f : Node → Node) (ids : List NodeId) (g : Graph) :
    (ids.foldl (fun g id => g.modifyNode id f) g).header = g.header := by
  induction ids generalizing g with
  | nil => rfl
  | cons id ids ih => rw [List.foldl_cons, ih, header_modifyNode]

end Graph

namespace Edit

open OpGraph.Graph

variable {g : Graph} {sources targets : List NodeId}

/-- **Metadata is passed on at once.**  The metadata of live nodes can be merged into that of live nodes, in
whatever way the lists overlap or repeat.  Every target inherits what the sources have had before, and
nothing else changes. -/
theorem copyMetadata_merges_at_once (hsources : ∀ id ∈ sources, g.contains id)
    (htargets : ∀ id ∈ targets, g.contains id) :
    ∃ g', copyMetadata sources targets g = .ok () g' ∧ g'.header = g.header ∧
      (∀ id ∉ targets, g'.node? id = g.node? id) ∧
      ∀ id ∈ targets, ∀ n, g.node? id = some n → ∃ m, g'.node? id = some { n with metadata := m } ∧
        m.Inherits n.metadata (g.metadataOf sources) := by
  obtain ⟨nodes, hnodes, hmeta⟩ := exists_nodes hsources
  have hnode := node?_foldl_modifyNode
    (f := fun n => { n with metadata := n.metadata.merge (Metadata.gather (nodes.map (·.metadata))) })
    (fun n => by simp only [Metadata.merge_merge]) targets g
  refine ⟨_, copyMetadata_of_nodes hnodes htargets, header_foldl_modifyNode .., fun id hid => ?_,
    fun id hid n hn => ?_⟩
  · rw [hnode, if_neg hid]
  · refine ⟨n.metadata.merge (Metadata.gather (g.metadataOf sources)), ?_,
      Metadata.merge_gather_inherits ..⟩
    rw [hnode, if_pos hid, hn, hmeta, Option.map_some]

/-- An operation and its parameter list names, and their result has another value under the same key. -/
def annotated : Graph :=
  let annotate (id : NodeId) (entries : List (String × MetaValue)) (g : Graph) : Graph :=
    g.modifyNode id fun n => { n with metadata := .ofList entries }
  single (.unary .relu) ⟨.f64, .ofShape [2]⟩ ⟨.f64, .ofShape [2]⟩
    |> annotate 0 [("level", .int 0), (Metadata.fusedNames, .names (.ofList ["x", "y"]))]
    |> annotate 1 [(Metadata.fusedNames, .names (.ofList ["y", "z"])), ("level", .int 1)]
    |> annotate 2 [("origin", .text "result"), (Metadata.fusedNames, .flag true)]

/-- The result is on both sides, and it loses its own value to the names of the others. -/
theorem copyMetadata_merges_at_once_annotated :
    (∀ id ∈ [1, 0, 2, 0], annotated.contains id) ∧ (∀ id ∈ [2, 1, 2], annotated.contains id) ∧
      ∃ g' n, copyMetadata [1, 0, 2, 0] [2, 1, 2] annotated = .ok () g' ∧ g'.node? 2 = some n ∧
        n.metadata.keys = ["origin", Metadata.fusedNames, "level"] ∧
        n.metadata.get? "level" = some (.int 0) ∧
        n.metadata.fusedNames?.map (·.names) = some ["y", "z", "x"] := by
  have hsources : ∀ id ∈ [1, 0, 2, 0], annotated.contains id := by decide
  have htargets : ∀ id ∈ [2, 1, 2], annotated.contains id := by decide
  obtain ⟨g', hok, -, -, hnode⟩ := copyMetadata_merges_at_once hsources htargets
  obtain ⟨m, hm, h⟩ := hnode 2 (by decide) _ rfl
  obtain ⟨names, hfused, hnames⟩ := h.united (by decide)
  have hlast : annotated.metadataOf [1, 0, 2, 0] =
      annotated.metadataOf [1, 0, 2] ++ .ofList [("level", .int 0),
        (Metadata.fusedNames, .names (.ofList ["x", "y"]))] :: [] := rfl
  refine ⟨hsources, htargets, g', _, hok, hm, ?_, ?_, ?_⟩
  · exact h.keys_eq.trans (by decide)
  · exact h.last hlast (by decide) (by simp) (by decide)
  · rw [Metadata.fusedNames?, hfused]
    show some names.names = _
    rw [hnames]
    decide

end Edit

end OpGraph
