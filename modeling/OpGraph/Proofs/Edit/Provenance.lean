import Mathlib.Data.List.Induction
import OpGraph.Proofs.Edit.Replacement
import OpGraph.Proofs.Graph.Release

/-!
# Where fused nodes come from

A fusion names the new node after the root and lists under `Metadata.fusedNames` what the nodes of the group
stand for, in the order of the group (`content?_of_fuse`).  All other nodes keep their names and metadata.

`g.Labelled id name fused?` says what a node is called and which names it lists.  Neither new nodes nor a
release have a part in the labels of what stays, so the labels of a group can be followed through one fusion
after the other (`labelled_fuse`).
-/

namespace OpGraph

/-! ### Sets of names -/

theorem eraseDups_concat (l : List String) (x : String) :
    (l ++ [x]).eraseDups = if x ∈ l then l.eraseDups else l.eraseDups ++ [x] := by
  rw [List.eraseDups_append]
  by_cases hx : x ∈ l <;> simp [List.removeAll, List.eraseDups_cons, hx]

namespace NameSet

variable {s : NameSet} {xs : List String}

/-- Different names that are new go to the end as they are. -/
theorem names_foldl_insert (h : (s.names ++ xs).Nodup) :
    (xs.foldl insert s).names = s.names ++ xs := by
  induction xs generalizing s with
  | nil => rw [List.foldl_nil, List.append_nil]
  | cons x xs ih =>
    have hx : x ∉ s.names := fun hmem => (List.nodup_append.1 h).2.2 x hmem x List.mem_cons_self rfl
    have hs : (s.insert x).names = s.names ++ [x] := by rw [names_insert, if_neg hx]
    rw [List.append_cons, ← hs] at h ⊢
    rw [List.foldl_cons, ih h]

@[simp] theorem empty_union (s : NameSet) : (∅ : NameSet).union s = s := by
  have hnames : ((∅ : NameSet).union s).names = s.names := names_foldl_insert s.nodup
  cases hs : (∅ : NameSet).union s
  cases s
  rw [hs] at hnames
  cases hnames
  rfl

theorem ofList_append (xs : List String) (x : String) :
    ofList (xs ++ [x]) = (ofList xs).union (ofList [x]) :=
  List.foldl_concat insert ∅ x xs

/-- The set of the names of a list has each of them once, where it comes first. -/
theorem names_ofList (xs : List String) : (ofList xs).names = xs.eraseDups := by
  induction xs using List.reverseRecOn with
  | nil => rfl
  | append_singleton xs x ih =>
    have hinsert : (ofList (xs ++ [x])).names = ((ofList xs).insert x).names :=
      congrArg names (ofList_append xs x)
    rw [hinsert, names_insert, ih, eraseDups_concat]
    exact if_congr List.mem_eraseDups rfl rfl

end NameSet

/-! ### Labels -/

theorem Node.fusedNames_eq (n : Node) :
    n.fusedNames = n.metadata.fusedNames?.getD (.ofList [n.friendlyName]) := by
  rw [Node.fusedNames]
  cases n.metadata.fusedNames? <;> rfl

namespace Graph

variable {g g' : Graph} {id : NodeId} {name : String} {fused? : Option NameSet}

/-- The node goes by the name, and it lists the names of the nodes that it stands for if there are any. -/
def Labelled (g : Graph) (id : NodeId) (name : String) (fused? : Option NameSet) : Prop :=
  ∃ n, g.node? id = some n ∧ n.friendlyName = name ∧ n.metadata.fusedNames? = fused?

theorem labelled_of_content? {c : Node.Content} (h : g.content? id = some c) :
    g.Labelled id c.friendlyName c.metadata.fusedNames? := by
  obtain ⟨n, hn, rfl⟩ := Option.map_eq_some_iff.1 h
  exact ⟨n, hn, rfl, rfl⟩

theorem Labelled.congr (h : g.Labelled id name fused?) (hsame : g'.content? id = g.content? id) :
    g'.Labelled id name fused? := by
  obtain ⟨n, hn, rfl, rfl⟩ := h
  exact labelled_of_content? (hsame.trans (content?_of_node? hn))

/-- A graph is its nodes and what it holds apart from them. -/
theorem ext_of_node? (hheader : g'.header = g.header) (hnode : ∀ id, g'.node? id = g.node? id) :
    g' = g := by
  obtain ⟨name, nodes, parameters, results, released⟩ := g
  obtain ⟨name', nodes', parameters', results', released'⟩ := g'
  obtain ⟨rfl, hsize, rfl, rfl, rfl⟩ := Header.mk.inj hheader
  obtain rfl : nodes' = nodes := by
    refine Array.ext hsize fun id hid hid' => ?_
    simpa [node?, Array.getElem?_eq_getElem hid, Array.getElem?_eq_getElem hid'] using hnode id
  rfl

theorem modifyNode_congr {f f' : Node → Node} (h : ∀ n, g.node? id = some n → f n = f' n) :
    g.modifyNode id f = g.modifyNode id f' := by
  refine ext_of_node? (by rw [header_modifyNode, header_modifyNode]) fun j => ?_
  rw [node?_modifyNode, node?_modifyNode]
  split
  next hid => exact Option.map_congr fun n hn => h n (hid ▸ hn)
  next => rfl

theorem modifyNode_modifyNode (g : Graph) (id : NodeId) (f f' : Node → Node) :
    (g.modifyNode id f).modifyNode id f' = g.modifyNode id fun n => f' (f n) := by
  refine ext_of_node? (by simp only [header_modifyNode]) fun j => ?_
  rw [node?_modifyNode, node?_modifyNode, node?_modifyNode]
  split
  next => rw [Option.map_map]; rfl
  next => rfl

/-- The node at a position takes in metadata. -/
def annotate (g : Graph) (id : NodeId) (gathered : Metadata) : Graph :=
  g.modifyNode id fun n => { n with metadata := n.metadata.merge gathered }

theorem node?_annotate_self {n : Node} (h : g.node? id = some n) (gathered : Metadata) :
    (g.annotate id gathered).node? id = some { n with metadata := n.metadata.merge gathered } := by
  rw [annotate, node?_modifyNode, if_pos rfl, h, Option.map_some]

theorem node?_annotate_of_ne {j : NodeId} (h : j ≠ id) (gathered : Metadata) :
    (g.annotate id gathered).node? j = g.node? j := by
  rw [annotate, node?_modifyNode, if_neg (Ne.symm h)]

theorem WellFormed.annotate (hwf : g.WellFormed) (id : NodeId) (gathered : Metadata) :
    (g.annotate id gathered).WellFormed :=
  wellFormed_modifyNode hwf fun _ _ => ⟨rfl, rfl, rfl, rfl⟩

theorem content?_modifyNode {f : Node → Node} {φ : Node.Content → Node.Content}
    (hf : ∀ n, (f n).content = φ n.content) (g : Graph) (j id : NodeId) :
    (g.modifyNode j f).content? id = (g.content? id).map fun c => if id = j then φ c else c := by
  rw [content?, node?_modifyNode, content?]
  by_cases hj : j = id
  · cases g.node? id <;> simp [hj, hf]
  · cases g.node? id <;> simp [hj, Ne.symm hj]

/-- What is added has no part in the names and metadata of what is there. -/
theorem content?_insert (g : Graph) (op : Op) (inputs : List Output) (descs : List Desc)
    (h : id < g.nodes.size) : (g.insert op inputs descs).content? id = g.content? id := by
  rw [content?, node?_insert, if_neg (Nat.ne_of_lt h)]
  exact foldl_addTarget_keeps (φ := fun g => g.content? id)
    (fun g v i => content?_modifySlot_targets g v (· ++ [i]) id) g.nodes.size inputs.zipIdx g

/-- What is removed has no part in the names and metadata of what stays. -/
theorem content?_without {gone : List NodeId} (h : id ∉ gone) :
    (g.without gone).content? id = g.content? id := by
  rw [content?, node?_without, if_neg h, Option.map_map, content?]
  refine congrArg (Option.map · (g.node? id)) (funext fun n => ?_)
  simp [Node.content, Node.descs, Node.withoutReaders, Function.comp_def]

theorem content?_release (hwf : g.WellFormed) {ids : List NodeId} (h : ¬ g.Expendable ids id) :
    (g.release ids).content? id = g.content? id := by
  obtain ⟨gone, -, hgone, hrelease⟩ := exists_release hwf ids
  rw [hrelease, content?_without (mt (hgone id).1 h)]

end Graph

/-! ### Fusions -/

namespace Edit

open OpGraph.Graph

variable {α β : Type} {g g' : Graph} {root fused : NodeId}

theorem mapM_query_eq_ok {f : α → Graph → Except GraphError β} {l : List α} {bs : List β}
    {g g' : Graph} (h : l.mapM (fun a => query (f a)) g = .ok bs g') :
    List.Forall₂ (fun a b => f a g = .ok b) l bs ∧ g = g' := by
  induction l generalizing bs g' with
  | nil =>
    obtain ⟨rfl, rfl⟩ := pure_eq_ok.1 h
    exact ⟨.nil, rfl⟩
  | cons a l ih =>
    rw [List.mapM_cons] at h
    obtain ⟨b, g₁, hquery, h⟩ := bind_eq_ok.1 h
    obtain ⟨hb, rfl⟩ := query_eq_ok.1 hquery
    obtain ⟨bs', g₂, hqueries, h⟩ := bind_eq_ok.1 h
    obtain ⟨hbs, rfl⟩ := ih hqueries
    obtain ⟨rfl, rfl⟩ := pure_eq_ok.1 h
    exact ⟨.cons hb hbs, rfl⟩

theorem mapM_query_of_forall₂ {f : α → Graph → Except GraphError β} {l : List α} {bs : List β}
    (h : List.Forall₂ (fun a b => f a g = .ok b) l bs) :
    l.mapM (fun a => query (f a)) g = .ok bs g := by
  induction h with
  | nil => rfl
  | cons hab _ ih =>
    rw [List.mapM_cons, bind_of_ok (query_of_ok hab), bind_of_ok ih]
    rfl

theorem forM_updateNode_of_contains {l : List NodeId} (f : Node → Node)
    (h : ∀ id ∈ l, g.contains id) :
    l.forM (fun id => updateNode id f) g = .ok () (l.foldl (fun g id => g.modifyNode id f) g) := by
  induction l generalizing g with
  | nil => rfl
  | cons id l ih =>
    obtain ⟨hid, hl⟩ := List.forall_mem_cons.1 h
    refine (bind_of_ok (updateNode_of_contains hid f)).trans (ih fun j hj => ?_)
    rw [contains_modifyNode]
    exact hl j hj

/-- **Metadata of live nodes is gathered before any of it is written.** -/
theorem copyMetadata_of_nodes {sources targets : List NodeId} {nodes : List Node}
    (hsources : List.Forall₂ (fun id n => g.node? id = some n) sources nodes)
    (htargets : ∀ id ∈ targets, g.contains id) :
    copyMetadata sources targets g = .ok () (targets.foldl (fun g id => g.modifyNode id fun n =>
      { n with metadata := n.metadata.merge (Metadata.gather (nodes.map (·.metadata))) }) g) := by
  have hnodes : List.Forall₂ (fun id n => g.node id = .ok n) sources nodes :=
    hsources.imp fun _ _ h => node_eq_ok.2 h
  rw [copyMetadata, bind_of_ok (mapM_query_of_forall₂ hnodes),
    bind_of_ok (forM_discard_query fun id hid => node_of_contains (htargets id hid))]
  exact forM_updateNode_of_contains _ htargets

/-- Metadata that is copied to a single node changes the metadata of that node. -/
theorem copyMetadata_singleton_eq_ok {sources : List NodeId} {id : NodeId}
    (h : copyMetadata sources [id] g = .ok () g') :
    g.contains id ∧ ∃ gathered, g' = g.annotate id gathered := by
  obtain ⟨nodes, g₁, hnodes, hrest⟩ := bind_eq_ok.1 h
  obtain ⟨-, rfl⟩ := mapM_query_eq_ok hnodes
  obtain ⟨u, g₂, hcheck, hupdate⟩ := bind_eq_ok.1 hrest
  rw [forM_singleton] at hcheck hupdate
  rw [discard_eq] at hcheck
  obtain ⟨n, g₃, hn, hnil⟩ := bind_eq_ok.1 hcheck
  obtain ⟨hlive, rfl⟩ := query_eq_ok.1 hn
  obtain ⟨-, rfl⟩ := pure_eq_ok.1 hnil
  have hlive : g.contains id := contains_iff.2 ⟨n, node_eq_ok.1 hlive⟩
  rw [updateNode_of_contains hlive] at hupdate
  cases hupdate
  exact ⟨hlive, _, rfl⟩

/-- A fusion ends with labels: the node gets the names of the group and, if it has no name, one of its
own. -/
theorem label_of_contains {id : NodeId} {names : NameSet} {name : String} (h : g.contains id) :
    (do
      setMetadata id Metadata.fusedNames (.names names)
      if (← query (·.node id)).givenName = none then
        setName id name : Edit Unit) g =
      .ok () (g.modifyNode id fun n => { n with
        metadata := n.metadata.insert Metadata.fusedNames (.names names)
        givenName := some (n.givenName.getD name) }) := by
  obtain ⟨n, hn⟩ := contains_iff.1 h
  have hlisted := updateNode_of_contains h fun n =>
    { n with metadata := n.metadata.insert Metadata.fusedNames (.names names) }
  have hn' : (g.modifyNode id fun n => { n with
      metadata := n.metadata.insert Metadata.fusedNames (.names names) }).node? id =
        some { n with metadata := n.metadata.insert Metadata.fusedNames (.names names) } := by
    rw [node?_modifyNode, if_pos rfl, hn, Option.map_some]
  rw [setMetadata, bind_of_ok hlisted, bind_of_ok (query_of_ok (node_eq_ok.2 hn'))]
  dsimp only
  split
  next hnone =>
    rw [setName, updateNode_of_contains (contains_iff.2 ⟨_, hn'⟩), modifyNode_modifyNode]
    refine congrArg (EStateM.Result.ok ()) (modifyNode_congr fun p hp => ?_)
    obtain rfl := Option.some.inj (hn.symm.trans hp)
    rw [hnone, Option.getD_none]
  next hsome =>
    obtain ⟨given, hgiven⟩ := Option.ne_none_iff_exists'.1 hsome
    refine congrArg (EStateM.Result.ok ()) (modifyNode_congr fun p hp => ?_)
    obtain rfl := Option.some.inj (hn.symm.trans hp)
    rw [hgiven, Option.getD_some]

/-- **A fusion in three steps.**  The new node takes in the metadata of the group, it relieves the root, and
it is labelled with what has been found out before: the names that the group stands for and the name that the
root goes by. -/
theorem fuse_of_nodes {group : List NodeId} {nodes : List Node} (hwf : g.WellFormed)
    (hgroup : List.Forall₂ (fun id n => g.node? id = some n) group nodes) (hne : root ≠ fused)
    {n m : Node} (hroot : g.node? root = some n) (hfused : g.node? fused = some m)
    (hlen : n.outputs.length = m.outputs.length) :
    ∃ g₁, (g.annotate fused (Metadata.gather (nodes.map (·.metadata)))).Relieves root fused
        n.outputs.length g₁ ∧
      fuse group root fused g = .ok () (g₁.modifyNode fused fun p => { p with
        metadata := p.metadata.insert Metadata.fusedNames
          (.names ((nodes.map (·.fusedNames)).foldl NameSet.union ∅))
        givenName := some (p.givenName.getD n.friendlyName) }) := by
  have hsets : List.Forall₂ (fun id s => g.fusedNames id = .ok s) group (nodes.map (·.fusedNames)) :=
    List.forall₂_map_right_iff.2 <| hgroup.imp fun id p hp => by
      rw [Graph.fusedNames, node_eq_ok.2 hp]
      rfl
  have hcopy := copyMetadata_of_nodes hgroup (List.forall_mem_singleton.2 (contains_iff.2 ⟨m, hfused⟩))
  have hroot₁ := (node?_annotate_of_ne hne (Metadata.gather (nodes.map (·.metadata)))).trans hroot
  have hfused₁ := node?_annotate_self hfused (Metadata.gather (nodes.map (·.metadata)))
  obtain ⟨g₁, hreplace, hrelieves⟩ :=
    replaceNode_relieves (hwf.annotate fused _) hne hroot₁ hfused₁ hlen
  have hlive : g₁.contains fused := by
    have hcontent := hrelieves.content_eq hroot₁ hfused₁ fused
    rw [content?_of_node? hfused₁, Option.map_some] at hcontent
    obtain ⟨p, hp, -⟩ := Option.map_eq_some_iff.1 hcontent
    exact contains_iff.2 ⟨p, hp⟩
  refine ⟨g₁, hrelieves, ?_⟩
  rw [fuse, bind_of_ok (mapM_query_of_forall₂ hsets), bind_of_ok (query_of_ok (node_eq_ok.2 hroot)),
    bind_of_ok hcopy]
  exact (bind_of_ok hreplace).trans (label_of_contains hlive)

/-- **What a fusion records.**  The new node keeps its name, or it gets the one that the root goes by.  It
lists the names that the nodes of the group stand for.  No other node gets a name or metadata. -/
theorem content?_of_fuse {group : List NodeId} {nodes : List Node} (hwf : g.WellFormed)
    (hgroup : List.Forall₂ (fun id n => g.node? id = some n) group nodes) (hne : root ≠ fused)
    {n m : Node} (hroot : g.node? root = some n) (hfused : g.node? fused = some m)
    (hlen : n.outputs.length = m.outputs.length) (h : fuse group root fused g = .ok () g')
    (id : NodeId) :
    g'.content? id = (g.content? id).map fun c =>
      if id = fused then { c with
        givenName := some (m.givenName.getD n.friendlyName)
        metadata := (m.metadata.merge (Metadata.gather (nodes.map (·.metadata)))).insert
          Metadata.fusedNames (.names ((nodes.map (·.fusedNames)).foldl NameSet.union ∅)) }
      else c := by
  obtain ⟨g₁, hrelieves, hok⟩ := fuse_of_nodes hwf hgroup hne hroot hfused hlen
  cases h.symm.trans hok
  have hroot₁ := (node?_annotate_of_ne hne (Metadata.gather (nodes.map (·.metadata)))).trans hroot
  have hfused₁ := node?_annotate_self hfused (Metadata.gather (nodes.map (·.metadata)))
  rw [content?_modifyNode (φ := fun c => { c with
      metadata := c.metadata.insert Metadata.fusedNames
        (.names ((nodes.map (·.fusedNames)).foldl NameSet.union ∅))
      givenName := some (c.givenName.getD n.friendlyName) }) fun _ => rfl,
    hrelieves.content_eq hroot₁ hfused₁]
  by_cases hid : id = fused
  · -- a name that the new node has taken over is the one that the root goes by
    rw [hid, content?_of_node? hfused₁, content?_of_node? hfused]
    simp only [Option.map_some, if_true, true_and]
    split
    next hb =>
      obtain ⟨given, hgiven⟩ := Option.ne_none_iff_exists'.1 hb.2.1
      have hnone : m.givenName = none := hb.2.2.1
      simp [Node.content, Node.descs, Node.friendlyName, hgiven, hnone]
    next => simp [Node.content, Node.descs]
  · rw [content?, node?_annotate_of_ne hid, ← content?]
    cases g.content? id <;> simp [hid]

/-- **Two nodes give way to a node without a name**: it goes by the name of the second one and stands for
what the two of them have stood for. -/
theorem labelled_fuse {inner : NodeId} {name name' : String} {fused? fused?' : Option NameSet} {m : Node}
    (hwf : g.WellFormed) (hne : root ≠ fused) (hinner : g.Labelled inner name fused?)
    (hroot : g.Labelled root name' fused?') (hfused : g.node? fused = some m)
    (hm : m.givenName = none)
    (hlen : ∀ {n}, g.node? root = some n → n.outputs.length = m.outputs.length)
    (h : fuse [inner, root] root fused g = .ok () g') :
    g'.Labelled fused name' (some ((fused?.getD (.ofList [name])).union
      (fused?'.getD (.ofList [name'])))) ∧ ∀ id, id ≠ fused → g'.content? id = g.content? id := by
  obtain ⟨p, hp, rfl, rfl⟩ := hinner
  obtain ⟨n, hn, rfl, rfl⟩ := hroot
  have hcontent := content?_of_fuse hwf (.cons hp (.cons hn .nil)) hne hn hfused (hlen hn) h
  refine ⟨?_, fun id hid => ?_⟩
  · have hlabel := hcontent fused
    rw [content?_of_node? hfused, Option.map_some, if_pos rfl] at hlabel
    have hlabel := labelled_of_content? hlabel
    rw [Node.Content.friendlyName, Metadata.fusedNames?, Metadata.get?_insert, if_pos rfl, hm] at hlabel
    simpa [MetaValue.names?, Node.fusedNames_eq] using hlabel
  · rw [hcontent]
    cases g.content? id <;> simp [hid]

end Edit

end OpGraph
