import OpGraph.Op.Unpack
import OpGraph.Proofs.Edit.Redirection
import OpGraph.Proofs.Graph.Single

/-!
# Replacing a node

`Edit.replaceNodeWith` replaces the outputs of a node one after the other, and every replacement finds
the graph that the ones before it have left.  A reader that has come to a later output of the same node
moves on from there.  `forward` follows a reader on its way, and `replaceNodeWith_forwards` says that
this is what each input reads in the end: the replacements take place at the same time only where no
value is a later output of the replaced node.

`Edit.replaceNode` replaces each output of a node by the output of another node with the same number,
so that nothing moves twice.  `Relieves` is what the graph is on the way, after some of the outputs;
`Relieves.step` replaces one more, and `replaceNode_moves_edges` is the graph at the end.
-/

namespace OpGraph

open OpGraph.Graph

variable {g g' g'' : Graph} {old new : NodeId}

namespace Graph.Redirects

theorem exists_targets? {v w : Output} (h : g'.Redirects g v w) {u : Output}
    (hu : ∃ ts, g.targets? u = some ts) : ∃ ts, g'.targets? u = some ts := by
  obtain ⟨ts, hts⟩ := hu
  exact ⟨_, by rw [h.targets, hts, Option.map_some]⟩

end Graph.Redirects

theorem Graph.exists_targets?_of_lt {id : NodeId} {n : Node} (hn : g.node? id = some n) {k : Nat}
    (hk : k < n.outputs.length) : ∃ ts, g.targets? ⟨id, k⟩ = some ts :=
  ⟨n.outputs[k].targets, by rw [targets?, hn, Option.bind_some, List.getElem?_eq_getElem hk]; rfl⟩

theorem Graph.lt_of_targets? {id : NodeId} {n : Node} (hn : g.node? id = some n) {k : Nat}
    {ts : List Input} (hts : g.targets? ⟨id, k⟩ = some ts) : k < n.outputs.length := by
  rw [targets?, hn, Option.bind_some] at hts
  obtain ⟨s, hs, -⟩ := Option.map_eq_some_iff.1 hts
  exact (List.getElem?_eq_some_iff.1 hs).1

/-! ### By a list of values -/

/-- What a reader of a value reads after some values have taken the place of outputs of `old`, one
after the other.  Each value comes with the number of the output. -/
def forward (old : NodeId) (values : List (Output × Nat)) (reader : NodeId) (v : Output) : Output :=
  values.foldl (fun u e => if u = ⟨old, e.2⟩ ∧ reader ≠ e.1.node then e.1 else u) v

theorem forward_append (old : NodeId) (l l' : List (Output × Nat)) (reader : NodeId) (v : Output) :
    forward old (l ++ l') reader v = forward old l' reader (forward old l reader v) :=
  List.foldl_append

theorem forward_of_forall_ne {l : List (Output × Nat)} {v : Output}
    (h : ∀ e ∈ l, v ≠ ⟨old, e.2⟩) (reader : NodeId) : forward old l reader v = v := by
  induction l with
  | nil => rfl
  | cons e l ih =>
    obtain ⟨he, hl⟩ := List.forall_mem_cons.1 h
    have hstep : forward old (e :: l) reader v = forward old l reader v :=
      congrArg (forward old l reader) (if_neg fun hv => he hv.1)
    rw [hstep, ih hl]

/-- A reader stays with the value that it has come to, unless that is an output of `old` whose turn is
yet to come. -/
theorem forward_zipIdx {values : List Output} {k : Nat} {v : Output} {reader : NodeId}
    (hv : values[k]? = some v) (hreader : reader ≠ v.node) (hlater : v.node = old → v.index ≤ k) :
    forward old values.zipIdx reader ⟨old, k⟩ = v := by
  obtain ⟨hk, rfl⟩ := List.getElem?_eq_some_iff.1 hv
  have hsplit : values.zipIdx =
      (values.take k).zipIdx ++ (values[k], k) :: (values.drop (k + 1)).zipIdx (k + 1) := by
    conv_lhs => rw [← List.take_append_drop k values]
    rw [List.zipIdx_append, List.length_take, Nat.min_eq_left (Nat.le_of_lt hk), List.drop_eq_getElem_cons hk,
      List.zipIdx_cons]
    simp
  have hfirst : forward old (values.take k).zipIdx reader ⟨old, k⟩ = ⟨old, k⟩ := by
    refine forward_of_forall_ne (fun e he heq => ?_) reader
    have hlt := List.snd_lt_of_mem_zipIdx he
    rw [List.length_take] at hlt
    have := congrArg Output.index heq
    simp only at this
    omega
  have hlast : forward old ((values.drop (k + 1)).zipIdx (k + 1)) reader values[k] = values[k] := by
    refine forward_of_forall_ne (fun e he heq => ?_) reader
    have hle := List.le_snd_of_mem_zipIdx he
    have hnode := hlater (congrArg Output.node heq)
    have := congrArg Output.index heq
    simp only at this
    omega
  rw [hsplit, forward_append, hfirst]
  refine Eq.trans ?_ hlast
  exact congrArg (forward old _ reader) (if_pos ⟨rfl, hreader⟩)

namespace Edit

/-- The values are checked first, and checks change nothing. -/
theorem forM_discard_query {α β : Type} {f : α → Graph → Except GraphError β} {l : List α}
    (h : ∀ a ∈ l, ∃ b, f a g = .ok b) : l.forM (fun a => discard (query (f a))) g = .ok () g := by
  induction l with
  | nil => rfl
  | cons a l ih =>
    obtain ⟨⟨b, hb⟩, hl⟩ := List.forall_mem_cons.1 h
    have hstep : (discard (query (f a)) : Edit PUnit) g = .ok () g := by
      rw [discard_eq, bind_of_ok (query_of_ok hb)]
      rfl
    exact (bind_of_ok hstep).trans (ih hl)

/-- A replacement that passes the checks. -/
theorem replaceNodeWith_eq {n : Node} (hold : g.node? old = some n) {values : List Output}
    (hlen : values.length = n.outputs.length) (hvalues : ∀ v ∈ values, ∃ ts, g.targets? v = some ts) :
    replaceNodeWith old values g = values.zipIdx.forM (fun e => replaceOutput ⟨old, e.2⟩ e.1) g := by
  have hchecked : values.forM (fun v => discard (query (·.desc v))) g = .ok () g := by
    refine forM_discard_query fun v hv => ?_
    obtain ⟨d, hd⟩ := exists_targets?_iff.1 (hvalues v hv)
    exact ⟨d, desc_eq_ok_iff_desc?.2 hd⟩
  rw [replaceNodeWith, bind_of_ok (query_of_ok (node_eq_ok.2 hold))]
  dsimp only
  rw [if_neg (not_not.2 hlen.symm), bind_of_ok hchecked]

/-- Values take the place of outputs of `old`, one after the other. -/
theorem forM_replaceOutput_forwards (l : List (Output × Nat)) (hwf : g.WellFormed)
    (hold : ∀ e ∈ l, ∃ ts, g.targets? ⟨old, e.2⟩ = some ts)
    (hnew : ∀ e ∈ l, ∃ ts, g.targets? e.1 = some ts) :
    ∃ g', l.forM (fun e => replaceOutput ⟨old, e.2⟩ e.1) g = .ok () g' ∧
      ∀ i, g'.source? i = (g.source? i).map (forward old l i.node) := by
  induction l generalizing g with
  | nil => exact ⟨g, rfl, fun i => by cases g.source? i <;> rfl⟩
  | cons e l ih =>
    obtain ⟨he, hold⟩ := List.forall_mem_cons.1 hold
    obtain ⟨he', hnew⟩ := List.forall_mem_cons.1 hnew
    obtain ⟨g₁, hstep, h₁⟩ := replaceOutput_redirects hwf he he'
    obtain ⟨g', hrest, hsource⟩ := ih h₁.wellFormed
      (fun e he => h₁.exists_targets? (hold e he)) fun e he => h₁.exists_targets? (hnew e he)
    refine ⟨g', (bind_of_ok hstep).trans hrest, fun i => ?_⟩
    rw [hsource, h₁.source, Option.map_map]
    rfl

/-- **Where readers end up.**  A replacement of all outputs of a node by existing values comes to its
end.  An input that has read another node still reads what it has read.  An input that has read an
output of the node reads the value given for it, unless the input belongs to the node of the value or
the value is a later output of the replaced node; in general `forward` tells what it reads. -/
theorem replaceNodeWith_forwards (hwf : g.WellFormed) {n : Node} (hold : g.node? old = some n)
    {values : List Output} (hlen : values.length = n.outputs.length)
    (hvalues : ∀ v ∈ values, ∃ ts, g.targets? v = some ts) :
    ∃ g', replaceNodeWith old values g = .ok () g' ∧
      (∀ i, g'.source? i = (g.source? i).map (forward old values.zipIdx i.node)) ∧
      (∀ i v, g.source? i = some v → v.node ≠ old → g'.source? i = some v) ∧
      ∀ i k v, g.source? i = some ⟨old, k⟩ → values[k]? = some v → i.node ≠ v.node →
        (v.node = old → v.index ≤ k) → g'.source? i = some v := by
  have hlive (e : Output × Nat) (he : e ∈ values.zipIdx) :
      ∃ ts, g.targets? ⟨old, e.2⟩ = some ts :=
    exists_targets?_of_lt hold (hlen ▸ List.snd_lt_of_mem_zipIdx he)
  obtain ⟨g', hok, hsource⟩ := forM_replaceOutput_forwards values.zipIdx hwf hlive fun e he =>
    hvalues e.1 (List.fst_mem_of_mem_zipIdx he)
  refine ⟨g', (replaceNodeWith_eq hold hlen hvalues).trans hok, hsource, fun i v hi hv => ?_,
    fun i k v hi hv hreader hlater => ?_⟩
  · rw [hsource, hi, Option.map_some, forward_of_forall_ne]
    exact fun e _ heq => hv (congrArg Output.node heq)
  · rw [hsource, hi, Option.map_some, forward_zipIdx hv hreader hlater]

/-- Two values of one node, each with a reader. -/
def halves : Graph :=
  let half : Desc := ⟨.f64, .ofShape [3]⟩
  (((({ name := "halves" } : Graph).insert (.parameter .f64 (.ofShape [2, 3])) []
    [⟨.f64, .ofShape [2, 3]⟩]).insert (.extension (unpack false)) [⟨0, 0⟩] [half, half]).insert
      (.unary .relu) [⟨1, 0⟩] [half]).insert (.unary .relu) [⟨1, 1⟩] [half]

theorem wellFormed_halves : halves.WellFormed := by
  have hparam : (({ name := "halves" } : Graph).insert (.parameter .f64 (.ofShape [2, 3])) []
      [⟨.f64, .ofShape [2, 3]⟩]).WellFormed := wellFormed_insert (wellFormed_empty _) (by simp)
  exact wellFormed_insert_singleton (wellFormed_insert_singleton
    (wellFormed_insert_singleton hparam ⟨_, rfl⟩) ⟨_, rfl⟩) ⟨_, rfl⟩

/-- The readers of two values cannot be swapped: the first one is taken along with the second one. -/
theorem replaceNodeWith_halves_takes_along :
    halves.WellFormed ∧ halves.source? ⟨2, 0⟩ = some ⟨1, 0⟩ ∧ halves.source? ⟨3, 0⟩ = some ⟨1, 1⟩ ∧
      ∃ g', replaceNodeWith 1 [⟨1, 1⟩, ⟨1, 0⟩] halves = .ok () g' ∧
        g'.source? ⟨2, 0⟩ = some ⟨1, 0⟩ ∧ g'.source? ⟨3, 0⟩ = some ⟨1, 0⟩ :=
  ⟨wellFormed_halves, rfl, rfl, _, rfl, rfl, rfl⟩

/-- Both readers can go to the second value. -/
theorem replaceNodeWith_forwards_halves :
    halves.WellFormed ∧ ∃ g', replaceNodeWith 1 [⟨1, 1⟩, ⟨1, 1⟩] halves = .ok () g' ∧
      g'.source? ⟨2, 0⟩ = some ⟨1, 1⟩ ∧ g'.source? ⟨3, 0⟩ = some ⟨1, 1⟩ := by
  have hvalues : ∀ v ∈ [(⟨1, 1⟩ : Output), ⟨1, 1⟩], ∃ ts, halves.targets? v = some ts := by
    intro v hv
    obtain rfl : v = ⟨1, 1⟩ := by simpa using hv
    exact ⟨_, rfl⟩
  obtain ⟨g', hok, hforward, -, hlast⟩ := replaceNodeWith_forwards wellFormed_halves
    (show halves.node? 1 = some _ from rfl) rfl hvalues
  refine ⟨wellFormed_halves, g', hok, ?_, ?_⟩
  · rw [hforward]
    rfl
  · exact hlast ⟨3, 0⟩ 1 ⟨1, 1⟩ rfl rfl (by decide) fun _ => Nat.le_refl 1

end Edit

/-! ### By another node -/

/-- The replaced node has a name to pass on, and the new node takes it over. -/
def Node.Bequeaths (old new : Node) : Prop :=
  old.outputs.length = 1 ∧ old.givenName ≠ none ∧ new.givenName = none ∧ new.kind ≠ .parameter

instance (old new : Node) : Decidable (old.Bequeaths new) :=
  inferInstanceAs (Decidable (_ ∧ _ ∧ _ ∧ _))

namespace Node.Content

theorem inherit_nameFor (old new : Node) :
    new.content.inherit (old.nameFor new) =
      if old.Bequeaths new then { new.content with givenName := old.givenName } else new.content := by
  have hsame : new.content.inherit none = new.content := by simp [inherit]
  by_cases hname : old.givenName = none
  · have hno : ¬ old.Bequeaths new := fun h => h.2.1 hname
    rw [if_neg hno, Node.nameFor, hname, ite_self, hsame]
  · by_cases h : old.outputs.length = 1 ∧ new.givenName = none ∧ new.kind ≠ .parameter
    · rw [if_pos ⟨h.1, hname, h.2⟩, Node.nameFor, if_pos h, inherit]
      rw [show new.content.givenName = none from h.2.1, Option.or_none]
    · have hno : ¬ old.Bequeaths new := fun h' => h ⟨h'.1, h'.2.2⟩
      rw [if_neg hno, Node.nameFor, if_neg h, hsame]

/-- A name is taken over once. -/
theorem inherit_again (c d : Content) :
    (d.inherit (c.nameFor d)).inherit (c.nameFor (d.inherit (c.nameFor d))) =
      d.inherit (c.nameFor d) := by
  cases hname : c.nameFor d with
  | none =>
    have hsame : d.inherit none = d := by simp [inherit]
    rw [hsame, hname, hsame]
  | some name => simp [inherit, nameFor]

end Node.Content

namespace Graph

/-- On the way from `g`: the first `k` outputs of `old` have been replaced by those of `new`. -/
structure Relieves (g : Graph) (old new : NodeId) (k : Nat) (g' : Graph) : Prop where
  wellFormed : g'.WellFormed
  header_eq : g'.header = g.header
  content : ∀ {c d}, g.content? old = some c → g.content? new = some d → ∀ id,
    g'.content? id = (g.content? id).map fun e =>
      if id = new ∧ 0 < k then e.inherit (c.nameFor d) else e
  source : ∀ i, g'.source? i = (g.source? i).map fun v =>
    if v.node = old ∧ v.index < k ∧ i.node ≠ new then ⟨new, v.index⟩ else v
  targets : ∀ v, g'.targets? v = (g.targets? v).map fun ts =>
    if v.node = new ∧ v.index < k then ts ++ (g.readers ⟨old, v.index⟩).filter (·.node ≠ new)
    else if v.node = old ∧ v.index < k then ts.filter (·.node = new)
    else ts

theorem WellFormed.relieves (hwf : g.WellFormed) (old new : NodeId) : g.Relieves old new 0 g where
  wellFormed := hwf
  header_eq := rfl
  content _ _ id := by simp
  source i := by simp
  targets v := by simp

namespace Relieves

variable {k : Nat}

theorem exists_targets? (h : g.Relieves old new k g') {v : Output}
    (hv : ∃ ts, g.targets? v = some ts) : ∃ ts, g'.targets? v = some ts := by
  obtain ⟨ts, hts⟩ := hv
  exact ⟨_, by rw [h.targets, hts, Option.map_some]⟩

/-- The readers of an output whose turn is yet to come. -/
theorem readers_eq (h : g.Relieves old new k g') (hne : old ≠ new) :
    g'.readers ⟨old, k⟩ = g.readers ⟨old, k⟩ := by
  rw [readers, h.targets, readers]
  cases g.targets? ⟨old, k⟩ <;> simp [hne]

/-- One more output is replaced. -/
theorem step (h : g.Relieves old new k g') (hne : old ≠ new)
    (h' : g''.Redirects g' ⟨old, k⟩ ⟨new, k⟩) : g.Relieves old new (k + 1) g'' where
  wellFormed := h'.wellFormed
  header_eq := h'.header_eq.trans h.header_eq
  content := by
    intro c d hc hd id
    have hc' : g'.content? old = some c := by
      rw [h.content hc hd, hc, Option.map_some, if_neg fun hn => hne hn.1]
    have hd' : g'.content? new = some (if 0 < k then d.inherit (c.nameFor d) else d) := by
      rw [h.content hc hd, hd]
      simp
    rw [h'.content hc' hd', h.content hc hd, Option.map_map]
    by_cases hid : id = new
    · obtain rfl := hid
      rw [hd]
      by_cases hk : 0 < k
      · simp [hk, Node.Content.inherit_again]
      · simp [hk]
    · cases g.content? id <;> simp [hid]
  source := by
    intro i
    rw [h'.source, h.source, Option.map_map]
    cases g.source? i with
    | none => rfl
    | some v =>
      obtain ⟨id, j⟩ := v
      by_cases hi : i.node = new
      · simp [hi]
      · by_cases hid : id = old
        · simp only [Option.map_some, Function.comp_apply, Nat.lt_succ_iff]
          obtain hj | rfl | hj := Nat.lt_trichotomy j k
          · simp [hid, hi, hj, Nat.le_of_lt hj, Ne.symm hne]
          · simp [hid, hi]
          · simp [hid, Nat.lt_asymm hj, Nat.ne_of_gt hj, Nat.not_le.2 hj]
        · simp [hid]
  targets := by
    intro v
    rw [h'.targets, h.targets, h.readers_eq hne, Option.map_map]
    cases g.targets? v with
    | none => rfl
    | some ts =>
      obtain ⟨id, j⟩ := v
      have hne' : (⟨old, k⟩ : Output) ≠ ⟨new, k⟩ := fun h => hne (congrArg Output.node h)
      obtain hj | rfl | hj := Nat.lt_trichotomy j k
      · simp [hne, hj, Nat.lt_succ_of_lt hj, Nat.ne_of_lt hj]
      · by_cases hid : id = new
        · simp [hne, hid]
        · simp [hne, hid]
      · simp [hne, Nat.lt_asymm hj, Nat.ne_of_gt hj, Nat.not_lt.2 hj]

/-- The new node takes over at most the name, and nothing happens to the others. -/
theorem content_eq {n m : Node} (h : g.Relieves old new n.outputs.length g')
    (hold : g.node? old = some n) (hnew : g.node? new = some m) (id : NodeId) :
    g'.content? id = (g.content? id).map fun c =>
      if id = new ∧ n.Bequeaths m then { c with givenName := n.givenName } else c := by
  rw [h.content (content?_of_node? hold) (content?_of_node? hnew), Node.Content.nameFor_content]
  by_cases hid : id = new
  · rw [hid, content?_of_node? hnew, Option.map_some, Option.map_some]
    by_cases hk : 0 < n.outputs.length
    · simp only [hk, and_self, true_and, if_true, Node.Content.inherit_nameFor]
    · have hno : ¬ n.Bequeaths m := fun hb => hk (hb.1 ▸ Nat.one_pos)
      simp [hk, hno]
  · simp [hid]

/-- In the end all outputs of the node have been replaced. -/
theorem source_eq (hwf : g.WellFormed) {n : Node} (h : g.Relieves old new n.outputs.length g')
    (hold : g.node? old = some n) (i : Input) :
    g'.source? i = (g.source? i).map fun v =>
      if v.node = old ∧ i.node ≠ new then ⟨new, v.index⟩ else v := by
  rw [h.source]
  cases hi : g.source? i with
  | none => rfl
  | some v =>
    by_cases hv : v.node = old
    · obtain ⟨-, ts, hts⟩ := hwf.source_exists hi
      have hk : v.index < n.outputs.length := lt_of_targets? (hv ▸ hold) hts
      simp [hv, hk]
    · simp [hv]

theorem targets_eq {n m : Node} (h : g.Relieves old new n.outputs.length g') (hne : old ≠ new)
    (hold : g.node? old = some n) (hnew : g.node? new = some m)
    (hlen : n.outputs.length = m.outputs.length) (v : Output) :
    g'.targets? v = (g.targets? v).map fun ts =>
      if v.node = new then ts ++ (g.readers ⟨old, v.index⟩).filter (·.node ≠ new)
      else if v.node = old then ts.filter (·.node = new)
      else ts := by
  rw [h.targets]
  cases hts : g.targets? v with
  | none => rfl
  | some ts =>
    by_cases hn : v.node = new
    · have hk : v.index < m.outputs.length := lt_of_targets? (hn ▸ hnew) hts
      simp [hn, hlen, hk]
    · by_cases ho : v.node = old
      · have hk : v.index < n.outputs.length := lt_of_targets? (ho ▸ hold) hts
        simp [ho, hne, hk]
      · simp [hn, ho]

end Relieves

end Graph

namespace Edit

open Node.Content

/-- The first outputs of one node are replaced by those of another one. -/
theorem forM_replaceOutput_relieves (hwf : g.WellFormed) (hne : old ≠ new) {n m : Node}
    (hold : g.node? old = some n) (hnew : g.node? new = some m) {k : Nat}
    (hn : k ≤ n.outputs.length) (hm : k ≤ m.outputs.length) :
    ∃ g', (List.range k).forM (fun k => replaceOutput ⟨old, k⟩ ⟨new, k⟩) g = .ok () g' ∧
      g.Relieves old new k g' := by
  induction k with
  | zero => exact ⟨g, rfl, hwf.relieves old new⟩
  | succ k ih =>
    obtain ⟨g₁, hfirst, h₁⟩ := ih (Nat.le_of_succ_le hn) (Nat.le_of_succ_le hm)
    obtain ⟨g', hlast, h'⟩ := replaceOutput_redirects h₁.wellFormed
      (h₁.exists_targets? (exists_targets?_of_lt hold hn))
      (h₁.exists_targets? (exists_targets?_of_lt hnew hm))
    refine ⟨g', ?_, h₁.step hne h'⟩
    rw [List.range_succ]
    exact (congrFun List.forM_append g).trans ((bind_of_ok hfirst).trans (bind_of_ok hlast))

/-- Every output of a node comes with its own number. -/
theorem zipIdx_values (n : Node) :
    n.values.zipIdx = (List.range n.outputs.length).map fun k => (⟨n.id, k⟩, k) := by
  apply List.ext_getElem
  · simp [Node.values]
  · intro k h h'
    simp [Node.values]

theorem replaceNode_relieves (hwf : g.WellFormed) (hne : old ≠ new) {n m : Node}
    (hold : g.node? old = some n) (hnew : g.node? new = some m)
    (hlen : n.outputs.length = m.outputs.length) :
    ∃ g', replaceNode old new g = .ok () g' ∧ g.Relieves old new n.outputs.length g' := by
  obtain ⟨g', hok, h⟩ :=
    forM_replaceOutput_relieves hwf hne hold hnew (Nat.le_refl _) (Nat.le_of_eq hlen)
  have hid := hwf.id_eq hnew
  refine ⟨g', ?_, h⟩
  rw [replaceNode, if_neg hne]
  refine (bind_of_ok (query_of_ok (node_eq_ok.2 hnew))).trans ?_
  rw [replaceNodeWith_eq hold (by simp [Node.values, hlen]), zipIdx_values, ← hlen, hid]
  · exact (congrFun (List.forM_map ..) g).trans hok
  · intro v hv
    obtain ⟨k, hk, rfl⟩ := List.mem_map.1 hv
    exact hid ▸ exists_targets?_of_lt hnew (List.mem_range.1 hk)

/-- **Which edges move.**  A node can be replaced by any other node with as many outputs.  The readers
of each output that do not belong to the new node go to the end of the list of the output with the same
number, in their order, and the others stay.  Nothing else changes, but for one name: if the replaced
node has a single output and has been given a name, and the new node has been given none and is no
parameter, then the new node takes over the name. -/
theorem replaceNode_moves_edges (hwf : g.WellFormed) (hne : old ≠ new) {n m : Node}
    (hold : g.node? old = some n) (hnew : g.node? new = some m)
    (hlen : n.outputs.length = m.outputs.length) :
    ∃ g', replaceNode old new g = .ok () g' ∧
      (∀ k ts us, g.targets? ⟨old, k⟩ = some ts → g.targets? ⟨new, k⟩ = some us →
        g'.targets? ⟨new, k⟩ = some (us ++ ts.filter (·.node ≠ new)) ∧
        g'.targets? ⟨old, k⟩ = some (ts.filter (·.node = new))) ∧
      (∀ v, v.node ≠ old → v.node ≠ new → g'.targets? v = g.targets? v) ∧
      (∀ i, g'.source? i = (g.source? i).map fun v =>
        if v.node = old ∧ i.node ≠ new then ⟨new, v.index⟩ else v) ∧
      g'.header = g.header ∧
      (∀ id, g'.content? id = (g.content? id).map fun c =>
        if id = new ∧ n.Bequeaths m then { c with givenName := n.givenName } else c) ∧
      ∀ id p p', g.node? id = some p → g'.node? id = some p' →
        p'.friendlyName = if id = new ∧ n.Bequeaths m then n.friendlyName else p.friendlyName := by
  obtain ⟨g', hok, h⟩ := replaceNode_relieves hwf hne hold hnew hlen
  have hcontent := h.content_eq hold hnew
  refine ⟨g', hok, fun k ts us hts hus => ⟨?_, ?_⟩, fun v ho hn => ?_, fun i => ?_, h.header_eq,
    hcontent, fun id p p' hp hp' => ?_⟩
  · have hk : k < n.outputs.length := lt_of_targets? hold hts
    rw [h.targets, hus, readers, hts]
    simp [hk]
  · have hk : k < n.outputs.length := lt_of_targets? hold hts
    rw [h.targets, hts]
    simp [hne, hk]
  · rw [h.targets]
    cases g.targets? v <;> simp [ho, hn]
  · rw [h.source]
    cases hi : g.source? i with
    | none => rfl
    | some v =>
      by_cases hv : v.node = old
      · have hk : v.index < n.outputs.length := by
          obtain ⟨-, ts, hts⟩ := hwf.source_exists hi
          exact lt_of_targets? (hv ▸ hold) hts
        simp [hv, hk]
      · simp [hv]
  · have hsame := hcontent id
    rw [content?_of_node? hp, content?_of_node? hp', Option.map_some, Option.some.injEq] at hsame
    rw [← friendlyName_content, hsame]
    split
    next hb =>
      obtain ⟨name, hname⟩ := Option.ne_none_iff_exists'.1 hb.2.2.1
      simp [friendlyName, Node.friendlyName, hname]
    next => exact friendlyName_content p

/-- A named operation is read by a result and by a second operation. -/
def tandem : Graph :=
  ((single (.unary .relu) ⟨.f64, .ofShape [2]⟩ ⟨.f64, .ofShape [2]⟩).insert (.unary .relu) [⟨1, 0⟩]
    [⟨.f64, .ofShape [2]⟩]).modifyNode 1 fun n => { n with givenName := some "first" }

theorem wellFormed_tandem : tandem.WellFormed :=
  wellFormed_modifyNode (wellFormed_insert_singleton (wellFormed_single _ _ _) ⟨_, rfl⟩)
    fun _ _ => ⟨rfl, rfl, rfl, rfl⟩

/-- The second operation takes the place of the first one behind which it stands. -/
theorem replaceNode_moves_edges_tandem :
    tandem.WellFormed ∧ ∃ g', replaceNode 1 3 tandem = .ok () g' ∧
      g'.targets? ⟨3, 0⟩ = some [⟨2, 0⟩] ∧ g'.targets? ⟨1, 0⟩ = some [⟨3, 0⟩] ∧
      g'.source? ⟨2, 0⟩ = some ⟨3, 0⟩ ∧ g'.source? ⟨3, 0⟩ = some ⟨1, 0⟩ ∧
      (g'.content? 3).bind (·.givenName) = some "first" := by
  obtain ⟨g', hok, hmoved, -, hsource, -, hcontent, -⟩ :=
    replaceNode_moves_edges wellFormed_tandem (show 1 ≠ 3 by decide) rfl rfl rfl
  have htargets := hmoved 0 _ _ rfl rfl
  refine ⟨wellFormed_tandem, g', hok, htargets.1, htargets.2, ?_, ?_, ?_⟩
  · rw [hsource]
    rfl
  · rw [hsource]
    rfl
  · rw [hcontent]
    rfl

end Edit

end OpGraph
