import OpGraph.Proofs.Edit.Blind
import OpGraph.Proofs.Rule.Traversal

/-!
# Matching and traversals do not look at names

The predicates of a pattern are the only place where matching could look at more than operations and
edges.  If they do not look at names (`PatternTable.Blind`), a pattern has the same matches in alike graphs
(`Pattern.matchNode?_eq`), and a group of rules with such patterns and blind actions goes over alike
graphs in step (`couples_runRules`).
-/

namespace OpGraph

open OpGraph.Graph (Alike)

/-! ### Patterns -/

/-- The predicate accepts the same values in graphs that are equal except for names and metadata. -/
def Predicate.Blind (p : Predicate) : Prop := ∀ g g' : Graph, g.Alike g' → p g = p g'

theorem Predicate.blind_always : always.Blind := fun _ _ _ => rfl

theorem Predicate.blind_consumersCount (n : Nat) : (consumersCount n).Blind := by
  intro g g' h
  funext v
  rw [consumersCount, consumersCount, h.consumerCount_eq]

/-- No predicate of the pattern node looks at names. -/
def PatternNode.Blind {i : Nat} : PatternNode i → Prop
  | .any p => p.Blind
  | .kinds _ _ p => p.Blind
  | .either _ => True

namespace PatternTable

/-- No predicate of the table looks at names. -/
def Blind (t : PatternTable) : Prop := ∀ i, (t.node i).Blind

variable {t : PatternTable} {g g' : Graph}

theorem accepts_eq (ht : t.Blind) (h : g.Alike g') {i : Nat} (hi : i < t.size) (v : Output) :
    t.accepts g i hi v = t.accepts g' i hi v := by
  induction i using Nat.strongRecOn generalizing v with
  | _ i ih =>
  have hblind := ht ⟨i, hi⟩
  rw [accepts, accepts]
  cases hn : t.node ⟨i, hi⟩ with
  | any p =>
    rw [hn] at hblind
    exact congrFun (hblind g g' h) v
  | kinds kinds inputs p =>
    rw [hn] at hblind
    dsimp only
    rw [h.op?_eq, hblind g g' h]
  | either alternatives =>
    dsimp only
    congr 1
    funext j
    exact ih j.val j.isLt _ v

theorem extend_eq (ht : t.Blind) (h : g.Alike g') {i : Nat} (hi : i < t.size) (v : Output)
    (b : Bindings) : t.extend g i hi v b = t.extend g' i hi v b := by
  induction i using Nat.strongRecOn generalizing v b with
  | _ i ih =>
  have hblind := ht ⟨i, hi⟩
  rw [extend, extend]
  cases b.get? i with
  | some bound => rfl
  | none =>
    dsimp only
    rw [h.congr (·.hasOutput v) fun g => g.hasOutput_anonymous v]
    refine ite_congr rfl (fun _ => rfl) fun _ => ?_
    cases hn : t.node ⟨i, hi⟩ with
    | any p =>
      rw [hn] at hblind
      dsimp only
      rw [hblind g g' h]
    | kinds kinds inputs p =>
      dsimp only
      rw [accepts_eq ht h]
      refine ite_congr rfl (fun _ => rfl) fun _ => ite_congr rfl (fun _ => rfl) fun _ => ?_
      obtain ⟨hnode, hnode'⟩ | ⟨n, n', hnode, hnode', hsame⟩ := h.node?_cases v.node
      · rw [hnode, hnode']
        rfl
      rw [hnode, hnode']
      simp only [Option.bind_eq_bind, Option.bind_some, Node.inputs_eq_of_anonymous hsame]
      refine ite_congr rfl (fun _ => rfl) fun _ => ?_
      congr 1
      funext b e
      exact ih e.1.val e.1.isLt _ e.2 b
    | either alternatives =>
      dsimp only
      have haccepts (j : Fin i) := accepts_eq ht h (Nat.lt_trans j.isLt hi) v
      simp only [haccepts]
      congr 1
      funext j
      rw [ih j.val j.isLt]

end PatternTable

namespace Pattern

/-- **A pattern whose predicates do not look at names has the same matches in alike graphs.** -/
theorem matchNode?_eq {p : Pattern} (hp : p.table.Blind) {g g' : Graph} (h : g.Alike g')
    (id : NodeId) : p.matchNode? g id = p.matchNode? g' id := by
  have hvalue : p.matchValue? g = p.matchValue? g' := by
    funext v
    rw [matchValue?, matchValue?, PatternTable.extend_eq hp h]
  rw [matchNode?, matchNode?, hvalue]
  obtain ⟨hn, hn'⟩ | ⟨n, n', hn, hn', hsame⟩ := h.node?_cases id
  · rw [hn, hn']
  · rw [hn, hn']
    simp only [Option.bind_eq_bind, Option.bind_some, Node.values_eq_of_anonymous hsame]

theorem blind_ofKind (kind : Kind) : (ofKind kind).table.Blind :=
  fun _ => Predicate.blind_always

theorem blind_unary (kind : Kind) : (unary kind).table.Blind :=
  show ∀ i : Fin 2, ((unary kind).table.node i).Blind from fun
    | 0 => Predicate.blind_always
    | 1 => Predicate.blind_always

end Pattern

/-! ### Traversals -/

variable {σ : Type}

/-- The actions do the same in sessions whose graphs are alike and that remember the same. -/
abbrev InStep (a a' : Action σ Bool) : Prop := Couples (Session.Lift Alike) Eq a a'

/-- Neither the pattern of the rule nor its action looks at names. -/
structure Rule.Blind (r : Rule σ) : Prop where
  pattern : r.pattern.table.Blind
  action : ∀ m, InStep (r.action m) (r.action m)

theorem Rule.blind_ofEdit {name : String} {pattern : Pattern} {action : Match → Edit Bool}
    (hp : pattern.table.Blind) (ha : ∀ m, Edit.Blind (action m)) :
    (Rule.ofEdit name pattern action : Rule σ).Blind :=
  ⟨hp, fun m => Action.couples_edit (ha m)⟩

variable {rules : List (Rule σ)}

theorem couples_applyAt {r : Rule σ} (hr : r.Blind) (id : NodeId) :
    InStep (r.applyAt id) (r.applyAt id) := by
  refine couples_bind Action.couples_graph fun g g' h => ?_
  rw [Pattern.matchNode?_eq hr.pattern h]
  cases r.pattern.matchNode? g' id with
  | none => exact couples_pure rfl
  | some m =>
    refine couples_bind (hr.action m) fun changed _ hchanged => ?_
    subst hchanged
    refine couples_ite (fun _ => ?_) fun _ => couples_pure rfl
    exact couples_then (Action.couples_edit (Edit.blind_release m.visited)) fun _ _ =>
      couples_pure rfl

theorem couples_offer (hrules : ∀ r ∈ rules, r.Blind) (filter : PassFilter) (id : NodeId) :
    InStep (offer filter id rules) (offer filter id rules) := by
  induction rules with
  | nil => exact couples_pure rfl
  | cons r rules ih =>
    obtain ⟨hr, hrules⟩ := List.forall_mem_cons.1 hrules
    refine couples_ite (fun _ => ih hrules) fun _ => ?_
    refine couples_bind (couples_applyAt hr id) fun hit _ hhit => ?_
    subst hhit
    exact couples_ite (fun _ => couples_pure rfl) fun _ => ih hrules

theorem couples_walk (hrules : ∀ r ∈ rules, r.Blind) (filter : PassFilter) (inference : Bool)
    (ids : List NodeId) (changed : Bool) :
    InStep (walk rules filter inference ids changed) (walk rules filter inference ids changed) := by
  induction ids generalizing changed with
  | nil => exact couples_pure rfl
  | cons id ids ih =>
    have hoffer : InStep (do
        let hit ← offer filter id rules
        walk rules filter inference ids (changed || hit)) (do
        let hit ← offer filter id rules
        walk rules filter inference ids (changed || hit)) := by
      refine couples_bind (couples_offer hrules filter id) fun hit _ hhit => ?_
      subst hhit
      exact ih (changed || hit)
    refine couples_bind Action.couples_graph fun g g' h => ?_
    rw [h.congr (·.contains id) fun g => g.contains_anonymous id]
    refine couples_ite (fun _ => couples_ite (fun _ => ?_) fun _ => hoffer) fun _ => ih changed
    exact couples_then (Action.couples_edit (Edit.blind_revalidate id)) fun _ _ => hoffer

theorem couples_traverse (hrules : ∀ r ∈ rules, r.Blind) (filter : PassFilter) (inference : Bool) :
    InStep (traverse rules filter inference) (traverse rules filter inference) := by
  refine couples_bind Action.couples_graph fun g g' h => ?_
  rw [h.congr (·.order) Graph.order_anonymous]
  exact couples_walk hrules filter inference g'.order false

theorem couples_iterate {step : Action σ Bool} (h : InStep step step) (n : Nat) (changed : Bool) :
    InStep (iterate step n changed) (iterate step n changed) := by
  induction n generalizing changed with
  | zero => exact couples_pure rfl
  | succ n ih =>
    refine couples_bind h fun hit _ hhit => ?_
    subst hhit
    exact couples_ite (fun _ => ih true) fun _ => couples_pure rfl

/-- **A group of rules that do not look at names goes over alike graphs in step.** -/
theorem couples_runRules (hrules : ∀ r ∈ rules, r.Blind) (config : TraversalConfig)
    (filter : PassFilter) :
    InStep (runRules rules config filter) (runRules rules config filter) :=
  couples_ite (fun _ => couples_iterate (couples_traverse hrules filter config.shapeInference) _ false)
    fun _ => couples_traverse hrules filter config.shapeInference

end OpGraph
