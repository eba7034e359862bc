import OpGraph.Proofs.Graph.Consistent

/-!
# Graphs with a single operation

The graph in which one operation reads a parameter and a result reads the operation: well-formed,
without cycles, and up to date if the operation infers the description that it has been given.
-/

namespace OpGraph.Graph

/-- A parameter at position 0, an operation on it at 1, and a result of the operation at 2. -/
def single (op : Op) (x y : Desc) : Graph :=
  ((({ name := "single" } : Graph).insert (.parameter x.elementType x.shape) [] [x]).insert op
    [⟨0, 0⟩] [y]).insert .result [⟨1, 0⟩] [y]

variable {op : Op} {x y : Desc} {id : NodeId}

theorem wellFormed_single (op : Op) (x y : Desc) : (single op x y).WellFormed := by
  have hparam : (({ name := "single" } : Graph).insert (.parameter x.elementType x.shape) []
      [x]).WellFormed := wellFormed_insert (wellFormed_empty _) (by simp)
  exact wellFormed_insert_singleton (wellFormed_insert_singleton hparam ⟨_, rfl⟩) ⟨_, rfl⟩

theorem lt_three_of_contains_single (h : (single op x y).contains id) : id < 3 := by
  obtain ⟨n, hn⟩ := contains_iff.1 h
  exact lt_size_of_node? hn

theorem acyclic_single (op : Op) (x y : Desc) : (single op x y).Acyclic := by
  refine acyclic_of_rank (fun id => id) fun p id hp => ?_
  obtain ⟨w, hw, v, hv, rfl⟩ := produces_iff_view.1 hp
  have hid : id < 3 := lt_three_of_contains_single (contains_of_view? hw)
  match id, hid with
  | 0, _ =>
    obtain rfl := Option.some.inj hw
    cases hv
  | 1, _ =>
    obtain rfl := Option.some.inj hw
    cases List.mem_singleton.1 hv
    exact Nat.one_pos
  | 2, _ =>
    obtain rfl := Option.some.inj hw
    cases List.mem_singleton.1 hv
    exact Nat.one_lt_two

theorem consistentAt_single (h : op.infer [x] = .ok [y]) (hid : (single op x y).contains id) :
    (single op x y).ConsistentAt id := by
  refine consistentAt_iff_view.2 ?_
  match id, lt_three_of_contains_single hid with
  | 0, _ => exact ⟨_, [], rfl, .nil, rfl⟩
  | 1, _ => exact ⟨_, [x], rfl, .cons rfl .nil, h⟩
  | 2, _ => exact ⟨_, [y], rfl, .cons rfl .nil, rfl⟩

theorem consistent_single (h : op.infer [x] = .ok [y]) : (single op x y).Consistent := fun _ hr =>
  consistentAt_single h ((wellFormed_single op x y).contains_of_reachable hr)

theorem op?_single {op' : Op} (h : (single op x y).op? id = some op') :
    op' = .parameter x.elementType x.shape ∨ op' = op ∨ op' = .result := by
  have hid : (single op x y).contains id := by
    obtain ⟨w, hw, -⟩ := exists_view_of_op? h
    exact contains_of_view? hw
  match id, lt_three_of_contains_single hid with
  | 0, _ => exact Or.inl (Option.some.inj h).symm
  | 1, _ => exact Or.inr (Or.inl (Option.some.inj h).symm)
  | 2, _ => exact Or.inr (Or.inr (Option.some.inj h).symm)

theorem desc?_single {v : Output} {d : Desc} (h : (single op x y).desc? v = some d) :
    d = x ∨ d = y := by
  obtain ⟨id, k⟩ := v
  obtain ⟨w, hw, hd⟩ := Option.bind_eq_some_iff.1 h
  have hmem : d ∈ w.descs := List.mem_of_getElem? hd
  have hid : id < 3 := lt_three_of_contains_single (contains_of_view? hw)
  match id, hid with
  | 0, _ =>
    obtain rfl := Option.some.inj hw
    exact Or.inl (List.mem_singleton.1 hmem)
  | 1, _ =>
    obtain rfl := Option.some.inj hw
    exact Or.inr (List.mem_singleton.1 hmem)
  | 2, _ =>
    obtain rfl := Option.some.inj hw
    exact Or.inr (List.mem_singleton.1 hmem)

end OpGraph.Graph
