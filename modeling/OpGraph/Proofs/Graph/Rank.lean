import Mathlib.Data.Finset.Card
import OpGraph.Proofs.Graph.Reachable

/-!
# Ranks

In a graph without cycles every node can be given a number above those of the nodes it hangs on: the
number of nodes that it hangs on, directly or not (`exists_rank`).  Counting the nodes that hang on it
goes the other way, so that what passes from all consumers of a node to the node holds everywhere
(`Acyclic.consumer_induction`).
-/

namespace OpGraph.Graph

open Relation (TransGen)

theorem exists_rank_of_lt {r : NodeId → NodeId → Prop} {n : Nat} (hlt : ∀ {a b}, r a b → a < n)
    (h : ∀ a, ¬ TransGen r a a) : ∃ rank : NodeId → Nat, ∀ a b, r a b → rank a < rank b := by
  classical
  refine ⟨fun b => ((Finset.range n).filter (TransGen r · b)).card, fun a b hab => ?_⟩
  apply Finset.card_lt_card
  rw [Finset.ssubset_iff_of_subset]
  · refine ⟨a, ?_, fun hmem => h a (Finset.mem_filter.1 hmem).2⟩
    exact Finset.mem_filter.2 ⟨Finset.mem_range.2 (hlt hab), .single hab⟩
  · intro c hc
    obtain ⟨hcn, hca⟩ := Finset.mem_filter.1 hc
    exact Finset.mem_filter.2 ⟨hcn, hca.tail hab⟩

theorem exists_rank {g : Graph} (h : g.WellFormed) (ha : g.Acyclic) :
    ∃ rank : NodeId → Nat, ∀ p id, g.Produces p id → rank p < rank id :=
  exists_rank_of_lt (fun hp => lt_size_of_contains (h.contains_of_produces hp)) ha

/-- What holds of a node as soon as it holds of all that reads it holds of every node. -/
theorem Acyclic.consumer_induction {g : Graph} (ha : g.Acyclic) {P : NodeId → Prop}
    (hP : ∀ id, (∀ c, g.Produces id c → P c) → P id) (id : NodeId) : P id := by
  obtain ⟨rank, hrank⟩ : ∃ rank : NodeId → Nat, ∀ c id, g.Produces id c → rank c < rank id :=
    exists_rank_of_lt (fun hp => lt_size_of_contains (contains_of_produces_right hp))
      fun id hid => ha id (Relation.transGen_swap.1 hid)
  induction hn : rank id using Nat.strong_induction_on generalizing id with
  | _ n ih =>
    subst hn
    exact hP id fun c hc => ih (rank c) (hrank c id hc) c rfl

/-! ### Ranks and changes of the graph -/

section Changes

variable {g : Graph} {rank : NodeId → Nat}

/-- A reader may move to a node of no higher rank. -/
theorem rank_lt_rewire (h : ∀ {p id}, g.Produces p id → rank p < rank id) {i : Input}
    {old new : Output} (hi : g.source? i = some old) (hrank : rank new.node ≤ rank old.node)
    {p id : NodeId} (hp : (g.rewire i old new).Produces p id) : rank p < rank id := by
  obtain ⟨j, v, rfl, hv, rfl⟩ := produces_iff_source.1 hp
  rw [source?_rewire] at hv
  split at hv
  next hj =>
    obtain ⟨-, -, rfl⟩ := Option.map_eq_some_iff.1 hv
    exact Nat.lt_of_le_of_lt hrank (h (produces_iff_source.2 ⟨j, old, rfl, hj ▸ hi, rfl⟩))
  next => exact h (produces_of_source? hv)

/-- A new node may have any rank above what it reads. -/
theorem rank_lt_insert (hwf : g.WellFormed) (h : ∀ {p id}, g.Produces p id → rank p < rank id)
    {op : Op} {inputs : List Output} {descs : List Desc}
    (hin : ∀ v ∈ inputs, ∃ ts, g.targets? v = some ts) {k : Nat}
    (hk : ∀ v ∈ inputs, rank v.node < k) {p id : NodeId}
    (hp : (g.insert op inputs descs).Produces p id) :
    Function.update rank g.nodes.size k p < Function.update rank g.nodes.size k id := by
  have hold : ∀ {j}, g.contains j → Function.update rank g.nodes.size k j = rank j := fun hj =>
    Function.update_of_ne (Nat.ne_of_lt (lt_size_of_contains hj)) ..
  obtain ⟨i, v, rfl, hv, rfl⟩ := produces_iff_source.1 hp
  rw [source?_insert] at hv
  split at hv
  next hi =>
    have hmem := List.mem_of_getElem? hv
    obtain ⟨ts, hts⟩ := hin v hmem
    rw [hi, hold (contains_of_targets? hts), Function.update_self]
    exact hk v hmem
  next =>
    rw [hold (hwf.contains_of_read hv), hold (contains_of_source? hv)]
    exact h (produces_of_source? hv)

end Changes

end OpGraph.Graph
