/-!
# Metadata

Nodes carry a map from names to small values that records where they come from.  It keeps the order
of insertion: a new key goes to the end and an overwritten one stays where it is.  Metadata never
takes part in inference or matching.

The key `Metadata.fusedNames` holds the names of the nodes that a fused node stands for, as a
`NameSet`, which keeps the order of insertion too.
-/

namespace OpGraph

/-- A set of names in the order of their first insertion. -/
structure NameSet where
  names : List String
  nodup : names.Nodup := by simp
  deriving DecidableEq

namespace NameSet

/-- The set without names. -/
def empty : NameSet := ⟨[], .nil⟩

instance : EmptyCollection NameSet := ⟨empty⟩

instance : Inhabited NameSet := ⟨∅⟩

instance : Membership String NameSet := ⟨fun s x => x ∈ s.names⟩

/-- Adds a name at the end unless the set has it. -/
def insert (s : NameSet) (x : String) : NameSet :=
  if h : x ∈ s.names then s
  else ⟨s.names ++ [x], by
    rw [List.nodup_append]
    exact ⟨s.nodup, by simp, fun a ha b hb hab => h (by simp_all)⟩⟩

/-- The set of the names of a list. -/
def ofList (xs : List String) : NameSet := xs.foldl insert ∅

/-- Adds the names of `t` in their order. -/
def union (s t : NameSet) : NameSet := t.names.foldl insert s

/-- The set has no names. -/
def isEmpty (s : NameSet) : Bool := s.names.isEmpty

theorem names_insert (s : NameSet) (x : String) :
    (s.insert x).names = if x ∈ s.names then s.names else s.names ++ [x] := by
  unfold insert
  split <;> simp_all

@[simp] theorem mem_insert {s : NameSet} {x y : String} : y ∈ s.insert x ↔ y ∈ s ∨ y = x := by
  change y ∈ (s.insert x).names ↔ y ∈ s.names ∨ y = x
  rw [names_insert]
  split
  · constructor
    · exact Or.inl
    · rintro (h | rfl) <;> assumption
  · simp

end NameSet

/-- One value of the metadata of a node. -/
inductive MetaValue where
  | flag (value : Bool)
  | int (value : Int)
  | text (value : String)
  | names (value : NameSet)
  deriving DecidableEq, Inhabited

namespace MetaValue

/-- The set of names, if the value is one. -/
def names? : MetaValue → Option NameSet
  | names s => some s
  | _ => none

/-- The written form; names are separated by commas. -/
def render : MetaValue → String
  | flag b => if b then "true" else "false"
  | int i => toString i
  | text s => s
  | names s => ",".intercalate s.names

end MetaValue

/-- A map from names to values in the order of first insertion. -/
structure Metadata where
  entries : List (String × MetaValue)
  nodup : (entries.map (·.1)).Nodup := by simp
  deriving DecidableEq

namespace Metadata

/-- The map without entries. -/
def empty : Metadata := ⟨[], .nil⟩

instance : EmptyCollection Metadata := ⟨empty⟩

instance : Inhabited Metadata := ⟨∅⟩

/-- The keys in order. -/
def keys (m : Metadata) : List String := m.entries.map (·.1)

/-- The value of a key. -/
def get? (m : Metadata) (key : String) : Option MetaValue := m.entries.lookup key

/-- Overwrites the value of a key in place. -/
def overwrite (key : String) (value : MetaValue) (entries : List (String × MetaValue)) :
    List (String × MetaValue) :=
  entries.map fun e => if e.1 = key then (key, value) else e

theorem map_fst_overwrite (key : String) (value : MetaValue) (entries : List (String × MetaValue)) :
    (overwrite key value entries).map (·.1) = entries.map (·.1) := by
  simp only [overwrite, List.map_map]
  apply List.map_congr_left
  intro e _
  by_cases h : e.1 = key <;> simp [h]

/-- Gives a key a value; a new key goes to the end. -/
def insert (m : Metadata) (key : String) (value : MetaValue) : Metadata :=
  if h : key ∈ m.entries.map (·.1) then
    ⟨overwrite key value m.entries, by rw [map_fst_overwrite]; exact m.nodup⟩
  else
    ⟨m.entries ++ [(key, value)], by
      rw [List.map_append, List.nodup_append]
      exact ⟨m.nodup, by simp, fun a ha b hb hab => h (by simp_all)⟩⟩

/-- The map of a list of entries; of two values for one key the later one counts. -/
def ofList (entries : List (String × MetaValue)) : Metadata :=
  entries.foldl (fun m e => m.insert e.1 e.2) ∅

/-- Inserts the entries of `source` in their order. -/
def merge (m source : Metadata) : Metadata :=
  source.entries.foldl (fun m e => m.insert e.1 e.2) m

/-- The key of the names of the nodes that a fused node stands for. -/
def fusedNames : String := "fused_names"

/-- The names under `fusedNames`, if that key holds a set of names. -/
def fusedNames? (m : Metadata) : Option NameSet := (m.get? fusedNames).bind MetaValue.names?

/-- The names under `fusedNames` in any of the maps, in the order they are first met. -/
def unionFusedNames (ms : List Metadata) : NameSet :=
  ms.foldl (fun s m => match m.fusedNames? with
    | some names => s.union names
    | none => s) ∅

theorem keys_insert (m : Metadata) (key : String) (value : MetaValue) :
    (m.insert key value).keys = if key ∈ m.keys then m.keys else m.keys ++ [key] := by
  unfold insert keys
  split
  · simp [map_fst_overwrite]
  · simp

theorem lookup_overwrite (key k : String) (value : MetaValue)
    (entries : List (String × MetaValue)) (h : key ∈ entries.map (·.1)) :
    (overwrite key value entries).lookup k = if k = key then some value else entries.lookup k := by
  induction entries with
  | nil => simp at h
  | cons e es ih =>
    simp only [overwrite, List.map_cons] at ih ⊢
    by_cases he : e.1 = key
    · by_cases hk : k = key
      · simp [he, hk]
      · have hke : k ≠ e.1 := by rw [he]; exact hk
        have hb : (k == key) = false := by simpa using hk
        have hb' : (k == e.1) = false := by simpa using hke
        simp only [he, if_true, hk, if_false, List.lookup_cons, hb]
        rw [show e = (e.1, e.2) from rfl, List.lookup_cons, hb']
        by_cases hmem : key ∈ es.map (·.1)
        · simpa [hk] using ih hmem
        · have : es.map (fun e => if e.1 = key then (key, value) else e) = es := by
            rw [List.map_congr_left (g := id), List.map_id]
            intro e' he'
            have : e'.1 ≠ key := fun h' => hmem (h' ▸ List.mem_map_of_mem he')
            simp [this]
          rw [this]
    · have hmem : key ∈ es.map (·.1) := by
        rcases List.mem_cons.1 h with h | h
        · exact absurd h.symm he
        · exact h
      rw [if_neg he, show e = (e.1, e.2) from rfl, List.lookup_cons, List.lookup_cons, ih hmem]
      by_cases hk : k = e.1
      · subst hk
        simp [he]
      · have hb' : (k == e.1) = false := by simpa using hk
        simp [hb']

theorem get?_insert (m : Metadata) (key k : String) (value : MetaValue) :
    (m.insert key value).get? k = if k = key then some value else m.get? k := by
  unfold insert get?
  split
  case isTrue h => exact lookup_overwrite key k value m.entries h
  case isFalse h =>
    simp only [List.lookup_append]
    by_cases hk : k = key
    · subst hk
      have : m.entries.lookup k = none := by
        rw [List.lookup_eq_none_iff]
        intro e he
        simpa using fun h' : k = e.1 => h (h' ▸ List.mem_map_of_mem he)
      simp [this]
    · have hb : (k == key) = false := by simpa using hk
      simp [hk, List.lookup_cons, hb]

end Metadata

end OpGraph
