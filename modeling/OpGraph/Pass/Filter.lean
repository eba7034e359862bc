/-!
# Filters

Passes and rules are switched off by name.
-/

namespace OpGraph

/-- The names of the passes and rules to leave out. -/
structure PassFilter where
  disabled : List String := []
  deriving DecidableEq

namespace PassFilter

/-- The pass or rule with the given name is left out. -/
def isDisabled (f : PassFilter) (name : String) : Bool := name ∈ f.disabled

/-- Leaves out what has the given name. -/
def disable (f : PassFilter) (name : String) : PassFilter :=
  if f.isDisabled name then f else ⟨name :: f.disabled⟩

/-- Takes what has the given name back in. -/
def enable (f : PassFilter) (name : String) : PassFilter := ⟨f.disabled.filter (· ≠ name)⟩

/-- Leaves out everything listed. -/
def ofList (names : List String) : PassFilter := names.foldl disable {}

theorem isDisabled_disable (f : PassFilter) (name x : String) :
    (f.disable name).isDisabled x = (x = name ∨ f.isDisabled x) := by
  unfold disable
  split
  case isTrue h =>
    simp only [eq_iff_iff]
    exact ⟨Or.inr, fun h' => h'.elim (fun e => e ▸ h) id⟩
  case isFalse => simp [isDisabled]

theorem isDisabled_enable (f : PassFilter) (name x : String) :
    (f.enable name).isDisabled x = (x ≠ name ∧ f.isDisabled x) := by
  simp [enable, isDisabled, and_comm]

end PassFilter

end OpGraph
