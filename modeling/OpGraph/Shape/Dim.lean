/-!
# Dimensions

One axis of a shape: a known length or a length that is not known yet.  Dimensions combine in three
ways: `merge` for two descriptions of the same axis, `broadcast` for the axes of two operands of an
elementwise operation, and `+` for axes laid end to end.

Lengths are numbers without a limit, and so are their sums.  Whatever is said about a sum is meant for
lengths whose sum fits into 64 bits.
-/

namespace OpGraph

/-- The length of one axis. -/
inductive Dim where
  | dynamic
  | static (length : Nat)
  deriving DecidableEq, Repr, Inhabited

namespace Dim

/-- A dimension is static when its length is known. -/
def isStatic : Dim → Bool
  | static _ => true
  | dynamic => false

/-- A dimension is dynamic when its length is not known. -/
def isDynamic (d : Dim) : Bool := !d.isStatic

/-- The length, if it is known. -/
def length? : Dim → Option Nat
  | static n => some n
  | dynamic => none

/-- The written form: the length in decimal, or a question mark. -/
def text : Dim → String
  | static n => toString n
  | dynamic => "?"

/-- Two descriptions of one axis: a dynamic side takes the other, two lengths have to agree. -/
def merge : Dim → Dim → Option Dim
  | dynamic, d => some d
  | static a, dynamic => some (static a)
  | static a, static b => if a = b then some (static a) else none

/-- The axis of an elementwise result.  An operand of length one is repeated along the other one;
beyond that a dynamic side takes the other, and two lengths have to agree. -/
def broadcast (a b : Dim) : Option Dim :=
  if a = static 1 then some b
  else if b = static 1 then some a
  else a.merge b

/-- The length of two axes laid end to end. -/
def add : Dim → Dim → Dim
  | static a, static b => static (a + b)
  | _, _ => dynamic

instance : Add Dim := ⟨add⟩

@[simp] theorem static_add (a b : Nat) : static a + static b = static (a + b) := rfl

@[simp] theorem dynamic_add (d : Dim) : dynamic + d = dynamic := rfl

@[simp] theorem add_dynamic (d : Dim) : d + dynamic = dynamic := by cases d <;> rfl

@[simp] theorem merge_dynamic_left (d : Dim) : merge dynamic d = some d := rfl

@[simp] theorem merge_dynamic_right (d : Dim) : merge d dynamic = some d := by cases d <;> rfl

@[simp] theorem merge_self (d : Dim) : merge d d = some d := by cases d <;> simp [merge]

theorem merge_comm (a b : Dim) : merge a b = merge b a := by
  cases a <;> cases b <;> simp [merge]
  rename_i m n
  by_cases h : m = n
  · simp [h]
  · simp [h, Ne.symm h]

@[simp] theorem broadcast_one_left (d : Dim) : broadcast (static 1) d = some d := by
  simp [broadcast]

@[simp] theorem broadcast_one_right (d : Dim) : broadcast d (static 1) = some d := by
  by_cases h : d = static 1 <;> simp [broadcast, h]

theorem broadcast_comm (a b : Dim) : broadcast a b = broadcast b a := by
  by_cases ha : a = static 1
  · simp [ha]
  · by_cases hb : b = static 1
    · simp [hb]
    · simp [broadcast, ha, hb, merge_comm a b]

end Dim

end OpGraph
