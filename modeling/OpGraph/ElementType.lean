/-!
# Element types

The scalar type of a graph value.  `dynamic` is the type that is not known yet: it merges with
every type, while two known types merge only if they are equal.
-/

namespace OpGraph

/-- The scalar type carried by a graph value. -/
inductive ElementType where
  | dynamic | boolean
  | f16 | f32 | f64
  | i8 | i16 | i32 | i64
  | u8 | u16 | u32 | u64
  deriving DecidableEq, Repr, Inhabited

namespace ElementType

/-- Every element type, in the order of the declaration. -/
def all : List ElementType :=
  [dynamic, boolean, f16, f32, f64, i8, i16, i32, i64, u8, u16, u32, u64]

theorem mem_all (t : ElementType) : t ∈ all := by cases t <;> decide

/-- The short lowercase name. -/
def name : ElementType → String
  | dynamic => "dynamic"
  | boolean => "boolean"
  | f16 => "f16"
  | f32 => "f32"
  | f64 => "f64"
  | i8 => "i8"
  | i16 => "i16"
  | i32 => "i32"
  | i64 => "i64"
  | u8 => "u8"
  | u16 => "u16"
  | u32 => "u32"
  | u64 => "u64"

/-- The element type with the given short name. -/
def ofName? (s : String) : Option ElementType :=
  all.find? fun t => t.name == s

theorem ofName?_name (t : ElementType) : ofName? t.name = some t := by cases t <;> decide

/-- A type is dynamic when it is not known. -/
def isDynamic (t : ElementType) : Bool := t = dynamic

/-- A type is static when it is known. -/
def isStatic (t : ElementType) : Bool := t ≠ dynamic

/-- The types that hold negative numbers: the signed integers and the floating-point types. -/
def isSigned : ElementType → Bool
  | i8 | i16 | i32 | i64 | f16 | f32 | f64 => true
  | _ => false

/-- The size of one element in bytes; a dynamic type has none. -/
def size? : ElementType → Option Nat
  | dynamic => none
  | boolean | i8 | u8 => some 1
  | f16 | i16 | u16 => some 2
  | f32 | i32 | u32 => some 4
  | f64 | i64 | u64 => some 8

/-- The common type of two values: a dynamic side takes the other one, two static types have to be
equal. -/
def merge (a b : ElementType) : Option ElementType :=
  if a = dynamic then some b
  else if b = dynamic then some a
  else if a = b then some a
  else none

@[simp] theorem merge_dynamic_left (t : ElementType) : merge dynamic t = some t := rfl

@[simp] theorem merge_dynamic_right (t : ElementType) : merge t dynamic = some t := by
  cases t <;> rfl

@[simp] theorem merge_self (t : ElementType) : merge t t = some t := by cases t <;> rfl

theorem merge_comm (a b : ElementType) : merge a b = merge b a := by
  cases a <;> cases b <;> rfl

end ElementType

end OpGraph
