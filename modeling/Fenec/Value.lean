/-
# Values and their types

The data model of the store: the types a field is declared with, the values a document holds,
and the errors a statement is refused with.  A value is exactly the source's `Value`, an `f64`
by its bits and a text by its characters, so that two values are equal here when the source's
would be written out alike.

`Value` nests through lists and through an object's members, so every function over it is a
mutual block of three: over a value, over a list of values, over a list of members.
-/
import Fenec.Lib.Ieee
import Mathlib.Data.List.Basic

namespace Fenec

open Lib

/-- A document's id, a `u64` in the source. -/
abbrev DocId := Nat

/-! ## 1. Types -/

/-- How a vector's elements are kept. -/
inductive VecPrec where
  | f32
  | f16
deriving DecidableEq

/-- The type a field is declared with. -/
inductive DataType where
  | bool
  | int
  | float
  | text
  | bytes
  | timestamp
  | vector (dim : Nat) (prec : VecPrec)
  | sparse (dim : Nat)
  | list (inner : DataType)
  | json
  | geo
deriving DecidableEq

/-- The type as a declaration spells it. -/
def DataType.name : DataType → String
  | .bool => "bool"
  | .int => "int"
  | .float => "float"
  | .text => "text"
  | .bytes => "bytes"
  | .timestamp => "timestamp"
  | .vector d .f32 => "vector<" ++ toString d ++ ">"
  | .vector d .f16 => "vector<" ++ toString d ++ ", f16>"
  | .sparse d => "sparse<" ++ toString d ++ ">"
  | .list inner => "[" ++ inner.name ++ "]"
  | .json => "json"
  | .geo => "geo"

/-! ## 2. Values -/

/-- A value, as a document holds it and as an expression computes it. -/
inductive Value where
  | null
  | bool (b : Bool)
  | int (i : Int64)
  | float (f : F64)
  | text (s : String)
  | bytes (b : List UInt8)
  | timestamp (ms : Int64)
  | vector (v : List F32)
  | list (items : List Value)
  | sparse (dim : UInt32) (entries : List (UInt32 × F32))
  | object (members : List (String × Value))

namespace Value

mutual

/-- Equality, decided by structure. -/
def beq : Value → Value → Bool
  | null, null => true
  | bool a, bool b => a == b
  | int a, int b => a == b
  | float a, float b => a == b
  | text a, text b => a == b
  | bytes a, bytes b => a == b
  | timestamp a, timestamp b => a == b
  | vector a, vector b => a == b
  | list a, list b => beqList a b
  | sparse d a, sparse d' b => d == d' && a == b
  | object a, object b => beqMembers a b
  | _, _ => false
termination_by structural v => v

/-- `beq` over two lists. -/
def beqList : List Value → List Value → Bool
  | [], [] => true
  | x :: xs, y :: ys => beq x y && beqList xs ys
  | _, _ => false
termination_by structural l => l

/-- `beq` over the members of two objects. -/
def beqMembers : List (String × Value) → List (String × Value) → Bool
  | [], [] => true
  | (k, x) :: xs, (k', y) :: ys => k == k' && beq x y && beqMembers xs ys
  | _, _ => false
termination_by structural l => l

end

mutual

theorem beq_iff : ∀ a b : Value, beq a b = true ↔ a = b
  | null, b => by cases b <;> simp [beq]
  | bool _, b => by cases b <;> simp [beq]
  | int _, b => by cases b <;> simp [beq]
  | float _, b => by cases b <;> simp [beq]
  | text _, b => by cases b <;> simp [beq]
  | bytes _, b => by cases b <;> simp [beq]
  | timestamp _, b => by cases b <;> simp [beq]
  | vector _, b => by cases b <;> simp [beq]
  | list a, b => by cases b <;> simp [beq, beqList_iff a]
  | sparse _ _, b => by cases b <;> simp [beq]
  | object a, b => by cases b <;> simp [beq, beqMembers_iff a]

theorem beqList_iff : ∀ a b : List Value, beqList a b = true ↔ a = b
  | [], b => by cases b <;> simp [beqList]
  | x :: xs, b => by cases b <;> simp [beqList, beq_iff x, beqList_iff xs]

theorem beqMembers_iff : ∀ a b : List (String × Value), beqMembers a b = true ↔ a = b
  | [], b => by cases b <;> simp [beqMembers]
  | (k, x) :: xs, b => by
    cases b with
    | nil => simp [beqMembers]
    | cons y ys => simp [beqMembers, beq_iff x, beqMembers_iff xs, Prod.ext_iff]

end

instance : DecidableEq Value := fun a b => decidable_of_iff _ (beq_iff a b)

/-- The word an error names a value's kind by. -/
def typeName : Value → String
  | null => "null"
  | bool _ => "bool"
  | int _ => "int"
  | float _ => "float"
  | text _ => "text"
  | bytes _ => "bytes"
  | timestamp _ => "timestamp"
  | vector _ => "vector"
  | list _ => "list"
  | sparse _ _ => "sparse"
  | object _ => "object"

/-- Whether the value is null. -/
def isNull : Value → Bool
  | null => true
  | _ => false

@[simp] theorem isNull_iff {v : Value} : v.isNull = true ↔ v = null := by
  cases v <;> simp [isNull]

/-- The number a value is, as an `f64`. -/
def asF64 : Value → Option F64
  | int i => some (Ieee.ofInt i.toInt)
  | timestamp ms => some (Ieee.ofInt ms.toInt)
  | float f => some f
  | _ => none

/-- The text a value is. -/
def asText : Value → Option String
  | text s => some s
  | _ => none

/-- An object's member by its key; an object's keys are sorted, each once. -/
def member (v : Value) (key : String) : Option Value :=
  match v with
  | object m => (m.find? fun kv => kv.1 == key).map (·.2)
  | _ => none

end Value

/-! ## 3. Errors -/

/-- The kinds an error has. -/
inductive ErrorKind where
  | type
  | notFound
  | exists
  | duplicate
  | corrupt
  | query
  | io
  | plugin
  | readOnly
  | denied
  | unmet
  | quota
deriving DecidableEq

/-- An error: its kind and its text.  Where the text ends in a value's JSON the value itself
stands in `found`, its rendering being no part of this model. -/
structure Error where
  kind : ErrorKind
  text : String
  found : Option Value := none
deriving DecidableEq

namespace Error

def type (text : String) : Error := ⟨.type, text, none⟩
def notFound (text : String) : Error := ⟨.notFound, text, none⟩
def existing (text : String) : Error := ⟨.exists, text, none⟩
def duplicate (text : String) : Error := ⟨.duplicate, text, none⟩
def corrupt (text : String) : Error := ⟨.corrupt, text, none⟩
def query (text : String) : Error := ⟨.query, text, none⟩

end Error

/-- What a fallible function of the source returns. -/
abbrev Result (α : Type) := Except Error α

namespace Result

variable {α β : Type}

@[simp] theorem ok_bind (a : α) (f : α → Result β) : ((.ok a : Result α) >>= f) = f a := rfl

@[simp] theorem error_bind (e : Error) (f : α → Result β) :
    ((.error e : Result α) >>= f) = .error e := rfl

@[simp] theorem pure_eq (a : α) : (pure a : Result α) = .ok a := rfl

@[simp] theorem ok_map (a : α) (f : α → β) : (Except.ok a : Result α).map f = .ok (f a) := rfl

@[simp] theorem error_map (e : Error) (f : α → β) :
    (Except.error e : Result α).map f = .error e := rfl

end Result

end Fenec
