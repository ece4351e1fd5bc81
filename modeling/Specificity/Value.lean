/-!
# Values

The data an expression computes with: the null value, truth values, 64-bit
signed integers and texts. A value counts as *true* unless it is null or
false; in particular zero and the empty text are true. Values of one kind
other than null are ordered, values of different kinds are not: `order?`
answers nothing for them, and it is up to the reader whether that is a fault.
-/

namespace Specificity

/-- A value held by a memory or computed by an expression. -/
inductive Value where
  /-- The value of a name that was never set. -/
  | null
  /-- A truth value. -/
  | bool (b : Bool)
  /-- A signed integer of 64 bits. -/
  | integer (n : Int64)
  /-- A text. -/
  | text (s : String)
deriving DecidableEq, Inhabited

namespace Value

/-- The kinds of value. -/
inductive Kind where
  /-- The kind of the null value. -/
  | null
  /-- Truth values. -/
  | bool
  /-- Integers. -/
  | integer
  /-- Texts. -/
  | text
deriving DecidableEq

/-- The name of a kind, as error messages write it. -/
def Kind.name : Kind → String
  | null => "null"
  | bool => "bool"
  | integer => "integer"
  | text => "text"

instance : ToString Kind := ⟨Kind.name⟩

/-- The kind of a value. -/
def kind : Value → Kind
  | null => .null
  | bool _ => .bool
  | integer _ => .integer
  | text _ => .text

/-- **Truth of a value**: everything is true except null and false. -/
def truthy : Value → Bool
  | null => false
  | bool b => b
  | integer _ => true
  | text _ => true

/-- Is this the null value? -/
def isNull : Value → Bool
  | null => true
  | _ => false

/-- The truth value itself, of a value that is one. -/
def asBool? : Value → Option Bool
  | bool b => some b
  | _ => none

/-- **Order within a kind.** Integers by size, texts by code points, false
before true. Null values and values of two kinds have no order. -/
def order? : Value → Value → Option Ordering
  | integer a, integer b => some (compare a b)
  | text a, text b => some (compare a b)
  | bool a, bool b => some (compare a b)
  | _, _ => none

/-- The written form of a value: a text stands between single quotes, which
are not escaped inside it. -/
def print : Value → String
  | null => "null"
  | bool b => if b then "true" else "false"
  | integer n => toString n.toInt
  | text s => "'" ++ s ++ "'"

instance : ToString Value := ⟨print⟩

end Value

end Specificity
