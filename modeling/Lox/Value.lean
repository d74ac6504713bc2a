import Lox.Heap

/-!
# Lox.Value

The values of the language.

Strings live in a heap and are referred to by handle; all other values are
their own content.
-/

namespace Lox

/-- Values. -/
inductive Value where
  | nil
  | bool (value : Bool)
  | number (value : Float)
  | string (handle : Handle)
  deriving DecidableEq

/-- The types of value. -/
inductive ValueType where
  | nil | boolean | number | string
  deriving DecidableEq, Repr

/-- How a type is called in messages. -/
def ValueType.name : ValueType → Text
  | .nil => text "nil"
  | .boolean => text "boolean"
  | .number => text "number"
  | .string => text "string"

namespace Value

/-- The type of a value. -/
def type : Value → ValueType
  | nil => .nil
  | bool _ => .boolean
  | number _ => .number
  | string _ => .string

/-- Does a value count as true?  Only `nil` and `false` do not; zero and the
empty string do. -/
def isTruthy : Value → Bool
  | nil => false
  | bool value => value
  | number _ => true
  | string _ => true

end Value

end Lox
