import Lox.Decimal.Layout
import Lox.Failure

/-!
# Lox.Value.Operators

Operators on values, and how values are shown.

Operators look up strings in the heap only where they need their contents:
addition of anything but two numbers looks up its left operand and then its
right one, equality looks up both if both are strings, and nothing else looks
up any.
-/

namespace Lox

/-- The string that a handle names. -/
def Heap.read (heap : Heap) (handle : Handle) : Except Defect Text :=
  match heap.get? handle with
  | some content => .ok content
  | none => .error (.danglingHandle handle)

/-- Give up a string. -/
def Heap.release (heap : Heap) (handle : Handle) : Except Defect Heap :=
  match heap.release? handle with
  | some heap => .ok heap
  | none => .error (.danglingHandle handle)

namespace Value

/-! ## display -/

/-- Numbers are written with the fewest digits that identify them,
positionally from a millionth up to twenty-one digits before the point, and
otherwise with a signed exponent; zero keeps its sign. -/
def numberLayout : Decimal.Layout where
  pointFrom := -5
  pointTo := 21
  exponentMark := text "e"
  plusSign := text "+"
  notANumber := text "NaN"
  infinity := text "Infinity"

/-- The content of a string; nothing for any other value. -/
def content? (heap : Heap) : Value → Except Defect (Option Text)
  | string handle => some <$> heap.read handle
  | _ => .ok none

/-- How a value is shown. -/
def display (heap : Heap) : Value → Except Defect Text
  | nil => .ok (text "nil")
  | bool true => .ok (text "true")
  | bool false => .ok (text "false")
  | number value => .ok (numberLayout.number value)
  | string handle => heap.read handle

/-- How a stack is shown: each value between brackets, the bottom first.  The
top is the head of the list. -/
def displayStack (heap : Heap) (stack : List Value) : Except Defect Text :=
  stack.reverse.foldlM
    (fun shown value => do
      let content ← value.display heap
      pure (shown ++ text "[ " ++ content ++ text " ]")) []

/-! ## equality and order -/

/-- Are two values equal?  Values of different types never are; numbers are
compared as numbers, strings by content. -/
def equal (heap : Heap) : Value → Value → Except Defect Bool
  | nil, nil => .ok true
  | bool a, bool b => .ok (a == b)
  | number a, number b => .ok (a == b)
  | string a, string b => do
    let left ← heap.read a
    let right ← heap.read b
    pure (left == right)
  | _, _ => .ok false

/-- Compare two numbers. -/
def compare (order : NumberOrder) : Value → Value → Except OperatorError Value
  | number a, number b =>
    .ok (bool (match order with
      | .greater => a > b
      | .less => a < b))
  | a, b => .error (.comparison order a.type b.type)

/-! ## arithmetic -/

/-- Negate a number. -/
def negate : Value → Except OperatorError Value
  | number value => .ok (number (-value))
  | value => .error (.negation value.type)

/-- Combine two numbers. -/
def onNumbers (operator : Arithmetic) (f : Float → Float → Float) :
    Value → Value → Except OperatorError Value
  | number a, number b => .ok (number (f a b))
  | a, b => .error (.arithmetic operator a.type b.type)

/-- The difference of two numbers. -/
def subtract : Value → Value → Except OperatorError Value :=
  onNumbers .subtraction fun a b => a - b

/-- The product of two numbers. -/
def multiply : Value → Value → Except OperatorError Value :=
  onNumbers .multiplication fun a b => a * b

/-- The quotient of two numbers; division by zero gives an infinity or no
number. -/
def divide : Value → Value → Except OperatorError Value :=
  onNumbers .division fun a b => a / b

/-- The sum of two numbers, or two strings put together as a new string. -/
def add (heap : Heap) : Value → Value → Except Failure (Value × Heap)
  | number a, number b => .ok (number (a + b), heap)
  | a, b =>
    match a.content? heap with
    | .error defect => .error (.defect defect)
    | .ok left =>
      match b.content? heap with
      | .error defect => .error (.defect defect)
      | .ok right =>
        match left, right with
        | some left, some right =>
          let (handle, heap) := heap.allocate (left ++ right)
          .ok (string handle, heap)
        | _, _ => .error (.cause (.operator (.arithmetic .addition a.type b.type)))

end Value

end Lox
