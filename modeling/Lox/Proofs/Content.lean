import Lox.Chunk.Lowering
import Lox.Proofs.Encoding
import Lox.Proofs.Heap
import Lox.Value.Operators

/-!
# Lox.Proofs.Content

Values by content, and operators on contents.

A content is what a value stands for once its handle, if it has one, is looked
up (`Heap.view?`).  The operators on values compute what the operators on
contents do: handles and the order of look-ups do not show.
-/

namespace Lox

/-- What a value stands for. -/
inductive Content where
  | nil
  | bool (value : Bool)
  | number (value : Float)
  | text (content : Text)
  deriving DecidableEq

/-! ## operators -/

namespace Content

def type : Content → ValueType
  | nil => .nil
  | bool _ => .boolean
  | number _ => .number
  | text _ => .string

/-- Only `nil` and `false` do not count as true. -/
def isTruthy : Content → Bool
  | nil => false
  | bool value => value
  | _ => true

def display : Content → Text
  | nil => Lox.text "nil"
  | bool true => Lox.text "true"
  | bool false => Lox.text "false"
  | number value => Value.numberLayout.number value
  | text content => content

def text? : Content → Option Text
  | text content => some content
  | _ => none

/-- Contents of different types are never equal. -/
def equal : Content → Content → Bool
  | nil, nil => true
  | bool a, bool b => a == b
  | number a, number b => a == b
  | text a, text b => a == b
  | _, _ => false

def not (a : Content) : Content := bool !a.isTruthy

def negate : Content → Except OperatorError Content
  | number a => .ok (number (-a))
  | a => .error (.negation a.type)

def compare (order : NumberOrder) : Content → Content → Except OperatorError Content
  | number a, number b =>
    .ok (bool (match order with
      | .greater => a > b
      | .less => a < b))
  | a, b => .error (.comparison order a.type b.type)

def onNumbers (operator : Arithmetic) (f : Float → Float → Float) :
    Content → Content → Except OperatorError Content
  | number a, number b => .ok (number (f a b))
  | a, b => .error (.arithmetic operator a.type b.type)

/-- Numbers are added, texts are put together. -/
def add : Content → Content → Except OperatorError Content
  | number a, number b => .ok (number (a + b))
  | text a, text b => .ok (text (a ++ b))
  | a, b => .error (.arithmetic .addition a.type b.type)

end Content

/-- What a unary operator makes of a content. -/
def UnaryOp.apply : UnaryOp → Content → Except OperatorError Content
  | negate, a => a.negate
  | not, a => .ok a.not

/-- What a binary operator makes of two contents.  Three of the comparisons
are the negations of the others. -/
def BinaryOp.apply : BinaryOp → Content → Content → Except OperatorError Content
  | add, a, b => a.add b
  | subtract, a, b => a.onNumbers .subtraction (fun x y => x - y) b
  | multiply, a, b => a.onNumbers .multiplication (fun x y => x * y) b
  | divide, a, b => a.onNumbers .division (fun x y => x / y) b
  | equal, a, b => .ok (.bool (a.equal b))
  | notEqual, a, b => .ok (Content.not (.bool (a.equal b)))
  | greater, a, b => a.compare .greater b
  | greaterEqual, a, b => Content.not <$> a.compare .less b
  | less, a, b => a.compare .less b
  | lessEqual, a, b => Content.not <$> a.compare .greater b

/-- The content of a literal. -/
def Literal.content : Literal → Content
  | nil => .nil
  | bool value => .bool value
  | number value => .number value
  | string content => .text content

/-- The content of a constant. -/
def Constant.content : Constant → Content
  | number value => .number value
  | text content => .text content

/-! ## values as contents -/

/-- The content of a value, if its handle still names a string. -/
def Heap.view? (heap : Heap) : Value → Option Content
  | .nil => some .nil
  | .bool value => some (.bool value)
  | .number value => some (.number value)
  | .string handle => (heap.get? handle).map .text

namespace Heap

variable {heap heap' : Heap} {value left right : Value} {c a b : Content}

/-- A value keeps its content where strings keep their handles. -/
theorem Extends.view? (h : heap.Extends heap') (hvalue : heap.view? value = some c) :
    heap'.view? value = some c := by
  cases value with
  | string handle =>
    obtain ⟨content, hget, rfl⟩ := Option.map_eq_some_iff.1 hvalue
    simp only [Heap.view?, h _ _ hget, Option.map_some]
  | _ => exact hvalue

theorem Extends.views {values : List Value} {contents : List Content} (h : heap.Extends heap')
    (hvalues : values.map heap.view? = contents.map some) :
    values.map heap'.view? = contents.map some := by
  induction values generalizing contents with
  | nil => exact hvalues
  | cons value values ih =>
    cases contents with
    | nil => cases hvalues
    | cons c contents =>
      simp only [List.map_cons, List.cons.injEq] at hvalues ⊢
      exact ⟨h.view? hvalues.1, ih hvalues.2⟩

/-- A value shows a content: it is the content itself, or a handle of the
text. -/
inductive Shows (heap : Heap) : Value → Content → Prop where
  | nil : Shows heap .nil .nil
  | bool (value : Bool) : Shows heap (.bool value) (.bool value)
  | number (value : Float) : Shows heap (.number value) (.number value)
  | text {handle : Handle} {content : Text} (h : heap.get? handle = some content) :
      Shows heap (.string handle) (.text content)

theorem shows_iff : heap.Shows value c ↔ heap.view? value = some c := by
  constructor
  · intro h
    cases h with
    | text h => rw [view?, h, Option.map_some]
    | _ => rfl
  · intro h
    cases value with
    | string handle =>
      obtain ⟨content, hget, rfl⟩ := Option.map_eq_some_iff.1 h
      exact .text hget
    | nil => exact Option.some.inj h ▸ .nil
    | bool x => exact Option.some.inj h ▸ .bool x
    | number x => exact Option.some.inj h ▸ .number x

namespace Shows

theorem isTruthy (h : heap.Shows value c) : value.isTruthy = c.isTruthy := by cases h <;> rfl

theorem content? (h : heap.Shows value c) : value.content? heap = .ok c.text? := by
  cases h with
  | text h => simp only [Value.content?, Heap.read, h]; rfl
  | _ => rfl

theorem display (h : heap.Shows value c) : value.display heap = .ok c.display := by
  cases h with
  | bool x => cases x <;> rfl
  | text h => simp only [Value.display, Heap.read, h, Content.display]
  | _ => rfl

theorem equal (ha : heap.Shows left a) (hb : heap.Shows right b) :
    left.equal heap right = .ok (a.equal b) := by
  cases ha with
  | text hleft =>
    cases hb with
    | text hright => simp only [Value.equal, Heap.read, hleft, hright]; rfl
    | _ => rfl
  | _ => cases hb <;> rfl

theorem negate (h : heap.Shows value c) :
    value.negate.map heap.view? = c.negate.map some := by cases h <;> rfl

theorem onNumbers (ha : heap.Shows left a) (hb : heap.Shows right b) (operator : Arithmetic)
    (f : Float → Float → Float) :
    (Value.onNumbers operator f left right).map heap.view? =
      (a.onNumbers operator f b).map some := by
  cases ha <;> cases hb <;> rfl

theorem compare (ha : heap.Shows left a) (hb : heap.Shows right b) (order : NumberOrder) :
    (Value.compare order left right).map heap.view? = (a.compare order b).map some := by
  cases ha <;> cases hb <;> rfl

/-- A sum of two texts is a new string; nothing else is stored. -/
theorem add_ok (hbuilt : heap.Built) (ha : heap.Shows left a) (hb : heap.Shows right b)
    (h : a.add b = .ok c) :
    ∃ sum heap', left.add heap right = .ok (sum, heap') ∧ heap'.Shows sum c ∧
      heap.Extends heap' ∧ heap'.Built := by
  have hleft := ha.content?
  have hright := hb.content?
  cases ha <;> cases hb <;> try cases h
  case number.number.refl x y =>
    exact ⟨.number (x + y), heap, rfl, .number _, .refl heap, hbuilt⟩
  case text.text.refl x _ _ y _ =>
    refine ⟨.string (heap.allocate (x ++ y)).1, (heap.allocate (x ++ y)).2, ?_,
      .text (get?_allocate hbuilt.sound _), extends_allocate hbuilt.sound _, hbuilt.allocate _⟩
    simp only [Value.add, hleft, hright, Content.text?]

theorem add_error (ha : heap.Shows left a) (hb : heap.Shows right b) {error : OperatorError}
    (h : a.add b = .error error) :
    left.add heap right = .error (.cause (.operator error)) := by
  have hleft := ha.content?
  have hright := hb.content?
  cases ha <;> cases hb <;> cases h <;> simp only [Value.add, hleft, hright, Content.text?] <;> rfl

end Shows

end Heap

/-! ## constants -/

namespace Constant

variable {heap : Heap}

/-- A constant that is placed has its content, and moves nothing else. -/
theorem place_spec (hbuilt : heap.Built) (constant : Constant) :
    (constant.place heap).2.Shows (constant.place heap).1 constant.content ∧
      heap.Extends (constant.place heap).2 ∧ (constant.place heap).2.Built := by
  cases constant with
  | number value => exact ⟨.number value, .refl heap, hbuilt⟩
  | text content =>
    exact ⟨.text (Heap.get?_allocate hbuilt.sound content),
      Heap.extends_allocate hbuilt.sound content, hbuilt.allocate content⟩

theorem placeAll_spec (hbuilt : heap.Built) (constants : List Constant) :
    (placeAll heap constants).1.map (placeAll heap constants).2.view? =
        (constants.map content).map some ∧
      heap.Extends (placeAll heap constants).2 ∧ (placeAll heap constants).2.Built := by
  induction constants generalizing heap with
  | nil => exact ⟨rfl, .refl heap, hbuilt⟩
  | cons constant rest ih =>
    obtain ⟨hshows, hextends, hbuilt⟩ := place_spec hbuilt constant
    obtain ⟨hviews, hextends', hbuilt'⟩ := ih hbuilt
    refine ⟨?_, hextends.trans hextends', hbuilt'⟩
    simp only [placeAll, List.map_cons, hviews, hextends'.view? (Heap.shows_iff.1 hshows)]

end Constant

/-- The pool of a unit holds the contents of its constants. -/
theorem Chunk.view?_ofCode {heap : Heap} (hbuilt : heap.Built) (code : List Instruction)
    (constants : List Constant) :
    (ofCode code (Constant.placeAll heap constants).1).constants.toList.map
        (Constant.placeAll heap constants).2.view? =
      (constants.map Constant.content).map some := by
  rw [(code_ofCode _ _).2]
  exact (Constant.placeAll_spec hbuilt constants).1

end Lox
