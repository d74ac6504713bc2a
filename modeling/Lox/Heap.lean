import Lox.Text

/-!
# Lox.Heap

The store of strings.

A heap is a row of slots, each empty or holding a string.  A handle names a
slot together with the generation the slot had when the string was stored;
releasing a string empties its slot and moves the slot to the next
generation, so that handles to the old string no longer resolve, whatever the
slot holds later.  Released slots are used again, the one released last
first.  A counter goes up with each string that is stored, and down with each
one that is released.
-/

namespace Lox

/-- A name for a stored string.  Any two integers form a handle; only handles
that a heap gave out can resolve in it. -/
structure Handle where
  index : Int
  generation : Int
  deriving DecidableEq, Repr

/-- A place for a string, and how often it was released. -/
structure Slot where
  generation : Nat
  content : Option Text
  deriving DecidableEq, Repr

/-- Slots, the indices of the empty ones in the order of their next use, and a
counter of the strings. -/
structure Heap where
  slots : Array Slot
  free : List Nat
  live : Nat
  deriving DecidableEq, Repr

namespace Heap

/-- The heap without slots. -/
def empty : Heap := ⟨#[], [], 0⟩

/-- How many strings are stored, by the counter. -/
def size (heap : Heap) : Nat := heap.live

/-- The string that a handle names, if it still does. -/
def get? (heap : Heap) (handle : Handle) : Option Text :=
  match handle.index with
  | .negSucc _ => none
  | .ofNat index =>
    match heap.slots[index]? with
    | none => none
    | some slot => if slot.generation = handle.generation then slot.content else none

/-- The generation of the slot with an index. -/
def generationAt (heap : Heap) (index : Nat) : Nat :=
  (heap.slots[index]?.map Slot.generation).getD 0

/-- Store a string, in the slot released last or else in a new one. -/
def allocate (heap : Heap) (content : Text) : Handle × Heap :=
  match heap.free with
  | index :: free =>
    let generation := heap.generationAt index
    (⟨index, generation⟩,
      ⟨heap.slots.setIfInBounds index ⟨generation, some content⟩, free, heap.live + 1⟩)
  | [] => (⟨heap.slots.size, 0⟩, ⟨heap.slots.push ⟨0, some content⟩, [], heap.live + 1⟩)

/-- Give up a string that is still stored. -/
def release? (heap : Heap) (handle : Handle) : Option Heap :=
  match heap.get? handle with
  | none => none
  | some _ =>
    let index := handle.index.toNat
    let generation := heap.generationAt index
    some ⟨heap.slots.setIfInBounds index ⟨generation + 1, none⟩, index :: heap.free,
      heap.live - 1⟩

end Heap

end Lox
