import Lox.Value

/-!
# Lox.Globals

The table of global variables.

The table is a list of names and values without repeated names, in the order
of definition.  It is read through `get?`; `get?_set` says what an assignment
changes.
-/

namespace Lox

/-- The global variables and their values. -/
structure Globals where
  entries : List (Text × Value)
  deriving DecidableEq

namespace Globals

/-- The table without variables. -/
def empty : Globals := ⟨[]⟩

/-- The value of a variable, if it is defined. -/
def get? (globals : Globals) (name : Text) : Option Value := globals.entries.lookup name

/-- Put an entry in the place of the one with its name, or at the end. -/
def setEntry (name : Text) (value : Value) : List (Text × Value) → List (Text × Value)
  | [] => [(name, value)]
  | entry :: rest =>
    if entry.1 = name then (name, value) :: rest else entry :: setEntry name value rest

/-- Define a variable, or give it a new value. -/
def set (globals : Globals) (name : Text) (value : Value) : Globals :=
  ⟨setEntry name value globals.entries⟩

/-- The entries in the order of their names, compared unit by unit. -/
def sorted (globals : Globals) : List (Text × Value) :=
  globals.entries.mergeSort fun a b => decide (a.1 ≤ b.1)

theorem lookup_setEntry (name other : Text) (value : Value) (entries : List (Text × Value)) :
    (setEntry name value entries).lookup other =
      if other = name then some value else entries.lookup other := by
  induction entries with
  | nil => simp only [setEntry, List.lookup_cons, List.lookup_nil]; split <;> simp_all
  | cons entry rest ih =>
    obtain ⟨key, old⟩ := entry
    unfold setEntry
    split
    · next h => subst h; simp only [List.lookup_cons]; split <;> simp_all
    · next h => simp only [List.lookup_cons, ih]; split <;> simp_all

/-- An assignment changes the assigned variable and no other. -/
@[simp] theorem get?_set (globals : Globals) (name other : Text) (value : Value) :
    (globals.set name value).get? other =
      if other = name then some value else globals.get? other :=
  lookup_setEntry name other value globals.entries

end Globals

/-- What runs share: the stored strings and the global variables. -/
structure Store where
  heap : Heap
  globals : Globals
  deriving DecidableEq

/-- The store before anything has run. -/
def Store.empty : Store := ⟨.empty, .empty⟩

end Lox
