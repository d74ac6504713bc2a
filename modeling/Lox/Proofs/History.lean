import Lox.Session

/-!
# Lox.Proofs.History

What a session remembers of its inputs.

Whatever is asked of a session, its history holds the last inputs, the latest
first, and at most `historyLength` of them (`Session.Remembers`): an input comes
in at the front, whatever becomes of its run, and pushes out the one that does
not fit, and forgetting the store leaves the history alone
(`Session.Remembers.perform`).  So each remembered input is found by the number
of inputs after it (`Session.earlier?_performAll`).
-/

namespace Lox.Session

/-- What may be asked of a session. -/
inductive Call where
  | submit (input : Text)
  | forget
  deriving DecidableEq, Repr

/-- The input of a call, if it has one. -/
def Call.input? : Call → Option Text
  | submit input => some input
  | forget => none

/-- The inputs of some calls, in their order. -/
def inputsOf (calls : List Call) : List Text := calls.filterMap Call.input?

theorem inputsOf_cons (call : Call) (calls : List Call) :
    inputsOf (call :: calls) = call.input?.toList ++ inputsOf calls := by cases call <;> rfl

/-- The session after a call. -/
def perform (session : Session) : Call → Session
  | .submit input => (session.submit input).2
  | .forget => session.forget

/-- The session after some calls. -/
def performAll (session : Session) (calls : List Call) : Session := calls.foldl perform session

/-- A session remembers the last ones of these inputs. -/
def Remembers (session : Session) (inputs : List Text) : Prop :=
  session.history = inputs.reverse.take historyLength

namespace Remembers

variable {session : Session} {inputs : List Text}

theorem start (tracing : Bool) : (Session.start tracing).Remembers [] := rfl

/-- One more input at the front, and the oldest one goes if there is no room. -/
theorem submit (h : session.Remembers inputs) (input : Text) :
    (session.submit input).2.Remembers (inputs ++ [input]) := by
  show (input :: session.history).take historyLength = _
  rw [h, List.reverse_concat]
  simp [historyLength, List.take_take]

theorem forget (h : session.Remembers inputs) : session.forget.Remembers inputs := h

theorem perform (h : session.Remembers inputs) (call : Call) :
    (session.perform call).Remembers (inputs ++ call.input?.toList) := by
  cases call with
  | submit input => exact h.submit input
  | forget =>
    rw [Call.input?, Option.toList_none, List.append_nil]
    exact h.forget

theorem performAll (h : session.Remembers inputs) (calls : List Call) :
    (session.performAll calls).Remembers (inputs ++ inputsOf calls) := by
  induction calls generalizing session inputs with
  | nil =>
    rw [inputsOf, List.filterMap_nil, List.append_nil]
    exact h
  | cons call calls ih =>
    rw [inputsOf_cons, ← List.append_assoc]
    exact ih (h.perform call)

/-- An input stands in the history behind those that came after it. -/
theorem earlier?_of_lt (h : session.Remembers inputs) {back : Nat} (hlt : back < inputs.length)
    (hroom : back < historyLength) :
    session.earlier? back = some inputs[inputs.length - 1 - back] := by
  show session.history[back]? = _
  rw [h, List.getElem?_take_of_lt hroom, List.getElem?_reverse hlt]
  exact List.getElem?_eq_getElem _

/-- Nothing stands behind the inputs, nor behind the last ones that are kept. -/
theorem earlier?_of_le (h : session.Remembers inputs) {back : Nat}
    (hle : min inputs.length historyLength ≤ back) : session.earlier? back = none := by
  show session.history[back]? = _
  rw [h]
  refine List.getElem?_eq_none ?_
  rwa [List.length_take, List.length_reverse, Nat.min_comm]

end Remembers

/-- The history of a session is the last hundred inputs.  Whatever was asked of a
fresh session, whether the runs of its inputs finished, were refused or failed:
counted back from the latest input, each of the last hundred is found, nothing is
found before them or behind the latest, and forgetting the store does not change
what is found. -/
theorem earlier?_performAll (tracing : Bool) (calls : List Call) (back : Int) :
    let session := (start tracing).performAll calls
    let inputs := inputsOf calls
    session.earlier? back =
        (if _h : 0 ≤ back ∧ back < min inputs.length 100 then
          some inputs[inputs.length - 1 - back.toNat]
        else none) ∧
      session.forget.earlier? back = session.earlier? back := by
  intro session inputs
  have hremembers : session.Remembers inputs := (Remembers.start tracing).performAll calls
  have hcapacity : historyLength = 100 := rfl
  refine ⟨?_, rfl⟩
  cases back with
  | negSucc back => rfl
  | ofNat back =>
    by_cases hback : back < min inputs.length 100
    · have hfound : 0 ≤ (back : Int) ∧ (back : Int) < min inputs.length 100 := by omega
      rw [Int.ofNat_eq_natCast, dif_pos hfound]
      exact hremembers.earlier?_of_lt (by omega) (by omega)
    · have hnone : ¬ (0 ≤ (back : Int) ∧ (back : Int) < min inputs.length 100) := by omega
      rw [Int.ofNat_eq_natCast, dif_neg hnone]
      exact hremembers.earlier?_of_le (by omega)

/-- A refused input is remembered like any other, and the store is forgotten. -/
example : ((start false).performAll
    [.submit (text "var a;"), .submit (text ")"), .forget]).earlier? 1 =
      some (text "var a;") := by decide +kernel

end Lox.Session
