import Lox.Proofs.Compiler

/-!
# Lox.Proofs.Compiler.Clock

More on the clock.

A compiler looks at its clock only to find that it has run down.  What has an
outcome therefore has the same one with more on the clock (`Outlasts`), so the
outcome of a source is the same for every clock that is enough for it.
-/

namespace Lox

namespace Compiler

variable {α β : Type} {m m' : Compiling α} {f f' : α → Compiling β} {a : α} {c c' : Compiler}
  {nested nested' : OperandCompiler} {clock clock' : Nat}

/-- Where `m` has an outcome, `m'` has the same. -/
def Outlasts (m' m : Compiling α) : Prop := ∀ c outcome, m c = some outcome → m' c = some outcome

namespace Outlasts

theorem refl (m : Compiling α) : Outlasts m m := fun _ _ => id

theorem runDown (m : Compiling α) : Outlasts m runDown := fun _ _ => nofun

theorem bind (h : Outlasts m' m) (h' : ∀ a, Outlasts (f' a) (f a)) :
    Outlasts (m' >>= f') (m >>= f) := by
  intro c outcome houtcome
  simp only [Bind.bind, StateT.bind, ExceptT.bind, ExceptT.mk] at houtcome ⊢
  cases hm : m c with
  | none =>
    rw [hm] at houtcome
    cases houtcome
  | some first =>
    rw [hm] at houtcome
    rw [h c first hm]
    cases first with
    | error message => exact houtcome
    | ok found => exact h' found.1 found.2 outcome houtcome

theorem ends (h : Outlasts m' m) (hends : Ends m c a c') : Ends m' c a c' := h _ _ hends

/-! ## expressions -/

theorem named (hnested : ∀ floor, Outlasts (nested' floor) (nested floor)) (assignable : Bool)
    (name : Text) :
    Outlasts (named nested' assignable name) (Compiler.named nested assignable name) := by
  refine .bind (.refl _) fun index => .bind (.refl _) fun c => ?_
  split
  · exact .bind (.refl _) fun _ => .bind (hnested _) fun _ => .refl _
  · exact .refl _

theorem leading (hnested : ∀ floor, Outlasts (nested' floor) (nested floor)) (assignable : Bool)
    (form : PrefixForm) :
    Outlasts (leading nested' assignable form) (Compiler.leading nested assignable form) := by
  refine .bind (.refl _) fun c => ?_
  cases form with
  | atom value => exact .refl _
  | number => exact .refl _
  | string => exact .refl _
  | name => exact named hnested assignable _
  | group => exact .bind (hnested _) fun _ => .refl _
  | unary op => exact .bind (hnested _) fun _ => .refl _

theorem trailing (hnested : ∀ floor, Outlasts (nested' floor) (nested floor)) (floor : Precedence)
    (h : clock ≤ clock') :
    Outlasts (trailing nested' floor clock') (Compiler.trailing nested floor clock) := by
  induction clock generalizing clock' with
  | zero => exact .runDown _
  | succ clock ih =>
    obtain ⟨clock', rfl⟩ : ∃ n, clock' = n + 1 := ⟨clock' - 1, by omega⟩
    refine .bind (.refl _) fun c => ?_
    split
    · exact .refl _
    · split
      · exact .bind (.refl _) fun _ => .bind (hnested _) fun _ => .bind (.refl _) fun _ =>
          ih (by omega)
      · exact .refl _

theorem opened (hnested : ∀ floor, Outlasts (nested' floor) (nested floor)) (floor : Precedence)
    (h : clock ≤ clock') :
    Outlasts (opened nested' floor clock') (Compiler.opened nested floor clock) := by
  refine .bind (.refl _) fun _ => .bind (.refl _) fun c => ?_
  split
  · exact .refl _
  · exact .bind (leading hnested _ _) fun _ => .bind (trailing hnested _ h) fun _ => .refl _

theorem operand (h : clock ≤ clock') (floor : Precedence) :
    Outlasts (operand clock' floor) (Compiler.operand clock floor) := by
  induction clock generalizing clock' floor with
  | zero => exact .runDown _
  | succ clock ih =>
    obtain ⟨clock', rfl⟩ : ∃ n, clock' = n + 1 := ⟨clock' - 1, by omega⟩
    refine .bind (.refl _) fun c => ?_
    dsimp only
    split
    · exact .refl _
    · exact .bind (.refl _) fun _ =>
        .bind (opened (fun floor => ih (by omega) floor) floor (by omega)) fun _ => .refl _

/-! ## statements -/

theorem initializer (h : clock ≤ clock') :
    Outlasts (initializer clock') (Compiler.initializer clock) := by
  refine .bind (.refl _) fun c => ?_
  split
  · exact .bind (.refl _) fun _ => operand h _
  · exact .refl _

theorem unrecovered (h : clock ≤ clock') :
    Outlasts (unrecovered clock') (Compiler.unrecovered clock) := by
  refine .bind (.refl _) fun c => ?_
  split
  · exact .bind (.refl _) fun _ => .bind (.refl _) fun _ => .bind (initializer h) fun _ => .refl _
  · split
    · exact .bind (.refl _) fun _ => .bind (operand h _) fun _ => .refl _
    · exact .bind (operand h _) fun _ => .refl _

theorem skipToBoundary (h : clock ≤ clock') :
    Outlasts (skipToBoundary clock') (Compiler.skipToBoundary clock) := by
  induction clock generalizing clock' with
  | zero => exact .runDown _
  | succ clock ih =>
    obtain ⟨clock', rfl⟩ : ∃ n, clock' = n + 1 := ⟨clock' - 1, by omega⟩
    refine .bind (.refl _) fun c => ?_
    split
    · exact .refl _
    · exact .bind (.refl _) fun _ => ih (by omega)

theorem recover (h : clock ≤ clock') : Outlasts (recover clock') (Compiler.recover clock) := by
  refine .bind (.refl _) fun c => ?_
  split
  · exact .bind (skipToBoundary h) fun _ => .refl _
  · exact .refl _

theorem statement (h : clock ≤ clock') : Outlasts (statement clock') (Compiler.statement clock) :=
  .bind (.refl _) fun _ => .bind (unrecovered h) fun _ => .bind (recover h) fun _ => .refl _

theorem statements (h : clock ≤ clock') :
    Outlasts (statements clock') (Compiler.statements clock) := by
  induction clock generalizing clock' with
  | zero => exact .runDown _
  | succ clock ih =>
    obtain ⟨clock', rfl⟩ : ∃ n, clock' = n + 1 := ⟨clock' - 1, by omega⟩
    refine .bind (.refl _) fun c => ?_
    split
    · exact .refl _
    · split
      · exact .refl _
      · exact .bind (statement (by omega)) fun _ => ih (by omega)

/-! ## sources -/

theorem program (h : clock ≤ clock') : Outlasts (program clock') (Compiler.program clock) :=
  .bind (statements h) fun _ => .refl _

theorem query (h : clock ≤ clock') : Outlasts (query clock') (Compiler.query clock) :=
  .bind (operand h _) fun _ => .refl _

end Outlasts

end Compiler

end Lox
