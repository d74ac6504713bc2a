import Lox.Proofs.Lexical
import Lox.Value.Operators

/-!
# Lox.Proofs.SingleLine

Texts that are written on one line.

Numerals and padding hold no line separator, and neither does a number in a layout
whose own marks hold none (`Decimal.Layout.newlines_number`).
-/

namespace Lox

/-- Digits as characters are digits as code units. -/
theorem isDigit_unit {c : Char} (h : c.isDigit = true) : isDigit (unit c) = true := by
  have hval : 48 ≤ c.val.toNat ∧ c.val.toNat ≤ 57 := by
    simpa [Char.isDigit, UInt32.le_iff_toNat_le] using h
  rw [isDigit_iff, unit, UInt32.toNat_toUInt16]
  omega

/-! ## texts on one line -/

namespace Text

variable {s t : Text} {u : CodeUnit}

theorem newlines_eq_zero_iff : newlines t = 0 ↔ newline ∉ t := List.count_eq_zero

theorem newlines_of_subset (hsub : s ⊆ t) (h : newlines t = 0) : newlines s = 0 :=
  newlines_eq_zero_iff.2 fun hmem => newlines_eq_zero_iff.1 h (hsub hmem)

/-- A run of a class that the line separator is not in. -/
theorem newlines_of_forall {p : CodeUnit → Bool} (hp : p newline = false)
    (h : ∀ u ∈ t, p u = true) : newlines t = 0 := by
  refine newlines_eq_zero_iff.2 fun hmem => ?_
  have hnewline := h newline hmem
  rw [hp] at hnewline
  cases hnewline

theorem newlines_cons_of_ne (h : u ≠ newline) : newlines (u :: t) = newlines t :=
  List.count_cons_of_ne h

theorem newlines_replicate (h : u ≠ newline) (count : Nat) :
    newlines (List.replicate count u) = 0 := by
  simp [newlines, List.count_replicate, h]

@[simp] theorem newlines_blanks (width : Nat) : newlines (blanks width) = 0 :=
  newlines_replicate (by decide) width

@[simp] theorem newlines_ofNat (n : Nat) : newlines (ofNat n) = 0 := by
  refine newlines_of_forall (p := isDigit) (by decide) fun u hu => ?_
  obtain ⟨c, hc, rfl⟩ := List.mem_map.1 hu
  exact isDigit_unit (Nat.isDigit_of_mem_toDigits (by decide) (by decide) hc)

@[simp] theorem newlines_ofInt (n : Int) : newlines (ofInt n) = 0 := by
  cases n with
  | ofNat n => exact newlines_ofNat n
  | negSucc n => rw [ofInt, newlines_cons_of_ne (by decide), newlines_ofNat]

@[simp] theorem newlines_ofInt? (n : Option Int) : newlines (ofInt? n) = 0 := by
  cases n with
  | some n => exact newlines_ofInt n
  | none => decide

@[simp] theorem newlines_alignRight (width : Nat) (t : Text) :
    newlines (alignRight width t) = newlines t := by simp [alignRight]

@[simp] theorem newlines_alignLeft (width : Nat) (t : Text) :
    newlines (alignLeft width t) = newlines t := by simp [alignLeft]

end Text

open Text

/-! ## numbers -/

namespace Decimal.Layout

/-- What a layout writes besides digits holds no line separator. -/
structure SingleLine (layout : Layout) : Prop where
  exponentMark : newlines layout.exponentMark = 0
  plusSign : newlines layout.plusSign = 0
  notANumber : newlines layout.notANumber = 0
  infinity : newlines layout.infinity = 0

variable {layout : Layout} {digits : Text}

@[simp] theorem newlines_zeros (count : Nat) : newlines (zeros count) = 0 :=
  newlines_replicate (by decide) count

theorem newlines_positional (h : newlines digits = 0) (point : Int) :
    newlines (positional digits point) = 0 := by
  have htake := newlines_of_subset (List.take_subset point.toNat digits) h
  have hdrop := newlines_of_subset (List.drop_subset point.toNat digits) h
  have hpoint : newlines (text ".") = 0 := by decide
  have hzero : newlines (text "0.") = 0 := by decide
  unfold positional
  split
  · simp [hzero, h]
  · split <;> simp [h, htake, hdrop, hpoint]

theorem newlines_scientific (hlayout : layout.SingleLine) (h : newlines digits = 0)
    (exponent : Int) : newlines (layout.scientific digits exponent) = 0 := by
  have htake := newlines_of_subset (List.take_subset 1 digits) h
  have hdrop := newlines_of_subset (List.drop_subset 1 digits) h
  have hpoint : newlines (text ".") = 0 := by decide
  have hminus : newlines (text "-") = 0 := by decide
  have hfraction : newlines (if digits.drop 1 = [] then [] else text "." ++ digits.drop 1) = 0 := by
    split
    · rfl
    · rw [newlines_append, hpoint, hdrop]
  have hsign : newlines (if exponent < 0 then text "-" else layout.plusSign) = 0 := by
    split
    · exact hminus
    · exact hlayout.plusSign
  simp only [scientific, newlines_append, htake, hfraction, hlayout.exponentMark, hsign,
    newlines_ofNat]

theorem newlines_decimal (hlayout : layout.SingleLine) (d : Scaled) :
    newlines (layout.decimal d) = 0 := by
  simp only [decimal]
  split
  · exact newlines_positional (newlines_ofNat _) _
  · exact newlines_scientific hlayout (newlines_ofNat _) _

/-- A number is written on one line. -/
theorem newlines_number (hlayout : layout.SingleLine) (x : Float) :
    newlines (layout.number x) = 0 := by
  have hzero : newlines (text "0") = 0 := by decide
  have hminus : newlines (text "-") = 0 := by decide
  have hsigned {magnitude : Text} (negative : Bool) (h : newlines magnitude = 0) :
      newlines (if negative then text "-" ++ magnitude else magnitude) = 0 := by
    cases negative <;> simp [hminus, h]
  simp only [number]
  split
  · exact hlayout.notANumber
  · refine hsigned _ ?_
    split
    · exact hlayout.infinity
    · split
      · exact hzero
      · exact newlines_decimal hlayout _

end Decimal.Layout

theorem Value.newlines_number (x : Float) : newlines (numberLayout.number x) = 0 :=
  Decimal.Layout.newlines_number ⟨by decide, by decide, by decide, by decide⟩ x

end Lox
