import Mathlib.Algebra.Order.Field.Rat
import Mathlib.Data.List.Infix
import Mathlib.Data.List.TakeWhile
import PocketCalc.Decimal.Literal
import PocketCalc.Proofs.Run

/-! What a decimal literal denotes, and where it ends in a text.

A literal of fewer fractional digits than a 32-bit word counts has the exact
value of its digits (`Literal.value_eq`). The literal at the head of a text is
the same in front of any text that does not continue it (`Literal.split_append`).
-/

set_option autoImplicit false

namespace PocketCalc.Decimal

theorem cast_scale {places : Nat} (small : places < UInt32.size) :
    ((scale places : Nat) : Rat) = 10 ^ places := by
  rw [scale_of_lt small, Nat.pow_eq, Nat.cast_pow, Nat.cast_ofNat]

abbrev IsLiteralChar (c : Char) : Prop := c.isDigit = true ∨ c = '.'

/-- No run of digits behind a point is so long that its length wraps around. -/
def ShortFractions (text : List Char) : Prop :=
  ∀ digits : List Char, (∀ c ∈ digits, c.isDigit = true) → '.' :: digits <:+: text →
    digits.length < UInt32.size

theorem ShortFractions.of_infix {text inner : List Char} (short : ShortFractions text)
    (part : inner <:+: text) : ShortFractions inner :=
  fun digits all found => short digits all (found.trans part)

theorem shortFractions_of_length {text : List Char} (small : text.length ≤ UInt32.size) :
    ShortFractions text := by
  intro digits _ found
  have fits := found.length_le
  rw [List.length_cons] at fits
  omega

namespace Literal

/-- Digits with at most one point among or around them, and at least one digit. -/
structure WellFormed (literal : Literal) : Prop where
  digits : ∀ c ∈ literal.whole ++ literal.fractionDigits, c.isDigit = true
  nonempty : literal.whole ++ literal.fractionDigits ≠ []

/-- All digits as one number, over ten to the number of those behind the point. -/
def number (literal : Literal) : Rat :=
  Nat.ofDigitChars 10 (literal.whole ++ literal.fractionDigits) 0 /
    10 ^ literal.fractionDigits.length

/-- The same with the scale as it is computed: what a literal of any length is read as. -/
def reading (literal : Literal) : Rat :=
  mkRat (Nat.ofDigitChars 10 (literal.whole ++ literal.fractionDigits) 0)
    (scale literal.fractionDigits.length)

theorem value_eq_reading {literal : Literal} (wellFormed : literal.WellFormed) :
    literal.value = .ok literal.reading :=
  if_neg fun none => wellFormed.nonempty (List.append_eq_nil_iff.mpr none)

theorem reading_eq_number {literal : Literal} (short : literal.fractionDigits.length < UInt32.size) :
    literal.reading = literal.number := by
  rw [reading, Rat.mkRat_eq_div, cast_scale short, number, Int.cast_natCast]

theorem reading_eq_zero_iff {literal : Literal} : literal.reading = 0 ↔ literal.number = 0 := by
  have power : (10 : Rat) ^ literal.fractionDigits.length ≠ 0 := pow_ne_zero _ (by decide)
  rw [reading, Rat.mkRat_eq_zero (scale_pos _).ne', number, div_eq_zero_iff, or_iff_left power,
    Nat.cast_eq_zero, Nat.cast_eq_zero]

theorem value_eq {literal : Literal} (wellFormed : literal.WellFormed)
    (short : literal.fractionDigits.length < UInt32.size) :
    literal.value = .ok literal.number := by
  rw [value_eq_reading wellFormed, reading_eq_number short]

theorem value_eq_ok_iff {literal : Literal} :
    (∃ value, literal.value = .ok value) ↔ literal.whole ++ literal.fractionDigits ≠ [] := by
  rw [value, ne_eq, List.append_eq_nil_iff]
  split
  · next none => simp [none]
  · next some => simp [some]

theorem fault_of_value {literal : Literal} {fault : Fault} (nonempty : literal.text ≠ [])
    (failed : literal.value = .error fault) : fault = .malformedNumber ['.'] := by
  unfold value at failed
  split at failed
  · next none =>
      cases failed
      obtain ⟨whole, fraction⟩ := literal
      obtain ⟨rfl, empty⟩ := none
      cases fraction with
      | none => exact absurd rfl nonempty
      | some behind => cases empty; rfl
  · cases failed

theorem text_ne_nil {literal : Literal} (wellFormed : literal.WellFormed) : literal.text ≠ [] := by
  have nonempty := wellFormed.nonempty
  unfold text
  cases fraction : literal.fraction with
  | none => simpa [fractionDigits, fraction] using nonempty
  | some digits => simp

theorem length_text_le_one {literal : Literal}
    (none : literal.whole ++ literal.fractionDigits = []) : literal.text.length ≤ 1 := by
  obtain ⟨whole, fraction⟩ := literal
  obtain ⟨rfl, empty⟩ := List.append_eq_nil_iff.mp none
  cases fraction with
  | none => exact Nat.zero_le _
  | some behind => cases empty; exact Nat.le_refl _

theorem isLiteralChar_of_mem_text {literal : Literal}
    (digits : ∀ c ∈ literal.whole ++ literal.fractionDigits, c.isDigit = true) {c : Char}
    (member : c ∈ literal.text) : IsLiteralChar c := by
  unfold text at member
  cases fraction : literal.fraction with
  | none =>
      rw [fraction] at member
      exact .inl (digits c (List.mem_append_left _ member))
  | some behind =>
      simp only [fractionDigits, fraction, Option.getD_some] at digits
      simp only [fraction, List.mem_append, List.mem_cons] at member
      rcases member with inWhole | rfl | inFraction
      · exact .inl (digits c (List.mem_append_left _ inWhole))
      · exact .inr rfl
      · exact .inl (digits c (List.mem_append_right _ inFraction))

theorem short_of_text {literal : Literal}
    (digits : ∀ c ∈ literal.whole ++ literal.fractionDigits, c.isDigit = true)
    (short : ShortFractions literal.text) : literal.fractionDigits.length < UInt32.size := by
  cases fraction : literal.fraction with
  | none => simp [fractionDigits, fraction]
  | some behind =>
      simp only [fractionDigits, fraction, Option.getD_some] at digits ⊢
      refine short behind (fun c member => digits c (List.mem_append_right _ member)) ?_
      rw [text, fraction]
      exact (List.suffix_append _ _).isInfix

/-! ## The literal at the head of a text -/

theorem split_of_point {text rest : List Char} (same : text.dropWhile Char.isDigit = '.' :: rest) :
    split text = (⟨text.takeWhile Char.isDigit, some (rest.takeWhile Char.isDigit)⟩,
      rest.dropWhile Char.isDigit) := by
  unfold split
  rw [same]
  rfl

theorem split_of_no_point {text : List Char} (other : '.' ∉ (text.dropWhile Char.isDigit).head?) :
    split text = (⟨text.takeWhile Char.isDigit, none⟩, text.dropWhile Char.isDigit) := by
  unfold split
  split
  · next rest same => exact absurd (by rw [same]; rfl) other
  · rfl

theorem digits_split (text : List Char) :
    ∀ c ∈ (split text).1.whole ++ (split text).1.fractionDigits, c.isDigit = true := by
  intro c member
  unfold split at member
  split at member
  all_goals
    simp only [fractionDigits, Option.getD_some, Option.getD_none, List.mem_append] at member
    rcases member with inWhole | inFraction
    · exact List.mem_takeWhile_imp inWhole
  · exact List.mem_takeWhile_imp inFraction
  · cases inFraction

theorem wellFormed_split {text : List Char} {value : Rat} (valued : (split text).1.value = .ok value) :
    (split text).1.WellFormed :=
  ⟨digits_split text, value_eq_ok_iff.mp ⟨value, valued⟩⟩

theorem split_append {text rest : List Char}
    (stop : (split text).2 = [] → ∀ c ∈ rest.head?, ¬ IsLiteralChar c) :
    split (text ++ rest) = ((split text).1, (split text).2 ++ rest) := by
  -- The text ends among its leading digits, behind its point, or later.
  cases whole : text.dropWhile Char.isDigit with
  | nil =>
      have alone : split text = (⟨text.takeWhile Char.isDigit, none⟩, text.dropWhile Char.isDigit) :=
        split_of_no_point (by rw [whole]; simp)
      rw [alone] at stop ⊢
      have next := stop whole
      obtain ⟨taken, left⟩ := Run.append Char.isDigit text rest
        fun _ c member => Bool.eq_false_iff.mpr fun digit => next c member (.inl digit)
      rw [whole, List.nil_append] at left
      rw [split_of_no_point (by rw [left]; exact fun point => next '.' point (.inr rfl)), taken, left,
        whole, List.nil_append]
  | cons c behind =>
      obtain ⟨taken, left⟩ := Run.append Char.isDigit text rest
        fun ended => absurd (whole.symm.trans ended) (by simp)
      rw [whole, List.cons_append] at left
      by_cases point : c = '.'
      · subst point
        rw [split_of_point whole] at stop ⊢
        obtain ⟨taken', left'⟩ := Run.append Char.isDigit behind rest
          fun ended d member => Bool.eq_false_iff.mpr fun digit => stop ended d member (.inl digit)
        rw [split_of_point left, taken, taken', left']
      · have other : '.' ∉ (some c) := fun same => point (Option.mem_some.mp same)
        rw [split_of_no_point (by rw [left]; exact other), split_of_no_point (by rw [whole]; exact other),
          taken, left, whole, List.cons_append]

theorem split_text {literal : Literal}
    (digits : ∀ c ∈ literal.whole ++ literal.fractionDigits, c.isDigit = true) :
    split literal.text = (literal, []) := by
  obtain ⟨whole, fraction⟩ := literal
  have run := Run.exact Char.isDigit whole []
    (fun c member => digits c (List.mem_append_left _ member)) (by simp)
  rw [List.append_nil] at run
  cases fraction with
  | none =>
      rw [text, split_of_no_point (by rw [run.2]; simp), run.1, run.2]
  | some behind =>
      have run' := Run.exact Char.isDigit behind []
        (fun c member => digits c (List.mem_append_right _ member)) (by simp)
      have run := Run.exact Char.isDigit whole ('.' :: behind)
        (fun c member => digits c (List.mem_append_left _ member)) (by simp)
      rw [List.append_nil] at run'
      rw [text, split_of_point run.2, run.1, run'.1, run'.2]

theorem eq_of_text_eq {first second : Literal}
    (digits : ∀ c ∈ first.whole ++ first.fractionDigits, c.isDigit = true)
    (digits' : ∀ c ∈ second.whole ++ second.fractionDigits, c.isDigit = true)
    (same : first.text = second.text) : first = second := by
  have split := split_text digits
  rw [same, split_text digits'] at split
  exact (Prod.mk.inj split).1.symm

theorem text_prefix_split {literal : Literal} (rest : List Char)
    (digits : ∀ c ∈ literal.whole ++ literal.fractionDigits, c.isDigit = true) :
    literal.text <+: (split (literal.text ++ rest)).1.text := by
  obtain ⟨whole, fraction⟩ := literal
  have wholeDigits : ∀ c ∈ whole, c.isDigit = true := fun c member =>
    digits c (List.mem_append_left _ member)
  cases fraction with
  | none =>
      have run : whole <+: (whole ++ rest).takeWhile Char.isDigit := by
        rw [List.takeWhile_append_of_pos wholeDigits]
        exact List.prefix_append _ _
      unfold split
      split
      · exact run.trans (List.prefix_append _ _)
      · exact run
  | some behind =>
      have run := Run.exact Char.isDigit whole ('.' :: (behind ++ rest)) wholeDigits (by simp)
      have behindDigits : ∀ c ∈ behind, c.isDigit = true := fun c member =>
        digits c (List.mem_append_right _ member)
      rw [text, List.append_assoc, List.cons_append, split_of_point run.2, run.1,
        List.takeWhile_append_of_pos behindDigits, text, List.prefix_append_right_inj,
        List.cons_prefix_cons]
      exact ⟨rfl, List.prefix_append _ _⟩

end Literal

end PocketCalc.Decimal
