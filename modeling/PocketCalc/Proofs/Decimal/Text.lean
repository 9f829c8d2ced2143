import PocketCalc.Decimal.Text
import PocketCalc.Proofs.Decimal.Rounding

/-! Canonical decimal text, and the number it is the text of.

A number has at most one canonical text (`IsText.unique`), and the text of a
count of decimal units is the one of the number counted (`isText_text`).
-/

set_option autoImplicit false

namespace PocketCalc.Decimal

theorem ofDigitChars_concat (digits : List Char) (last : Char) :
    Nat.ofDigitChars 10 (digits ++ [last]) 0 =
      10 * Nat.ofDigitChars 10 digits 0 + (last.toNat - '0'.toNat) := by
  rw [Nat.ofDigitChars_append, Nat.ofDigitChars_cons, Nat.ofDigitChars_nil]

theorem ofDigitChars_zeros (digits : List Char) (count : Nat) :
    Nat.ofDigitChars 10 (digits ++ List.replicate count '0') 0 =
      Nat.ofDigitChars 10 digits 0 * 10 ^ count := by
  rw [Nat.ofDigitChars_append, Nat.ofDigitChars_replicate_zero, Nat.mul_comm]

theorem exists_replicate_append {short long : List Char}
    (shortDigits : ∀ c ∈ short, c.isDigit = true) (longDigits : ∀ c ∈ long, c.isDigit = true)
    (longer : short.length ≤ long.length)
    (same : Nat.ofDigitChars 10 short 0 = Nat.ofDigitChars 10 long 0) :
    ∃ count, long = List.replicate count '0' ++ short := by
  induction long using List.reverseRecOn generalizing short with
  | nil => exact ⟨0, (List.eq_nil_of_length_eq_zero (Nat.le_zero.mp longer)).symm⟩
  | append_singleton long last ih =>
      have lastDigit := Char.isDigit_iff_toNat.mp (longDigits last (by simp))
      have longDigits := fun c member => longDigits c (List.mem_append_left [last] member)
      simp only [ofDigitChars_concat, Char.reduceToNat] at same lastDigit
      rcases List.eq_nil_or_concat short with rfl | ⟨init, final, rfl⟩
      · simp only [Nat.ofDigitChars_nil] at same
        obtain ⟨count, zeros⟩ := ih (List.forall_mem_nil _) longDigits (Nat.zero_le _)
          (by rw [Nat.ofDigitChars_nil]; omega)
        have zero : last = '0' := Char.toNat_inj.mp (by simp only [Char.reduceToNat]; omega)
        exact ⟨count + 1, by rw [zeros, zero, List.append_nil, List.append_nil, List.replicate_succ']⟩
      · rw [List.concat_eq_append] at *
        have finalDigit := Char.isDigit_iff_toNat.mp (shortDigits final (by simp))
        simp only [ofDigitChars_concat, Char.reduceToNat, List.length_append,
          List.length_singleton] at same longer finalDigit
        -- The last digits are the remainders by ten, and the other ones the quotients.
        have finals : final = last := Char.toNat_inj.mp (by omega)
        have initDigits : ∀ c ∈ init, c.isDigit = true := fun c member =>
          shortDigits c (List.mem_append_left _ member)
        obtain ⟨count, zeros⟩ := ih initDigits longDigits (by omega) (by omega)
        exact ⟨count, by rw [zeros, finals, List.append_assoc]⟩

/-! ## Zeros at the end -/

theorem trimZeros_append_replicate {digits : List Char} (trailing : digits.getLast? ≠ some '0')
    (count : Nat) : trimZeros (digits ++ List.replicate count '0') = digits := by
  have stop : ∀ c ∈ digits.reverse.head?, (c == '0') = false := by
    intro c member
    rw [List.head?_reverse, Option.mem_def] at member
    rw [beq_eq_false_iff_ne]
    rintro rfl
    exact trailing member
  have run := Run.exact (· == '0') (List.replicate count '0') _ (by simp) stop
  simp [trimZeros, run.2]

theorem getLast?_trimZeros (digits : List Char) : (trimZeros digits).getLast? ≠ some '0' := by
  intro zero
  rw [trimZeros, List.getLast?_reverse] at zero
  have stops := Run.stops (· == '0') digits.reverse '0' zero
  cases stops

theorem exists_trimZeros_append (digits : List Char) :
    ∃ count, trimZeros digits ++ List.replicate count '0' = digits := by
  have zeros : ∀ c ∈ (digits.reverse.takeWhile (· == '0')).reverse, c = '0' := by
    intro c member
    simpa using List.mem_takeWhile_imp (List.mem_reverse.mp member)
  have whole := congrArg List.reverse
    (List.takeWhile_append_dropWhile (p := (· == '0')) (l := digits.reverse))
  rw [List.reverse_append, List.reverse_reverse, List.eq_replicate_of_mem zeros] at whole
  exact ⟨_, whole⟩

/-! ## Canonical text -/

/-- One digit at least before a point and one behind it, no zero that could be left out. -/
structure Literal.Canonical (literal : Literal) : Prop where
  digits : ∀ c ∈ literal.whole ++ literal.fractionDigits, c.isDigit = true
  whole : literal.whole ≠ []
  leading : literal.whole.head? = some '0' → literal.whole = ['0']
  fraction : literal.fraction ≠ some []
  trailing : literal.fractionDigits.getLast? ≠ some '0'

/-- A canonical literal for the magnitude, behind a minus sign if the value is negative. -/
def IsText (text : List Char) (value : Rat) : Prop :=
  ∃ literal : Literal, literal.Canonical ∧ literal.number = |value| ∧
    text = (if value < 0 then ['-'] else []) ++ literal.text

namespace Literal

theorem Canonical.wellFormed {literal : Literal} (canonical : literal.Canonical) :
    literal.WellFormed :=
  ⟨canonical.digits, fun none => canonical.whole (List.append_eq_nil_iff.mp none).1⟩

theorem same_units {first second : Literal} (same : first.number = second.number) :
    Nat.ofDigitChars 10 (first.whole ++ first.fractionDigits ++
        List.replicate second.fractionDigits.length '0') 0 =
      Nat.ofDigitChars 10 (second.whole ++ second.fractionDigits ++
        List.replicate first.fractionDigits.length '0') 0 := by
  rw [number, number, div_eq_div_iff (by positivity) (by positivity)] at same
  rw [ofDigitChars_zeros, ofDigitChars_zeros]
  exact_mod_cast same

theorem Canonical.ext {first second : Literal} (one : first.Canonical) (other : second.Canonical)
    (wholes : first.whole = second.whole)
    (fractions : first.fractionDigits = second.fractionDigits) : first = second := by
  have some := one.fraction
  have some' := other.fraction
  obtain ⟨whole, fraction⟩ := first
  obtain ⟨whole', fraction'⟩ := second
  cases fraction <;> cases fraction' <;> simp_all [fractionDigits]

theorem Canonical.eq_of_shorter {short long : Literal} (isShort : short.Canonical)
    (isLong : long.Canonical) (shorter : short.whole.length ≤ long.whole.length)
    (same : short.number = long.number) : short = long := by
  have all : ∀ {literal : Literal} (count : Nat), literal.Canonical →
      ∀ c ∈ literal.whole ++ literal.fractionDigits ++ List.replicate count '0',
        c.isDigit = true := by
    intro literal count canonical c member
    rcases List.mem_append.mp member with digit | zero
    · exact canonical.digits c digit
    · rw [List.eq_of_mem_replicate zero]; decide
  obtain ⟨count, padded⟩ := exists_replicate_append (all _ isShort) (all _ isLong)
    (by simp only [List.length_append, List.length_replicate]; omega) (same_units same)
  have lengths := congrArg List.length padded
  simp only [List.length_append, List.length_replicate] at lengths
  rw [List.append_assoc, List.append_assoc, ← List.append_assoc (List.replicate count '0')] at padded
  obtain ⟨wholes, fractions⟩ := List.append_inj padded
    (by simp only [List.length_append, List.length_replicate]; omega)
  have fractions := congrArg trimZeros fractions
  rw [trimZeros_append_replicate isLong.trailing, trimZeros_append_replicate isShort.trailing]
    at fractions
  -- A zero at the head would be the only digit, and the shorter run has one of its own.
  have none : count = 0 := by
    by_contra some
    obtain ⟨fewer, rfl⟩ := Nat.exists_eq_succ_of_ne_zero some
    have lone := isLong.leading (by rw [wholes, List.replicate_succ]; rfl)
    have one := congrArg List.length (lone.symm.trans wholes)
    have pos := List.length_pos_iff.mpr isShort.whole
    simp only [List.length_append, List.length_replicate, List.length_singleton] at one
    omega
  subst none
  exact Canonical.ext isShort isLong wholes.symm fractions.symm

theorem Canonical.unique {first second : Literal} (one : first.Canonical) (other : second.Canonical)
    (same : first.number = second.number) : first = second := by
  rcases Nat.le_total first.whole.length second.whole.length with shorter | longer
  · exact one.eq_of_shorter other shorter same
  · exact (other.eq_of_shorter one longer same.symm).symm

end Literal

theorem IsText.unique {first second : List Char} {value : Rat} (one : IsText first value)
    (other : IsText second value) : first = second := by
  obtain ⟨literal, canonical, number, rfl⟩ := one
  obtain ⟨literal', canonical', number', rfl⟩ := other
  rw [canonical.unique canonical' (number.trans number'.symm)]

/-! ## The text of decimal units -/

theorem leading_toDigits (count : Nat) (zero : (Nat.toDigits 10 count).head? = some '0') :
    Nat.toDigits 10 count = ['0'] := by
  induction count using Nat.strongRecOn with
  | ind count ih =>
      by_cases small : count < 10
      · rw [Nat.toDigits_of_lt_base small] at zero ⊢
        rw [Option.some.inj zero]
      · rw [Nat.toDigits_of_base_le (by decide) (by omega),
          List.head?_append_of_ne_nil _ Nat.toDigits_ne_nil] at zero
        -- A zero at the head would be all of the quotient, which is not zero.
        have lone := congrArg (Nat.ofDigitChars 10 · 0) (ih (count / 10) (by omega) zero)
        simp only [Nat.ofDigitChars_ten_toDigits, Nat.ofDigitChars_cons, Nat.ofDigitChars_nil,
          Char.reduceToNat] at lone
        omega

theorem isDigit_of_mem_toDigits {count : Nat} {c : Char} (member : c ∈ Nat.toDigits 10 count) :
    c.isDigit = true := Nat.isDigit_of_mem_toDigits (by decide) (by decide) member

theorem leftpad_toDigits {part places : Nat} (some : part ≠ 0) (fits : part < 10 ^ places) :
    ((Nat.toDigits 10 part).leftpad places '0').length = places ∧
      Nat.ofDigitChars 10 ((Nat.toDigits 10 part).leftpad places '0') 0 = part ∧
      ∀ c ∈ (Nat.toDigits 10 part).leftpad places '0', c.isDigit = true := by
  have pos : 0 < places := by
    by_contra none
    rw [Nat.eq_zero_of_not_pos none] at fits
    omega
  have short := (Nat.length_toDigits_le_iff (b := 10) (by decide) pos).mpr fits
  refine ⟨by rw [List.length_leftpad, Nat.max_eq_left short], ?_, ?_⟩
  · rw [List.leftpad, Nat.ofDigitChars_append, Nat.ofDigitChars_replicate_zero, Nat.mul_zero,
      Nat.ofDigitChars_ten_toDigits]
  · intro c member
    rcases List.mem_append.mp member with zero | digit
    · rw [List.eq_of_mem_replicate zero]; decide
    · exact isDigit_of_mem_toDigits digit

theorem number_trimZeros (whole fraction : List Char) :
    (⟨whole, some (trimZeros fraction)⟩ : Literal).number =
      Nat.ofDigitChars 10 (whole ++ fraction) 0 / 10 ^ fraction.length := by
  obtain ⟨count, digits⟩ := exists_trimZeros_append fraction
  have lengths := congrArg List.length digits
  have value := congrArg (fun digits => Nat.ofDigitChars 10 (whole ++ digits) 0) digits
  simp only [← List.append_assoc, ofDigitChars_zeros] at value
  simp only [List.length_append, List.length_replicate] at lengths
  rw [Literal.number, div_eq_div_iff (by positivity) (by positivity), ← value, ← lengths, pow_add]
  simp only [Literal.fractionDigits, Option.getD_some]
  push_cast
  ring

theorem canonical_toDigits (count : Nat) : (⟨Nat.toDigits 10 count, none⟩ : Literal).Canonical :=
  ⟨by simpa [Literal.fractionDigits] using fun c => isDigit_of_mem_toDigits, Nat.toDigits_ne_nil,
    leading_toDigits count, by simp, by simp [Literal.fractionDigits]⟩

theorem canonical_trimZeros (count : Nat) {fraction : List Char}
    (digits : ∀ c ∈ fraction, c.isDigit = true) (some : Nat.ofDigitChars 10 fraction 0 ≠ 0) :
    (⟨Nat.toDigits 10 count, .some (trimZeros fraction)⟩ : Literal).Canonical := by
  obtain ⟨zeros, whole⟩ := exists_trimZeros_append fraction
  refine ⟨?_, Nat.toDigits_ne_nil, leading_toDigits count, ?_, getLast?_trimZeros fraction⟩
  · intro c member
    rcases List.mem_append.mp member with inWhole | inFraction
    · exact isDigit_of_mem_toDigits inWhole
    · exact digits c (whole ▸ List.mem_append_left _ inFraction)
  · intro none
    rw [Option.some.inj none, List.nil_append] at whole
    rw [← whole, Nat.ofDigitChars_replicate_zero, Nat.mul_zero] at some
    exact some rfl

theorem length_trimZeros_le (digits : List Char) : (trimZeros digits).length ≤ digits.length := by
  obtain ⟨zeros, whole⟩ := exists_trimZeros_append digits
  have lengths := congrArg List.length whole
  rw [List.length_append] at lengths
  omega

theorem exists_literal_text (count : Int) {places : Nat} (small : places < UInt32.size) :
    ∃ literal : Literal, literal.Canonical ∧ literal.number = (count.natAbs : Nat) / 10 ^ places ∧
      literal.fractionDigits.length ≤ places ∧
      text count places = (if count < 0 then ['-'] else []) ++ literal.text := by
  have parts := Nat.div_add_mod count.natAbs (scale places)
  -- What is left of whole numbers is shown behind a point, padded to all places and trimmed.
  unfold text
  simp only
  split
  · next whole =>
      refine ⟨_, canonical_toDigits (count.natAbs / scale places), ?_, Nat.zero_le _, rfl⟩
      rw [whole, Nat.add_zero] at parts
      rw [← cast_scale small, ← parts]
      simp [Literal.number, Literal.fractionDigits, (scale_pos places).ne']
  · next part =>
      have fits : count.natAbs % scale places < 10 ^ places := by
        rw [← Nat.pow_eq, ← scale_of_lt small]
        exact Nat.mod_lt _ (scale_pos places)
      obtain ⟨length, value, digits⟩ := leftpad_toDigits part fits
      refine ⟨_, canonical_trimZeros (count.natAbs / scale places) digits (value.symm ▸ part), ?_, ?_,
        by rw [List.append_assoc]; rfl⟩
      · rw [number_trimZeros, length, Nat.ofDigitChars_append, Nat.ofDigitChars_eq_ofDigitChars_zero,
          value, length, Nat.ofDigitChars_ten_toDigits, ← Nat.pow_eq, ← scale_of_lt small, parts]
      · exact (length_trimZeros_le _).trans length.le

theorem div_scale_neg_iff {count : Int} {places : Nat} :
    (count : Rat) / 10 ^ places < 0 ↔ count < 0 := by
  rw [div_lt_iff₀ (by positivity), zero_mul, Int.cast_lt_zero]

theorem abs_div_scale (count : Int) (places : Nat) :
    |(count : Rat) / 10 ^ places| = (count.natAbs : Nat) / 10 ^ places := by
  rw [abs_div, abs_of_pos (show (0 : Rat) < 10 ^ places by positivity), Nat.cast_natAbs, Int.cast_abs]

theorem signed_natAbs (count : Int) (places : Nat) :
    (if count < 0 then -(((count.natAbs : Nat) : Rat) / 10 ^ places)
      else (count.natAbs : Nat) / 10 ^ places) = (count : Rat) / 10 ^ places := by
  by_cases negative : count < 0
  · have magnitude : ((count.natAbs : Nat) : Rat) = -count := by
      rw [Nat.cast_natAbs, abs_of_neg negative, Int.cast_neg]
    rw [if_pos negative, magnitude, neg_div, neg_neg]
  · have magnitude : ((count.natAbs : Nat) : Rat) = count := by
      rw [Nat.cast_natAbs, abs_of_nonneg (not_lt.mp negative)]
    rw [if_neg negative, magnitude]

theorem isText_text (count : Int) {places : Nat} (small : places < UInt32.size) :
    IsText (text count places) (count / 10 ^ places) := by
  obtain ⟨literal, canonical, number, _, same⟩ := exists_literal_text count small
  refine ⟨literal, canonical, number.trans (abs_div_scale count places).symm, ?_⟩
  simpa only [div_scale_neg_iff] using same

theorem isText_answerText (value : Rat) : IsText (answerText value) (round value precision) := by
  rw [round_eq value (by decide)]
  exact isText_text (units value precision) (by decide)

/-- The rounded value counts its own units, so its text is the same. -/
theorem answerText_round (value : Rat) : answerText (round value precision) = answerText value := by
  have small : precision < UInt32.size := by decide
  rw [answerText, answerText, round_eq value small, units_div _ small]

end PocketCalc.Decimal
