import Mathlib.Computability.RegularExpressions
import PocketCalc.Proofs.Decimal.Text
import PocketCalc.Proofs.Token.Spelling

/-! The form of decimal text, as a regular expression, and what it tells of the number.

The text of a count of decimal units has this form and is read back exactly
(`plain_text`). Two texts are the same exactly when their numbers are
(`IsText.eq_iff`).
-/

set_option autoImplicit false

namespace PocketCalc.Decimal

open RegularExpression

def nonzeroDigits : List Char := ['1', '2', '3', '4', '5', '6', '7', '8', '9']

def oneOf (chars : List Char) : RegularExpression Char := (chars.map char).sum

def anyDigits : RegularExpression Char := (oneOf ('0' :: nonzeroDigits)).star

/-- A zero, or digits of which the first is not zero. -/
def wholeForm : RegularExpression Char := char '0' + oneOf nonzeroDigits * anyDigits

/-- Nothing, or a point with digits of which the last is not zero. -/
def fractionForm : RegularExpression Char := 1 + char '.' * anyDigits * oneOf nonzeroDigits

def plainForm : RegularExpression Char := (1 + char '-') * wholeForm * fractionForm

theorem mem_oneOf {chars word : List Char} :
    word ∈ (oneOf chars).matches' ↔ ∃ c ∈ chars, word = [c] := by
  induction chars with
  | nil => simp [oneOf]
  | cons c chars ih =>
      rw [oneOf] at ih ⊢
      rw [List.map_cons, List.sum_cons, matches'_add, Language.mem_add, ih, matches'_char,
        List.exists_mem_cons_iff]
      rfl

theorem mem_star_oneOf {chars word : List Char} (all : ∀ c ∈ word, c ∈ chars) :
    word ∈ (oneOf chars).star.matches' := by
  rw [matches'_star, Language.mem_kstar]
  refine ⟨word.map ([·]), by rw [← List.flatMap_def, List.flatMap_singleton'], ?_⟩
  intro single member
  obtain ⟨c, inWord, rfl⟩ := List.mem_map.mp member
  exact mem_oneOf.mpr ⟨c, all c inWord, rfl⟩

theorem mem_digits {c : Char} (digit : c.isDigit = true) : c ∈ '0' :: nonzeroDigits := by
  have all : ∀ rest : Fin 10, Char.ofNat ('0'.toNat + rest) ∈ '0' :: nonzeroDigits := by decide
  obtain ⟨low, high⟩ := Char.isDigit_iff_toNat.mp digit
  have same := all ⟨c.toNat - '0'.toNat, by simp only [Char.reduceToNat] at low high ⊢; omega⟩
  rwa [Nat.add_sub_cancel' low, Char.ofNat_toNat] at same

theorem mem_nonzeroDigits {c : Char} (digit : c.isDigit = true) (nonzero : c ≠ '0') :
    c ∈ nonzeroDigits := (List.mem_cons.mp (mem_digits digit)).resolve_left nonzero

namespace Literal

variable {literal : Literal}

theorem Canonical.whole_digits (canonical : literal.Canonical) :
    ∀ c ∈ literal.whole, c.isDigit = true :=
  fun c member => canonical.digits c (List.mem_append_left _ member)

theorem Canonical.fraction_digits (canonical : literal.Canonical) :
    ∀ c ∈ literal.fractionDigits, c.isDigit = true :=
  fun c member => canonical.digits c (List.mem_append_right _ member)

theorem Canonical.whole_mem_form (canonical : literal.Canonical) :
    literal.whole ∈ wholeForm.matches' := by
  have digits := canonical.whole_digits
  have leading := canonical.leading
  rw [wholeForm, matches'_add, Language.mem_add, matches'_mul, Language.mem_mul]
  cases same : literal.whole with
  | nil => exact absurd same canonical.whole
  | cons first rest =>
      rw [same] at digits leading
      obtain ⟨firstDigit, restDigits⟩ := List.forall_mem_cons.mp digits
      by_cases zero : first = '0'
      · exact .inl (leading (congrArg some zero))
      · exact .inr ⟨[first], mem_oneOf.mpr ⟨first, mem_nonzeroDigits firstDigit zero, rfl⟩, rest,
          mem_star_oneOf fun c member => mem_digits (restDigits c member), rfl⟩

theorem Canonical.fraction_mem_form (canonical : literal.Canonical) :
    ∃ behind ∈ fractionForm.matches', literal.text = literal.whole ++ behind := by
  have digits := canonical.fraction_digits
  have trailing := canonical.trailing
  rw [fractionForm, matches'_add, matches'_mul, matches'_mul]
  cases fraction : literal.fraction with
  | none => exact ⟨[], .inl rfl, by rw [text, fraction, List.append_nil]⟩
  | some behind =>
      refine ⟨'.' :: behind, .inr ?_, by rw [text, fraction]⟩
      rw [fractionDigits, fraction, Option.getD_some] at digits trailing
      rcases List.eq_nil_or_concat behind with rfl | ⟨init, last, rfl⟩
      · exact absurd fraction canonical.fraction
      · rw [List.concat_eq_append] at *
        have nonzero : last ≠ '0' := fun zero => trailing (by rw [zero, List.getLast?_concat])
        refine Language.mem_mul.mpr ⟨'.' :: init, Language.mem_mul.mpr ⟨['.'], rfl, init, ?_, rfl⟩,
          [last], mem_oneOf.mpr ⟨last, mem_nonzeroDigits (digits last (by simp)) nonzero, rfl⟩, rfl⟩
        exact mem_star_oneOf fun c member => mem_digits (digits c (List.mem_append_left _ member))

theorem Canonical.mem_form (canonical : literal.Canonical) (negative : Prop) [Decidable negative] :
    (if negative then ['-'] else []) ++ literal.text ∈ plainForm.matches' := by
  obtain ⟨behind, inForm, same⟩ := canonical.fraction_mem_form
  have sign : (if negative then ['-'] else []) ∈ (1 + char '-' : RegularExpression Char).matches' := by
    split
    · exact .inr rfl
    · exact .inl rfl
  rw [same, ← List.append_assoc, plainForm, matches'_mul, matches'_mul]
  exact Language.append_mem_mul (Language.append_mem_mul sign canonical.whole_mem_form) inForm

theorem Canonical.head_ne_minus (canonical : literal.Canonical) : literal.text.head? ≠ some '-' := by
  intro minus
  rcases isLiteralChar_of_mem_text canonical.digits (List.mem_of_head? minus) with digit | point
  · exact absurd digit (by decide)
  · exact absurd point (by decide)

theorem Canonical.eq_fractionDigits (canonical : literal.Canonical) {sign before behind : List Char}
    (noPoint : '.' ∉ sign) (same : sign ++ literal.text = before ++ '.' :: behind) :
    behind = literal.fractionDigits := by
  have point : ('.' : Char).isDigit ≠ true := by decide
  have inWhole : '.' ∉ sign ++ literal.whole := fun member =>
    (List.mem_append.mp member).elim noPoint fun member => point (canonical.whole_digits _ member)
  have inFraction : '.' ∉ literal.fractionDigits := fun member =>
    point (canonical.fraction_digits _ member)
  unfold text at same
  cases fraction : literal.fraction with
  | none =>
      rw [fraction] at same
      exact absurd (same ▸ List.mem_append_right before List.mem_cons_self) inWhole
  | some digits =>
      rw [fractionDigits, fraction, Option.getD_some] at inFraction ⊢
      simp only [fraction, ← List.append_assoc] at same
      exact ((List.append_cons_inj_of_notMem inWhole inFraction).mp same).2.2.symm

end Literal

theorem IsText.head_eq_minus_iff {text : List Char} {value : Rat} (isText : IsText text value) :
    text.head? = some '-' ↔ value < 0 := by
  obtain ⟨literal, canonical, _, rfl⟩ := isText
  by_cases negative : value < 0
  · simp [negative]
  · simp [negative, canonical.head_ne_minus]

theorem IsText.ne_minus_zero {text : List Char} {value : Rat} (isText : IsText text value) :
    text ≠ ['-', '0'] := by
  intro zero
  have negative : value < 0 := isText.head_eq_minus_iff.mp (by rw [zero]; rfl)
  obtain ⟨literal, canonical, number, same⟩ := isText
  rw [if_pos negative, zero] at same
  have lone : (⟨['0'], none⟩ : Literal).text = literal.text := (List.cons.inj same).2
  have literals := Literal.eq_of_text_eq (by simp [Literal.fractionDigits]) canonical.digits lone
  have magnitude : Literal.number ⟨['0'], none⟩ = 0 := by decide +kernel
  rw [← literals, magnitude, eq_comm, abs_eq_zero] at number
  exact negative.ne number

theorem IsText.value_unique {text : List Char} {first second : Rat} (one : IsText text first)
    (other : IsText text second) : first = second := by
  have sign : first < 0 ↔ second < 0 := one.head_eq_minus_iff.symm.trans other.head_eq_minus_iff
  obtain ⟨literal, canonical, number, rfl⟩ := one
  obtain ⟨literal', canonical', number', same⟩ := other
  simp only [sign, List.append_cancel_left_eq] at same
  have literals := Literal.eq_of_text_eq canonical.digits canonical'.digits same
  have magnitude : |first| = |second| := by rw [← number, ← number', literals]
  rcases abs_eq_abs.mp magnitude with equal | opposite
  · exact equal
  · -- Of two opposite numbers one is negative, unless both are zero.
    by_cases negative : second < 0
    · have both : first < 0 := sign.mpr negative
      linarith
    · have neither : ¬ first < 0 := mt sign.mp negative
      linarith

theorem IsText.eq_iff {text other : List Char} {first second : Rat} (one : IsText text first)
    (isOther : IsText other second) : text = other ↔ first = second :=
  ⟨fun same => one.value_unique (same ▸ isOther), fun same => one.unique (same ▸ isOther)⟩

/-! ## The text of decimal units -/

/-- Text in plain form for a count of decimal units, with so many digits at most behind the point,
that is read back as what is counted. -/
structure Plain (text : List Char) (count : Int) (places : Nat) : Prop where
  form : text ∈ plainForm.matches'
  fraction : ∀ before behind, text = before ++ '.' :: behind → behind.length ≤ places
  not_minus_zero : text ≠ ['-', '0']
  minus : text.head? = some '-' ↔ count < 0
  reading : ∃ unsigned, text = (if count < 0 then ['-'] else []) ++ unsigned ∧
    Token.ofText unsigned = .ok [.num (|(count : Rat)| / 10 ^ places)]

theorem plain_text (count : Int) {places : Nat} (small : places < UInt32.size) :
    Plain (text count places) count places := by
  have isText := isText_text count small
  have minus := isText.head_eq_minus_iff.trans div_scale_neg_iff
  obtain ⟨literal, canonical, number, short, same⟩ := exists_literal_text count small
  have read : Token.ofText literal.text = .ok [.num (|(count : Rat)| / 10 ^ places)] := by
    rw [Token.ofText_number canonical.wellFormed (short.trans_lt small), number, Nat.cast_natAbs,
      Int.cast_abs]
  refine ⟨?_, ?_, isText.ne_minus_zero, minus, literal.text, same, read⟩
  · rw [same]
    exact canonical.mem_form _
  · intro before behind split
    rw [canonical.eq_fractionDigits (by split <;> simp) (same.symm.trans split)]
    exact short

/-- The text of a count of decimal units is plain and exact. So two texts are the same exactly
when the numbers they count are, and two answers exactly when the values round to one number. -/
theorem plain_text_and_eq_iff :
    (∀ (count : Int) (places : Nat), places < UInt32.size → Plain (text count places) count places) ∧
    (∀ (count other : Int) (places places' : Nat), places < UInt32.size → places' < UInt32.size →
      (text count places = text other places' ↔
        (count : Rat) / 10 ^ places = other / 10 ^ places')) ∧
    ∀ first second : Rat,
      answerText first = answerText second ↔ round first 12 = round second 12 :=
  ⟨fun count _ small => plain_text count small,
    fun count other _ _ small small' => (isText_text count small).eq_iff (isText_text other small'),
    fun first second => (isText_answerText first).eq_iff (isText_answerText second)⟩

/-- A zero at the end is left out, the one behind the point is not. -/
theorem plain_text_of_thousandths :
    Plain ['-', '1', '.', '0', '5'] (-1050) 3 ∧ text (-1050) 3 = text (-105) 2 ∧
      answerText (2 / 3) = answerText (666666666667 / 10 ^ 12) := by
  obtain ⟨plain, texts, answers⟩ := plain_text_and_eq_iff
  have shown : text (-1050) 3 = ['-', '1', '.', '0', '5'] := by decide +kernel
  refine ⟨shown ▸ plain (-1050) 3 (by decide), (texts _ _ _ _ (by decide) (by decide)).mpr ?_,
    (answers _ _).mpr (by decide +kernel)⟩
  norm_num

end PocketCalc.Decimal
