import PocketCalc.Proofs.Expression.Answer
import PocketCalc.Session

/-! Typing a number key by key.

The keys write a literal: digits, a point, digits behind it. What a session
holds after them is the text of that literal without the zeros that could be
left out (`Session.run_of_types`), whose number is the same
(`Decimal.Literal.number_plain`). An evaluation reads that number
(`Decimal.Literal.exactValue_typedText`).
-/

set_option autoImplicit false

namespace PocketCalc

open Decimal

/-- The character that a command types. A point sent as a digit counts as the point, here and
wherever a point is typed. -/
def Command.char? : Command → Option Char
  | digit c => some c
  | point => some '.'
  | operator _ | percent | clear | backspace | equals => none

/-- The key that a command stands for, where only a digit may be sent as a digit. -/
def Command.key? : Command → Option Char
  | digit c => if c.isDigit then some c else none
  | point => some '.'
  | operator _ | percent | clear | backspace | equals => none

theorem Session.perform_of_char? {command : Command} {c : Char} (types : command.char? = some c) :
    perform command = Action.type c := by
  cases command <;> cases types <;> rfl

namespace Decimal.Literal

/-- The digits before the first point and those behind it. Other characters do not count. -/
def ofKeys (keys : List Char) : Literal where
  whole := (keys.takeWhile (· != '.')).filter Char.isDigit
  fraction := match keys.dropWhile (· != '.') with
    | [] => none
    | _ :: behind => some (behind.filter Char.isDigit)

/-- One more digit, behind the point if there is one. -/
def push (literal : Literal) (c : Char) : Literal :=
  match literal.fraction with
  | none => ⟨literal.whole ++ [c], none⟩
  | some behind => ⟨literal.whole, some (behind ++ [c])⟩

theorem ofKeys_of_no_point {keys : List Char} (none : '.' ∉ keys) :
    ofKeys keys = ⟨keys.filter Char.isDigit, .none⟩ := by
  have run := Run.exact (· != '.') keys [] (fun c member => by
    rw [bne_iff_ne]
    rintro rfl
    exact none member) (by simp)
  rw [List.append_nil] at run
  rw [ofKeys, run.1, run.2]

theorem ofKeys_of_point {before : List Char} (none : '.' ∉ before) (behind : List Char) :
    ofKeys (before ++ '.' :: behind) =
      ⟨before.filter Char.isDigit, some (behind.filter Char.isDigit)⟩ := by
  have run := Run.exact (· != '.') before ('.' :: behind) (fun c member => by
    rw [bne_iff_ne]
    rintro rfl
    exact none member) (by simp)
  rw [ofKeys, run.1, run.2]

theorem ofKeys_concat_point (keys : List Char) :
    ofKeys (keys ++ ['.']) = ⟨(ofKeys keys).whole, some (ofKeys keys).fractionDigits⟩ := by
  by_cases point : '.' ∈ keys
  · obtain ⟨before, behind, rfl, none⟩ := List.eq_append_cons_of_mem point
    rw [List.append_assoc, List.cons_append, ofKeys_of_point none, ofKeys_of_point none]
    simp [fractionDigits]
  · rw [ofKeys_of_point point, ofKeys_of_no_point point]
    rfl

theorem ofKeys_concat_digit (keys : List Char) {c : Char} (digit : c.isDigit = true) :
    ofKeys (keys ++ [c]) = (ofKeys keys).push c := by
  have other : '.' ≠ c := by rintro rfl; cases digit
  by_cases point : '.' ∈ keys
  · obtain ⟨before, behind, rfl, none⟩ := List.eq_append_cons_of_mem point
    rw [List.append_assoc, List.cons_append, ofKeys_of_point none, ofKeys_of_point none]
    simp [push, digit]
  · rw [ofKeys_of_no_point (by simp [point, other]), ofKeys_of_no_point point]
    simp [push, digit]

theorem ofKeys_concat_other (keys : List Char) {c : Char} (other : ¬ IsLiteralChar c) :
    ofKeys (keys ++ [c]) = ofKeys keys := by
  obtain ⟨notDigit, notPoint⟩ := not_or.mp other
  by_cases point : '.' ∈ keys
  · obtain ⟨before, behind, rfl, none⟩ := List.eq_append_cons_of_mem point
    rw [List.append_assoc, List.cons_append, ofKeys_of_point none, ofKeys_of_point none]
    simp [notDigit]
  · rw [ofKeys_of_no_point (by simp [point, eq_comm, notPoint]), ofKeys_of_no_point point]
    simp [notDigit]

theorem digits_ofKeys (keys : List Char) :
    ∀ c ∈ (ofKeys keys).whole ++ (ofKeys keys).fractionDigits, c.isDigit = true := by
  intro c member
  by_cases point : '.' ∈ keys
  · obtain ⟨before, behind, rfl, none⟩ := List.eq_append_cons_of_mem point
    rw [ofKeys_of_point none] at member
    rcases List.mem_append.mp member with inWhole | inFraction
    · exact (List.mem_filter.mp inWhole).2
    · exact (List.mem_filter.mp inFraction).2
  · rw [ofKeys_of_no_point point] at member
    rcases List.mem_append.mp member with inWhole | inFraction
    · exact (List.mem_filter.mp inWhole).2
    · cases inFraction

/-! ## Leading zeros -/

/-- Without leading zeros; a lone zero where nothing else is left. -/
def withoutZeros (digits : List Char) : List Char :=
  if digits.dropWhile (· == '0') = [] then ['0'] else digits.dropWhile (· == '0')

theorem withoutZeros_ne_nil (digits : List Char) : withoutZeros digits ≠ [] := by
  unfold withoutZeros
  split
  · simp
  · assumption

theorem isDigit_of_mem_withoutZeros {digits : List Char} (all : ∀ c ∈ digits, c.isDigit = true) :
    ∀ c ∈ withoutZeros digits, c.isDigit = true := by
  unfold withoutZeros
  split
  · simp
  · exact fun c member => all c ((List.dropWhile_suffix _).mem member)

theorem withoutZeros_concat (digits : List Char) (c : Char) :
    withoutZeros (digits ++ [c]) =
      if withoutZeros digits = ['0'] then [c] else withoutZeros digits ++ [c] := by
  by_cases zeros : digits.dropWhile (· == '0') = []
  · have all := List.dropWhile_eq_nil_iff.mp zeros
    rw [withoutZeros, withoutZeros, List.dropWhile_append_of_pos all, zeros]
    by_cases zero : c = '0' <;> simp [zero]
  · have run := Run.append (· == '0') digits [c] fun ended => absurd ended zeros
    -- What is left starts with another digit, so it is no lone zero.
    have other : digits.dropWhile (· == '0') ≠ ['0'] := by
      intro lone
      have stops := Run.stops (· == '0') digits '0' (by rw [lone]; rfl)
      cases stops
    rw [withoutZeros, withoutZeros, run.2, if_neg zeros, if_neg other, if_neg (by simp)]

theorem ofDigitChars_withoutZeros (digits rest : List Char) :
    Nat.ofDigitChars 10 (withoutZeros digits ++ rest) 0 = Nat.ofDigitChars 10 (digits ++ rest) 0 := by
  have zeros : ∀ c ∈ digits.takeWhile (· == '0'), c = '0' := fun c member => by
    simpa using List.mem_takeWhile_imp member
  have whole := List.takeWhile_append_dropWhile (p := (· == '0')) (l := digits)
  rw [List.eq_replicate_of_mem zeros] at whole
  have stripped : Nat.ofDigitChars 10 (withoutZeros digits ++ rest) 0 =
      Nat.ofDigitChars 10 (digits.dropWhile (· == '0') ++ rest) 0 := by
    unfold withoutZeros
    split
    · next none => rw [none, List.nil_append, List.singleton_append, Nat.ofDigitChars_cons]; rfl
    · rfl
  rw [stripped]
  conv_rhs => rw [← whole, List.append_assoc, Nat.ofDigitChars_append,
    Nat.ofDigitChars_replicate_zero, Nat.mul_zero]

def plain (literal : Literal) : Literal := ⟨withoutZeros literal.whole, literal.fraction⟩

theorem digits_plain {literal : Literal}
    (digits : ∀ c ∈ literal.whole ++ literal.fractionDigits, c.isDigit = true) :
    ∀ c ∈ literal.plain.whole ++ literal.plain.fractionDigits, c.isDigit = true := by
  intro c member
  rcases List.mem_append.mp member with inWhole | inFraction
  · exact isDigit_of_mem_withoutZeros (fun d inDigits => digits d (List.mem_append_left _ inDigits)) c
      inWhole
  · exact digits c (List.mem_append_right _ inFraction)

theorem wellFormed_plain {literal : Literal}
    (digits : ∀ c ∈ literal.whole ++ literal.fractionDigits, c.isDigit = true) :
    literal.plain.WellFormed :=
  ⟨digits_plain digits, fun none => withoutZeros_ne_nil _ (List.append_eq_nil_iff.mp none).1⟩

theorem number_plain (literal : Literal) : literal.plain.number = literal.number := by
  have digits := ofDigitChars_withoutZeros literal.whole literal.fractionDigits
  exact congrArg (fun count : Nat => (count : Rat) / 10 ^ literal.fractionDigits.length) digits

def typedText (literal : Literal) : List Char :=
  if literal.whole = [] ∧ literal.fraction = none then [] else literal.plain.text

theorem typedText_of_no_point {digits : List Char} :
    typedText ⟨digits, none⟩ = if digits = [] then [] else withoutZeros digits := by
  simp [typedText, plain, text]

theorem typedText_of_point (digits behind : List Char) :
    typedText ⟨digits, some behind⟩ = withoutZeros digits ++ '.' :: behind := by
  simp [typedText, plain, text]

theorem typedText_ofKeys {keys : List Char} {c : Char} (member : c ∈ keys) (literal : IsLiteralChar c) :
    (ofKeys keys).typedText = (ofKeys keys).plain.text := by
  refine if_neg fun ⟨noWhole, noFraction⟩ => ?_
  by_cases point : '.' ∈ keys
  · obtain ⟨before, behind, rfl, none⟩ := List.eq_append_cons_of_mem point
    rw [ofKeys_of_point none] at noFraction
    cases noFraction
  · rw [ofKeys_of_no_point point] at noWhole
    have digit := literal.resolve_right fun isPoint => point (isPoint ▸ member)
    exact absurd digit (List.filter_eq_nil_iff.mp noWhole c member)

theorem typedText_of_ne_nil {literal : Literal} (typed : literal.typedText ≠ []) :
    literal.typedText = literal.plain.text := by
  unfold typedText at typed ⊢
  split
  · next none => exact absurd (if_pos none) typed
  · rfl

theorem exists_split_typedText {literal : Literal}
    (digits : ∀ c ∈ literal.whole ++ literal.fractionDigits, c.isDigit = true) :
    ∃ read, split literal.typedText = (read, []) ∧ read.number = literal.number := by
  by_cases none : literal.whole = [] ∧ literal.fraction = .none
  · rw [typedText, if_pos none]
    obtain ⟨whole, fraction⟩ := literal
    obtain ⟨rfl, rfl⟩ := none
    exact ⟨⟨[], .none⟩, rfl, rfl⟩
  · rw [typedText, if_neg none]
    exact ⟨literal.plain, split_text (digits_plain digits), number_plain literal⟩

theorem exactValue_typedText {literal : Literal}
    (digits : ∀ c ∈ literal.whole ++ literal.fractionDigits, c.isDigit = true)
    (short : literal.fractionDigits.length < UInt32.size) (typed : literal.typedText ≠ []) :
    Expression.exactValue literal.typedText = .ok literal.number := by
  rw [typedText_of_ne_nil typed, ← number_plain literal]
  exact Expression.exactValue_of_literal (wellFormed_plain digits) short false

end Decimal.Literal

namespace Session

def enter (s : Session) (operand : List Char) : Session := if operand = [] then s else s.start operand

theorem enter_of_ne_nil {s : Session} {operand : List Char} (nonempty : operand ≠ []) :
    s.enter operand = s.start operand := if_neg nonempty

variable {s : Session}

theorem entry_enter (empty : s.entry = []) (operand : List Char) :
    (s.enter operand).entry = operand := by
  unfold enter
  split
  · next none => rw [none, empty]
  · rfl

theorem committed_enter (operand : List Char) : (s.enter operand).committed = s.committed := by
  unfold enter
  split <;> rfl

theorem enter_point (empty : s.entry = []) {literal : Literal}
    (digits : ∀ c ∈ literal.whole, c.isDigit = true) :
    ((Action.type '.').outcome (s.enter literal.typedText)).2 =
      s.enter (Literal.typedText ⟨literal.whole, some literal.fractionDigits⟩) := by
  obtain ⟨whole, fraction⟩ := literal
  have nonempty := Literal.withoutZeros_ne_nil whole
  rw [Literal.typedText_of_point]
  cases fraction with
  | some behind =>
      rw [Literal.typedText_of_point, enter_of_ne_nil (by simp)]
      simp [Action.outcome_type, start, enter, Literal.fractionDigits]
  | none =>
      rw [Literal.typedText_of_no_point]
      by_cases first : whole = []
      · subst first
        simp [Action.outcome_type, enter, empty, Literal.withoutZeros, Literal.fractionDigits]
      · have absent : '.' ∉ Literal.withoutZeros whole := fun member =>
          absurd (Literal.isDigit_of_mem_withoutZeros digits '.' member) (by decide)
        rw [if_neg first, enter_of_ne_nil nonempty, enter_of_ne_nil (by simp)]
        simp [Action.outcome_type, start, extend, nonempty, absent, Literal.fractionDigits]

theorem enter_digit (empty : s.entry = []) (literal : Literal) {c : Char} (digit : c.isDigit = true) :
    ((Action.type c).outcome (s.enter literal.typedText)).2 =
      s.enter (literal.push c).typedText := by
  have other : c ≠ '.' := by rintro rfl; cases digit
  obtain ⟨whole, fraction⟩ := literal
  have nonempty := Literal.withoutZeros_ne_nil whole
  rw [Action.outcome_type, if_neg other, if_pos digit]
  cases fraction with
  | some behind =>
      have more : Literal.withoutZeros whole ++ '.' :: behind ≠ ['0'] := by
        intro same
        have lengths := congrArg List.length same
        have pos := List.length_pos_iff.mpr nonempty
        simp only [List.length_append, List.length_cons, List.length_nil] at lengths
        omega
      rw [Literal.push, Literal.typedText_of_point, Literal.typedText_of_point,
        enter_of_ne_nil (by simp), enter_of_ne_nil (by simp)]
      simp [start, extend, more]
  | none =>
      have after : (Literal.push ⟨whole, none⟩ c).typedText =
          if Literal.withoutZeros whole = ['0'] then [c] else Literal.withoutZeros whole ++ [c] := by
        rw [Literal.push, Literal.typedText_of_no_point, if_neg (by simp), Literal.withoutZeros_concat]
      rw [after, Literal.typedText_of_no_point]
      by_cases first : whole = []
      · subst first
        simp [enter, empty, Literal.withoutZeros]
      · rw [if_neg first, enter_of_ne_nil nonempty]
        -- A lone zero gives way to the digit.
        by_cases lone : Literal.withoutZeros whole = ['0']
        · rw [if_pos lone, lone]
          by_cases zero : c = '0' <;> simp [enter, start, zero]
        · rw [if_neg lone]
          simp [enter, start, extend, nonempty, lone]

theorem enter_other (literal : Literal) {c : Char} (other : ¬ IsLiteralChar c) :
    ((Action.type c).outcome (s.enter literal.typedText)).2 =
      s.enter literal.typedText := by
  obtain ⟨notDigit, notPoint⟩ := not_or.mp other
  rw [Action.outcome_type, if_neg notPoint, if_neg notDigit]

/-- Keys leave the text of the number they write, without zeros at its head. -/
theorem run_of_types (empty : s.entry = []) {commands : List Command}
    (types : ∀ command ∈ commands, command.char? ≠ none) :
    s.run commands = s.enter (Literal.ofKeys (commands.filterMap Command.char?)).typedText := by
  -- From the end: the last key acts on the text that those before it left.
  induction commands using List.reverseRecOn with
  | nil => rfl
  | append_singleton commands last ih =>
      have earlier := ih fun command member => types command (List.mem_append_left [last] member)
      obtain ⟨c, found⟩ := Option.ne_none_iff_exists'.mp (types last (by simp))
      have keys : (commands ++ [last]).filterMap Command.char? =
          commands.filterMap Command.char? ++ [c] := by
        simp [found]
      have one : s.run (commands ++ [last]) = (s.run commands).apply last := run_append s commands [last]
      rw [one, earlier, apply, perform_of_char? found, keys]
      by_cases point : c = '.'
      · subst point
        have digits := Literal.digits_ofKeys (commands.filterMap Command.char?)
        rw [Literal.ofKeys_concat_point]
        exact enter_point empty fun d member => digits d (List.mem_append_left _ member)
      · by_cases digit : c.isDigit = true
        · rw [Literal.ofKeys_concat_digit _ digit]
          exact enter_digit empty _ digit
        · have other := not_or.mpr ⟨digit, point⟩
          rw [Literal.ofKeys_concat_other _ other]
          exact enter_other _ other

/-- What is typed where no operand is entered leaves the committed operands as they are, and the
operand is the typed digits in plain form: without leading zeros, and with the first point if there
is one and a digit in front of it. It is a literal with the number that is typed, and an evaluation
reads that number. -/
theorem entry_run_of_types (empty : s.entry = []) {commands : List Command}
    (types : ∀ command ∈ commands, command.char? ≠ none) :
    let keys := commands.filterMap Command.char?
    let typed := s.run commands
    typed.committed = s.committed ∧
      ('.' ∉ keys → typed.entry = if keys.filter Char.isDigit = [] then []
        else Literal.withoutZeros (keys.filter Char.isDigit)) ∧
      (∀ before behind, keys = before ++ '.' :: behind → '.' ∉ before →
        typed.entry = Literal.withoutZeros (before.filter Char.isDigit) ++
          '.' :: behind.filter Char.isDigit) ∧
      (∃ literal, Literal.split typed.entry = (literal, []) ∧
        literal.number = (Literal.ofKeys keys).number) ∧
      ((Literal.ofKeys keys).fractionDigits.length < UInt32.size → typed.entry ≠ [] →
        Expression.exactValue typed.entry = .ok (Literal.ofKeys keys).number) := by
  intro keys typed
  have same : typed = s.enter (Literal.ofKeys keys).typedText := run_of_types empty types
  have digits := Literal.digits_ofKeys keys
  rw [same, entry_enter empty, committed_enter]
  refine ⟨rfl, fun none => ?_, fun before behind parted none => ?_,
    Literal.exists_split_typedText digits, Literal.exactValue_typedText digits⟩
  · rw [Literal.ofKeys_of_no_point none, Literal.typedText_of_no_point]
  · rw [parted, Literal.ofKeys_of_point none, Literal.typedText_of_point]

/-- Behind 2 + the keys 0 0 7 . 5 . 0 leave 7.50, which is read as seven and a half. A letter among
them leaves nothing. -/
theorem entry_of_leading_zeros :
    let s := run {} [.digit '2', .operator .add]
    let commands : List Command := [.digit '0', .digit '0', .digit 'x', .digit '7', .point,
      .digit '5', .point, .digit '0']
    s.entry = [] ∧ (∀ command ∈ commands, command.char? ≠ none) ∧
      (s.run commands).committed = ['2', '+'] ∧ (s.run commands).entry = ['7', '.', '5', '0'] ∧
      Expression.exactValue ['7', '.', '5', '0'] = .ok (15 / 2) := by
  intro s commands
  have empty : s.entry = [] := rfl
  have types : ∀ command ∈ commands, command.char? ≠ none := by decide
  obtain ⟨committed, _, pointed, _, exact⟩ := entry_run_of_types empty types
  have entry : (s.run commands).entry = ['7', '.', '5', '0'] :=
    pointed ['0', '0', 'x', '7'] ['5', '.', '0'] rfl (by decide)
  have number : (Literal.ofKeys (commands.filterMap Command.char?)).number = 15 / 2 := by
    decide +kernel
  rw [entry, number] at exact
  exact ⟨empty, types, committed, entry, exact (by decide) (by simp)⟩

/-- A point sent as a digit is entered all the same, so the keys alone do not tell the entry. -/
theorem not_all_entry_of_keys :
    ¬ ∀ before commands : List Command, (run {} before).entry = [] →
      (∀ command ∈ commands, command.char? ≠ none) →
      ((run {} before).run commands).entry =
        (Literal.ofKeys (commands.filterMap Command.key?)).typedText :=
  fun typed => absurd (typed [] [.digit '.'] rfl (by decide)) (by decide)

end Session

end PocketCalc
