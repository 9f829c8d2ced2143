import PocketCalc.Proofs.Expression.Line
import PocketCalc.Proofs.Session.Effect

/-! The shape of a session: what its texts look like after any commands.

Each operation keeps the shape (`Session.Valid.step`), so every session that
commands lead to has it (`Session.valid_run`). In particular the expression to
evaluate is a line of entered operands (`Session.Valid.line_of_pending`).
-/

set_option autoImplicit false

namespace PocketCalc

open Decimal

/-- Digits, percent signs and at most one point. -/
structure IsPiece (text : List Char) : Prop where
  chars : ∀ c ∈ text, Line.IsOperandChar c
  points : text.count '.' ≤ 1

theorem IsPiece.of_sublist {text inner : List Char} (piece : IsPiece text) (sublist : inner.Sublist text) :
    IsPiece inner :=
  ⟨fun c member => piece.chars c (sublist.mem member), (sublist.count_le '.').trans piece.points⟩

/-- An operand as far as it is entered. -/
structure IsEntry (text : List Char) : Prop extends IsPiece text where
  starts : ∃ first ∈ text.head?, first.isDigit = true
  /-- No digit behind a leading zero. -/
  leading : ∀ second rest, text = '0' :: second :: rest → second.isDigit = false

namespace IsEntry

theorem ne_nil {text : List Char} (entry : IsEntry text) : text ≠ [] := by
  rintro rfl
  obtain ⟨first, head, _⟩ := entry.starts
  cases head

theorem of_digit {c : Char} (digit : c.isDigit = true) : IsEntry [c] := by
  have other : c ≠ '.' := by rintro rfl; cases digit
  refine ⟨⟨?_, ?_⟩, ⟨c, rfl, digit⟩, ?_⟩
  · exact List.forall_mem_singleton.mpr (.inl (.inl digit))
  · simp [other]
  · intro second rest same
    cases same

theorem zero_point : IsEntry ['0', '.'] := by
  refine ⟨⟨by simp [Line.IsOperandChar, IsLiteralChar], by decide⟩, ⟨'0', rfl, rfl⟩, ?_⟩
  intro second rest same
  cases same
  rfl

theorem concat {text : List Char} (entry : IsEntry text) {c : Char} (char : Line.IsOperandChar c)
    (point : c = '.' → '.' ∉ text) (zero : text = ['0'] → c.isDigit = false) :
    IsEntry (text ++ [c]) := by
  refine ⟨⟨?_, ?_⟩, ?_, ?_⟩
  · intro d member
    rcases List.mem_append.mp member with before | last
    · exact entry.chars d before
    · rw [List.mem_singleton.mp last]; exact char
  · rw [List.count_append]
    by_cases isPoint : c = '.'
    · subst isPoint
      simp [List.count_eq_zero.mpr (point rfl)]
    · simpa [isPoint] using entry.points
  · rw [List.head?_append_of_ne_nil _ entry.ne_nil]
    exact entry.starts
  · intro second rest same
    cases text with
    | nil => exact absurd rfl entry.ne_nil
    | cons first behind =>
        cases behind with
        | nil => cases same; exact zero rfl
        | cons second' behind => cases same; exact entry.leading second behind rfl

theorem dropLast {text : List Char} (entry : IsEntry text) :
    text.dropLast = [] ∨ IsEntry text.dropLast := by
  obtain ⟨first, head, digit⟩ := entry.starts
  cases text with
  | nil => cases head
  | cons c rest =>
      cases head
      rcases List.eq_nil_or_concat rest with rfl | ⟨init, last, rfl⟩
      · exact .inl rfl
      · rw [List.concat_eq_append, ← List.cons_append] at *
        rw [List.dropLast_concat]
        refine .inr ⟨entry.toIsPiece.of_sublist (List.sublist_append_left _ _), ⟨first, rfl, digit⟩, ?_⟩
        intro second behind same
        exact entry.leading second (behind ++ [last]) (by rw [same]; rfl)

theorem count_point {digits : List Char} (all : ∀ c ∈ digits, c.isDigit = true) :
    digits.count '.' = 0 := by
  rw [List.count_eq_zero]
  exact fun member => absurd (all '.' member) (by decide)

theorem of_canonical {literal : Literal} (canonical : literal.Canonical) : IsEntry literal.text := by
  have chars := fun c => Literal.isLiteralChar_of_mem_text canonical.digits (c := c)
  obtain ⟨whole, fraction⟩ := literal
  obtain ⟨digits, nonempty, leading, -, -⟩ := canonical
  -- The only leading zero of a canonical number is a lone one.
  cases whole with
  | nil => exact absurd rfl nonempty
  | cons first whole =>
      have wholeDigits := fun c member => digits c (List.mem_append_left _ member)
      have firstDigit := wholeDigits first List.mem_cons_self
      cases fraction with
      | none =>
          refine ⟨⟨fun c member => .inl (chars c member), ?_⟩, ⟨first, rfl, firstDigit⟩, ?_⟩
          · rw [Literal.text, count_point wholeDigits]
            exact Nat.zero_le 1
          · intro second rest same
            cases same
            cases leading rfl
      | some behind =>
          have behindDigits : ∀ c ∈ behind, c.isDigit = true :=
            fun c member => digits c (List.mem_append_right _ member)
          refine ⟨⟨fun c member => .inl (chars c member), ?_⟩, ⟨first, rfl, firstDigit⟩, ?_⟩
          · rw [Literal.text, List.count_append, count_point wholeDigits, List.count_cons_self,
              count_point behindDigits]
          · intro second rest same
            cases whole with
            | nil => cases same; rfl
            | cons digit whole => cases same; cases leading rfl

end IsEntry

/-! ## Lines of entered operands -/

def Line.Entered (line : Line (List Char)) : Prop := ∀ operand ∈ line.operands, IsEntry operand

theorem Line.Entered.push {line : Line (List Char)} (entered : line.Entered) (op : Operator)
    {operand : List Char} (entry : IsEntry operand) : (line.push op operand).Entered := by
  intro other member
  rw [operands_push, List.mem_append, List.mem_singleton] at member
  rcases member with earlier | rfl
  · exact entered other earlier
  · exact entry

theorem Line.entered_single {operand : List Char} (entry : IsEntry operand) (negative : Bool) :
    (⟨negative, operand, []⟩ : Line (List Char)).Entered :=
  List.forall_mem_singleton.mpr entry

theorem exists_line_of_isText {text : List Char} {value : Rat} (isText : IsText text value) :
    ∃ line : Line (List Char), line.Entered ∧ text = line.text := by
  obtain ⟨literal, canonical, _, rfl⟩ := isText
  refine ⟨⟨decide (value < 0), literal.text, []⟩, Line.entered_single (.of_canonical canonical) _, ?_⟩
  by_cases negative : value < 0 <;> simp [Line.text, Line.join, negative, Operator.symbol]

namespace Session

/-- Nothing, or a line with one more operator behind it. -/
def Committed (text : List Char) : Prop :=
  text = [] ∨ ∃ line : Line (List Char), ∃ op : Operator,
    line.Entered ∧ text = line.text ++ [op.symbol]

structure Valid (s : Session) : Prop where
  entry : s.entry = [] ∨ IsEntry s.entry
  committed : Committed s.committed
  result : ∀ result ∈ s.result, ∃ value, IsText result value
  paired : s.result.isSome = s.expression.isSome
  /-- A result or a failure stands alone. -/
  idle : s.result ≠ none ∨ s.failed = true → s.entry = [] ∧ s.committed = []
  exclusive : s.failed = true → s.result = none

theorem Committed.line_of_entry {committed entry : List Char} (shaped : Committed committed)
    (isEntry : IsEntry entry) :
    ∃ line : Line (List Char), line.Entered ∧ committed ++ entry = line.text := by
  rcases shaped with rfl | ⟨line, op, entered, rfl⟩
  · exact ⟨⟨false, entry, []⟩, Line.entered_single isEntry false, by simp [Line.text, Line.join]⟩
  · exact ⟨line.push op entry, entered.push op isEntry, by simp [Line.text_push]⟩

namespace Valid

theorem initial : Valid {} where
  entry := .inl rfl
  committed := .inl rfl
  result := by simp
  paired := rfl
  idle := by simp
  exclusive := by simp

theorem expression_eq_none {s : Session} (valid : s.Valid) (none : s.result = none) :
    s.expression = .none := by
  have paired := valid.paired
  rwa [none, Option.isSome_none, eq_comm, Option.isSome_eq_false_iff, Option.isNone_iff_eq_none] at paired

theorem failed_eq_false {s : Session} (valid : s.Valid) (some : s.result ≠ none) : s.failed = false :=
  Bool.eq_false_iff.mpr fun failed => some (valid.exclusive failed)

theorem line_of_pending {s : Session} (valid : s.Valid) {expression : List Char}
    (pending : s.pending? = some expression) :
    ∃ line : Line (List Char), line.Entered ∧ expression = line.text := by
  unfold pending? at pending
  split at pending
  · next nonempty =>
      cases pending
      exact valid.committed.line_of_entry (valid.entry.resolve_left nonempty)
  · split at pending
    · next nonempty =>
        cases pending
        obtain ⟨line, op, entered, same⟩ := valid.committed.resolve_left nonempty
        exact ⟨line, entered, by rw [same, List.dropLast_concat]⟩
    · cases pending

/-! ## Steps -/

theorem start {s : Session} (valid : s.Valid) {operand : List Char} (entry : IsEntry operand) :
    (s.start operand).Valid where
  entry := .inr entry
  committed := valid.committed
  result := by simp [Session.start]
  paired := rfl
  idle := by simp [Session.start]
  exclusive := by simp [Session.start]

theorem result_eq_none {s : Session} (valid : s.Valid) (nonempty : s.entry ≠ []) :
    s.result = none := by
  by_contra some
  exact nonempty (valid.idle (.inl some)).1

theorem extend {s : Session} (valid : s.Valid) {c : Char} (nonempty : s.entry ≠ [])
    (entry : IsEntry (s.entry ++ [c])) : (s.extend c).Valid where
  entry := .inr entry
  committed := valid.committed
  result := valid.result
  paired := valid.paired
  idle := by simp [Session.extend, valid.result_eq_none nonempty]
  exclusive := by simp [Session.extend]

theorem type {s next : Session} {c : Char} (valid : s.Valid) (effect : (Action.type c).next? s = some next) :
    next.Valid := by
  rcases type_cases effect with
    ⟨operand, rfl | ⟨rfl, digit⟩, _, _, rfl⟩ | ⟨nonempty, char, point, zero, rfl⟩
  · exact valid.start .zero_point
  · exact valid.start (.of_digit digit)
  · have entry := valid.entry.resolve_left nonempty
    exact valid.extend nonempty (entry.concat (.inl char) point zero)

theorem percent {s next : Session} (valid : s.Valid) (effect : Action.percent.next? s = some next) :
    next.Valid := by
  obtain ⟨nonempty, rfl⟩ := percent_cases effect
  have entry := valid.entry.resolve_left nonempty
  exact valid.extend nonempty (entry.concat (.inr rfl) (fun point => by cases point) fun _ => rfl)

theorem backspace {s next : Session} (valid : s.Valid) (effect : Action.backspace.next? s = some next) :
    next.Valid := by
  obtain ⟨nonempty, rfl⟩ := backspace_cases effect
  exact {
    entry := (valid.entry.resolve_left nonempty).dropLast
    committed := valid.committed
    result := valid.result
    paired := valid.paired
    idle := by simp [valid.result_eq_none nonempty]
    exclusive := by simp }

theorem operator {s next : Session} {op : Operator} (valid : s.Valid)
    (effect : (Action.operator op).next? s = some next) : next.Valid := by
  rcases operator_cases effect with
    ⟨nonempty, rfl⟩ | ⟨_, nonempty, _, rfl⟩ | ⟨_, _, result, found, rfl⟩
  · obtain ⟨line, entered, same⟩ :=
      valid.committed.line_of_entry (valid.entry.resolve_left nonempty)
    exact {
      entry := .inl rfl
      committed := .inr ⟨line, op, entered, by rw [same]⟩
      result := valid.result
      paired := valid.paired
      idle := by simp [valid.result_eq_none nonempty]
      exclusive := by simp }
  · obtain ⟨line, last, entered, same⟩ := valid.committed.resolve_left nonempty
    have none : s.result = none := by
      by_contra some
      exact nonempty (valid.idle (.inl some)).2
    exact {
      entry := valid.entry
      committed := .inr ⟨line, op, entered, by rw [same, List.dropLast_concat]⟩
      result := valid.result
      paired := valid.paired
      idle := by simp [none]
      exclusive := by simp }
  · obtain ⟨value, isText⟩ := valid.result result found
    obtain ⟨line, entered, rfl⟩ := exists_line_of_isText isText
    exact {
      entry := valid.entry
      committed := .inr ⟨line, op, entered, rfl⟩
      result := by simp
      paired := rfl
      idle := by simp
      exclusive := by simp }

theorem conclude (expression : List Char) :
    (conclude expression (Expression.evaluate expression)).Valid := by
  cases outcome : Expression.evaluate expression with
  | error fault => exact ⟨.inl rfl, .inl rfl, by simp [Session.conclude], rfl,
      fun _ => ⟨rfl, rfl⟩, fun _ => rfl⟩
  | ok answer =>
      obtain ⟨value, _, _, rfl⟩ := Expression.exists_of_evaluate outcome
      refine ⟨.inl rfl, .inl rfl, ?_, rfl, fun _ => ⟨rfl, rfl⟩, by simp [Session.conclude]⟩
      intro result shown
      cases shown
      exact ⟨_, isText_answerText value⟩

theorem step {s next : Session} {command : Command} (valid : s.Valid)
    (effect : s.step? command = some next) : next.Valid := by
  cases command with
  | digit c => exact valid.type effect
  | point => exact valid.type effect
  | operator op => exact valid.operator effect
  | percent => exact valid.percent effect
  | clear =>
      obtain ⟨_, rfl⟩ := clear_cases effect
      exact initial
  | backspace => exact valid.backspace effect
  | equals =>
      obtain ⟨expression, _, rfl⟩ := equals_cases effect
      exact conclude expression

end Valid

/-- Every session that commands lead to has the shape. -/
theorem valid_run (commands : List Command) : (run {} commands).Valid :=
  run_preserves Valid.step Valid.initial commands

end Session

end PocketCalc
