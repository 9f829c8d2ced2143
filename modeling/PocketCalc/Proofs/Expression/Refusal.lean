import PocketCalc.Proofs.Expression.Fault
import PocketCalc.Proofs.Tree.Refusal

/-! Which texts are refused for the characters they are made of.

A character that is not allowed is reported before anything else, and only by
the first stage. Its pattern, the list that finds the character to report and the
characters of tokens agree (`Expression.isAllowed_iff`). A text has no tokens
only if it is all spaces, since they are the only blanks that are allowed
(`Expression.fault_of_allowed`).
-/

set_option autoImplicit false

namespace PocketCalc.Expression

def allowList : List Char := "0123456789+-*/(). %".toList

theorem isAllowed_iff_mem {c : Char} : isAllowed c = true ↔ c ∈ allowList := by
  constructor
  · intro allowed
    rcases Bool.or_eq_true_iff.mp allowed with digit | symbol
    -- The digits are ten codes in a row, which are checked one by one.
    · have all : ∀ code < 58, 48 ≤ code → Char.ofNat code ∈ allowList := by decide
      obtain ⟨low, high⟩ : 48 ≤ c.toNat ∧ c.toNat ≤ 57 := Char.isDigit_iff_toNat.mp digit
      rw [← Char.ofNat_toNat c]
      exact all c.toNat (Nat.lt_succ_of_le high) low
    · have symbols : ['+', '-', '*', '/', '(', ')', '.', ' ', '%'] ⊆ allowList := by decide
      exact symbols (List.contains_iff_mem.mp symbol)
  · have all : allowList.all isAllowed = true := by decide
    exact List.all_eq_true.mp all c

/-- The first character outside the list, with only listed ones before it. -/
def FirstForbidden (c : Char) (text : List Char) : Prop :=
  c ∉ allowList ∧ ∃ before behind, text = before ++ c :: behind ∧ ∀ d ∈ before, d ∈ allowList

theorem find?_not_isAllowed_iff {text : List Char} {c : Char} :
    text.find? (!isAllowed ·) = some c ↔ FirstForbidden c text := by
  simp [List.find?_eq_some_iff_append, FirstForbidden, ← isAllowed_iff_mem]

theorem allowedText_eq_error_iff {text : List Char} {fault : Fault} :
    allowedText text = .error fault ↔
      ∃ c, fault = .forbiddenChar c ∧ FirstForbidden c (text.map plainChar) := by
  simp only [← find?_not_isAllowed_iff]
  unfold allowedText
  cases (text.map plainChar).find? (!isAllowed ·) with
  | none => simp
  | some c => simp [eq_comm]

theorem plainChar_eq_space_iff {c : Char} : plainChar c = ' ' ↔ c = ' ' :=
  iff_of_eq (apply_plainChar (· = ' ') (by simp) (by simp) c)

theorem eq_space_of_isBlank {c : Char} (blank : Text.isBlank c = true) (allowed : isAllowed c = true) :
    c = ' ' := by
  have blanks : allowList.filter Text.isBlank = [' '] := by decide
  have member := List.mem_filter.mpr ⟨isAllowed_iff_mem.mp allowed, blank⟩
  rw [blanks] at member
  exact List.mem_singleton.mp member

theorem eq_space_of_no_tokens {text : List Char} (allowed : ∀ c ∈ text.map plainChar, isAllowed c = true)
    (read : Token.ofText (Percent.expand (text.map plainChar)) = .ok []) : ∀ c ∈ text, c = ' ' := by
  intro c member
  have inPlain : plainChar c ∈ text.map plainChar := List.mem_map_of_mem member
  have blank := Percent.isBlank_of_isBlank_expand (Token.isBlank_of_ofText_nil read) _ inPlain
  exact plainChar_eq_space_iff.mp (eq_space_of_isBlank blank (allowed _ inPlain))

theorem fault_of_allowed {text : List Char} {fault : Fault} (failed : exactValue text = .error fault)
    (allowed : ∀ c ∈ text.map plainChar, isAllowed c = true) :
    fault = .emptyExpression ∧ (∀ c ∈ text, c = ' ') ∨ fault = .malformedNumber ['.'] ∨
      fault ∈ [.unexpectedClosing, .unclosedParen, .malformedExpression, .divisionByZero, .notFinite] := by
  -- The stages behind the first each name their own faults, none of them a character.
  rcases stage_of_fault failed allowed with reading | ⟨tokens, read, converting | ⟨tree, _, valued⟩⟩
  · exact .inr (.inl (fault_of_ofText_expand allowed reading))
  · rcases Postfix.fault_of_ofTokens converting with ⟨rfl, rfl⟩ | ⟨rfl, _⟩ | ⟨rfl, _⟩ | rfl
    · exact .inl ⟨rfl, eq_space_of_no_tokens allowed read⟩
    · simp
    · simp
    · simp
  · rcases Tree.fault_of_value valued with rfl | rfl <;> simp

theorem fault_of_exactValue {text : List Char} {fault : Fault} (failed : exactValue text = .error fault) :
    (∃ c, fault = .forbiddenChar c ∧ FirstForbidden c (text.map plainChar)) ∨
      fault = .emptyExpression ∧ (∀ c ∈ text, c = ' ') ∨ fault = .malformedNumber ['.'] ∨
      fault ∈ [.unexpectedClosing, .unclosedParen, .malformedExpression, .divisionByZero, .notFinite] := by
  have stages := failed
  rw [exactValue_eq] at stages
  rcases Outcome.bind_eq_error_iff.mp stages with forbidden | ⟨plain, isPlain, _⟩
  · exact .inl (allowedText_eq_error_iff.mp forbidden)
  · exact .inr (fault_of_allowed failed (allowedText_eq_ok_iff.mp isPlain).1)

theorem plain_of_spaces {text : List Char} (spaces : ∀ c ∈ text, c = ' ') :
    text.map plainChar = text ∧ (∀ c ∈ text, isAllowed c = true) ∧
      Token.ofText (Percent.expand text) = .ok [] := by
  have blank : ∀ c ∈ text, plainChar c = c ∧ isAllowed c = true ∧ Text.isBlank c = true ∧ c ≠ '%' := by
    intro c member
    rw [spaces c member]
    decide
  have plain : text.map plainChar = text :=
    (List.map_congr_left fun c member => (blank c member).1).trans (List.map_id text)
  have kept : Percent.expand text = text :=
    Percent.expand_of_no_percent fun member => (blank _ member).2.2.2 rfl
  refine ⟨plain, fun c member => (blank c member).2.1, ?_⟩
  rw [kept]
  exact Token.ofText_of_isBlank fun c member => (blank c member).2.2.1

theorem plainText_eq_empty_iff {text : List Char} :
    plainText text = .error .emptyExpression ↔ text = [] := by
  rw [plainText_eq]
  split
  · next empty => exact iff_of_true rfl empty
  · next nonempty => exact iff_of_false (fun failed => by simpa using allowedText_eq_error_iff.mp failed) nonempty

theorem spaces_iff_no_tokens {text : List Char} (nonempty : text ≠ []) :
    (∀ c ∈ text, c = ' ') ↔
      ∃ plain, plainText text = .ok plain ∧ Token.ofText (Percent.expand plain) = .ok [] := by
  rw [plainText_eq, if_neg nonempty]
  constructor
  · intro spaces
    obtain ⟨plain, allowed, read⟩ := plain_of_spaces spaces
    exact ⟨text, allowedText_eq_ok_iff.mpr (by rw [plain]; exact ⟨allowed, rfl⟩), read⟩
  · rintro ⟨plain, isPlain, read⟩ c member
    obtain ⟨allowed, rfl⟩ := allowedText_eq_ok_iff.mp isPlain
    exact eq_space_of_no_tokens allowed read c member

theorem exactValue_of_spaces {text : List Char} (spaces : ∀ c ∈ text, c = ' ') :
    exactValue text = .error .emptyExpression := by
  obtain ⟨plain, allowed, read⟩ := plain_of_spaces spaces
  have isPlain : allowedText text = .ok text :=
    allowedText_eq_ok_iff.mpr (by rw [plain]; exact ⟨allowed, rfl⟩)
  rw [exactValue_eq, isPlain, Outcome.ok_bind, read]
  rfl

/-- Only a value out of range is refused behind the exact value. -/
theorem evaluate_eq_error_iff {text : List Char} {fault : Fault} (other : fault ≠ .notFinite) :
    evaluate text = .error fault ↔ exactValue text = .error fault := by
  refine ⟨fun failed => ?_, evaluate_of_error⟩
  rcases Outcome.bind_eq_error_iff.mp failed with exact | ⟨value, _, range⟩
  · exact exact
  · split at range
    · cases range
    · cases range
      exact absurd rfl other

/-- An expression is empty exactly if it is all spaces: the empty text is found so by the pattern,
any other by its tokens. A character is reported exactly if it is the first one outside the list,
whatever else is wrong, and it is reported by no later stage; a malformed number is a point on its
own. The pattern, the list and the characters of tokens are the same for every character. -/
theorem evaluate_eq_character_fault_iff (text : List Char) :
    (evaluate text = .error .emptyExpression ↔ ∀ c ∈ text, c = ' ') ∧
    (∀ c, evaluate text = .error (.forbiddenChar c) ↔ FirstForbidden c (text.map plainChar)) ∧
    ((∀ c ∈ text.map plainChar, c ∈ allowList) → ∀ c,
      Token.ofText (Percent.expand (text.map plainChar)) ≠ .error (.forbiddenChar c) ∧
      ∀ tokens, Postfix.ofTokens tokens ≠ .error (.forbiddenChar c) ∧
      ∀ output, Postfix.ofTokens tokens = .ok output → Postfix.value output ≠ .error (.forbiddenChar c)) ∧
    (∀ literal, evaluate text = .error (.malformedNumber literal) → literal = ['.']) ∧
    (plainText text = .error .emptyExpression ↔ text = []) ∧
    (text ≠ [] → ((∀ c ∈ text, c = ' ') ↔
      ∃ plain, plainText text = .ok plain ∧ Token.ofText (Percent.expand plain) = .ok [])) ∧
    ∀ c, (Text.inRanges allowedRanges c = true ↔ c ∈ allowList) ∧ (isAllowed c = true ↔ c ∈ allowList) ∧
      (c ∈ allowList ↔ c = ' ' ∨ Decimal.IsLiteralChar c ∨ ∃ token, Token.ofSymbol? c = some token) := by
  refine ⟨⟨fun failed => ?_, fun spaces => ?_⟩, fun c => ⟨fun failed => ?_, fun first => ?_⟩, ?_, ?_,
    plainText_eq_empty_iff, spaces_iff_no_tokens, fun c => ⟨?_, isAllowed_iff_mem, ?_⟩⟩
  · simpa using fault_of_exactValue ((evaluate_eq_error_iff (by simp)).mp failed)
  · exact evaluate_of_error (exactValue_of_spaces spaces)
  · simpa using fault_of_exactValue ((evaluate_eq_error_iff (by simp)).mp failed)
  · refine evaluate_of_error ?_
    rw [exactValue_eq, allowedText_eq_error_iff.mpr ⟨c, rfl, first⟩]
    rfl
  · intro listed c
    refine ⟨fun reading => ?_, fun tokens => ⟨fun converting => ?_, fun output converted valued => ?_⟩⟩
    · cases fault_of_ofText_expand (fun d member => isAllowed_iff_mem.mpr (listed d member)) reading
    · simpa using Postfix.fault_of_ofTokens converting
    · obtain ⟨tree, _, rfl⟩ := Postfix.reads_of_ofTokens converted
      rw [Postfix.value_toPostfix] at valued
      simpa using Tree.fault_of_value valued
  · intro literal failed
    simpa using fault_of_exactValue ((evaluate_eq_error_iff (by simp)).mp failed)
  · rw [inRanges_allowedRanges, isAllowed_iff_mem]
  · rw [← isAllowed_iff_mem, isAllowed_iff]

/-- A letter behind a parenthesis that closes nothing, two spaces, and a point for a divisor. -/
theorem evaluate_of_letter :
    FirstForbidden 'a' ("2)×(a+¢".toList.map plainChar) ∧
      evaluate "2)×(a+¢".toList = .error (.forbiddenChar 'a') ∧
      evaluate "  ".toList = .error .emptyExpression ∧
      (∀ c ∈ "1÷.".toList.map plainChar, c ∈ allowList) ∧
      Token.ofText (Percent.expand ("1÷.".toList.map plainChar)) ≠ .error (.forbiddenChar '÷') ∧
      evaluate "1÷.".toList = .error (.malformedNumber ['.']) ∧
      plainText [] = .error .emptyExpression := by
  have before : "2)*(".toList ⊆ allowList := by decide
  have first : FirstForbidden 'a' ("2)×(a+¢".toList.map plainChar) :=
    ⟨by decide, "2)*(".toList, "+¢".toList, by decide, fun d member => before member⟩
  have listed : "1÷.".toList.map plainChar ⊆ allowList := by decide
  have point : evaluate "1÷.".toList = .error (.malformedNumber ['.']) := by decide +kernel
  obtain ⟨_, forbidden, _⟩ := evaluate_eq_character_fault_iff "2)×(a+¢".toList
  obtain ⟨empty, _⟩ := evaluate_eq_character_fault_iff "  ".toList
  obtain ⟨_, _, later, _⟩ := evaluate_eq_character_fault_iff "1÷.".toList
  obtain ⟨_, _, _, _, nothing, _⟩ := evaluate_eq_character_fault_iff []
  exact ⟨first, (forbidden 'a').mpr first, empty.mpr (by simp), fun c member => listed member,
    (later (fun c member => listed member) '÷').1, point, nothing.mpr rfl⟩

end PocketCalc.Expression
