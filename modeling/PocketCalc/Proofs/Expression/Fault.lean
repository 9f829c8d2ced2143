import PocketCalc.Proofs.Expression.Detached
import PocketCalc.Proofs.Expression.Evaluation
import PocketCalc.Proofs.Token.Symbol
import PocketCalc.Proofs.Tree.Balance

/-! What can be wrong with a text of allowed characters in which no parenthesis is written.

The only parentheses are then those of the percent literals, and they pair
(`Percent.balanced_expand`).
-/

set_option autoImplicit false

namespace PocketCalc

namespace Percent

theorem filterMap_digits {digits : List Char} (all : ∀ c ∈ digits, c.isDigit = true) :
    digits.filterMap Token.ofSymbol? = [] :=
  List.filterMap_eq_nil_iff.mpr fun c member => Token.ofSymbol?_eq_none_of_isLiteralChar (.inl (all c member))

theorem balanced_hundredths {digits : List Char} (all : ∀ c ∈ digits, c.isDigit = true) :
    Token.Balanced ((hundredths digits).filterMap Token.ofSymbol?) := by
  have same : (hundredths digits).filterMap Token.ofSymbol? = [.openParen, .op .div, .closeParen] := by
    have opening : Token.ofSymbol? '(' = some .openParen := rfl
    rw [hundredths, List.cons_append, List.filterMap_cons_some opening, List.filterMap_append,
      filterMap_digits all]
    rfl
  rw [same]
  have inside : Token.Balanced [.op .div] := .of_not_mem (by simp) (by simp)
  exact inside.enclose

theorem balanced_of_ne_paren {c : Char} {token : Token} (found : Token.ofSymbol? c = some token)
    (other : c ≠ '(' ∧ c ≠ ')') : Token.Balanced [token] := by
  refine .of_not_mem ?_ ?_
  · intro member
    rw [← List.mem_singleton.mp member] at found
    exact other.1 (Token.ofSymbol?_injective found rfl)
  · intro member
    rw [← List.mem_singleton.mp member] at found
    exact other.2 (Token.ofSymbol?_injective found rfl)

theorem balanced_expand {text : List Char} (none : ∀ c ∈ text, c ≠ '(' ∧ c ≠ ')') :
    Token.Balanced ((expand text).filterMap Token.ofSymbol?) := by
  fun_induction expand text with
  | case1 => exact .of_not_mem (by simp) (by simp)
  | case2 c rest digit behind found ih =>
      rw [List.filterMap_append]
      exact (balanced_hundredths (digits_of_head digit rest)).append
        (ih fun d member => none d ((suffix_behind_percent c found).mem member))
  | case3 c rest digit absent ih =>
      rw [List.filterMap_append, filterMap_digits (digits_of_head digit rest), List.nil_append]
      exact ih fun d member => none d ((suffix_behind_digits c rest).mem member)
  | case4 c rest other ih =>
      have later := ih fun d member => none d (List.mem_cons_of_mem c member)
      cases found : Token.ofSymbol? c with
      | none => rwa [List.filterMap_cons_none found]
      | some token =>
          rw [List.filterMap_cons_some found]
          exact (balanced_of_ne_paren found (none c List.mem_cons_self)).append later

theorem isBlank_of_isBlank_expand {text : List Char} (blank : ∀ c ∈ expand text, Text.isBlank c = true) :
    ∀ c ∈ text, Text.isBlank c = true := by
  fun_induction expand text with
  | case1 => simp
  | case2 c rest digit behind found _ =>
      have paren := blank '(' (List.mem_append_left _ List.mem_cons_self)
      cases paren
  | case3 c rest digit absent _ =>
      have first := isDigit_of_isBlank (blank c List.mem_cons_self)
      rw [digit] at first
      cases first
  | case4 c rest other ih =>
      obtain ⟨first, later⟩ := List.forall_mem_cons.mp blank
      exact List.forall_mem_cons.mpr ⟨first, ih later⟩

end Percent

namespace Expression

/-- Tokens are written with the allowed characters apart from the space. -/
theorem isAllowed_iff {c : Char} : isAllowed c = true ↔
    c = ' ' ∨ Decimal.IsLiteralChar c ∨ ∃ token, Token.ofSymbol? c = some token := by
  constructor
  · intro allowed
    by_cases literal : Decimal.IsLiteralChar c
    · exact .inr (.inl literal)
    · obtain ⟨notDigit, notPoint⟩ := not_or.mp literal
      simp only [isAllowed, notDigit, notPoint, Bool.false_or, List.contains_iff_mem, List.mem_cons,
        List.not_mem_nil, or_false, false_or] at allowed
      rcases allowed with rfl | rfl | rfl | rfl | rfl | rfl | rfl | rfl
      case inr.inr.inr.inr.inr.inr.inl => exact .inl rfl
      all_goals exact .inr (.inr ⟨_, rfl⟩)
  · rintro (rfl | (digit | rfl) | ⟨token, found⟩)
    · rfl
    · rw [isAllowed, digit, Bool.true_or]
    · rfl
    · unfold Token.ofSymbol? at found
      split at found
      case h_8 => cases found
      all_goals rfl

theorem ofChar_ne_stray {c : Char} (allowed : isAllowed c = true) (other : ¬ Decimal.IsLiteralChar c) :
    Lexeme.ofChar c ≠ .stray c := by
  rcases isAllowed_iff.mp allowed with rfl | literal | ⟨token, found⟩
  · decide
  · exact absurd literal other
  · unfold Lexeme.ofChar
    rw [found]
    split <;> simp

theorem isAllowed_of_mem_expand {text : List Char} (allowed : ∀ c ∈ text, isAllowed c = true) :
    ∀ c ∈ Percent.expand text, isAllowed c = true := by
  intro c member
  rcases Percent.mem_of_mem_expand member with inText | added
  · exact allowed c inText
  · simp only [List.mem_cons, List.not_mem_nil, or_false] at added
    rcases added with rfl | rfl | rfl | rfl | rfl <;> rfl

/-- Allowed characters start a token wherever they stand, so only a point on its own is wrong. -/
theorem fault_of_ofText_expand {text : List Char} {fault : Fault}
    (allowed : ∀ c ∈ text, isAllowed c = true)
    (failed : Token.ofText (Percent.expand text) = .error fault) : fault = .malformedNumber ['.'] := by
  rcases Token.fault_of_ofText failed with point | ⟨c, member, _, other, stray⟩
  · exact point
  · exact absurd stray (ofChar_ne_stray (isAllowed_of_mem_expand allowed c member) other)

theorem stage_of_fault {text : List Char} {fault : Fault} (failed : exactValue text = .error fault)
    (allowed : ∀ c ∈ text.map plainChar, isAllowed c = true) :
    Token.ofText (Percent.expand (text.map plainChar)) = .error fault ∨
      ∃ tokens, Token.ofText (Percent.expand (text.map plainChar)) = .ok tokens ∧
        (Postfix.ofTokens tokens = .error fault ∨
          ∃ tree, Tree.Reads 0 tokens tree ∧ tree.value = .error fault) := by
  rw [exactValue_eq, allowedText_eq_ok_iff.mpr ⟨allowed, rfl⟩, Outcome.ok_bind] at failed
  rcases Outcome.bind_eq_error_iff.mp failed with reading | ⟨tokens, read, later⟩
  · exact .inl reading
  · refine .inr ⟨tokens, read, ?_⟩
    rcases Outcome.bind_eq_error_iff.mp later with converting | ⟨output, converted, valued⟩
    · exact .inl converting
    · obtain ⟨tree, reads, rfl⟩ := Postfix.reads_of_ofTokens converted
      rw [Postfix.value_toPostfix] at valued
      exact .inr ⟨tree, reads, valued⟩

theorem fault_of_unparenthesized {text : List Char} {fault : Fault}
    (allowed : ∀ c ∈ text.map plainChar, isAllowed c = true)
    (unparenthesized : ∀ c ∈ text.map plainChar, c ≠ '(' ∧ c ≠ ')')
    (written : ∃ c ∈ text.map plainChar, Text.isBlank c = false)
    (failed : exactValue text = .error fault) :
    fault = .malformedExpression ∨ fault = .malformedNumber ['.'] ∨ fault = .divisionByZero ∨
      fault = .notFinite := by
  rcases stage_of_fault failed allowed with reading | ⟨tokens, read, converting | ⟨tree, _, valued⟩⟩
  · exact .inr (.inl (fault_of_ofText_expand allowed reading))
  · have nonempty : tokens ≠ [] := by
      rintro rfl
      obtain ⟨c, member, notBlank⟩ := written
      rw [Percent.isBlank_of_isBlank_expand (Token.isBlank_of_ofText_nil read) c member] at notBlank
      cases notBlank
    have balanced : Token.Balanced tokens := by
      refine .of_filter Token.isSymbol rfl rfl ?_
      rw [Token.filter_of_ofText read]
      exact Percent.balanced_expand unparenthesized
    exact .inl (Postfix.fault_of_balanced balanced nonempty converting)
  · exact .inr (.inr (Tree.fault_of_value valued))

end Expression

end PocketCalc
