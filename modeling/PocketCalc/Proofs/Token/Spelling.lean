import Mathlib.Data.List.Chain
import PocketCalc.Proofs.Decimal.Literal
import PocketCalc.Proofs.Outcome
import PocketCalc.Proofs.Tree.Reading
import PocketCalc.Token.Lexeme

/-! Tokens and the texts that spell them.

A text may be cut anywhere but inside a literal (`Token.ofText_append`). The
tokens of a text are those that spell it (`Token.written_of_ofText`), and a
spelling in which no number stands next to another is read back
(`Token.ofText_of_written`).
-/

set_option autoImplicit false

namespace PocketCalc

open Decimal

/-- No literal goes on from the first text into the second. -/
def Cut (left right : List Char) : Prop :=
  ∀ last ∈ left.getLast?, IsLiteralChar last → ∀ next ∈ right.head?, ¬ IsLiteralChar next

theorem Cut.of_suffix {left inner right : List Char} (cut : Cut left right)
    (suffix : inner <:+ left) : Cut inner right :=
  fun last member => cut last (Run.mem_getLast?_of_suffix suffix member)

theorem cut_of_head {left right : List Char} (stop : ∀ next ∈ right.head?, ¬ IsLiteralChar next) :
    Cut left right := fun _ _ _ => stop

theorem cut_of_last {left right : List Char} (stop : ∀ last ∈ left.getLast?, ¬ IsLiteralChar last) :
    Cut left right := fun last member literal => absurd literal (stop last member)

namespace Lexeme

theorem ofText_append {left right : List Char} (cut : Cut left right) :
    ofText (left ++ right) = ofText left ++ ofText right := by
  fun_induction ofText left with
  | case1 => rfl
  | case2 c rest start ih =>
      have lost := Literal.text_split (c :: rest)
      have same : Literal.split (c :: rest ++ right) =
          ((Literal.split (c :: rest)).1, (Literal.split (c :: rest)).2 ++ right) := by
        -- If the literal takes all of the left text, it ends with the last character of it.
        refine Literal.split_append fun ended => ?_
        rw [ended, List.append_nil] at lost
        refine cut _ (List.getLast?_eq_getLast_of_ne_nil (List.cons_ne_nil c rest)) ?_
        refine Literal.isLiteralChar_of_mem_text (Literal.digits_split (c :: rest)) ?_
        rw [lost]
        exact List.getLast_mem _
      rw [List.cons_append, ofText_of_literal start, ← List.cons_append, same,
        ih (cut.of_suffix ⟨_, lost⟩), List.cons_append]
  | case3 c rest other ih =>
      rw [List.cons_append, ofText_of_char other, ih (cut.of_suffix (List.suffix_cons c rest)),
        List.cons_append]

end Lexeme

namespace Token

theorem ofText_append {left right : List Char} (cut : Cut left right) :
    ofText (left ++ right) = do return (← ofText left) ++ (← ofText right) := by
  simp [ofText, Lexeme.ofText_append cut]

theorem exists_of_ofText_append {left right : List Char} {tokens : List Token}
    (cut : Cut left right) (read : ofText (left ++ right) = .ok tokens) :
    ∃ first second, ofText left = .ok first ∧ ofText right = .ok second ∧ tokens = first ++ second := by
  rw [ofText_append cut] at read
  obtain ⟨first, isFirst, rest⟩ := Outcome.bind_eq_ok_iff.mp read
  obtain ⟨second, isSecond, same⟩ := Outcome.bind_eq_ok_iff.mp rest
  exact ⟨first, second, isFirst, isSecond, (Except.ok.inj same).symm⟩

/-- Where no literal is cut, a text is refused as its first part is, or else as its second part
is; and otherwise its tokens are those of the first part and then those of the second. -/
theorem ofText_append_eq_iff {left right : List Char} (cut : Cut left right) :
    (∀ fault, ofText (left ++ right) = .error fault ↔
      ofText left = .error fault ∨ ∃ first, ofText left = .ok first ∧ ofText right = .error fault) ∧
    ∀ tokens, ofText (left ++ right) = .ok tokens ↔
      ∃ first second, ofText left = .ok first ∧ ofText right = .ok second ∧ tokens = first ++ second := by
  refine ⟨fun fault => ?_, fun tokens => ⟨exists_of_ofText_append cut, ?_⟩⟩
  · rw [ofText_append cut, Outcome.bind_eq_error_iff]
    simp [Outcome.bind_eq_error_iff]
  · rintro ⟨first, second, isFirst, isSecond, rfl⟩
    rw [ofText_append cut, isFirst, isSecond]
    rfl

/-- 1.5*(.5 is cut in front of the parenthesis. Of two faults the first is reported, and of one
in the second part that one. -/
theorem ofText_append_of_product :
    Cut "1.5*".toList "(.5".toList ∧
      ofText "1.5*(.5".toList = .ok [.num (3 / 2), .op .mul, .openParen, .num (1 / 2)] ∧
      Cut "2x".toList "+.".toList ∧ ofText "2x+.".toList = .error (.forbiddenChar 'x') ∧
      Cut "2)".toList ".+x".toList ∧ ofText "2).+x".toList = .error (.malformedNumber ['.']) := by
  have product : Cut "1.5*".toList "(.5".toList := cut_of_head fun next head => by cases head; decide
  have letter : Cut "2x".toList "+.".toList := cut_of_head fun next head => by cases head; decide
  have point : Cut "2)".toList ".+x".toList := cut_of_last fun last ends => by cases ends; decide
  obtain ⟨_, read⟩ := ofText_append_eq_iff product
  obtain ⟨refused, _⟩ := ofText_append_eq_iff letter
  obtain ⟨refusedLater, _⟩ := ofText_append_eq_iff point
  refine ⟨product, (read _).mpr ?_, letter, (refused _).mpr (.inl ?_), point,
    (refusedLater _).mpr (.inr ?_)⟩
  · exact ⟨[.num (3 / 2), .op .mul], [.openParen, .num (1 / 2)], by decide +kernel, by decide +kernel, rfl⟩
  · decide +kernel
  · exact ⟨[.num 2, .closeParen], by decide +kernel, by decide +kernel⟩

/-- Inside a literal a cut would make two numbers of one. -/
example : ofText "12".toList ≠ do return (← ofText "1".toList) ++ (← ofText "2".toList) := by
  decide +kernel

@[simp] theorem ofText_nil : ofText [] = .ok [] := by rw [ofText, Lexeme.ofText_nil]; rfl

theorem isBlank_eq_false_of_ofSymbol? {c : Char} {token : Token} (found : ofSymbol? c = some token) :
    Text.isBlank c = false := by
  unfold ofSymbol? at found
  split at found <;> first | rfl | cases found

theorem not_isLiteralChar_of_ofSymbol? {c : Char} {token : Token}
    (found : ofSymbol? c = some token) : ¬ IsLiteralChar c := by
  unfold ofSymbol? at found
  split at found <;> first | decide | cases found

theorem ofText_symbol {c : Char} {token : Token} (found : ofSymbol? c = some token) :
    ofText [c] = .ok [token] := by
  rw [ofText, Lexeme.ofText_of_char (not_isLiteralChar_of_ofSymbol? found), Lexeme.ofText_nil,
    Lexeme.ofChar, isBlank_eq_false_of_ofSymbol? found, found]
  rfl

theorem ofText_cons_symbol {c : Char} {token : Token} (found : ofSymbol? c = some token)
    (rest : List Char) : ofText (c :: rest) = do return token :: (← ofText rest) := by
  have cut : Cut [c] rest := cut_of_last fun last ends => by
    cases ends
    exact not_isLiteralChar_of_ofSymbol? found
  rw [← List.singleton_append, ofText_append cut, ofText_symbol found]
  rfl

theorem not_isLiteralChar_of_isBlank {c : Char} (blank : Text.isBlank c = true) :
    ¬ IsLiteralChar c := by
  rintro (digit | rfl)
  · rw [Char.isDigit_iff_toNat] at digit
    obtain ⟨low, high⟩ : 48 ≤ c.toNat ∧ c.toNat ≤ 57 := digit
    simp only [Text.isBlank, Text.blankRanges, List.any_cons, List.any_nil, Bool.or_false,
      Bool.or_eq_true, Bool.and_eq_true, decide_eq_true_eq] at blank
    omega
  · exact absurd blank (by decide)

theorem ofText_blank {c : Char} (blank : Text.isBlank c = true) : ofText [c] = .ok [] := by
  rw [ofText, Lexeme.ofText_of_char (not_isLiteralChar_of_isBlank blank), Lexeme.ofText_nil,
    Lexeme.ofChar, if_pos blank]
  rfl

theorem ofText_cons_of_literal {c : Char} (start : IsLiteralChar c) (rest : List Char) :
    ofText (c :: rest) = do
      let value ← (Literal.split (c :: rest)).1.value
      return .num value :: (← ofText (Literal.split (c :: rest)).2) := by
  simp [ofText, Lexeme.ofText_of_literal start, Lexeme.tokens]

theorem ofText_literal_append {literal : Literal} {rest : List Char} (wellFormed : literal.WellFormed)
    (split : Literal.split (literal.text ++ rest) = (literal, rest)) :
    ofText (literal.text ++ rest) = do
      let value ← literal.value
      return .num value :: (← ofText rest) := by
  have nonempty := Literal.text_ne_nil wellFormed
  cases same : literal.text with
  | nil => exact absurd same nonempty
  | cons c behind =>
      have start : IsLiteralChar c :=
        Literal.isLiteralChar_of_mem_text wellFormed.digits (same ▸ List.mem_cons_self)
      rw [same, List.cons_append] at split
      rw [List.cons_append, ofText_cons_of_literal start, split]

theorem ofText_literal {literal : Literal} (wellFormed : literal.WellFormed) :
    ofText literal.text = do return [.num (← literal.value)] := by
  have split := Literal.split_text wellFormed.digits
  rw [← List.append_nil literal.text] at split ⊢
  rw [ofText_literal_append wellFormed split, ofText_nil]
  rfl

theorem ofText_number {literal : Literal} (wellFormed : literal.WellFormed)
    (short : literal.fractionDigits.length < UInt32.size) :
    ofText literal.text = .ok [.num literal.number] := by
  rw [ofText_literal wellFormed, Literal.value_eq wellFormed short]
  rfl

/-! ## Spelling -/

/-- A symbol, or a literal for the number of its digits. -/
inductive Spelled : List Char → Token → Prop where
  | symbol {c : Char} {token : Token} : ofSymbol? c = some token → Spelled [c] token
  | literal {literal : Literal} : literal.WellFormed → Spelled literal.text (.num literal.number)

/-- A text that spells tokens one after the other, with any white space around them. -/
inductive Written : List Char → List Token → Prop where
  | done : Written [] []
  | blank {c : Char} {text : List Char} {tokens : List Token} :
      Text.isBlank c = true → Written text tokens → Written (c :: text) tokens
  | token {piece text : List Char} {token : Token} {tokens : List Token} :
      Spelled piece token → Written text tokens → Written (piece ++ text) (token :: tokens)

theorem Spelled.ofText {piece : List Char} {token : Token} (spelled : Spelled piece token)
    (short : ShortFractions piece) : Token.ofText piece = .ok [token] := by
  cases spelled with
  | symbol found => exact ofText_symbol found
  | literal wellFormed =>
      exact ofText_number wellFormed (Literal.short_of_text wellFormed.digits short)

def endsValue : Token → Bool
  | num _ | closeParen => true
  | op _ | sign _ | openParen => false

def startsValue : Token → Bool
  | num _ | openParen => true
  | op _ | sign _ | closeParen => false

def Apart (first second : Token) : Prop := ¬ (first.endsValue = true ∧ second.startsValue = true)

theorem Spelled.eq_num {piece : List Char} {token : Token} (spelled : Spelled piece token)
    {c : Char} (member : c ∈ piece) (literal : IsLiteralChar c) : ∃ value, token = .num value := by
  cases spelled with
  | symbol found =>
      rw [List.mem_singleton.mp member] at literal
      exact absurd literal (not_isLiteralChar_of_ofSymbol? found)
  | literal _ => exact ⟨_, rfl⟩

theorem Spelled.ne_nil {piece : List Char} {token : Token} (spelled : Spelled piece token) :
    piece ≠ [] := by
  cases spelled with
  | symbol found => simp
  | literal wellFormed => exact Literal.text_ne_nil wellFormed

theorem Written.head_eq_num {text : List Char} {tokens : List Token} (written : Written text tokens)
    {c : Char} (head : c ∈ text.head?) (literal : IsLiteralChar c) :
    ∃ value, .num value ∈ tokens.head? := by
  cases written with
  | done => cases head
  | blank blank _ =>
      cases head
      exact absurd literal (not_isLiteralChar_of_isBlank blank)
  | token spelled _ =>
      rw [List.head?_append_of_ne_nil _ spelled.ne_nil] at head
      obtain ⟨value, rfl⟩ := spelled.eq_num (List.mem_of_head? head) literal
      exact ⟨value, rfl⟩

theorem ofText_of_written {text : List Char} {tokens : List Token} (written : Written text tokens)
    (apart : tokens.IsChain Apart) (short : ShortFractions text) : ofText text = .ok tokens := by
  induction written with
  | done => exact ofText_nil
  | @blank c text tokens blank _ ih =>
      have cut : Cut [c] text := cut_of_last fun last member => by
        cases member
        exact not_isLiteralChar_of_isBlank blank
      have rest := ih apart (short.of_infix (List.suffix_cons c text).isInfix)
      rw [← List.singleton_append, ofText_append cut, ofText_blank blank, rest]
      rfl
  | @token piece text token tokens spelled written ih =>
      -- Between two literals a character is needed, but numbers are apart.
      have cut : Cut piece text := by
        intro last member lastLiteral next head nextLiteral
        obtain ⟨value, rfl⟩ := spelled.eq_num (List.mem_of_getLast? member) lastLiteral
        obtain ⟨value', head'⟩ := written.head_eq_num head nextLiteral
        exact apart.rel_head? head' ⟨rfl, rfl⟩
      have rest := ih apart.tail (short.of_infix (List.suffix_append piece text).isInfix)
      rw [ofText_append cut, spelled.ofText (short.of_infix (List.prefix_append piece text).isInfix),
        rest]
      rfl

theorem ofText_cons_of_char {c : Char} (other : ¬ IsLiteralChar c) (rest : List Char) :
    ofText (c :: rest) = do return (← (Lexeme.ofChar c).tokens) ++ (← ofText rest) := by
  simp [ofText, Lexeme.ofText_of_char other]

theorem ofText_cons_blank {c : Char} (blank : Text.isBlank c = true) (rest : List Char) :
    ofText (c :: rest) = ofText rest := by
  rw [ofText_cons_of_char (not_isLiteralChar_of_isBlank blank), Lexeme.ofChar, if_pos blank]
  exact bind_pure (ofText rest)

theorem exists_of_ofText_literal {c : Char} {rest : List Char} {tokens : List Token}
    (start : IsLiteralChar c) (read : ofText (c :: rest) = .ok tokens) :
    ∃ value later, (Literal.split (c :: rest)).1.value = .ok value ∧
      ofText (Literal.split (c :: rest)).2 = .ok later ∧ tokens = .num value :: later := by
  rw [ofText_cons_of_literal start] at read
  obtain ⟨value, valued, restRead⟩ := Outcome.bind_eq_ok_iff.mp read
  obtain ⟨later, laterRead, same⟩ := Outcome.bind_eq_ok_iff.mp restRead
  exact ⟨value, later, valued, laterRead, (Except.ok.inj same).symm⟩

theorem exists_of_ofText_cons {c : Char} {rest : List Char} {tokens : List Token}
    (other : ¬ IsLiteralChar c) (read : ofText (c :: rest) = .ok tokens) :
    ∃ later, ofText rest = .ok later ∧
      (tokens = later ∧ Text.isBlank c = true ∨
        ∃ token, ofSymbol? c = some token ∧ tokens = token :: later) := by
  rw [ofText_cons_of_char other] at read
  obtain ⟨first, lexed, restRead⟩ := Outcome.bind_eq_ok_iff.mp read
  obtain ⟨later, laterRead, same⟩ := Outcome.bind_eq_ok_iff.mp restRead
  cases same
  refine ⟨later, laterRead, ?_⟩
  unfold Lexeme.ofChar at lexed
  split at lexed
  · next blank => cases lexed; exact .inl ⟨rfl, blank⟩
  · split at lexed
    · next token found => cases lexed; exact .inr ⟨token, found, rfl⟩
    · cases lexed

theorem written_of_ofText {text : List Char} {tokens : List Token} (short : ShortFractions text)
    (read : ofText text = .ok tokens) : Written text tokens := by
  fun_induction Lexeme.ofText text generalizing tokens with
  | case1 =>
      rw [ofText_nil] at read
      cases read
      exact .done
  | case2 c rest start ih =>
      obtain ⟨value, later, valued, laterRead, rfl⟩ := exists_of_ofText_literal start read
      have lost := Literal.text_split (c :: rest)
      have shortParts := lost.symm ▸ short
      -- A literal with a value is well-formed, and its value is the number of its digits.
      have wellFormed := Literal.wellFormed_split valued
      have exact := Literal.value_eq wellFormed (Literal.short_of_text wellFormed.digits
        (shortParts.of_infix (List.prefix_append _ _).isInfix))
      rw [valued] at exact
      cases exact
      have spelled := Written.token (.literal wellFormed)
        (ih (shortParts.of_infix (List.suffix_append _ _).isInfix) laterRead)
      rwa [lost] at spelled
  | case3 c rest other ih =>
      obtain ⟨later, laterRead, ⟨rfl, blank⟩ | ⟨token, found, rfl⟩⟩ :=
        exists_of_ofText_cons other read
      · exact .blank blank (ih (short.of_infix (List.suffix_cons c rest).isInfix) laterRead)
      · exact .token (.symbol found)
          (ih (short.of_infix (List.suffix_cons c rest).isInfix) laterRead)

end Token

open Token in
/-- In a sentence a value never stands next to another one. -/
theorem Tree.Reads.apart {level : Nat} {tokens : List Token} {tree : Tree}
    (reads : Tree.Reads level tokens tree) : tokens.IsChain Apart := by
  induction reads with
  | num value => exact .singleton _
  | signed _ _ ih => exact ih.cons fun _ _ both => nomatch both.1
  | parens _ ih =>
      refine (List.isChain_append.mpr ⟨ih, .singleton _, ?_⟩).cons fun _ _ both => nomatch both.1
      rintro last _ next head both
      cases head
      exact nomatch both.2
  | @binary op _ right _ _ _ _ ihLeft ihRight =>
      have right : (Token.op op :: right).IsChain Apart := ihRight.cons fun _ _ both => nomatch both.1
      refine List.isChain_append.mpr ⟨ihLeft, right, ?_⟩
      rintro last _ next head both
      cases head
      exact nomatch both.2
  | lift _ ih => exact ih

end PocketCalc
