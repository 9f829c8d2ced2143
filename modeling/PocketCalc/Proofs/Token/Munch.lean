import PocketCalc.Proofs.Token.Spelling

/-! Maximal munch: a text cut from left to right, each time behind the longest lexeme.

A text has tokens exactly when it can be cut so, and they are those of its
lexemes. Lexemes in a row, no literal directly in front of another one, are cut
apart again (`Token.ofText_eq_ok_iff_munched`).
-/

set_option autoImplicit false

namespace PocketCalc

open Decimal

namespace Lexeme

/-- White space, a symbol, or a literal with at least one digit. -/
inductive Proper : Lexeme → Prop where
  | blank {c : Char} : Text.isBlank c = true → Proper (blank c)
  | op (op : BinaryOp) : Proper (symbol (.op op))
  | openParen : Proper (symbol .openParen)
  | closeParen : Proper (symbol .closeParen)
  | literal {number : Literal} : number.WellFormed → Proper (literal number)

/-- No longer lexeme stands at the head of the text. -/
def Longest (lexeme : Lexeme) (text : List Char) : Prop :=
  ∀ other : Lexeme, other.Proper → other.text <+: text → other.text.length ≤ lexeme.text.length

inductive Munched : List Char → List Lexeme → Prop where
  | done : Munched [] []
  | next {lexeme : Lexeme} {text : List Char} {lexemes : List Lexeme} :
      lexeme.Proper → lexeme.Longest (lexeme.text ++ text) → Munched text lexemes →
      Munched (lexeme.text ++ text) (lexeme :: lexemes)

/-- White space has no token, and the token of a literal is the number it is read as. -/
def token? : Lexeme → Option Token
  | blank _ | stray _ => none
  | symbol token => some token
  | literal number => some (.num number.reading)

theorem filterMap_token?_cons (lexeme : Lexeme) (lexemes : List Lexeme) :
    (lexeme :: lexemes).filterMap token? = lexeme.token?.toList ++ lexemes.filterMap token? := by
  rw [List.filterMap_cons]
  cases lexeme.token? <;> rfl

/-- Not a literal directly in front of another one. -/
def Parted (first second : Lexeme) : Prop :=
  ∀ one other, ¬ (first = literal one ∧ second = literal other)

theorem proper_of_ofSymbol? {c : Char} {token : Token} (found : Token.ofSymbol? c = some token) :
    (symbol token).Proper := by
  unfold Token.ofSymbol? at found
  split at found <;> cases found <;> constructor

theorem ofChar_of_ofSymbol? {c : Char} {token : Token} (found : Token.ofSymbol? c = some token) :
    ofChar c = symbol token := by
  rw [ofChar, Token.isBlank_eq_false_of_ofSymbol? found, found]
  rfl

theorem Proper.cases {lexeme : Lexeme} (proper : lexeme.Proper) :
    (∃ c, ¬ IsLiteralChar c ∧ lexeme = ofChar c) ∨
      ∃ number : Literal, number.WellFormed ∧ lexeme = .literal number := by
  have ofSymbol {c : Char} {token : Token} (found : Token.ofSymbol? c = some token) :
      ∃ c, ¬ IsLiteralChar c ∧ symbol token = ofChar c :=
    ⟨c, Token.not_isLiteralChar_of_ofSymbol? found, (ofChar_of_ofSymbol? found).symm⟩
  cases proper with
  | @blank c blank => exact .inl ⟨c, Token.not_isLiteralChar_of_isBlank blank, (if_pos blank).symm⟩
  | op op =>
      refine .inl ?_
      cases op with
      | add => exact ofSymbol (c := '+') rfl
      | sub => exact ofSymbol (c := '-') rfl
      | mul => exact ofSymbol (c := '*') rfl
      | div => exact ofSymbol (c := '/') rfl
      | rem => exact ofSymbol (c := '%') rfl
  | openParen => exact .inl (ofSymbol (c := '(') rfl)
  | closeParen => exact .inl (ofSymbol (c := ')') rfl)
  | literal wellFormed => exact .inr ⟨_, wellFormed, rfl⟩

theorem Proper.tokens {lexeme : Lexeme} (proper : lexeme.Proper) :
    lexeme.tokens = .ok lexeme.token?.toList := by
  cases proper with
  | blank _ | op _ | openParen | closeParen => rfl
  | literal wellFormed => simp [Lexeme.tokens, token?, Literal.value_eq_reading wellFormed]

theorem proper_of_tokens_ofChar {c : Char} {tokens : List Token}
    (read : (ofChar c).tokens = .ok tokens) :
    (ofChar c).Proper ∧ tokens = (ofChar c).token?.toList := by
  have proper : (ofChar c).Proper := by
    unfold ofChar at read ⊢
    split
    · next blank => exact .blank blank
    · next notBlank =>
        rw [if_neg notBlank] at read
        split
        · next token found => exact proper_of_ofSymbol? found
        · next none =>
            rw [none] at read
            cases read
  rw [proper.tokens] at read
  exact ⟨proper, (Except.ok.inj read).symm⟩

theorem longest_ofChar {c : Char} (other : ¬ IsLiteralChar c) (rest : List Char) :
    (ofChar c).Longest (c :: rest) := by
  intro lexeme proper start
  obtain ⟨d, _, rfl⟩ | ⟨number, wellFormed, rfl⟩ := proper.cases
  · simp
  · cases same : number.text with
    | nil => exact absurd same (Literal.text_ne_nil wellFormed)
    | cons d behind =>
        have member : d ∈ number.text := by rw [same]; exact List.mem_cons_self
        rw [Lexeme.text, same, List.cons_prefix_cons] at start
        rw [start.1] at member
        exact absurd (Literal.isLiteralChar_of_mem_text wellFormed.digits member) other

theorem longest_split {text : List Char} (wellFormed : (Literal.split text).1.WellFormed) :
    (literal (Literal.split text).1).Longest text := by
  rintro lexeme proper ⟨rest, same⟩
  obtain ⟨c, _, rfl⟩ | ⟨number, wellFormed', rfl⟩ := proper.cases
  · rw [text_ofChar]
    exact List.length_pos_iff.mpr (Literal.text_ne_nil wellFormed)
  · have prefixed := Literal.text_prefix_split rest wellFormed'.digits
    rw [show number.text ++ rest = text from same] at prefixed
    exact prefixed.length_le

theorem split_of_longest {number : Literal} {rest : List Char} (wellFormed : number.WellFormed)
    (longest : (literal number).Longest (number.text ++ rest)) :
    Literal.split (number.text ++ rest) = (number, rest) := by
  have whole := Literal.text_split (number.text ++ rest)
  have digits := Literal.digits_split (number.text ++ rest)
  have shorter : (Literal.split (number.text ++ rest)).1.text.length ≤ number.text.length := by
    by_cases none : (Literal.split (number.text ++ rest)).1.whole ++
        (Literal.split (number.text ++ rest)).1.fractionDigits = []
    · exact (Literal.length_text_le_one none).trans
        (List.length_pos_iff.mpr (Literal.text_ne_nil wellFormed))
    · exact longest _ (.literal ⟨digits, none⟩) ⟨_, whole⟩
  have text := (Literal.text_prefix_split rest wellFormed.digits).eq_of_length_le shorter
  have same := Literal.eq_of_text_eq wellFormed.digits digits text
  rw [← same, List.append_cancel_left_eq] at whole
  exact Prod.ext same.symm whole

theorem longest_literal {number : Literal} {rest : List Char} (wellFormed : number.WellFormed)
    (stop : ∀ c ∈ rest.head?, ¬ IsLiteralChar c) :
    (literal number).Longest (number.text ++ rest) := by
  have split : Literal.split (number.text ++ rest) = (number, rest) := by
    rw [Literal.split_append fun _ => stop, Literal.split_text wellFormed.digits, List.nil_append]
  have longest : (literal (Literal.split (number.text ++ rest)).1).Longest (number.text ++ rest) :=
    longest_split (by rwa [split])
  rwa [split] at longest

theorem not_isLiteralChar_of_head {lexemes : List Lexeme} (proper : ∀ lexeme ∈ lexemes, lexeme.Proper)
    (noLiteral : ∀ number, literal number ∉ lexemes.head?) :
    ∀ c ∈ (lexemes.flatMap Lexeme.text).head?, ¬ IsLiteralChar c := by
  intro d head
  cases lexemes with
  | nil => cases head
  | cons first lexemes =>
      obtain ⟨c, other, rfl⟩ | ⟨number, _, rfl⟩ := (proper first List.mem_cons_self).cases
      · rw [List.flatMap_cons, text_ofChar] at head
        cases head
        exact other
      · exact absurd rfl (noLiteral number)

/-- Lexemes in a row are each the longest one, if no literal goes on in the next one. -/
theorem munched_of_parted {lexemes : List Lexeme} (proper : ∀ lexeme ∈ lexemes, lexeme.Proper)
    (parted : lexemes.IsChain Parted) : Munched (lexemes.flatMap Lexeme.text) lexemes := by
  induction lexemes with
  | nil => exact .done
  | cons lexeme lexemes ih =>
      obtain ⟨isProper, others⟩ := List.forall_mem_cons.mp proper
      refine .next isProper ?_ (ih others parted.tail)
      obtain ⟨c, other, rfl⟩ | ⟨number, wellFormed, rfl⟩ := isProper.cases
      · rw [text_ofChar]
        exact longest_ofChar other _
      · exact longest_literal wellFormed (not_isLiteralChar_of_head others
          fun other head => parted.rel_head? head number other ⟨rfl, rfl⟩)

end Lexeme

namespace Token

open Lexeme (Munched)

theorem munched_of_ofText {text : List Char} {tokens : List Token} (read : ofText text = .ok tokens) :
    ∃ lexemes, Munched text lexemes ∧ tokens = lexemes.filterMap Lexeme.token? := by
  fun_induction Lexeme.ofText text generalizing tokens with
  | case1 =>
      rw [ofText_nil] at read
      cases read
      exact ⟨[], .done, rfl⟩
  | case2 c rest start ih =>
      obtain ⟨value, later, valued, laterRead, rfl⟩ := exists_of_ofText_literal start read
      obtain ⟨lexemes, munched, rfl⟩ := ih laterRead
      -- That the literal has a value makes it well formed, and the split leaves the longest one.
      have wellFormed := Literal.wellFormed_split valued
      have exact := Literal.value_eq_reading wellFormed
      rw [valued] at exact
      cases exact
      have whole := Literal.text_split (c :: rest)
      have longest := Lexeme.longest_split wellFormed
      refine ⟨.literal (Literal.split (c :: rest)).1 :: lexemes, ?_, rfl⟩
      have next := Munched.next (.literal wellFormed) (by rwa [Lexeme.text, whole]) munched
      rwa [Lexeme.text, whole] at next
  | case3 c rest other ih =>
      rw [ofText_cons_of_char other] at read
      obtain ⟨first, firstRead, read⟩ := Outcome.bind_eq_ok_iff.mp read
      obtain ⟨later, laterRead, same⟩ := Outcome.bind_eq_ok_iff.mp read
      obtain ⟨proper, rfl⟩ := Lexeme.proper_of_tokens_ofChar firstRead
      obtain ⟨lexemes, munched, rfl⟩ := ih laterRead
      cases same
      have longest := Lexeme.longest_ofChar other rest
      have next := Munched.next proper (by rwa [Lexeme.text_ofChar]) munched
      rw [Lexeme.text_ofChar] at next
      exact ⟨_, next, (Lexeme.filterMap_token?_cons _ _).symm⟩

theorem ofText_of_munched {text : List Char} {lexemes : List Lexeme} (munched : Munched text lexemes) :
    ofText text = .ok (lexemes.filterMap Lexeme.token?) := by
  induction munched with
  | done => exact ofText_nil
  | @next lexeme text lexemes proper longest _ ih =>
      obtain ⟨c, other, rfl⟩ | ⟨number, wellFormed, rfl⟩ := proper.cases
      · rw [Lexeme.text_ofChar, List.singleton_append, ofText_cons_of_char other, proper.tokens, ih,
          Lexeme.filterMap_token?_cons]
        rfl
      · rw [Lexeme.text, ofText_literal_append wellFormed (Lexeme.split_of_longest wellFormed longest),
          Literal.value_eq_reading wellFormed, ih]
        rfl

/-- A text has tokens exactly when it can be cut into longest lexemes, and its tokens are
theirs. So lexemes in a row are read back, if no literal stands directly in front of another
one. The token of a literal is the exact number of its digits, as long as a 32-bit word counts
those behind the point. -/
theorem ofText_eq_ok_iff_munched :
    (∀ (text : List Char) (tokens : List Token), ofText text = .ok tokens ↔
      ∃ lexemes, Munched text lexemes ∧ tokens = lexemes.filterMap Lexeme.token?) ∧
    (∀ lexemes : List Lexeme, (∀ lexeme ∈ lexemes, lexeme.Proper) → lexemes.IsChain Lexeme.Parted →
      ofText (lexemes.flatMap Lexeme.text) = .ok (lexemes.filterMap Lexeme.token?)) ∧
    ∀ number : Literal, number.fractionDigits.length < UInt32.size →
      (Lexeme.literal number).token? = some (.num
        (Nat.ofDigitChars 10 (number.whole ++ number.fractionDigits) 0 /
          10 ^ number.fractionDigits.length)) := by
  refine ⟨fun text tokens => ⟨munched_of_ofText, ?_⟩, fun lexemes proper parted => ?_,
    fun number short => ?_⟩
  · rintro ⟨lexemes, munched, rfl⟩
    exact ofText_of_munched munched
  · exact ofText_of_munched (Lexeme.munched_of_parted proper parted)
  · rw [Lexeme.token?, Literal.reading_eq_number short, Literal.number]

/-- The text 1.2.3 is cut behind 1.2, and a blank keeps 5. and .5 apart. -/
theorem ofText_of_two_points :
    (∃ lexemes, Munched ['1', '.', '2', '.', '3'] lexemes ∧
      [.num (6 / 5), .num (3 / 10)] = lexemes.filterMap Lexeme.token?) ∧
    ofText ['5', '.', ' ', '.', '5'] = .ok [.num 5, .num (1 / 2)] := by
  obtain ⟨munched, readBack, exact⟩ := ofText_eq_ok_iff_munched
  have five : Literal.WellFormed ⟨['5'], some []⟩ :=
    ⟨by simp [Literal.fractionDigits], by decide⟩
  have half : Literal.WellFormed ⟨[], some ['5']⟩ :=
    ⟨by simp [Literal.fractionDigits], by decide⟩
  have apart := readBack [.literal ⟨['5'], some []⟩, .blank ' ', .literal ⟨[], some ['5']⟩]
    (by simpa using ⟨.literal five, .blank (by decide), .literal half⟩)
    (by simp [Lexeme.Parted])
  have fiveToken := exact ⟨['5'], some []⟩ (by decide)
  have halfToken := exact ⟨[], some ['5']⟩ (by decide)
  refine ⟨(munched _ _).mp (by decide +kernel), apart.trans ?_⟩
  rw [Lexeme.filterMap_token?_cons, Lexeme.filterMap_token?_cons, Lexeme.filterMap_token?_cons,
    fiveToken, halfToken]
  decide +kernel

end Token

end PocketCalc
