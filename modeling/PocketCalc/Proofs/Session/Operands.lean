import PocketCalc.Proofs.Expression.Detached
import PocketCalc.Proofs.Session.Shape
import PocketCalc.Proofs.Token.Symbol
import PocketCalc.Proofs.Tree.Signs

/-! What evaluation makes of operands that hold percent signs of their own. -/

set_option autoImplicit false

namespace PocketCalc

open Decimal

/-- Digits, and behind them a point with any more digits or none. -/
def IsDecimal (text : List Char) : Prop :=
  ∃ literal : Literal, literal.WellFormed ∧ literal.whole ≠ [] ∧ text = literal.text

/-- Digits and one percent sign. -/
def IsPercent (text : List Char) : Prop :=
  ∃ digits : List Char, digits ≠ [] ∧ (∀ c ∈ digits, c.isDigit = true) ∧ text = digits ++ ['%']

def IsValue (text : List Char) : Prop :=
  (∃ literal : Literal, literal.WellFormed ∧ text = literal.text) ∨ IsPercent text

/-- The text ends with no digit, so that a percent sign behind it is a remainder. -/
def Detaches (text : List Char) : Prop := ∀ last ∈ text.getLast?, last.isDigit = false

/-- Values with a percent sign between each two that is no part of them, and perhaps
one behind the last. -/
inductive HoldsRemainder : List Char → Prop where
  | last {text : List Char} : IsValue text → Detaches text → HoldsRemainder (text ++ ['%'])
  | value {text rest : List Char} : IsValue text → Detaches text → IsValue rest →
      HoldsRemainder (text ++ '%' :: rest)
  | more {text rest : List Char} : IsValue text → Detaches text → HoldsRemainder rest →
      HoldsRemainder (text ++ '%' :: rest)

theorem IsValue.ne_nil {text : List Char} (value : IsValue text) : text ≠ [] := by
  rcases value with ⟨literal, wellFormed, rfl⟩ | ⟨digits, _, _, rfl⟩
  · exact Literal.text_ne_nil wellFormed
  · simp

theorem Detaches.detached_pos {text : List Char} (detaches : Detaches text) (value : IsValue text)
    (rest : List Char) : 0 < Percent.detached (text ++ '%' :: rest) := by
  obtain ⟨init, last, rfl⟩ := List.eq_nil_or_concat text |>.resolve_left value.ne_nil
  have other : last.isDigit = false := detaches last (by simp)
  have signs := Percent.detached_pos init rest other
  rwa [List.concat_eq_append, List.append_assoc, List.singleton_append]

theorem HoldsRemainder.detached_pos {text : List Char} (holds : HoldsRemainder text) :
    0 < Percent.detached text := by
  cases holds with
  | last value detaches => exact detaches.detached_pos value []
  | value value detaches _ => exact detaches.detached_pos value _
  | more value detaches _ => exact detaches.detached_pos value _

theorem isBlank_of_isOperandChar {c : Char} (operand : Line.IsOperandChar c) :
    Text.isBlank c = false := by
  rcases operand with literal | rfl
  · exact Bool.eq_false_iff.mpr fun blank => Token.not_isLiteralChar_of_isBlank blank literal
  · decide

theorem wellFormed_of_ofText {literal : Literal} {tokens : List Token}
    (digits : ∀ c ∈ literal.whole ++ literal.fractionDigits, c.isDigit = true)
    (nonempty : literal.text ≠ []) (read : Token.ofText literal.text = .ok tokens) :
    literal.WellFormed := by
  have whole := Literal.split_text digits
  cases same : literal.text with
  | nil => exact absurd same nonempty
  | cons c rest =>
      have start : IsLiteralChar c :=
        Literal.isLiteralChar_of_mem_text digits (same ▸ List.mem_cons_self)
      rw [same] at read whole
      obtain ⟨value, _, valued, _⟩ := Token.exists_of_ofText_literal start read
      rw [whole] at valued
      exact ⟨digits, Literal.value_eq_ok_iff.mp ⟨value, valued⟩⟩

theorem prefixes_behind {left right : List Token} {op : BinaryOp}
    (values : Token.prefixes false (left ++ .op op :: right) = []) :
    Token.prefixes false right = [] := by
  rw [Token.prefixes_append] at values
  have behind := (List.append_eq_nil_iff.mp values).2
  cases ends : Token.endsAfter false left with
  | true => rwa [ends] at behind
  | false => rw [ends] at behind; cases behind

namespace IsPiece

variable {text : List Char} {tokens : List Token}

theorem unspaced (piece : IsPiece text) : ∀ c ∈ text, Text.isBlank c = false :=
  fun c member => isBlank_of_isOperandChar (piece.chars c member)

theorem exists_literal (piece : IsPiece text) (none : '%' ∉ text) :
    ∃ literal : Literal, (∀ c ∈ literal.whole ++ literal.fractionDigits, c.isDigit = true) ∧
      text = literal.text := by
  have literals : ∀ c ∈ text, IsLiteralChar c := fun c member =>
    (piece.chars c member).resolve_right fun percent => none (percent ▸ member)
  by_cases point : '.' ∈ text
  · -- There is one point at most, so none behind the first.
    obtain ⟨whole, behind, rfl, before⟩ := List.eq_append_cons_of_mem point
    have points := piece.points
    rw [List.count_append, List.count_cons_self] at points
    have after : '.' ∉ behind := List.count_eq_zero.mp (by omega)
    refine ⟨⟨whole, some behind⟩, ?_, rfl⟩
    intro c member
    rcases List.mem_append.mp member with inWhole | inBehind
    · exact (literals c (by simp [inWhole])).resolve_right fun isPoint => before (isPoint ▸ inWhole)
    · have inBehind : c ∈ behind := inBehind
      exact (literals c (by simp [inBehind])).resolve_right fun isPoint => after (isPoint ▸ inBehind)
  · refine ⟨⟨text, Option.none⟩, ?_, rfl⟩
    intro c member
    have member : c ∈ text := by simpa [Literal.fractionDigits] using member
    exact (literals c member).resolve_right fun isPoint => point (isPoint ▸ member)

theorem isValue_of_no_percent (piece : IsPiece text) (none : '%' ∉ text) (nonempty : text ≠ [])
    (read : Token.ofText (Percent.expand text) = .ok tokens) : IsValue text := by
  obtain ⟨literal, digits, rfl⟩ := piece.exists_literal none
  rw [Percent.expand_literal digits] at read
  exact .inl ⟨literal, wellFormed_of_ofText digits nonempty read, rfl⟩

theorem exists_around_percent {init rest : List Char} (piece : IsPiece (init ++ '%' :: rest))
    (read : Token.ofText (Percent.expand (init ++ '%' :: rest)) = .ok tokens) :
    ∃ before digits first second, init = before ++ digits ∧ (∀ c ∈ digits, c.isDigit = true) ∧
      (∀ last ∈ before.getLast?, last.isDigit = false) ∧
      Token.ofText (Percent.expand before) = .ok first ∧
      Token.ofText (Percent.expand rest) = .ok second ∧
      tokens = first ++ (Percent.writtenTokens digits ++ second) := by
  obtain ⟨before, digits, rfl, all, stop⟩ := Run.exists_at_end Char.isDigit init
  have seam : Percent.Seam before (digits ++ '%' :: rest) :=
    Percent.seam_of_last fun last ends =>
      ⟨stop last ends, piece.unspaced last (by simp [List.mem_of_getLast? ends])⟩
  rw [List.append_assoc, Percent.expand_append seam, Percent.expand_written all] at read
  obtain ⟨first, later, isFirst, isLater, rfl⟩ :=
    Token.exists_of_ofText_append (Percent.cut_written _ _ _) read
  obtain ⟨middle, second, isMiddle, isSecond, rfl⟩ :=
    Token.exists_of_ofText_append (Percent.cut_of_written _ _) isLater
  rw [Percent.ofText_written all] at isMiddle
  cases isMiddle
  exact ⟨before, digits, first, second, rfl, all, stop, isFirst, isSecond, rfl⟩

theorem exists_startsValue {c : Char} {rest : List Char} (literal : IsLiteralChar c)
    (read : Token.ofText (Percent.expand (c :: rest)) = .ok tokens) :
    ∃ token ∈ tokens.head?, token.startsValue = true := by
  rcases Percent.head?_expand c rest with same | paren
  · obtain ⟨value, head⟩ := Token.exists_num_head read same literal
    exact ⟨_, head, rfl⟩
  · exact ⟨.openParen, Token.head_of_symbol read paren rfl, rfl⟩

theorem holdsRemainder {rest : List Char} (isValue : IsValue text) (detaches : Detaches text)
    (later : rest ≠ [] → IsValue rest ∨ HoldsRemainder rest) : HoldsRemainder (text ++ '%' :: rest) := by
  by_cases ended : rest = []
  · subst ended
    exact .last isValue detaches
  · rcases later ended with value | more
    · exact .value isValue detaches value
    · exact .more isValue detaches more

theorem alone_of_apart {before digits rest : List Char} {left right : List Token}
    (piece : IsPiece (before ++ digits ++ '%' :: rest)) (first : '%' ∉ before ++ digits)
    (some : digits ≠ []) (isLeft : Token.ofText (Percent.expand before) = .ok left)
    (isRight : Token.ofText (Percent.expand rest) = .ok right)
    (apart : (left ++ (Percent.writtenTokens digits ++ right)).IsChain Token.Apart) :
    before = [] ∧ ∀ c ∈ rest.head?, c = '%' := by
  simp only [Percent.writtenTokens, if_neg some] at apart
  obtain ⟨_, apart, meet⟩ := List.isChain_append.mp apart
  -- The opening parenthesis written for the digits may not follow a value, nor may one
  -- follow the closing one.
  constructor
  · rcases List.eq_nil_or_concat before with same | ⟨inner, c, rfl⟩
    · exact same
    · have ends : c ∈ (inner.concat c).getLast? := by simp
      have other : c ≠ '%' := by
        rintro rfl
        exact first (by simp)
      have literal := (piece.chars c (by simp)).resolve_right other
      obtain ⟨value, last⟩ := Token.exists_num_last isLeft (Percent.getLast?_expand ends other) literal
      exact absurd ⟨rfl, rfl⟩ (meet _ last .openParen rfl)
  · intro c head
    cases rest with
    | nil => cases head
    | cons next rest =>
        cases head
        refine (piece.chars c (by simp)).resolve_left fun literal => ?_
        obtain ⟨token, head, starts⟩ := exists_startsValue literal isRight
        have meet := (List.isChain_append.mp apart).2.2
        exact absurd ⟨rfl, starts⟩ (meet .closeParen rfl token head)

/-- What is read without values that meet, or operators where one is expected, is one
value or has remainders between values. -/
theorem isValue_or_holdsRemainder (piece : IsPiece text) (nonempty : text ≠ [])
    (read : Token.ofText (Percent.expand text) = .ok tokens) (apart : tokens.IsChain Token.Apart)
    (values : Token.prefixes false tokens = []) : IsValue text ∨ HoldsRemainder text := by
  -- Cut at the first percent sign: what is in front of it is a value, what is behind is shorter.
  induction size : text.length using Nat.strongRecOn generalizing text tokens with
  | ind length ih =>
      by_cases percent : '%' ∈ text
      · obtain ⟨init, rest, rfl, first⟩ := List.eq_append_cons_of_mem percent
        obtain ⟨before, digits, left, right, rfl, all, stop, isLeft, isRight, rfl⟩ :=
          piece.exists_around_percent read
        simp only [List.length_append, List.length_cons] at size
        by_cases some : digits = []
        · -- The percent sign is left, and the value in front of it ends with a point.
          subst some
          rw [List.append_nil] at piece first
          have started : before ≠ [] := by
            rintro rfl
            rw [Percent.expand_nil, Token.ofText_nil] at isLeft
            cases isLeft
            cases values
          have value := (piece.of_sublist (List.sublist_append_left before _)).isValue_of_no_percent
            first started isLeft
          rw [List.append_nil]
          refine .inr (holdsRemainder value stop fun more => ?_)
          exact ih rest.length (by omega) (piece.of_sublist (by simp)) more isRight
            apart.right_of_append.right_of_append (prefixes_behind values) rfl
        · -- The digits and the sign are a percentage, and only another sign can follow it.
          obtain ⟨rfl, next⟩ := alone_of_apart piece first some isLeft isRight apart
          have value : IsValue (digits ++ ['%']) := .inr ⟨digits, some, all, rfl⟩
          cases rest with
          | nil => exact .inl value
          | cons c rest =>
              cases next c rfl
              have detaches : Detaches (digits ++ ['%']) := by simp [Detaches]
              rw [Percent.expand_of_not_digit rfl] at isRight
              obtain ⟨later, isLater, ⟨_, blank⟩ | ⟨token, found, rfl⟩⟩ :=
                Token.exists_of_ofText_cons (by decide) isRight
              · cases blank
              · cases found
                rw [← List.append_assoc] at values
                have same : [] ++ digits ++ '%' :: '%' :: rest = digits ++ ['%'] ++ '%' :: rest := by simp
                rw [same] at piece ⊢
                refine .inr (holdsRemainder value detaches fun more => ?_)
                exact ih rest.length (by simp only [List.length_cons] at size; omega)
                  (piece.of_sublist ((List.sublist_cons_self '%' rest).trans
                    (List.sublist_append_right _ _))) more isLater
                  apart.right_of_append.right_of_append.tail (prefixes_behind values) rfl
      · exact .inl (piece.isValue_of_no_percent percent nonempty read)

end IsPiece

namespace IsEntry

variable {text : List Char} {tokens : List Token}

theorem whole_ne_nil {literal : Literal} (entry : IsEntry literal.text) : literal.whole ≠ [] := by
  intro none
  obtain ⟨first, head, digit⟩ := entry.starts
  rw [Literal.text, none] at head
  cases fraction : literal.fraction with
  | none => rw [fraction] at head; cases head
  | some behind =>
      rw [fraction] at head
      cases head
      cases digit

theorem isDecimal (entry : IsEntry text) (none : '%' ∉ text) : IsDecimal text := by
  obtain ⟨literal, digits, rfl⟩ := entry.exists_literal none
  have whole := entry.whole_ne_nil
  exact ⟨literal, ⟨digits, fun empty => whole (List.append_eq_nil_iff.mp empty).1⟩, whole, rfl⟩

theorem isDecimal_or_isPercent (entry : IsEntry text) (value : IsValue text) :
    IsDecimal text ∨ IsPercent text := by
  refine value.imp_left fun ⟨literal, wellFormed, same⟩ => ⟨literal, wellFormed, ?_, same⟩
  subst same
  exact entry.whole_ne_nil

theorem count_rem (entry : IsEntry text) (read : Token.ofText (Percent.expand text) = .ok tokens) :
    tokens.count (.op .rem) = Percent.detached text := by
  obtain ⟨first, head, digit⟩ := entry.starts
  have stop : ∀ next ∈ text.head?, next ≠ '%' := by
    intro next head'
    cases head.symm.trans head'
    exact Percent.ne_percent_of_digit digit
  rw [Token.count_of_ofText (c := '%') rfl read, Percent.count_expand entry.unspaced,
    Percent.detached_of_head stop]

theorem sign_free (entry : IsEntry text) (read : Token.ofText (Percent.expand text) = .ok tokens) :
    ∀ op, .op op ∈ tokens → op.sign? = none := by
  -- Neither plus nor minus is in the text, and the rewriting adds none.
  have absent : ∀ {c : Char} {token : Token}, Token.ofSymbol? c = some token → c = '+' ∨ c = '-' →
      token ∉ tokens := by
    intro c token found isSign member
    have inside : c ∈ Percent.expand text := by
      rw [← List.count_pos_iff, ← Token.count_of_ofText found read]
      exact List.count_pos_iff.mpr member
    rcases Percent.mem_of_mem_expand inside with inText | added
    · rcases isSign with rfl | rfl <;> exact absurd (entry.chars _ inText) (by decide)
    · rcases isSign with rfl | rfl <;> exact absurd added (by decide)
  intro op member
  cases op with
  | add => exact absurd member (absent (c := '+') rfl (.inl rfl))
  | sub => exact absurd member (absent (c := '-') rfl (.inr rfl))
  | mul | div | rem => rfl

theorem endsAfter_writtenTokens (start : Bool) (digits : List Char) :
    Token.endsAfter start (Percent.writtenTokens digits) = !digits.isEmpty := by
  cases digits <;> rfl

theorem endsAfter (entry : IsEntry text) (read : Token.ofText (Percent.expand text) = .ok tokens)
    (start : Bool) : Token.endsAfter start tokens = !Percent.endsDetached text := by
  obtain ⟨init, last, rfl⟩ := List.eq_nil_or_concat text |>.resolve_left entry.ne_nil
  rw [List.concat_eq_append] at *
  by_cases percent : last = '%'
  · subst percent
    have nonempty : init ≠ [] := by
      rintro rfl
      obtain ⟨first, head, digit⟩ := entry.starts
      cases head
      cases digit
    obtain ⟨before, digits, first, second, rfl, all, stop, _, isSecond, rfl⟩ :=
      entry.exists_around_percent read
    rw [Percent.expand_nil, Token.ofText_nil] at isSecond
    cases isSecond
    rw [List.append_nil, Token.endsAfter_append, endsAfter_writtenTokens,
      Percent.endsDetached_digits all stop nonempty]
  · have literal := (entry.chars last (by simp)).resolve_right percent
    have ends : last ∈ (init ++ [last]).getLast? := List.getLast?_concat
    obtain ⟨value, isLast⟩ := Token.exists_num_last read (Percent.getLast?_expand ends percent) literal
    have other : Percent.endsDetached (init ++ [last]) = false :=
      Percent.endsDetached_of_last fun other ends' => by
        cases ends.symm.trans ends'
        exact percent
    rw [Token.endsAfter_of_last isLast, other]
    rfl

end IsEntry

end PocketCalc
