import PocketCalc.Proofs.Session.Operands

/-! Which keys of an expression are evaluated as signs and remainders.

A percent sign with digits in front of it is part of its operand. Any other one
is a remainder, and at the end of an operand it makes a sign of the operator
behind it.
-/

set_option autoImplicit false

namespace PocketCalc

namespace Line

variable {A : Type}

/-! ## Tokens of a line -/

theorem exists_of_ofText_tail {spell : A → List Char} {rest : List (Operator × A)} {tokens : List Token}
    (read : Token.ofText (tail Operator.symbol (rest.map fun pair => (pair.1, spell pair.2))) =
      .ok tokens) :
    ∀ pair ∈ rest, ∃ piece, Token.ofText (spell pair.2) = .ok piece := by
  induction rest generalizing tokens with
  | nil => simp
  | cons pair rest ih =>
      rw [List.map_cons, tail_cons, ofText_symbol] at read
      obtain ⟨later, isLater, _⟩ := Outcome.bind_eq_ok_iff.mp read
      obtain ⟨piece, more, isPiece, isMore, _⟩ :=
        Token.exists_of_ofText_append (cut_tail _ _) isLater
      exact List.forall_mem_cons.mpr ⟨⟨piece, isPiece⟩, ih isMore⟩

theorem exists_of_ofText_text {spell : A → List Char} {line : Line A} {tokens : List Token}
    (read : Token.ofText (line.map spell).text = .ok tokens) :
    ∀ operand ∈ line.operands, ∃ piece, Token.ofText (spell operand) = .ok piece := by
  obtain ⟨negative, first, rest⟩ := line
  have unsigned : ∃ tokens, Token.ofText (spell first ++
      tail Operator.symbol (rest.map fun pair => (pair.1, spell pair.2))) = .ok tokens := by
    cases negative with
    | false => exact ⟨tokens, read⟩
    | true =>
        have signed := (ofText_symbol .sub _).symm.trans read
        obtain ⟨later, isLater, _⟩ := Outcome.bind_eq_ok_iff.mp signed
        exact ⟨later, isLater⟩
  obtain ⟨tokens, read⟩ := unsigned
  obtain ⟨piece, more, isPiece, isMore, _⟩ := Token.exists_of_ofText_append (cut_tail _ _) read
  exact forall_operands.mpr ⟨⟨piece, isPiece⟩, exists_of_ofText_tail isMore⟩

theorem count_rem_tail (rest : List (Operator × List Token)) :
    (tail (.op ·.operation) rest).count (.op .rem) =
      (rest.map fun pair => pair.2.count (.op .rem)).sum := by
  induction rest with
  | nil => rfl
  | cons pair rest ih =>
      have other : Token.op pair.1.operation ≠ .op .rem := by cases pair.1 <;> decide
      rw [tail_cons, List.count_cons_of_ne other, List.count_append, ih, List.map_cons, List.sum_cons]

theorem count_rem_tokens (line : Line (List Token)) :
    line.tokens.count (.op .rem) = (line.operands.map (·.count (.op .rem))).sum := by
  obtain ⟨negative, first, rest⟩ := line
  have unsigned : (first ++ tail (.op ·.operation) rest).count (.op .rem) =
      first.count (.op .rem) + (rest.map fun pair => pair.2.count (.op .rem)).sum := by
    rw [List.count_append, count_rem_tail]
  cases negative <;> simpa [tokens, join, operands, Operator.operation, Function.comp_def] using unsigned

theorem prefixes_eq_nil {first later : List Token} (free : ∀ op, .op op ∈ first → op.sign? = none)
    (signs : ∀ op ∈ Token.prefixes false (first ++ later), op.sign? ≠ none) :
    Token.prefixes false first = [] := by
  refine List.eq_nil_iff_forall_not_mem.mpr fun op member => ?_
  refine signs op ?_ (free op (Token.mem_of_mem_prefixes member))
  rw [Token.prefixes_append]
  exact List.mem_append_left _ member

theorem prefixes_tail {first : List Token} {rest : List (Operator × List Token)}
    (free : ∀ piece ∈ first :: rest.map Prod.snd, ∀ op, .op op ∈ piece → op.sign? = none)
    (signs : ∀ op ∈ Token.prefixes false (first ++ tail (.op ·.operation) rest), op.sign? ≠ none)
    (ends : Token.endsAfter false (first ++ tail (.op ·.operation) rest) = true) :
    (Token.prefixes false (first ++ tail (.op ·.operation) rest)).length =
        (first :: rest.map Prod.snd).countP (fun piece => !Token.endsAfter false piece) ∧
      ∀ piece ∈ first :: rest.map Prod.snd, Token.prefixes false piece = [] := by
  have own := prefixes_eq_nil (free first List.mem_cons_self) signs
  induction rest generalizing first with
  | nil =>
      rw [tail_nil, List.append_nil] at ends ⊢
      simp [own, ends]
  | cons pair rest ih =>
      obtain ⟨op, piece⟩ := pair
      have free := (List.forall_mem_cons.mp free).2
      rw [tail_cons, Token.endsAfter_append] at ends
      rw [tail_cons, Token.prefixes_append, own, List.nil_append] at signs ⊢
      have ends : Token.endsAfter false (piece ++ tail (.op ·.operation) rest) = true :=
        (Token.endsAfter_append _ [.op op.operation] _).symm.trans ends
      rw [List.map_cons, List.countP_cons]
      -- The operator is a sign if the operand in front of it leaves a value to be expected.
      cases value : Token.endsAfter false first with
      | true =>
          rw [value] at signs
          obtain ⟨length, all⟩ := ih free signs ends (prefixes_eq_nil (free piece List.mem_cons_self) signs)
          exact ⟨length, List.forall_mem_cons.mpr ⟨own, all⟩⟩
      | false =>
          rw [value] at signs
          have signs := (List.forall_mem_cons.mp signs).2
          obtain ⟨length, all⟩ := ih free signs ends (prefixes_eq_nil (free piece List.mem_cons_self) signs)
          exact ⟨congrArg (· + 1) length, List.forall_mem_cons.mpr ⟨own, all⟩⟩

theorem prefixes_tokens {line : Line (List Token)}
    (free : ∀ piece ∈ line.operands, ∀ op, .op op ∈ piece → op.sign? = none)
    (signs : ∀ op ∈ Token.prefixes false line.tokens, op.sign? ≠ none)
    (ends : Token.endsAfter false line.tokens = true) :
    (Token.prefixes false line.tokens).length = (if line.negative then 1 else 0) +
        line.operands.countP (fun piece => !Token.endsAfter false piece) ∧
      ∀ piece ∈ line.operands, Token.prefixes false piece = [] := by
  obtain ⟨negative, first, rest⟩ := line
  cases negative with
  | false =>
      rw [if_neg Bool.false_ne_true, Nat.zero_add]
      exact prefixes_tail free signs ends
  | true =>
      have ends := (Token.endsAfter_append false [.op .sub] _).symm.trans ends
      obtain ⟨length, all⟩ := prefixes_tail free (List.forall_mem_cons.mp signs).2 ends
      rw [if_pos rfl, Nat.add_comm]
      exact ⟨congrArg (· + 1) length, all⟩

end Line

/-! ## Operands of an expression -/

def isOperatorChar (c : Char) : Bool := ['+', '-', '*', '/'].contains c

/-- The pieces between operators, behind the minus sign of a chained result. -/
def operandsOf (expression : List Char) : List (List Char) :=
  (if expression.head? = some '-' then expression.tail else expression).splitOnP isOperatorChar

theorem IsEntry.isOperatorChar_eq_false {text : List Char} (entry : IsEntry text) :
    ∀ c ∈ text, isOperatorChar c = false := by
  intro c member
  have other : c ≠ '+' ∧ c ≠ '-' ∧ c ≠ '*' ∧ c ≠ '/' := by
    refine ⟨?_, ?_, ?_, ?_⟩ <;> rintro rfl <;> exact absurd (entry.chars _ member) (by decide)
  simp [isOperatorChar, other]

theorem splitOnP_tail {first : List Char} {rest : List (Operator × List Char)}
    (entered : ∀ operand ∈ first :: rest.map Prod.snd, IsEntry operand) :
    (first ++ Line.tail Operator.symbol rest).splitOnP isOperatorChar =
      first :: rest.map Prod.snd := by
  have own := (entered first List.mem_cons_self).isOperatorChar_eq_false
  induction rest generalizing first with
  | nil => rw [Line.tail_nil, List.append_nil, List.splitOnP_eq_singleton own]; rfl
  | cons pair rest ih =>
      obtain ⟨op, operand⟩ := pair
      have entered := (List.forall_mem_cons.mp entered).2
      have operator : isOperatorChar op.symbol = true := by cases op <;> rfl
      rw [Line.tail_cons, List.splitOnP_append_cons_of_forall_mem own _ operator,
        ih entered (entered operand List.mem_cons_self).isOperatorChar_eq_false]
      rfl

theorem Line.Entered.head?_text {line : Line (List Char)} (entered : line.Entered) :
    line.text.head? = some '-' ↔ line.negative = true := by
  obtain ⟨negative, first, rest⟩ := line
  obtain ⟨c, head, digit⟩ := (entered first List.mem_cons_self).starts
  cases negative with
  | false =>
      have same : Line.text ⟨false, first, rest⟩ = first ++ tail Operator.symbol rest := rfl
      rw [same, List.head?_append, Option.mem_def.mp head]
      simp only [Option.some_or, Option.some.injEq, Bool.false_eq_true, iff_false]
      rintro rfl
      cases digit
  | true => exact ⟨fun _ => rfl, fun _ => rfl⟩

theorem operandsOf_text {line : Line (List Char)} (entered : line.Entered) :
    operandsOf line.text = line.operands := by
  have head := entered.head?_text
  unfold operandsOf
  obtain ⟨negative, first, rest⟩ := line
  cases negative with
  | false =>
      rw [if_neg fun minus => Bool.false_ne_true (head.mp minus)]
      exact splitOnP_tail entered
  | true =>
      rw [if_pos (head.mpr rfl)]
      exact splitOnP_tail entered

/-- Of a line that is read as a sentence, each operand is a value or holds remainders.
Its detached percent signs are the remainders, and the signs are the minus sign in front
and the operators behind operands that end with one. -/
theorem Line.Entered.reading {line : Line (List Char)} (entered : line.Entered) {tokens : List Token}
    {tree : Tree} (read : Token.ofText (Percent.expand line.text) = .ok tokens)
    (reads : Tree.Reads 0 tokens tree) :
    (∀ operand ∈ line.operands, IsDecimal operand ∨ IsPercent operand ∨ HoldsRemainder operand) ∧
      tree.remainders = (line.operands.map Percent.detached).sum ∧
      tree.signs = (if line.negative then 1 else 0) + line.operands.countP Percent.endsDetached := by
  -- Each operand is read by itself, and the tokens of the line are joined from theirs.
  rw [Line.expand_text] at read
  choose! pieces each using Line.exists_of_ofText_text read
  have same : (line.map pieces).tokens = tokens :=
    Except.ok.inj ((Line.ofText_text each).symm.trans read)
  subst same
  have free : ∀ piece ∈ (line.map pieces).operands, ∀ op, .op op ∈ piece → op.sign? = none := by
    rw [Line.operands_map]
    exact List.forall_mem_map.mpr fun operand member =>
      (entered operand member).sign_free (each operand member)
  -- No operator of an operand is a sign, so those of the sentence are between operands.
  obtain ⟨count, signs, ends⟩ := reads.prefixes
  obtain ⟨length, values⟩ := Line.prefixes_tokens free signs ends
  have inside := Line.infix_join (.op ·.operation) (line.map pieces)
  rw [Line.operands_map] at values inside
  refine ⟨?_, ?_, ?_⟩
  · intro operand member
    have entry := entered operand member
    have inMap := List.mem_map_of_mem (f := pieces) member
    have apart := List.IsChain.infix reads.apart (inside _ inMap)
    rcases entry.isValue_or_holdsRemainder entry.ne_nil (each operand member) apart
      (values _ inMap) with value | remainder
    · exact (entry.isDecimal_or_isPercent value).imp_right .inl
    · exact .inr (.inr remainder)
  · rw [← reads.count_rem, Line.count_rem_tokens, Line.operands_map, List.map_map]
    congr 1
    exact List.map_congr_left fun operand member =>
      (entered operand member).count_rem (each operand member)
  · rw [← count, length, Line.operands_map, List.countP_map]
    refine congrArg _ (List.countP_congr fun operand member => ?_)
    have ends := (entered operand member).endsAfter (each operand member) false
    simp [ends]

namespace Session

/-- When evaluation succeeds, each operand is a decimal, a percentage of a whole number,
or values that percent signs with no digit in front of them part. These signs are the
remainders, and besides a leading minus sign the only signs are the operators behind
operands that end with one. Where there are none, operators are binary and percent
signs belong to percentages. -/
theorem reading_of_result {commands : List Command} {expression : List Char}
    (pending : (run {} commands).pending? = some expression)
    (succeeds : ((run {} commands).apply .equals).failed = false) :
    ∃ tokens tree value, Token.ofText (Percent.expand expression) = .ok tokens ∧
      Tree.Reads 0 tokens tree ∧ tree.Denotes value ∧
      (run {} commands).apply .equals =
        { result := some (Decimal.answerText value), expression := some expression } ∧
      (∀ operand ∈ operandsOf expression,
        IsDecimal operand ∨ IsPercent operand ∨ HoldsRemainder operand) ∧
      tree.remainders = ((operandsOf expression).map Percent.detached).sum ∧
      tree.signs = (if expression.head? = some '-' then 1 else 0) +
        (operandsOf expression).countP Percent.endsDetached ∧
      ((∀ operand ∈ operandsOf expression, Percent.detached operand = 0) →
        (∀ operand ∈ operandsOf expression, IsDecimal operand ∨ IsPercent operand) ∧
          tree.remainders = 0 ∧ tree.signs = if expression.head? = some '-' then 1 else 0) := by
  obtain ⟨line, entered, rfl⟩ := (valid_run commands).line_of_pending pending
  rw [apply_equals_of_pending? pending] at succeeds ⊢
  cases outcome : Expression.evaluate line.text with
  | error fault =>
      rw [outcome] at succeeds
      cases succeeds
  | ok answer =>
      obtain ⟨value, exact, _, rfl⟩ := Expression.exists_of_evaluate outcome
      obtain ⟨_, tokens, tree, read, reads, denotes⟩ := Expression.exactValue_eq_ok_iff.mp exact
      rw [(Line.plain_text fun operand member => (entered operand member).chars).1] at read
      obtain ⟨kinds, remainders, signs⟩ := entered.reading read reads
      rw [operandsOf_text entered]
      simp only [entered.head?_text]
      refine ⟨tokens, tree, value, read, reads, denotes, rfl, kinds, remainders, signs, ?_⟩
      intro none
      -- Without detached percent signs no operand holds remainders or ends with one.
      have absent := fun operand member => (none operand member).not_gt
      refine ⟨fun operand member => ?_, ?_, ?_⟩
      · exact (kinds operand member).imp_right fun other =>
          other.resolve_right fun holds => absent operand member holds.detached_pos
      · rw [remainders, List.sum_eq_zero (List.forall_mem_map.mpr none)]
      · rw [signs, List.countP_eq_zero.mpr fun operand member ends =>
          absent operand member (Percent.detached_pos_of_endsDetached ends), Nat.add_zero]

/-- The keys 5 . % - 3 divide five by minus three. -/
theorem reading_of_point_percent :
    ∃ tokens tree, Token.ofText (Percent.expand ['5', '.', '%', '-', '3']) = .ok tokens ∧
      Tree.Reads 0 tokens tree ∧ tree.remainders = 1 ∧ tree.signs = 1 := by
  have pending : (run {} [.digit '5', .point, .percent, .operator .sub, .digit '3']).pending? =
      some ['5', '.', '%', '-', '3'] := by decide
  obtain ⟨tokens, tree, _, read, reads, _, _, _, remainders, signs, _⟩ :=
    reading_of_result pending (by decide +kernel)
  have operands : operandsOf ['5', '.', '%', '-', '3'] = [['5', '.', '%'], ['3']] := by decide
  rw [operands] at remainders signs
  exact ⟨tokens, tree, read, reads, remainders.trans (by decide), signs.trans (by decide)⟩

/-- The operand 5.% is neither a decimal nor a percentage, and still there is a result. -/
theorem not_all_decimal_or_percent :
    ¬ ∀ (commands : List Command) (expression : List Char),
      (run {} commands).pending? = some expression →
      ((run {} commands).apply .equals).failed = false →
      ∀ operand ∈ operandsOf expression, IsDecimal operand ∨ IsPercent operand := by
  intro all
  have claimed := all [.digit '5', .point, .percent, .operator .sub, .digit '3']
    ['5', '.', '%', '-', '3'] (by decide) (by decide +kernel) ['5', '.', '%'] (by decide)
  rcases claimed with ⟨literal, wellFormed, _, same⟩ | ⟨digits, _, all, same⟩
  · have member : '%' ∈ literal.text := by rw [← same]; decide
    exact absurd (Decimal.Literal.isLiteralChar_of_mem_text wellFormed.digits member) (by decide)
  · have whole : ['5', '.'] = digits := List.append_inj_left' same rfl
    exact absurd (all '.' (by rw [← whole]; decide)) (by decide)

end Session

end PocketCalc
