import PocketCalc.Expression
import PocketCalc.Proofs.Decimal.Text
import PocketCalc.Proofs.Expression.Percent
import PocketCalc.Proofs.Tree.Value

/-! What an evaluation answers, by the grammar and exact arithmetic.

The stages from text to value agree with a tree whose sentence the text is
(`exactValue_eq_ok_iff`); the answer is its value, rounded once.
-/

set_option autoImplicit false

namespace PocketCalc.Expression

open Decimal

/-- What does not tell a label from its symbol is the same of a text in plain symbols. -/
theorem apply_plainChar {A : Type} (f : Char → A) (product : f '*' = f '×') (quotient : f '/' = f '÷')
    (c : Char) : f (plainChar c) = f c := by
  unfold plainChar
  split
  · exact product
  · exact quotient
  · rfl

theorem inRanges_allowedRanges (c : Char) : Text.inRanges allowedRanges c = isAllowed c := by
  rw [Bool.eq_iff_iff]
  simp [allowedRanges, isAllowed]

/-- The text in plain symbols, if each of its characters is allowed. It may be empty. -/
def allowedText (text : List Char) : Except Fault (List Char) :=
  match (text.map plainChar).find? (!isAllowed ·) with
  | some c => .error (.forbiddenChar c)
  | none => .ok (text.map plainChar)

theorem find?_eq_none_iff {text : List Char} :
    text.find? (!isAllowed ·) = none ↔ ∀ c ∈ text, isAllowed c = true := by
  simp

theorem allowedText_eq_ok_iff {text plain : List Char} :
    allowedText text = .ok plain ↔
      (∀ c ∈ text.map plainChar, isAllowed c = true) ∧ plain = text.map plainChar := by
  rw [← find?_eq_none_iff, allowedText]
  cases (text.map plainChar).find? (!isAllowed ·) with
  | some c => simp
  | none => simp [eq_comm]

theorem allowedText_append (left right : List Char) :
    allowedText (left ++ right) = do return (← allowedText left) ++ (← allowedText right) := by
  simp only [allowedText, List.map_append, List.find?_append]
  cases (left.map plainChar).find? (!isAllowed ·) with
  | some c => rfl
  | none => cases (right.map plainChar).find? (!isAllowed ·) <;> rfl

/-- The pattern alone refuses the empty text. -/
theorem plainText_eq (text : List Char) :
    plainText text = if text = [] then .error .emptyExpression else allowedText text := by
  have fits : allowedPattern.fits (text.map plainChar) = true ↔
      text ≠ [] ∧ ∀ c ∈ text.map plainChar, isAllowed c = true := by
    rw [allowedPattern, Text.Pattern.fits_plus_finish_iff, ne_eq, List.map_eq_nil_iff]
    simp only [inRanges_allowedRanges]
  by_cases empty : text = []
  · subst empty
    rfl
  · rw [if_neg empty, plainText, allowedText]
    -- With a character to report the pattern does not fit, as it fits only where all are allowed.
    cases found : (text.map plainChar).find? (!isAllowed ·) with
    | none => rw [if_pos (fits.mpr ⟨empty, find?_eq_none_iff.mp found⟩)]
    | some c =>
        have other : ¬ allowedPattern.fits (text.map plainChar) = true := fun allowed => by
          rw [find?_eq_none_iff.mpr (fits.mp allowed).2] at found
          cases found
        rw [if_neg other]

/-- Later stages refuse the empty text as the first one does. -/
theorem exactValue_eq (text : List Char) :
    exactValue text = (do
      let plain ← allowedText text
      let tokens ← Token.ofText (Percent.expand plain)
      Postfix.value (← Postfix.ofTokens tokens)) := by
  rw [exactValue, plainText_eq]
  split
  · next empty =>
      rw [empty]
      decide +kernel
  · rfl

theorem exactValue_of_reads {text : List Char} {tokens : List Token} {tree : Tree}
    (allowed : ∀ c ∈ text.map plainChar, isAllowed c = true)
    (read : Token.ofText (Percent.expand (text.map plainChar)) = .ok tokens)
    (reads : Tree.Reads 0 tokens tree) : exactValue text = tree.value := by
  rw [exactValue_eq, allowedText_eq_ok_iff.mpr ⟨allowed, rfl⟩, Outcome.ok_bind, read, Outcome.ok_bind,
    Postfix.ofTokens_of_reads reads, Outcome.ok_bind, Postfix.value_toPostfix]

theorem exactValue_eq_ok_iff {text : List Char} {value : Rat} :
    exactValue text = .ok value ↔
      (∀ c ∈ text.map plainChar, isAllowed c = true) ∧
        ∃ tokens tree, Token.ofText (Percent.expand (text.map plainChar)) = .ok tokens ∧
          Tree.Reads 0 tokens tree ∧ tree.Denotes value := by
  constructor
  · intro evaluated
    rw [exactValue_eq] at evaluated
    obtain ⟨plain, isPlain, rest⟩ := Outcome.bind_eq_ok_iff.mp evaluated
    obtain ⟨tokens, read, rest⟩ := Outcome.bind_eq_ok_iff.mp rest
    obtain ⟨output, converted, valued⟩ := Outcome.bind_eq_ok_iff.mp rest
    obtain ⟨allowed, rfl⟩ := allowedText_eq_ok_iff.mp isPlain
    obtain ⟨tree, reads, rfl⟩ := Postfix.reads_of_ofTokens converted
    rw [Postfix.value_toPostfix] at valued
    exact ⟨allowed, tokens, tree, read, reads, Tree.value_eq_ok_iff.mp valued⟩
  · rintro ⟨allowed, tokens, tree, read, reads, denotes⟩
    rw [exactValue_of_reads allowed read reads]
    exact denotes.value_eq

theorem evaluate_of_exactValue {text : List Char} {value : Rat} (exact : exactValue text = .ok value) :
    evaluate text = if InRange value then .ok ⟨round value precision, answerText value⟩
      else .error .notFinite := by
  rw [evaluate, exact]; rfl

theorem evaluate_of_error {text : List Char} {fault : Fault} (failed : exactValue text = .error fault) :
    evaluate text = .error fault := by
  rw [evaluate, failed]; rfl

theorem exists_of_evaluate {text : List Char} {answer : Answer} (evaluated : evaluate text = .ok answer) :
    ∃ value, exactValue text = .ok value ∧ InRange value ∧
      answer = ⟨round value precision, answerText value⟩ := by
  obtain ⟨value, exact, _⟩ := Outcome.bind_eq_ok_iff.mp evaluated
  rw [evaluate_of_exactValue exact] at evaluated
  split at evaluated
  · next inRange => exact ⟨value, exact, inRange, (Except.ok.inj evaluated).symm⟩
  · cases evaluated

theorem isText_of_evaluate {text : List Char} {answer : Answer} (evaluated : evaluate text = .ok answer) :
    IsText answer.text answer.value := by
  obtain ⟨value, _, _, rfl⟩ := exists_of_evaluate evaluated
  exact isText_answerText value

theorem inRange_of_evaluate {text : List Char} {answer : Answer} (evaluated : evaluate text = .ok answer) :
    InRange answer.value := by
  obtain ⟨value, _, inRange, rfl⟩ := exists_of_evaluate evaluated
  exact inRange_round (by decide) inRange

/-! ## Sentences -/

/-- The text spells a sentence of the grammar, with white space between tokens. -/
def Sentence (text : List Char) (tree : Tree) : Prop :=
  ∃ tokens, Token.Written text tokens ∧ Tree.Reads 0 tokens tree

theorem sentence_iff {text : List Char} {tree : Tree} (short : ShortFractions text) :
    Sentence text tree ↔ ∃ tokens, Token.ofText text = .ok tokens ∧ Tree.Reads 0 tokens tree := by
  constructor
  · rintro ⟨tokens, written, reads⟩
    exact ⟨tokens, Token.ofText_of_written written reads.apart short, reads⟩
  · rintro ⟨tokens, read, reads⟩
    exact ⟨tokens, Token.written_of_ofText short read, reads⟩

theorem Sentence.unique {text : List Char} {first second : Tree} (short : ShortFractions text)
    (one : Sentence text first) (other : Sentence text second) : first = second := by
  obtain ⟨tokens, read, reads⟩ := (sentence_iff short).mp one
  obtain ⟨tokens', read', reads'⟩ := (sentence_iff short).mp other
  rw [read] at read'
  cases read'
  exact reads.unique reads'

/-- An expression has an answer exactly when its characters are allowed and,
percent literals rewritten, it is a sentence whose value exists and is in range.
The answer is that value, rounded half away from zero to twelve places. -/
theorem evaluate_eq_ok_iff {text expanded : List Char}
    (rewritten : Percent.Rewrites (text.map plainChar) expanded) (short : ShortFractions expanded)
    (answer : Answer) :
    evaluate text = .ok answer ↔
      (∀ c ∈ text.map plainChar, isAllowed c = true) ∧
        ∃ tree value, Sentence expanded tree ∧ (∀ other, Sentence expanded other → other = tree) ∧
          tree.Denotes value ∧ |value| ≤ 2 ^ 1024 - 2 ^ 971 ∧
          IsNearest value 12 answer.value ∧ IsText answer.text answer.value := by
  cases Percent.rewrites_iff.mp rewritten
  rw [← largest_eq]
  constructor
  · intro evaluated
    obtain ⟨value, exact, inRange, rfl⟩ := exists_of_evaluate evaluated
    obtain ⟨allowed, tokens, tree, read, reads, denotes⟩ := exactValue_eq_ok_iff.mp exact
    have sentence := (sentence_iff short).mpr ⟨tokens, read, reads⟩
    exact ⟨allowed, tree, value, sentence, fun other isOther => isOther.unique short sentence, denotes,
      inRange_iff.mp inRange, (isNearest_iff (by decide)).mpr rfl, isText_answerText value⟩
  · rintro ⟨allowed, tree, value, sentence, _, denotes, bounded, nearest, isText⟩
    obtain ⟨tokens, read, reads⟩ := (sentence_iff short).mp sentence
    have exact := exactValue_eq_ok_iff.mpr ⟨allowed, tokens, tree, read, reads, denotes⟩
    rw [evaluate_of_exactValue exact, if_pos (inRange_iff.mpr bounded)]
    have rounded := (isNearest_iff (by decide)).mp nearest
    rw [rounded] at isText
    obtain ⟨answerValue, text⟩ := answer
    cases rounded
    cases isText.unique (isText_answerText value)
    rfl

theorem evaluate_five_percent :
    Percent.Rewrites (['5', '%'].map plainChar) ['(', '5', '/', '1', '0', '0', ')'] ∧
      ShortFractions ['(', '5', '/', '1', '0', '0', ')'] ∧
      evaluate ['5', '%'] = .ok ⟨1 / 20, ['0', '.', '0', '5']⟩ := by
  have rewritten : Percent.Rewrites (['5', '%'].map plainChar) ['(', '5', '/', '1', '0', '0', ')'] :=
    have percent : Percent.Rewrites (['5'] ++ ([] ++ ['%'])) (Percent.hundredths ['5'] ++ []) :=
      .percent (by simp) (by simp) (by simp) .done
    percent
  have short : ShortFractions ['(', '5', '/', '1', '0', '0', ')'] :=
    shortFractions_of_length (by decide)
  have sentence : Sentence ['(', '5', '/', '1', '0', '0', ')'] (.op .div (.num 5) (.num 100)) :=
    (sentence_iff short).mpr ⟨[.openParen, .num 5, .op .div, .num 100, .closeParen],
      by decide +kernel, .lift (.lift (Tree.reads_hundredth 5))⟩
  have rounded : round (5 / 100) precision = 1 / 20 := by decide +kernel
  have text : answerText (5 / 100) = ['0', '.', '0', '5'] := by decide +kernel
  have isText := isText_answerText (5 / 100)
  rw [rounded, text] at isText
  have allowed : ∀ c ∈ ['5', '%'].map plainChar, isAllowed c = true := by simp [plainChar, isAllowed]
  refine ⟨rewritten, short, (evaluate_eq_ok_iff rewritten short _).mpr ⟨allowed, _, _, sentence,
    fun other isOther => isOther.unique short sentence,
    .div (.num 5) (.num 100) (by norm_num), ?_, ?_, isText⟩⟩
  · rw [← largest_eq]
    decide +kernel
  · exact (isNearest_iff (by decide)).mpr rounded.symm

end PocketCalc.Expression
