import PocketCalc.Proofs.Expression.Evaluation

/-! A subexpression in parentheses stands for its value.

Neither percent literals, literals nor pending operations cross a parenthesis,
so around one that has a value the rest of the text is read as around a number
of that value (`Expression.exactValue_parens`).
-/

set_option autoImplicit false

namespace PocketCalc

namespace Postfix

namespace Conversion

/-- The state with more output before its own. -/
def onto (output : List Token) (state : Conversion) : Conversion :=
  { state with output := state.output ++ output }

@[simp] theorem pending_onto (output : List Token) (state : Conversion) :
    (state.onto output).pending = state.pending := rfl

@[simp] theorem afterValue_onto (output : List Token) (state : Conversion) :
    (state.onto output).afterValue = state.afterValue := rfl

@[simp] theorem release_onto (output : List Token) (state : Conversion) (test : Pending → Bool) :
    (state.onto output).release test = (state.release test).onto output := by
  simp [release, onto]

/-- What has been put out is never looked at again. -/
theorem step_onto (output : List Token) (state : Conversion) (token : Token) :
    (state.onto output).step token = do return (← state.step token).onto output := by
  cases token with
  | num value => cases after : state.afterValue <;> simp [step, after, onto]
  | openParen => cases after : state.afterValue <;> simp [step, after, onto]
  | closeParen =>
      cases after : state.afterValue with
      | false => simp [step, after]
      | true =>
          simp only [step, afterValue_onto, after, if_true, release_onto, pending_onto]
          cases (state.release (· != .paren)).pending with
          | nil => rfl
          | cons top outer => rfl
  | op op =>
      cases after : state.afterValue with
      | false => cases sign : op.sign? <;> simp [step, after, sign, onto]
      | true =>
          simp only [step, afterValue_onto, after, if_true, release_onto, pending_onto]
          rfl
  | sign mark => rfl

theorem foldlM_step_onto (output : List Token) (tokens : List Token) (state : Conversion) :
    tokens.foldlM step (state.onto output) = do return (← tokens.foldlM step state).onto output := by
  induction tokens generalizing state with
  | nil => rfl
  | cons token tokens ih =>
      rw [List.foldlM_cons, List.foldlM_cons, step_onto]
      cases state.step token with
      | error fault => rfl
      | ok next => exact ih next

theorem finish_onto (output : List Token) (state : Conversion) :
    (state.onto output).finish = do return output.reverse ++ (← state.finish) := by
  rw [finish, finish, afterValue_onto, pending_onto, release_onto]
  split
  · split
    · rfl
    · simp [onto]
  · rfl

end Conversion

/-- The value of a token list, by way of its postfix order. -/
def valueOf (tokens : List Token) : Except Fault Rat := ofTokens tokens >>= value

theorem value_onto {first second : List Token} (rest : List Token) (state : Conversion)
    (same : first.reverse.foldlM step [] = second.reverse.foldlM step []) :
    (rest.foldlM Conversion.step (state.onto first) >>= Conversion.finish >>= value) =
      (rest.foldlM Conversion.step (state.onto second) >>= Conversion.finish >>= value) := by
  rw [Conversion.foldlM_step_onto, Conversion.foldlM_step_onto]
  cases rest.foldlM Conversion.step state with
  | error fault => rfl
  | ok last =>
      simp only [Outcome.ok_bind, Outcome.pure_eq_ok, Conversion.finish_onto]
      cases last.finish with
      | error fault => rfl
      | ok tokens =>
          simp only [Outcome.ok_bind, value, List.foldlM_append, same]

theorem valueOf_parens {tokens : List Token} {tree : Tree} {number : Rat}
    (reads : Tree.Reads 0 tokens tree) (valued : tree.value = .ok number)
    (before behind : List Token) :
    valueOf (before ++ (.openParen :: tokens ++ [.closeParen] ++ behind)) =
      valueOf (before ++ .num number :: behind) := by
  rw [valueOf, valueOf, ofTokens_of_ne_nil (by simp), ofTokens_of_ne_nil (by simp), Conversion.read,
    Conversion.read, List.foldlM_append, List.foldlM_append]
  cases before.foldlM Conversion.step {} with
  | error fault => rfl
  | ok state =>
      obtain ⟨output, pending, after⟩ := state
      cases after with
      | true => rfl
      | false =>
          -- Both leave the state as it was, with a value in front of the output.
          obtain ⟨own, out, run, tight, spelled⟩ :=
            Conversion.foldlM_step_of_reads reads output (.paren :: pending) (by simp [Pending.Loose])
          have enclosed := Conversion.foldlM_step_parens run tight
          rw [spelled] at enclosed
          have same : (tree.toPostfix.reverse ++ output).reverse.foldlM step [] =
              (Token.num number :: output).reverse.foldlM step [] := by
            rw [List.reverse_append, List.reverse_reverse, List.reverse_cons, List.foldlM_append,
              List.foldlM_append]
            refine congrArg (output.reverse.foldlM step [] >>= ·) (funext fun stack => ?_)
            rw [foldlM_step_toPostfix, valued]
            rfl
          rw [Outcome.ok_bind, Outcome.ok_bind, List.foldlM_append, enclosed]
          exact value_onto behind ⟨[], pending, true⟩ same

end Postfix

/-! ## Text -/

theorem Percent.expand_parens (before inner behind : List Char) :
    expand (before ++ '(' :: (inner ++ ')' :: behind)) =
      expand before ++ '(' :: (expand inner ++ ')' :: expand behind) := by
  have opening : Seam before ('(' :: (inner ++ ')' :: behind)) :=
    seam_of_head fun next head => by cases head; decide
  have closing : Seam inner (')' :: behind) := seam_of_head fun next head => by cases head; decide
  rw [expand_append opening, expand_of_not_digit rfl, expand_append closing, expand_of_not_digit rfl]

theorem Token.ofText_parens (before inner behind : List Char) :
    ofText (before ++ '(' :: (inner ++ ')' :: behind)) = do
      let first ← ofText before
      let middle ← ofText inner
      let last ← ofText behind
      return first ++ (.openParen :: middle ++ [.closeParen] ++ last) := by
  have opening : Cut before ('(' :: (inner ++ ')' :: behind)) :=
    cut_of_head fun next head => by cases head; decide
  have closing : Cut inner (')' :: behind) := cut_of_head fun next head => by cases head; decide
  rw [ofText_append opening, ofText_cons_symbol rfl, ofText_append closing, ofText_cons_symbol rfl]
  simp

namespace Expression

theorem allowedText_parens {inner plain : List Char} (isPlain : allowedText inner = .ok plain)
    (before behind : List Char) :
    allowedText (before ++ '(' :: (inner ++ ')' :: behind)) = do
      return (← allowedText before) ++ '(' :: (plain ++ ')' :: (← allowedText behind)) := by
  have opening : allowedText ['('] = .ok ['('] := rfl
  have closing : allowedText [')'] = .ok [')'] := rfl
  rw [allowedText_append, ← List.singleton_append, allowedText_append, allowedText_append,
    ← List.singleton_append (x := ')'), allowedText_append, opening, closing, isPlain]
  simp

theorem exactValue_parens {inner : List Char} {number : Rat} (exact : exactValue inner = .ok number)
    (before behind : List Char) :
    exactValue (before ++ '(' :: (inner ++ ')' :: behind)) = (do
      let left ← allowedText before
      let right ← allowedText behind
      let first ← Token.ofText (Percent.expand left)
      let last ← Token.ofText (Percent.expand right)
      Postfix.valueOf (first ++ .num number :: last)) := by
  obtain ⟨allowed, tokens, tree, read, reads, denotes⟩ := exactValue_eq_ok_iff.mp exact
  have isPlain := allowedText_eq_ok_iff.mpr ⟨allowed, rfl⟩
  simp only [exactValue_eq, allowedText_parens isPlain, Percent.expand_parens, Token.ofText_parens, read,
    Outcome.ok_bind, Outcome.pure_eq_ok, bind_assoc]
  simp only [← Postfix.valueOf_parens reads denotes.value_eq]
  rfl

/-- Expressions of one exact value are interchangeable in parentheses, whatever stands around
them, and whether the whole has an answer or a fault. -/
theorem evaluate_parens_congr {first second : List Char} {value : Rat}
    (firstValue : exactValue first = .ok value) (secondValue : exactValue second = .ok value)
    (before behind : List Char) :
    evaluate (before ++ '(' :: (first ++ ')' :: behind)) =
      evaluate (before ++ '(' :: (second ++ ')' :: behind)) := by
  rw [evaluate, evaluate, exactValue_parens firstValue, exactValue_parens secondValue]

theorem evaluate_parens_of_two_thirds :
    exactValue "1/3+1/3".toList = .ok (2 / 3) ∧ exactValue "2/3".toList = .ok (2 / 3) ∧
      evaluate "3*-(1/3+1/3)+5%".toList = .ok ⟨-39 / 20, "-1.95".toList⟩ ∧
      evaluate "1/0)(1/3+1/3)".toList = .error .unexpectedClosing := by
  have sum : exactValue "1/3+1/3".toList = .ok (2 / 3) := by decide +kernel
  have quotient : exactValue "2/3".toList = .ok (2 / 3) := by decide +kernel
  have answered : evaluate "3*-(2/3)+5%".toList = .ok ⟨-39 / 20, "-1.95".toList⟩ := by decide +kernel
  have refused : evaluate "1/0)(2/3)".toList = .error .unexpectedClosing := by decide +kernel
  exact ⟨sum, quotient, (evaluate_parens_congr sum quotient "3*-".toList "+5%".toList).trans answered,
    (evaluate_parens_congr sum quotient "1/0)".toList []).trans refused⟩

end Expression

end PocketCalc
