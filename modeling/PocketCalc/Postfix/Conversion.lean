import PocketCalc.Token

/-! Postfix order by a stack of pending operations.

An operation waits until its right operand is complete; then all pending ones
that bind at least as tightly are put out before it starts to wait. A plus or
minus where a value is expected is a sign, which binds tightest.
-/

set_option autoImplicit false

namespace PocketCalc.Postfix

/-- What waits for its right operand, or for its closing parenthesis. -/
inductive Pending where
  | op (op : BinaryOp)
  | sign (sign : Sign)
  | paren
  deriving DecidableEq, Repr

namespace Pending

def token : Pending → Token
  | op operation => .op operation
  | sign mark => .sign mark
  | paren => .openParen

def bindsBefore (next : BinaryOp) : Pending → Bool
  | op operation => next.level ≤ operation.level
  | sign _ => true
  | paren => false

end Pending

structure Conversion where
  /-- Latest first. -/
  output : List Token := []
  /-- Innermost first. -/
  pending : List Pending := []
  /-- Whether the tokens read end with a value. -/
  afterValue : Bool := false
  deriving DecidableEq, Repr

namespace Conversion

/-- Put out the innermost pending operations as far as they satisfy the test. -/
def release (state : Conversion) (test : Pending → Bool) : Conversion :=
  { state with
    output := ((state.pending.takeWhile test).map Pending.token).reverse ++ state.output
    pending := state.pending.dropWhile test }

def step (state : Conversion) : Token → Except Fault Conversion
  | .num value =>
      if state.afterValue then .error .malformedExpression
      else .ok { state with output := .num value :: state.output, afterValue := true }
  | .openParen =>
      if state.afterValue then .error .malformedExpression
      else .ok { state with pending := .paren :: state.pending }
  | .closeParen =>
      if state.afterValue then
        let inner := state.release (· != .paren)
        match inner.pending with
        | _ :: outer => .ok { inner with pending := outer }
        | [] => .error .unexpectedClosing
      else .error .malformedExpression
  | .op op =>
      if state.afterValue then
        let outer := state.release (·.bindsBefore op)
        .ok { outer with pending := .op op :: outer.pending, afterValue := false }
      else match op.sign? with
        | some sign => .ok { state with pending := .sign sign :: state.pending }
        | none => .error .malformedExpression
  | .sign _ => .error .malformedExpression

/-- A missing last value is found before an open parenthesis. -/
def finish (state : Conversion) : Except Fault (List Token) :=
  if state.afterValue then
    if .paren ∈ state.pending then .error .unclosedParen
    else .ok (state.release fun _ => true).output.reverse
  else .error .malformedExpression

def read (tokens : List Token) : Except Fault Conversion := tokens.foldlM step {}

theorem read_concat (tokens : List Token) (last : Token) :
    read (tokens ++ [last]) = read tokens >>= (·.step last) := by
  simp only [read, List.foldlM_append, List.foldlM_cons, List.foldlM_nil, bind_pure]

end Conversion

def ofTokens (tokens : List Token) : Except Fault (List Token) :=
  if tokens.isEmpty then .error .emptyExpression else do (← Conversion.read tokens).finish

theorem ofTokens_of_ne_nil {tokens : List Token} (nonempty : tokens ≠ []) :
    ofTokens tokens = Conversion.read tokens >>= Conversion.finish := by
  rw [ofTokens, List.isEmpty_eq_false_iff.mpr nonempty, if_neg Bool.false_ne_true]

end PocketCalc.Postfix
