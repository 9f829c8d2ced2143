import PocketCalc.Proofs.Tree.Balance
import PocketCalc.Proofs.Tree.Sentence

/-! What waits, and what has been put out, after each token of a conversion to postfix order.

Between two parentheses wait at most one sum, then at most one product, then signs
(`Postfix.Segment`): what binds tighter waits for less. Each operation that waits has its left
operand in the output, so only a value that has just ended is a number more than there are
operations (`Postfix.Conversion.Invariant`).
-/

set_option autoImplicit false

namespace PocketCalc

def Token.isBinary : Token → Bool
  | op _ => true
  | num _ | sign _ | openParen | closeParen => false

theorem Tree.length_numbers (tree : Tree) :
    tree.numbers.length = tree.toPostfix.countP Token.isBinary + 1 := by
  induction tree with
  | num value => rfl
  | sign mark operand ih => simpa [numbers, toPostfix, Token.isBinary] using ih
  | op operation left right ihLeft ihRight =>
      simp only [numbers, toPostfix, List.length_append, ihLeft, ihRight, List.countP_append,
        List.countP_singleton, Token.isBinary, if_true]
      omega

theorem Tree.length_numbers_append (tree : Tree) (output : List Token) :
    ((tree.toPostfix.reverse ++ output).filterMap Token.number?).length + output.countP Token.isBinary =
      (output.filterMap Token.number?).length +
        (tree.toPostfix.reverse ++ output).countP Token.isBinary + 1 := by
  rw [List.filterMap_append, List.filterMap_reverse, tree.numbers_toPostfix, List.length_append,
    List.length_reverse, tree.length_numbers, List.countP_append, List.countP_reverse]
  omega

namespace Postfix

/-- Operations that wait together between two parentheses. -/
structure Segment where
  signs : List Sign
  product : Option BinaryOp
  sum : Option BinaryOp
  product_level : ∀ op ∈ product, op.level = 1
  sum_level : ∀ op ∈ sum, op.level = 0

namespace Segment

def pending (segment : Segment) : List Pending :=
  segment.signs.map .sign ++ ((segment.product.map .op).toList ++ (segment.sum.map .op).toList)

def empty : Segment := ⟨[], none, none, by simp, by simp⟩

def pushSign (segment : Segment) (sign : Sign) : Segment :=
  { segment with signs := sign :: segment.signs }

theorem exists_push (segment : Segment) {op : BinaryOp}
    (loose : ∀ waiting ∈ segment.pending, waiting.Loose op.level) :
    ∃ larger : Segment, larger.pending = .op op :: segment.pending := by
  obtain ⟨signs, product, sum, isProduct, isSum⟩ := segment
  have bound := op.level_le_one
  have noSigns : signs = [] := List.eq_nil_iff_forall_not_mem.mpr fun sign member => by
    have tight : 2 ≤ op.level := loose (.sign sign) (by simp [pending, member])
    omega
  have noProduct : product = none := Option.eq_none_iff_forall_ne_some.mpr fun other found => by
    have lower : other.level < op.level := loose (.op other) (by simp [pending, found])
    have level := isProduct other found
    omega
  subst noSigns noProduct
  -- A product waits on top of a sum, and a sum on top of nothing.
  by_cases binds : op.level = 1
  · exact ⟨⟨[], some op, sum, by simpa using binds, isSum⟩, rfl⟩
  · have noSum : sum = none := Option.eq_none_iff_forall_ne_some.mpr fun other found => by
      have lower : other.level < op.level := loose (.op other) (by simp [pending, found])
      omega
    subst noSum
    have level : op.level = 0 := by omega
    exact ⟨⟨[], none, some op, by simp, by simpa using level⟩, rfl⟩

end Segment

namespace Conversion

variable {level : Nat} {tokens output : List Token} {pending : List Pending}

/-- What waits behind the last open parenthesis claims no operand that is expected. -/
theorem Expects.segments (expects : Expects level tokens pending output) :
    ∃ (top : Segment) (outer : List (List Pending)), pending.splitOn .paren = top.pending :: outer ∧
      (∀ waiting ∈ top.pending, waiting.Loose level) ∧
      ∀ piece ∈ outer, ∃ segment : Segment, segment.pending = piece := by
  -- Only the top segment grows, and an opening parenthesis starts a new one on it.
  induction expects with
  | start => exact ⟨.empty, [], rfl, List.forall_mem_nil _, List.forall_mem_nil _⟩
  | @paren level tokens output pending _ ih =>
      obtain ⟨top, outer, split, _, others⟩ := ih
      refine ⟨.empty, top.pending :: outer, ?_, List.forall_mem_nil _,
        List.forall_mem_cons.mpr ⟨⟨top, rfl⟩, others⟩⟩
      rw [List.splitOn_cons_eq_if_modifyHead, split]
      rfl
  | @sign level tokens output pending op sign expects _ ih =>
      obtain ⟨top, outer, split, loose, others⟩ := ih
      refine ⟨top.pushSign sign, outer, ?_, ?_, others⟩
      · rw [List.splitOn_cons_eq_if_modifyHead, split]
        rfl
      · exact List.forall_mem_cons.mpr
          ⟨Nat.le_refl 2, fun waiting member => (loose waiting member).mono expects.level_le⟩
  | @op level tokens left output pending op tree _ le _ ih =>
      obtain ⟨top, outer, split, loose, others⟩ := ih
      obtain ⟨larger, same⟩ := top.exists_push fun waiting member => (loose waiting member).mono le
      refine ⟨larger, outer, ?_, ?_, others⟩
      · rw [List.splitOn_cons_eq_if_modifyHead, split, same]
        rfl
      · rw [same]
        exact List.forall_mem_cons.mpr ⟨Nat.lt_succ_self _,
          fun waiting member => (loose waiting member).mono (Nat.le_succ_of_le le)⟩

theorem Expects.forall_segment (expects : Expects level tokens pending output) :
    ∀ piece ∈ pending.splitOn .paren, ∃ segment : Segment, segment.pending = piece := by
  obtain ⟨top, outer, split, _, others⟩ := expects.segments
  rw [split]
  exact List.forall_mem_cons.mpr ⟨⟨top, rfl⟩, others⟩

theorem Expects.length_numbers (expects : Expects level tokens pending output) :
    (output.filterMap Token.number?).length =
      output.countP Token.isBinary + (pending.map Pending.token).countP Token.isBinary := by
  induction expects with
  | start => rfl
  | paren _ ih => exact ih
  | sign _ _ ih => exact ih
  | @op level tokens left output pending op tree _ _ _ ih =>
      have operand := tree.length_numbers_append output
      rw [List.map_cons, List.countP_cons_of_pos rfl]
      omega

theorem Expects.paren_not_mem (expects : Expects level tokens pending output) :
    .openParen ∉ output ∧ .closeParen ∉ output := by
  induction expects with
  | start => exact ⟨List.not_mem_nil, List.not_mem_nil⟩
  | paren _ ih => exact ih
  | sign _ _ ih => exact ih
  | @op level tokens left output pending op tree _ _ _ ih =>
      simpa [ih] using tree.paren_not_mem_toPostfix

/-- What the stack and the output hold after some tokens. -/
structure Invariant (tokens : List Token) (state : Conversion) : Prop where
  segments : ∀ piece ∈ state.pending.splitOn .paren, ∃ segment : Segment, segment.pending = piece
  open_parens : tokens.count .closeParen + state.pending.count .paren = tokens.count .openParen
  /-- A number is put out for each operation that is put out or waits, and one more for the value
  that ends with the tokens. -/
  numbers : (state.output.filterMap Token.number?).length =
    state.output.countP Token.isBinary + (state.pending.map Pending.token).countP Token.isBinary +
      if state.afterValue then 1 else 0
  paren_not_mem : .openParen ∉ state.output ∧ .closeParen ∉ state.output

/-- The invariant holds of any tokens, as far as they are read: before the first of them and
after each that is not refused. -/
theorem invariant_of_read {tokens : List Token} {state : Conversion} (run : read tokens = .ok state) :
    Invariant tokens state := by
  have parens := count_paren_of_read run
  cases follows_of_read run with
  | operand expects =>
      exact ⟨expects.forall_segment, parens, expects.length_numbers, expects.paren_not_mem⟩
  | value holds =>
      obtain @⟨level, high, tokens, last, output, pending, tree, expects, _, _, _⟩ := holds
      have operands := expects.length_numbers
      have value := tree.length_numbers_append output
      refine ⟨expects.forall_segment, parens, ?_, ?_⟩
      · simp only [if_true]
        omega
      · simpa [expects.paren_not_mem] using tree.paren_not_mem_toPostfix

/-- Inside a parenthesis a sign waits on a product, and that on a sum: 8 - (2 + 3 * - -/
theorem invariant_of_open_product :
    let tokens : List Token :=
      [.num 8, .op .sub, .openParen, .num 2, .op .add, .num 3, .op .mul, .op .sub]
    let state : Conversion := ⟨[.num 3, .num 2, .num 8],
      [.sign .minus, .op .mul, .op .add, .paren, .op .sub], false⟩
    read tokens = .ok state ∧ Invariant tokens state ∧
      ∃ segment : Segment, segment.pending = [.sign .minus, .op .mul, .op .add] := by
  intro tokens state
  have run : read tokens = .ok state := by rfl
  have kept := invariant_of_read run
  exact ⟨run, kept, kept.segments _ List.mem_cons_self⟩

end Conversion

end Postfix

end PocketCalc
