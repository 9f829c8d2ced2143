import PocketCalc.Tree

/-! The grammar of token lists, each sentence with the tree it denotes. -/

set_option autoImplicit false

namespace PocketCalc.Tree

/-- Sentences by level: sums at 0, products at 1, signed values at 2. A binary
operation takes its right operand from the next level, so it associates to
the left. -/
inductive Reads : Nat → List Token → Tree → Prop where
  | num (value : Rat) : Reads 2 [.num value] (.num value)
  | signed {op : BinaryOp} {sign : Sign} {tokens : List Token} {operand : Tree} :
      op.sign? = some sign → Reads 2 tokens operand →
      Reads 2 (.op op :: tokens) (.sign sign operand)
  | parens {tokens : List Token} {tree : Tree} :
      Reads 0 tokens tree → Reads 2 (.openParen :: tokens ++ [.closeParen]) tree
  | binary {op : BinaryOp} {left right : List Token} {leftTree rightTree : Tree} :
      Reads op.level left leftTree → Reads (op.level + 1) right rightTree →
      Reads op.level (left ++ .op op :: right) (.op op leftTree rightTree)
  | lift {level : Nat} {tokens : List Token} {tree : Tree} :
      Reads (level + 1) tokens tree → Reads level tokens tree

end PocketCalc.Tree
