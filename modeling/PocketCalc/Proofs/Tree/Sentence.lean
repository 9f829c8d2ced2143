import PocketCalc.Proofs.Tree.Reading

/-! Conversion to postfix order accepts the sentences of the grammar, and nothing else.

A sentence denotes one tree, and what is put out for it is the postfix form of
that tree (`Postfix.ofTokens_eq_ok_iff`): the numbers stay in order, and the
parentheses are gone.
-/

set_option autoImplicit false

namespace PocketCalc

def Token.number? : Token → Option Rat
  | num value => some value
  | op _ | sign _ | openParen | closeParen => none

namespace Tree

def numbers : Tree → List Rat
  | num value => [value]
  | sign _ operand => operand.numbers
  | op _ left right => left.numbers ++ right.numbers

theorem numbers_toPostfix (tree : Tree) : tree.toPostfix.filterMap Token.number? = tree.numbers := by
  induction tree with
  | num value => rfl
  | sign mark operand ih => simp [toPostfix, numbers, Token.number?, ih]
  | op operation left right ihLeft ihRight =>
      simp [toPostfix, numbers, Token.number?, ihLeft, ihRight]

theorem paren_not_mem_toPostfix (tree : Tree) :
    .openParen ∉ tree.toPostfix ∧ .closeParen ∉ tree.toPostfix := by
  induction tree with
  | num value => simp [toPostfix]
  | sign mark operand ih => simpa [toPostfix] using ih
  | op operation left right ihLeft ihRight => simp [toPostfix, ihLeft, ihRight]

variable {level : Nat} {tokens : List Token} {tree : Tree}

theorem Reads.numbers (reads : Reads level tokens tree) :
    tokens.filterMap Token.number? = tree.numbers := by
  induction reads with
  | num value => rfl
  | signed _ _ ih => simpa [List.filterMap_cons, Token.number?, Tree.numbers] using ih
  | parens _ ih => simpa [List.filterMap_cons, Token.number?] using ih
  | binary _ _ ihLeft ihRight =>
      simp [List.filterMap_cons, Token.number?, Tree.numbers, ihLeft, ihRight]
  | lift _ ih => exact ih

theorem Reads.sign_not_mem (reads : Reads level tokens tree) (mark : Sign) : .sign mark ∉ tokens := by
  induction reads with
  | num value => simp
  | signed _ _ ih => simpa using ih
  | parens _ ih => simpa using ih
  | binary _ _ ihLeft ihRight => simp [ihLeft, ihRight]
  | lift _ ih => exact ih

end Tree

namespace Postfix

/-- Any tokens are converted exactly if they are a sentence, and then to the postfix form of
the one tree that the sentence denotes. No mark of postfix order is written in a sentence. In
what is put out the numbers have kept their order, and there are no parentheses. -/
theorem ofTokens_eq_ok_iff (tokens output : List Token) :
    (ofTokens tokens = .ok output ↔
      ∃ tree, (∀ other, Tree.Reads 0 tokens other ↔ other = tree) ∧ output = tree.toPostfix) ∧
    (ofTokens tokens = .ok output →
      (∀ mark, .sign mark ∉ tokens) ∧
      output.filterMap Token.number? = tokens.filterMap Token.number? ∧
      .openParen ∉ output ∧ .closeParen ∉ output) := by
  refine ⟨⟨fun converted => ?_, fun ⟨tree, denoted, same⟩ => ?_⟩, fun converted => ?_⟩
  · obtain ⟨tree, reads, same⟩ := reads_of_ofTokens converted
    exact ⟨tree, fun other => ⟨fun reads' => reads'.unique reads, fun equal => equal ▸ reads⟩, same⟩
  · rw [same]
    exact ofTokens_of_reads ((denoted tree).mpr rfl)
  · obtain ⟨tree, reads, rfl⟩ := reads_of_ofTokens converted
    have numbers := tree.numbers_toPostfix.trans reads.numbers.symm
    exact ⟨reads.sign_not_mem, numbers, tree.paren_not_mem_toPostfix⟩

/-- Two signs in front of a group, a remainder of it, and differences from left to right:
8 - - + (1 + 2) % 5 - 4. -/
theorem ofTokens_of_signed_remainder :
    let sentence : List Token := [.num 8, .op .sub, .op .sub, .op .add, .openParen, .num 1, .op .add,
      .num 2, .closeParen, .op .rem, .num 5, .op .sub, .num 4]
    let output : List Token := [.num 8, .num 1, .num 2, .op .add, .sign .plus, .sign .minus, .num 5,
      .op .rem, .op .sub, .num 4, .op .sub]
    let group : Tree := .op .add (.num 1) (.num 2)
    let remainder : Tree := .op .rem (.sign .minus (.sign .plus group)) (.num 5)
    ofTokens sentence = .ok output ∧
      (∀ tree, Tree.Reads 0 sentence tree ↔ tree = .op .sub (.op .sub (.num 8) remainder) (.num 4)) ∧
      output.filterMap Token.number? = sentence.filterMap Token.number? := by
  intro sentence output group remainder
  have converted : ofTokens sentence = .ok output := by rfl
  obtain ⟨whole, kept⟩ := ofTokens_eq_ok_iff sentence output
  obtain ⟨denoted, denotes, same⟩ := whole.mp converted
  obtain ⟨_, inOrder, _⟩ := kept converted
  have expected : denoted = .op .sub (.op .sub (.num 8) remainder) (.num 4) :=
    Tree.toPostfix_injective same.symm
  exact ⟨converted, expected ▸ denotes, inOrder⟩

end Postfix

end PocketCalc
