import PocketCalc.Proofs.Token.Spelling

/-! Which operators of a sentence are signs, and which are remainders.

An operator is a sign exactly where a value is expected, and a percent sign
between tokens is a remainder wherever it stands (`Tree.Reads.prefixes`,
`Tree.Reads.count_rem`).
-/

set_option autoImplicit false

namespace PocketCalc

namespace Tree

def signs : Tree → Nat
  | num _ => 0
  | sign _ operand => operand.signs + 1
  | op _ left right => left.signs + right.signs

def remainders : Tree → Nat
  | num _ => 0
  | sign _ operand => operand.remainders
  | op operation left right =>
      left.remainders + right.remainders + if operation = .rem then 1 else 0

theorem Reads.count_rem {level : Nat} {tokens : List Token} {tree : Tree}
    (reads : Reads level tokens tree) : tokens.count (.op .rem) = tree.remainders := by
  induction reads with
  | num value => simp [remainders]
  | @signed op _ _ _ found _ ih =>
      have other : op ≠ .rem := by rintro rfl; cases found
      simpa [remainders, other] using ih
  | parens _ ih => simpa using ih
  | @binary op _ _ _ _ _ _ ihLeft ihRight =>
      by_cases rem : op = .rem
      · simp [remainders, ihLeft, ihRight, rem, Nat.add_assoc]
      · simp [remainders, ihLeft, ihRight, rem]
  | lift _ ih => exact ih

end Tree

namespace Token

/-- Whether a value ends with the tokens; before the first one, as it is told. -/
def endsAfter (before : Bool) (tokens : List Token) : Bool := (tokens.getLast?.map endsValue).getD before

/-- The operators that stand where no value ends. -/
def prefixes : Bool → List Token → List BinaryOp
  | _, [] => []
  | false, .op operation :: rest => operation :: prefixes false rest
  | _, token :: rest => prefixes token.endsValue rest

theorem endsAfter_of_last {tokens : List Token} {last : Token} (ends : last ∈ tokens.getLast?)
    (before : Bool) : endsAfter before tokens = last.endsValue := by
  rw [endsAfter, Option.mem_def.mp ends]
  rfl

theorem endsAfter_append (before : Bool) (first second : List Token) :
    endsAfter before (first ++ second) = endsAfter (endsAfter before first) second := by
  rcases List.eq_nil_or_concat second with rfl | ⟨init, last, rfl⟩
  · simp [endsAfter]
  · rw [List.concat_eq_append, ← List.append_assoc]
    simp [endsAfter]

theorem prefixes_append (before : Bool) (first second : List Token) :
    prefixes before (first ++ second) =
      prefixes before first ++ prefixes (endsAfter before first) second := by
  induction first generalizing before with
  | nil => rfl
  | cons token rest ih =>
      have ends : endsAfter before (token :: rest) = endsAfter token.endsValue rest :=
        endsAfter_append before [token] rest
      rw [ends, List.cons_append]
      cases before <;> cases token <;> simp [prefixes, ih, endsValue]

theorem mem_of_mem_prefixes {before : Bool} {tokens : List Token} {op : BinaryOp}
    (member : op ∈ prefixes before tokens) : .op op ∈ tokens := by
  induction tokens generalizing before with
  | nil => cases member
  | cons token rest ih =>
      cases before <;> cases token <;> simp only [prefixes, List.mem_cons] at member <;>
        first
        | exact List.mem_cons_of_mem _ (ih member)
        | exact member.elim (fun same => by simp [same]) fun later => List.mem_cons_of_mem _ (ih later)

end Token

/-- The operators where no value ends are the signs of the tree. -/
theorem Tree.Reads.prefixes {level : Nat} {tokens : List Token} {tree : Tree}
    (reads : Tree.Reads level tokens tree) :
    (Token.prefixes false tokens).length = tree.signs ∧
      (∀ op ∈ Token.prefixes false tokens, op.sign? ≠ none) ∧
      Token.endsAfter false tokens = true := by
  induction reads with
  | num value => simp [Token.prefixes, Token.endsAfter, Token.endsValue, signs]
  | @signed op sign tokens operand found _ ih =>
      obtain ⟨length, all, ends⟩ := ih
      refine ⟨by simp [Token.prefixes, signs, length], ?_, ?_⟩
      · simpa [Token.prefixes, found] using all
      · exact (Token.endsAfter_append false [.op op] tokens).trans ends
  | @parens tokens tree _ ih =>
      obtain ⟨length, all, ends⟩ := ih
      -- Behind the opening parenthesis no value ends, as in front of it.
      have inner : Token.prefixes false (.openParen :: tokens ++ [.closeParen]) =
          Token.prefixes false tokens := by
        change Token.prefixes false (tokens ++ [.closeParen]) = _
        rw [Token.prefixes_append, ends]
        exact List.append_nil _
      rw [inner]
      exact ⟨length, all, by rw [Token.endsAfter_append]; rfl⟩
  | @binary op left right _ _ _ _ ihLeft ihRight =>
      obtain ⟨lengthLeft, allLeft, endsLeft⟩ := ihLeft
      obtain ⟨lengthRight, allRight, endsRight⟩ := ihRight
      -- The left operand ends with a value, so the operator is binary.
      have both : Token.prefixes false (left ++ .op op :: right) =
          Token.prefixes false left ++ Token.prefixes false right := by
        rw [Token.prefixes_append, endsLeft]
        rfl
      have behind : Token.endsAfter false (left ++ .op op :: right) = Token.endsAfter false right := by
        rw [Token.endsAfter_append, endsLeft]
        exact Token.endsAfter_append true [.op op] right
      rw [both, behind]
      refine ⟨by simp [signs, lengthLeft, lengthRight], fun other member => ?_, endsRight⟩
      exact (List.mem_append.mp member).elim (allLeft other) (allRight other)
  | lift _ ih => exact ih

end PocketCalc
