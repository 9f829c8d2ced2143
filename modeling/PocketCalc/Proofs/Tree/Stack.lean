import Mathlib.Data.List.Induction
import PocketCalc.Proofs.Tree.Reading
import PocketCalc.Proofs.Tree.Value

/-! Which token lists have a value in postfix order.

What a run leaves on the stack are the values of trees whose postfix forms
have been read one after the other (`Postfix.leaves_of_run`). So a list has a
value exactly if it is the postfix form of a tree with that value
(`Postfix.value_eq_ok_iff`).
-/

set_option autoImplicit false

namespace PocketCalc.Postfix

/-- Postfix forms of trees one after the other, with the values of the trees, latest first. -/
inductive Leaves : List Token → List Rat → Prop where
  | nothing : Leaves [] []
  | more {tokens : List Token} {stack : List Rat} {tree : Tree} {value : Rat} :
      Leaves tokens stack → tree.value = .ok value → Leaves (tokens ++ tree.toPostfix) (value :: stack)

/-- A token is a tree of its own, or completes one with the latest trees as its operands. -/
theorem Leaves.step {tokens : List Token} {stack next : List Rat} {token : Token}
    (leaves : Leaves tokens stack) (stepped : step stack token = .ok next) :
    Leaves (tokens ++ [token]) next := by
  cases token with
  | num value =>
      cases stepped
      have number : (Tree.num value).value = .ok value := rfl
      exact leaves.more number
  | sign mark =>
      cases leaves with
      | nothing => cases stepped
      | @more tokens stack operand value before valued =>
          cases stepped
          have signed : (Tree.sign mark operand).value = .ok (mark.apply value) := by
            rw [Tree.value, valued]
            rfl
          have leaves := before.more signed
          rwa [Tree.toPostfix, ← List.append_assoc] at leaves
  | op operation =>
      -- The latest value is the right operand.
      cases leaves with
      | nothing => cases stepped
      | @more tokens stack right b before rightValue =>
        cases before with
        | nothing => cases stepped
        | @more tokens stack left a before leftValue =>
            obtain ⟨result, applied, same⟩ := Outcome.bind_eq_ok_iff.mp stepped
            cases same
            have joined : (Tree.op operation left right).value = .ok result := by
              rw [Tree.value, leftValue, rightValue]
              exact applied
            have leaves := before.more joined
            rwa [Tree.toPostfix, ← List.append_assoc, ← List.append_assoc] at leaves
  | openParen => cases stepped
  | closeParen => cases stepped

theorem leaves_of_run {tokens : List Token} {stack : List Rat}
    (run : tokens.foldlM step [] = .ok stack) : Leaves tokens stack := by
  induction tokens using List.reverseRecOn generalizing stack with
  | nil =>
      cases run
      exact .nothing
  | append_singleton tokens last ih =>
      rw [List.foldlM_append] at run
      obtain ⟨before, run, stepped⟩ := Outcome.bind_eq_ok_iff.mp run
      simp only [List.foldlM_cons, List.foldlM_nil, bind_pure] at stepped
      exact (ih run).step stepped

theorem value_eq_ok_iff {tokens : List Token} {number : Rat} :
    value tokens = .ok number ↔ ∃ tree : Tree, tree.toPostfix = tokens ∧ tree.value = .ok number := by
  constructor
  · intro valued
    obtain ⟨stack, run, single⟩ := Outcome.bind_eq_ok_iff.mp valued
    split at single
    · cases single
      -- Under the only value on the stack no tree is left.
      cases leaves_of_run run with
      | @more _ _ tree _ before treeValue =>
          cases before
          exact ⟨tree, rfl, treeValue⟩
    · cases single
  · rintro ⟨tree, rfl, valued⟩
    rw [value_toPostfix, valued]

/-- The postfix form of a tree is evaluated as the tree itself, to its value or to its first
failure; the remainder in it is the one with the sign of the dividend. What is not the postfix
form of just one tree has no value. What conversion puts out fails only by a division or a
remainder by zero. -/
theorem value_eq_iff (tokens : List Token) :
    (∀ tree : Tree, tree.toPostfix = tokens →
      value tokens = tree.value ∧
      (∀ number, value tokens = .ok number ↔ tree.Denotes number) ∧
      ∀ fault, value tokens = .error fault ↔ tree.Fails fault) ∧
    (∀ dividend divisor : Rat, divisor ≠ 0 → ∃! remainder, IsRemainder dividend divisor remainder) ∧
    ((¬ ∃! tree : Tree, tree.toPostfix = tokens) → ∃ fault, value tokens = .error fault) ∧
    ∀ source fault, ofTokens source = .ok tokens → value tokens = .error fault →
      fault = .divisionByZero ∨ fault = .notFinite := by
  refine ⟨?_, fun dividend divisor => existsUnique_isRemainder dividend, ?_, ?_⟩
  · rintro tree rfl
    rw [value_toPostfix]
    exact ⟨rfl, fun _ => Tree.value_eq_ok_iff, fun _ => Tree.value_eq_error_iff⟩
  · intro other
    cases valued : value tokens with
    | error fault => exact ⟨fault, rfl⟩
    | ok number =>
        obtain ⟨tree, spelled, _⟩ := value_eq_ok_iff.mp valued
        refine absurd ⟨tree, spelled, fun tree' spelled' => ?_⟩ other
        exact Tree.toPostfix_injective (spelled'.trans spelled.symm)
  · intro source fault converted failed
    obtain ⟨tree, _, rfl⟩ := reads_of_ofTokens converted
    rw [value_toPostfix] at failed
    exact Tree.fault_of_value failed

/-- - 7 % 2 is - 1, and over + 0 it fails where the division is tried; of two numbers one is
left over. -/
theorem value_of_remainder_over_zero :
    let remainder : Tree := .op .rem (.sign .minus (.num 7)) (.num 2)
    let quotient : Tree := .op .div remainder (.sign .plus (.num 0))
    let source : List Token :=
      [.op .sub, .num 7, .op .rem, .num 2, .op .div, .op .add, .num 0]
    value remainder.toPostfix = .ok (-1) ∧
      ofTokens source = .ok quotient.toPostfix ∧ value quotient.toPostfix = .error .divisionByZero ∧
      (¬ ∃! tree : Tree, tree.toPostfix = [.num 1, .num 2]) ∧
      ∃ fault, value [.num 1, .num 2] = .error fault := by
  intro remainder quotient source
  have isRemainder : IsRemainder (-7) 2 (-1) :=
    ⟨by decide, by decide +kernel, .inr (by decide +kernel), -3, by decide +kernel⟩
  have denotes : remainder.Denotes (-1) := .rem (.minus (.num 7)) (.num 2) isRemainder
  have fails : quotient.Fails .divisionByZero := .div denotes (.plus (.num 0))
  have leftOver : ¬ ∃! tree : Tree, tree.toPostfix = [.num 1, .num 2] := by
    rintro ⟨tree, spelled, _⟩
    have ends := congrArg List.getLast? spelled
    cases tree <;> simp [Tree.toPostfix] at spelled ends
  obtain ⟨_, _, refused, _⟩ := value_eq_iff [.num 1, .num 2]
  obtain ⟨_, valued, _⟩ := (value_eq_iff _).1 remainder rfl
  obtain ⟨_, _, failing⟩ := (value_eq_iff _).1 quotient rfl
  exact ⟨(valued _).mpr denotes, rfl, (failing _).mpr fails, leftOver, refused leftOver⟩

end PocketCalc.Postfix
