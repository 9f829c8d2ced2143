import PocketCalc.Postfix.Value
import PocketCalc.Proofs.Outcome
import PocketCalc.Proofs.Remainder
import PocketCalc.Tree

/-! The value of a tree, on the stack and by the laws of arithmetic.

A postfix list leaves the value of its tree on the stack (`value_toPostfix`).
A tree has a value exactly when it denotes one (`Tree.value_eq_ok_iff`), and
otherwise the fault of its first failure (`Tree.value_eq_error_iff`).
-/

set_option autoImplicit false

namespace PocketCalc

namespace Postfix

theorem foldlM_step_toPostfix (tree : Tree) (stack : List Rat) :
    tree.toPostfix.foldlM step stack = do return (← tree.value) :: stack := by
  induction tree generalizing stack with
  | num value => rfl
  | sign mark operand ih =>
      rw [Tree.toPostfix, List.foldlM_append, ih, Tree.value]
      cases operand.value with
      | error fault => rfl
      | ok value => rfl
  | op operation left right ihLeft ihRight =>
      rw [Tree.toPostfix, List.foldlM_append, List.foldlM_append, ihLeft, Tree.value]
      cases left.value with
      | error fault => rfl
      | ok leftValue =>
          simp only [Outcome.ok_bind, Outcome.pure_eq_ok, ihRight]
          cases right.value with
          | error fault => rfl
          | ok rightValue =>
              simp only [Outcome.ok_bind, List.foldlM_cons, List.foldlM_nil, step, bind_pure]
              rfl

theorem value_toPostfix (tree : Tree) : value tree.toPostfix = tree.value := by
  rw [value, foldlM_step_toPostfix]
  cases tree.value with
  | error fault => rfl
  | ok value => rfl

end Postfix

namespace Tree

/-- The value of a tree in which nothing is divided by zero. -/
inductive Denotes : Tree → Rat → Prop where
  | num (value : Rat) : Denotes (.num value) value
  | plus {operand : Tree} {value : Rat} :
      Denotes operand value → Denotes (.sign .plus operand) value
  | minus {operand : Tree} {value : Rat} :
      Denotes operand value → Denotes (.sign .minus operand) (-value)
  | add {left right : Tree} {a b : Rat} :
      Denotes left a → Denotes right b → Denotes (.op .add left right) (a + b)
  | sub {left right : Tree} {a b : Rat} :
      Denotes left a → Denotes right b → Denotes (.op .sub left right) (a - b)
  | mul {left right : Tree} {a b : Rat} :
      Denotes left a → Denotes right b → Denotes (.op .mul left right) (a * b)
  | div {left right : Tree} {a b : Rat} :
      Denotes left a → Denotes right b → b ≠ 0 → Denotes (.op .div left right) (a / b)
  | rem {left right : Tree} {a b remainder : Rat} :
      Denotes left a → Denotes right b → IsRemainder a b remainder →
      Denotes (.op .rem left right) remainder

theorem Denotes.value_eq {tree : Tree} {value : Rat} (denotes : tree.Denotes value) :
    tree.value = .ok value := by
  induction denotes with
  | num value => rfl
  | plus _ ih => rw [Tree.value, ih]; rfl
  | minus _ ih => rw [Tree.value, ih]; rfl
  | add _ _ left right => rw [Tree.value, left, right]; rfl
  | sub _ _ left right => rw [Tree.value, left, right]; rfl
  | mul _ _ left right => rw [Tree.value, left, right]; rfl
  | div _ _ ne left right =>
      rw [Tree.value, left, right]
      exact if_neg ne
  | rem _ _ isRemainder left right =>
      obtain ⟨ne, same⟩ := isRemainder_iff.mp isRemainder
      rw [Tree.value, left, right, same]
      exact if_neg ne

theorem denotes_of_apply {op : BinaryOp} {left right : Tree} {a b value : Rat}
    (leftDenotes : left.Denotes a) (rightDenotes : right.Denotes b)
    (applied : op.apply a b = .ok value) : Denotes (.op op left right) value := by
  cases op with
  | add => cases applied; exact .add leftDenotes rightDenotes
  | sub => cases applied; exact .sub leftDenotes rightDenotes
  | mul => cases applied; exact .mul leftDenotes rightDenotes
  | div =>
      simp only [BinaryOp.apply] at applied
      split at applied
      · cases applied
      · next ne => cases applied; exact .div leftDenotes rightDenotes ne
  | rem =>
      simp only [BinaryOp.apply] at applied
      split at applied
      · cases applied
      · next ne =>
        cases applied
        exact .rem leftDenotes rightDenotes (isRemainder_iff.mpr ⟨ne, rfl⟩)

theorem denotes_of_value {tree : Tree} {value : Rat} (evaluated : tree.value = .ok value) :
    tree.Denotes value := by
  induction tree generalizing value with
  | num value => cases evaluated; exact .num value
  | sign mark operand ih =>
      obtain ⟨inner, operandValue, same⟩ := Outcome.bind_eq_ok_iff.mp evaluated
      cases same
      cases mark with
      | plus => exact .plus (ih operandValue)
      | minus => exact .minus (ih operandValue)
  | op operation left right ihLeft ihRight =>
      obtain ⟨a, leftValue, rest⟩ := Outcome.bind_eq_ok_iff.mp evaluated
      obtain ⟨b, rightValue, applied⟩ := Outcome.bind_eq_ok_iff.mp rest
      exact denotes_of_apply (ihLeft leftValue) (ihRight rightValue) applied

theorem value_eq_ok_iff {tree : Tree} {value : Rat} : tree.value = .ok value ↔ tree.Denotes value :=
  ⟨denotes_of_value, Denotes.value_eq⟩

/-! ## Failure -/

/-- The first failure, where the left operand comes before the right one and both before
their operation. -/
inductive Fails : Tree → Fault → Prop where
  | operand {mark : Sign} {operand : Tree} {fault : Fault} :
      Fails operand fault → Fails (.sign mark operand) fault
  | left {operation : BinaryOp} {left right : Tree} {fault : Fault} :
      Fails left fault → Fails (.op operation left right) fault
  | right {operation : BinaryOp} {left right : Tree} {a : Rat} {fault : Fault} :
      Denotes left a → Fails right fault → Fails (.op operation left right) fault
  | div {left right : Tree} {a : Rat} :
      Denotes left a → Denotes right 0 → Fails (.op .div left right) .divisionByZero
  | rem {left right : Tree} {a : Rat} :
      Denotes left a → Denotes right 0 → Fails (.op .rem left right) .notFinite

theorem Fails.value_eq {tree : Tree} {fault : Fault} (fails : tree.Fails fault) :
    tree.value = .error fault := by
  induction fails with
  | operand _ ih => rw [Tree.value, ih]; rfl
  | left _ ih => rw [Tree.value, ih]; rfl
  | right leftDenotes _ ih => rw [Tree.value, leftDenotes.value_eq, ih]; rfl
  | div leftDenotes zero => rw [Tree.value, leftDenotes.value_eq, zero.value_eq]; rfl
  | rem leftDenotes zero => rw [Tree.value, leftDenotes.value_eq, zero.value_eq]; rfl

theorem fails_of_apply {op : BinaryOp} {left right : Tree} {a b : Rat} {fault : Fault}
    (leftDenotes : left.Denotes a) (rightDenotes : right.Denotes b)
    (failed : op.apply a b = .error fault) : Fails (.op op left right) fault := by
  cases op with
  | add | sub | mul => cases failed
  | div =>
      simp only [BinaryOp.apply] at failed
      split at failed
      · next zero => cases failed; exact .div leftDenotes (zero ▸ rightDenotes)
      · cases failed
  | rem =>
      simp only [BinaryOp.apply] at failed
      split at failed
      · next zero => cases failed; exact .rem leftDenotes (zero ▸ rightDenotes)
      · cases failed

theorem fails_of_value {tree : Tree} {fault : Fault} (failed : tree.value = .error fault) :
    tree.Fails fault := by
  induction tree with
  | num value => cases failed
  | sign mark operand ih =>
      rcases Outcome.bind_eq_error_iff.mp failed with inner | ⟨_, _, same⟩
      · exact .operand (ih inner)
      · cases same
  | op operation left right ihLeft ihRight =>
      rcases Outcome.bind_eq_error_iff.mp failed with first | ⟨a, leftValue, rest⟩
      · exact .left (ihLeft first)
      · have leftDenotes := denotes_of_value leftValue
        rcases Outcome.bind_eq_error_iff.mp rest with second | ⟨b, rightValue, applied⟩
        · exact .right leftDenotes (ihRight second)
        · exact fails_of_apply leftDenotes (denotes_of_value rightValue) applied

theorem value_eq_error_iff {tree : Tree} {fault : Fault} :
    tree.value = .error fault ↔ tree.Fails fault :=
  ⟨fails_of_value, Fails.value_eq⟩

theorem Fails.fault {tree : Tree} {fault : Fault} (fails : tree.Fails fault) :
    fault = .divisionByZero ∨ fault = .notFinite := by
  induction fails with
  | operand _ ih => exact ih
  | left _ ih => exact ih
  | right _ _ ih => exact ih
  | div _ _ => exact .inl rfl
  | rem _ _ => exact .inr rfl

theorem fault_of_value {tree : Tree} {fault : Fault} (failed : tree.value = .error fault) :
    fault = .divisionByZero ∨ fault = .notFinite := (fails_of_value failed).fault

end Tree

end PocketCalc
