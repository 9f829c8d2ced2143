import PocketCalc.Fault

/-! Steps that may fail, one after the other: the first failure is the answer. -/

set_option autoImplicit false

namespace PocketCalc.Outcome

variable {A B : Type}

@[simp] theorem ok_bind (value : A) (next : A → Except Fault B) :
    (Except.ok value >>= next) = next value := rfl

@[simp] theorem error_bind (fault : Fault) (next : A → Except Fault B) :
    (Except.error fault >>= next) = Except.error fault := rfl

@[simp] theorem pure_eq_ok (value : A) : (pure value : Except Fault A) = .ok value := rfl

theorem bind_eq_ok_iff {first : Except Fault A} {next : A → Except Fault B} {result : B} :
    (first >>= next) = .ok result ↔ ∃ value, first = .ok value ∧ next value = .ok result := by
  cases first with
  | error fault => simp
  | ok value => simp

theorem bind_eq_error_iff {first : Except Fault A} {next : A → Except Fault B} {fault : Fault} :
    (first >>= next) = .error fault ↔
      first = .error fault ∨ ∃ value, first = .ok value ∧ next value = .error fault := by
  cases first with
  | error fault => simp
  | ok value => simp

end PocketCalc.Outcome
