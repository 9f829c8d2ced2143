import PocketCalc.Proofs.Expression.Line

/-! The tree and the value of operands joined by operators.

Both are formed from left to right in one pass, products before sums
(`Line.combine`). The grammar reads the operands' tokens as that tree
(`Line.reads_tree`), and its value is that of the operands (`Line.value_tree`).
-/

set_option autoImplicit false

namespace PocketCalc

namespace Operator

def isSum : Operator → Bool
  | add | sub => true
  | mul | div => false

def calculate : Operator → Rat → Rat → Rat
  | add, left, right => left + right
  | sub, left, right => left - right
  | mul, left, right => left * right
  | div, left, right => left / right

theorem level_of_isSum {op : Operator} (sum : op.isSum = true) : op.operation.level = 0 := by
  cases op <;> first | rfl | cases sum

theorem level_of_not_isSum {op : Operator} (product : op.isSum = false) : op.operation.level = 1 := by
  cases op <;> first | rfl | cases product

theorem apply_eq_ok {op : Operator} {left right : Rat} (safe : ¬ (op = .div ∧ right = 0)) :
    op.operation.apply left right = .ok (op.calculate left right) := by
  cases op with
  | add | sub | mul => rfl
  | div => exact if_neg fun zero => safe ⟨rfl, zero⟩

end Operator

namespace Line

/-- From left to right, products before sums. The terms before the one being
formed are in `finish`, which puts them together with it. -/
def combine {A : Type} (apply : Operator → A → A → A) (finish : A → A) (term : A) :
    List (Operator × A) → A
  | [] => finish term
  | (op, operand) :: rest =>
      if op.isSum then combine apply (apply op (finish term)) operand rest
      else combine apply finish (apply op term operand) rest

def value (line : Line Rat) : Rat :=
  combine Operator.calculate id (if line.negative then -line.first else line.first) line.rest

def tree (line : Line Tree) : Tree :=
  combine (Tree.op ·.operation) id
    (if line.negative then .sign .minus line.first else line.first) line.rest

/-! ## Reading -/

variable {A : Type} {tokens : A → List Token} {trees : A → Tree}

theorem reads_combine {rest : List (Operator × A)} (before : List Token)
    {termTokens : List Token} {finish : Tree → Tree} {term : Tree}
    (each : ∀ pair ∈ rest, Tree.Reads 2 (tokens pair.2) (trees pair.2))
    (finishes : ∀ {tokens tree}, Tree.Reads 1 tokens tree → Tree.Reads 0 (before ++ tokens) (finish tree))
    (reads : Tree.Reads 1 termTokens term) :
    Tree.Reads 0
      (before ++ (termTokens ++ tail (.op ·.operation) (rest.map fun pair => (pair.1, tokens pair.2))))
      (combine (Tree.op ·.operation) finish term (rest.map fun pair => (pair.1, trees pair.2))) := by
  induction rest generalizing before termTokens finish term with
  | nil =>
      simp only [List.map_nil, tail_nil, List.append_nil, combine]
      exact finishes reads
  | cons pair rest ih =>
      obtain ⟨op, operand⟩ := pair
      have operandReads := each (op, operand) List.mem_cons_self
      have each := fun other member => each other (List.mem_cons_of_mem (op, operand) member)
      simp only [List.map_cons, tail_cons, combine]
      cases kind : op.isSum with
      | true =>
          -- The term is complete, and the operand starts the next one.
          have level := Operator.level_of_isSum kind
          have next : ∀ {tokens tree}, Tree.Reads 1 tokens tree →
              Tree.Reads 0 (before ++ termTokens ++ [.op op.operation] ++ tokens)
                (.op op.operation (finish term) tree) := by
            intro tokens tree isNext
            simpa using Tree.Reads.binary_of_level level (finishes reads) isNext
          simpa using ih _ each next (.lift operandReads)
      | false =>
          have level := Operator.level_of_not_isSum kind
          simpa using ih before each finishes (.binary_of_level level reads operandReads)

theorem reads_tree {line : Line A}
    (each : ∀ operand ∈ line.operands, Tree.Reads 2 (tokens operand) (trees operand)) :
    Tree.Reads 0 (line.map tokens).tokens (line.map trees).tree := by
  obtain ⟨negative, first, rest⟩ := line
  obtain ⟨firstReads, restReads⟩ := forall_operands.mp each
  cases negative with
  | false => exact reads_combine [] restReads .lift (.lift firstReads)
  | true =>
      have signed : Tree.Reads 2 (.op .sub :: tokens first) (.sign .minus (trees first)) :=
        .signed rfl firstReads
      exact reads_combine [] restReads .lift (.lift signed)

/-! ## Value -/

theorem value_combine_of_error {fault : Fault} {finish : Tree → Tree} {term : Tree}
    (rest : List (Operator × Tree))
    (stays : ∀ tree, tree.value = .error fault → (finish tree).value = .error fault)
    (failed : term.value = .error fault ∨ ∀ tree, (finish tree).value = .error fault) :
    (combine (Tree.op ·.operation) finish term rest).value = .error fault := by
  induction rest generalizing finish term with
  | nil => exact failed.elim (stays term) (· term)
  | cons pair rest ih =>
      obtain ⟨op, operand⟩ := pair
      rw [combine]
      split
      · have all : ∀ tree, (Tree.op op.operation (finish term) tree).value = .error fault := by
          intro tree
          rw [Tree.value, failed.elim (stays term) (· term)]
          rfl
        exact ih (fun tree _ => all tree) (.inr all)
      · refine ih stays (failed.imp_left fun termFailed => ?_)
        rw [Tree.value, termFailed]
        rfl

theorem value_op {op : BinaryOp} {left right : Tree} {a b : Rat} (leftValue : left.value = .ok a)
    (rightValue : right.value = .ok b) : (Tree.op op left right).value = op.apply a b := by
  rw [Tree.value, leftValue, rightValue]
  rfl

theorem value_combine {values : A → Rat} {rest : List (Operator × A)} {finish : Tree → Tree}
    {finishValue : Rat → Rat} {term : Tree} {termValue : Rat}
    (each : ∀ pair ∈ rest, (trees pair.2).value = .ok (values pair.2))
    (finishes : ∀ tree value, tree.value = .ok value → (finish tree).value = .ok (finishValue value))
    (stays : ∀ tree fault, tree.value = .error fault → (finish tree).value = .error fault)
    (valued : term.value = .ok termValue) :
    (combine (Tree.op ·.operation) finish term (rest.map fun pair => (pair.1, trees pair.2))).value =
      if (.div, 0) ∈ rest.map fun pair => (pair.1, values pair.2) then .error .divisionByZero
      else .ok (combine Operator.calculate finishValue termValue
        (rest.map fun pair => (pair.1, values pair.2))) := by
  induction rest generalizing finish finishValue term termValue with
  | nil => exact finishes term termValue valued
  | cons pair rest ih =>
      obtain ⟨op, operand⟩ := pair
      have operandValue : (trees operand).value = .ok (values operand) :=
        each (op, operand) List.mem_cons_self
      have each := fun other member => each other (List.mem_cons_of_mem (op, operand) member)
      simp only [List.map_cons, List.mem_cons, Prod.mk.injEq, eq_comm (a := Operator.div),
        eq_comm (a := (0 : Rat))]
      by_cases zero : op = .div ∧ values operand = 0
      · rw [if_pos (.inl zero)]
        -- The division fails, and the failure stays whatever is combined with it later.
        obtain ⟨rfl, divisor⟩ := zero
        have failed : (Tree.op .div term (trees operand)).value = .error .divisionByZero := by
          rw [value_op valued operandValue, divisor]
          rfl
        simp only [combine, Operator.isSum, Bool.false_eq_true, if_false]
        exact value_combine_of_error _ (fun tree => stays tree _) (.inl failed)
      · -- The value of the operand goes into the term, or the term is complete and it starts another.
        have applied : op.operation.apply termValue (values operand) =
            .ok (op.calculate termValue (values operand)) := Operator.apply_eq_ok zero
        simp only [zero, false_or, combine]
        cases kind : op.isSum with
        | true =>
            refine ih each (fun tree value isValue => ?_) (fun tree fault failed => ?_) operandValue
            · rw [value_op (finishes term termValue valued) isValue]
              exact Operator.apply_eq_ok fun division => by simp [division.1, Operator.isSum] at kind
            · rw [Tree.value, finishes term termValue valued, failed]
              rfl
        | false => exact ih each finishes stays ((value_op valued operandValue).trans applied)

/-- The tree has the value of the line, unless an operand behind a division is zero. -/
theorem value_tree {values : A → Rat} {line : Line A}
    (each : ∀ operand ∈ line.operands, (trees operand).value = .ok (values operand)) :
    (line.map trees).tree.value =
      if (.div, 0) ∈ (line.map values).rest then .error .divisionByZero
      else .ok (line.map values).value := by
  obtain ⟨negative, first, rest⟩ := line
  obtain ⟨firstValue, restValues⟩ := forall_operands.mp each
  cases negative with
  | false => exact value_combine restValues (fun _ _ => id) (fun _ _ => id) firstValue
  | true =>
      have signed : (Tree.sign .minus (trees first)).value = .ok (-values first) := by
        rw [Tree.value, firstValue]
        rfl
      exact value_combine restValues (fun _ _ => id) (fun _ _ => id) signed

end Line

end PocketCalc
