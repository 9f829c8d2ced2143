import PocketCalc.Command
import PocketCalc.Proofs.Expression.Evaluation

/-! Operands joined by the operators of the keys.

Neither percent literals nor literals cross an operator, so a line is expanded
and read operand by operand (`Line.expand_text`, `Line.ofText_text`).
-/

set_option autoImplicit false

namespace PocketCalc

def Operator.operation : Operator → BinaryOp
  | add => .add
  | sub => .sub
  | mul => .mul
  | div => .div

theorem Operator.ofSymbol?_symbol (op : Operator) :
    Token.ofSymbol? op.symbol = some (.op op.operation) := by
  cases op <;> rfl

theorem Operator.symbol_apart (op : Operator) :
    op.symbol.isDigit = false ∧ Text.isBlank op.symbol = false ∧ op.symbol ≠ '%' := by
  cases op <;> decide

/-- Operands with an operator before each but the first, and the sign before that. -/
structure Line (A : Type) where
  /-- Whether a minus sign precedes the first operand. -/
  negative : Bool
  first : A
  rest : List (Operator × A)
  deriving Repr

namespace Line

variable {A B C : Type}

def operands (line : Line A) : List A := line.first :: line.rest.map Prod.snd

def map (convert : A → B) (line : Line A) : Line B :=
  ⟨line.negative, convert line.first, line.rest.map fun pair => (pair.1, convert pair.2)⟩

/-- Each operand behind what stands for its operator. -/
def tail (symbol : Operator → C) (rest : List (Operator × List C)) : List C :=
  rest.flatMap fun pair => symbol pair.1 :: pair.2

def join (symbol : Operator → C) (line : Line (List C)) : List C :=
  (if line.negative then [symbol .sub] else []) ++ (line.first ++ tail symbol line.rest)

def text (line : Line (List Char)) : List Char := line.join Operator.symbol

def tokens (line : Line (List Token)) : List Token := line.join fun op => .op op.operation

theorem forall_operands {valid : A → Prop} {line : Line A} :
    (∀ operand ∈ line.operands, valid operand) ↔
      valid line.first ∧ ∀ pair ∈ line.rest, valid pair.2 := by
  rw [operands, List.forall_mem_cons, List.forall_mem_map]

@[simp] theorem tail_nil (symbol : Operator → C) : tail symbol [] = [] := rfl

@[simp] theorem tail_cons (symbol : Operator → C) (op : Operator) (piece : List C)
    (rest : List (Operator × List C)) :
    tail symbol ((op, piece) :: rest) = symbol op :: (piece ++ tail symbol rest) := rfl

theorem tail_append (symbol : Operator → C) (first second : List (Operator × List C)) :
    tail symbol (first ++ second) = tail symbol first ++ tail symbol second := List.flatMap_append

def push (line : Line A) (op : Operator) (operand : A) : Line A :=
  { line with rest := line.rest ++ [(op, operand)] }

theorem text_push (line : Line (List Char)) (op : Operator) (operand : List Char) :
    (line.push op operand).text = line.text ++ op.symbol :: operand := by
  obtain ⟨negative, first, rest⟩ := line
  cases negative <;> simp [push, text, join, tail_append]

theorem operands_push (line : Line A) (op : Operator) (operand : A) :
    (line.push op operand).operands = line.operands ++ [operand] := by
  simp [push, operands]

theorem exists_of_head?_tail {symbol : Operator → C} {rest : List (Operator × List C)} {next : C}
    (head : next ∈ (tail symbol rest).head?) : ∃ op, next = symbol op := by
  cases rest with
  | nil => cases head
  | cons pair rest => exact ⟨pair.1, (Option.some.inj head).symm⟩

theorem exists_of_mem_tail {symbol : Operator → C} {rest : List (Operator × List C)} {c : C}
    (member : c ∈ tail symbol rest) : (∃ pair ∈ rest, c ∈ pair.2) ∨ ∃ op, c = symbol op := by
  obtain ⟨pair, isPair, inside⟩ := List.mem_flatMap.mp member
  rcases List.mem_cons.mp inside with rfl | inOperand
  · exact .inr ⟨pair.1, rfl⟩
  · exact .inl ⟨pair, isPair, inOperand⟩

theorem exists_of_mem_join {symbol : Operator → C} {line : Line (List C)} {c : C}
    (member : c ∈ line.join symbol) : (∃ operand ∈ line.operands, c ∈ operand) ∨ ∃ op, c = symbol op := by
  obtain ⟨negative, first, rest⟩ := line
  rcases List.mem_append.mp member with sign | inside
  · cases negative with
    | false => cases sign
    | true => exact .inr ⟨.sub, List.mem_singleton.mp sign⟩
  · rcases List.mem_append.mp inside with inFirst | inRest
    · exact .inl ⟨first, List.mem_cons_self, inFirst⟩
    · refine (exists_of_mem_tail inRest).imp_left fun ⟨pair, isPair, inOperand⟩ => ⟨pair.2, ?_, inOperand⟩
      exact List.mem_cons_of_mem first (List.mem_map_of_mem isPair)

theorem infix_tail {symbol : Operator → C} {rest : List (Operator × List C)} :
    ∀ pair ∈ rest, pair.2 <:+: tail symbol rest := by
  induction rest with
  | nil => simp
  | cons pair rest ih =>
      obtain ⟨op, piece⟩ := pair
      refine List.forall_mem_cons.mpr ⟨⟨[symbol op], tail symbol rest, by simp⟩, ?_⟩
      intro other member
      exact (ih other member).trans (List.suffix_append (symbol op :: piece) _).isInfix

theorem infix_join (symbol : Operator → C) (line : Line (List C)) :
    ∀ piece ∈ line.operands, piece <:+: line.join symbol := by
  obtain ⟨negative, first, rest⟩ := line
  have inside : first ++ tail symbol rest <:+: join symbol ⟨negative, first, rest⟩ :=
    (List.suffix_append _ _).isInfix
  refine forall_operands.mpr ⟨(List.prefix_append _ _).isInfix.trans inside, fun pair member => ?_⟩
  exact ((infix_tail pair member).trans (List.suffix_append first _).isInfix).trans inside

/-! ## Percent literals -/

theorem seam_tail (operand : List Char) (rest : List (Operator × List Char)) :
    Percent.Seam operand (tail Operator.symbol rest) :=
  Percent.seam_of_head fun next head => by
    obtain ⟨op, rfl⟩ := exists_of_head?_tail head
    exact op.symbol_apart

theorem expand_symbol (op : Operator) (rest : List Char) :
    Percent.expand (op.symbol :: rest) = op.symbol :: Percent.expand rest :=
  Percent.expand_of_not_digit op.symbol_apart.1 rest

theorem expand_tail (rest : List (Operator × List Char)) :
    Percent.expand (tail Operator.symbol rest) =
      tail Operator.symbol (rest.map fun pair => (pair.1, Percent.expand pair.2)) := by
  induction rest with
  | nil => exact Percent.expand_nil
  | cons pair rest ih =>
      rw [tail_cons, expand_symbol, Percent.expand_append (seam_tail pair.2 rest), ih]
      rfl

theorem expand_text (line : Line (List Char)) :
    Percent.expand line.text = (line.map Percent.expand).text := by
  obtain ⟨negative, first, rest⟩ := line
  have joined := Percent.expand_append (seam_tail first rest)
  rw [expand_tail] at joined
  cases negative with
  | false => exact joined
  | true =>
      have signed := expand_symbol .sub (first ++ tail Operator.symbol rest)
      rw [joined] at signed
      exact signed

/-! ## Tokens -/

theorem cut_tail (operand : List Char) (rest : List (Operator × List Char)) :
    Cut operand (tail Operator.symbol rest) :=
  cut_of_head fun next head => by
    obtain ⟨op, rfl⟩ := exists_of_head?_tail head
    exact Token.not_isLiteralChar_of_ofSymbol? op.ofSymbol?_symbol

theorem ofText_symbol (op : Operator) (rest : List Char) :
    Token.ofText (op.symbol :: rest) = do return .op op.operation :: (← Token.ofText rest) :=
  Token.ofText_cons_symbol op.ofSymbol?_symbol rest

theorem ofText_tail {spell : A → List Char} {tokens : A → List Token} {rest : List (Operator × A)}
    (each : ∀ pair ∈ rest, Token.ofText (spell pair.2) = .ok (tokens pair.2)) :
    Token.ofText (tail Operator.symbol (rest.map fun pair => (pair.1, spell pair.2))) =
      .ok (tail (.op ·.operation) (rest.map fun pair => (pair.1, tokens pair.2))) := by
  induction rest with
  | nil => exact Token.ofText_nil
  | cons pair rest ih =>
      have later := ih fun other member => each other (List.mem_cons_of_mem pair member)
      rw [List.map_cons, tail_cons, ofText_symbol, Token.ofText_append (cut_tail _ _),
        each pair List.mem_cons_self, later]
      rfl

theorem ofText_text {spell : A → List Char} {tokens : A → List Token} {line : Line A}
    (each : ∀ operand ∈ line.operands, Token.ofText (spell operand) = .ok (tokens operand)) :
    Token.ofText (line.map spell).text = .ok (line.map tokens).tokens := by
  obtain ⟨negative, first, rest⟩ := line
  have joined := Token.ofText_append
    (cut_tail (spell first) (rest.map fun pair => (pair.1, spell pair.2)))
  obtain ⟨isFirst, isRest⟩ := forall_operands.mp each
  rw [isFirst, ofText_tail isRest] at joined
  cases negative with
  | false => exact joined
  | true =>
      have signed := ofText_symbol .sub
        (spell first ++ tail Operator.symbol (rest.map fun pair => (pair.1, spell pair.2)))
      rw [joined] at signed
      exact signed

/-! ## Evaluation -/

abbrev IsOperandChar (c : Char) : Prop := Decimal.IsLiteralChar c ∨ c = '%'

theorem plain_of_isOperandChar {c : Char} (operand : IsOperandChar c) :
    Expression.plainChar c = c ∧ Expression.isAllowed c = true := by
  rcases operand with (digit | rfl) | rfl
  · refine ⟨?_, by rw [Expression.isAllowed, digit]; rfl⟩
    unfold Expression.plainChar
    split
    · exact absurd digit (by decide)
    · exact absurd digit (by decide)
    · rfl
  · decide
  · decide

theorem plain_of_mem_text {line : Line (List Char)}
    (chars : ∀ operand ∈ line.operands, ∀ c ∈ operand, IsOperandChar c) :
    ∀ c ∈ line.text, Expression.plainChar c = c ∧ Expression.isAllowed c = true := by
  intro c member
  rcases exists_of_mem_join member with ⟨operand, isOperand, inOperand⟩ | ⟨op, rfl⟩
  · exact plain_of_isOperandChar (chars operand isOperand c inOperand)
  · cases op <;> decide

theorem plain_text {line : Line (List Char)}
    (chars : ∀ operand ∈ line.operands, ∀ c ∈ operand, IsOperandChar c) :
    line.text.map Expression.plainChar = line.text ∧
      ∀ c ∈ line.text, Expression.isAllowed c = true :=
  ⟨(List.map_congr_left fun c member => (plain_of_mem_text chars c member).1).trans (List.map_id _),
    fun c member => (plain_of_mem_text chars c member).2⟩

theorem map_map (second : B → C) (first : A → B) (line : Line A) :
    (line.map first).map second = line.map (second ∘ first) := by
  simp [map, Function.comp_def]

theorem map_congr {first second : A → B} {line : Line A}
    (same : ∀ operand ∈ line.operands, first operand = second operand) :
    line.map first = line.map second := by
  obtain ⟨firstSame, restSame⟩ := forall_operands.mp same
  rw [map, map, firstSame, List.map_congr_left fun pair member => congrArg (Prod.mk pair.1)
    (restSame pair member)]

theorem map_id (line : Line A) : line.map id = line := by simp [map]

theorem operands_map (convert : A → B) (line : Line A) :
    (line.map convert).operands = line.operands.map convert := by
  simp [operands, map, Function.comp_def]

theorem exactValue_text {spell : A → List Char} {tokens : A → List Token} {line : Line A} {tree : Tree}
    (chars : ∀ operand ∈ line.operands, ∀ c ∈ spell operand, IsOperandChar c)
    (each : ∀ operand ∈ line.operands,
      Token.ofText (Percent.expand (spell operand)) = .ok (tokens operand))
    (reads : Tree.Reads 0 (line.map tokens).tokens tree) :
    Expression.exactValue (line.map spell).text = tree.value := by
  have chars' : ∀ piece ∈ (line.map spell).operands, ∀ c ∈ piece, IsOperandChar c := by
    rw [operands_map]
    exact List.forall_mem_map.mpr chars
  obtain ⟨plain, allowed⟩ := plain_text chars'
  refine Expression.exactValue_of_reads (by rw [plain]; exact allowed) ?_ reads
  rw [plain, expand_text, map_map]
  exact ofText_text each

end Line

end PocketCalc
