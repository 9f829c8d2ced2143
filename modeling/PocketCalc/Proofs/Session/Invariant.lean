import PocketCalc.Proofs.Session.Signs

/-! What the fields of a session hold after any commands, and which of them stand alone.

The committed text is a sequence of operands with an operator key behind each
(`Session.Invariant.committed`), so that no operator of it follows another.
-/

set_option autoImplicit false

namespace PocketCalc

def Separate (first second : Char) : Prop :=
  ¬ (isOperatorChar first = true ∧ isOperatorChar second = true)

theorem separate_of_plain {first second : Char}
    (plain : isOperatorChar first = false ∨ isOperatorChar second = false) :
    Separate first second := by
  rintro ⟨isFirst, isSecond⟩
  rcases plain with plain | plain
  · rw [isFirst] at plain; cases plain
  · rw [isSecond] at plain; cases plain

def pairsText (pairs : List (List Char × Operator)) : List Char :=
  pairs.flatMap fun pair => pair.1 ++ [pair.2.symbol]

@[simp] theorem pairsText_cons (operand : List Char) (op : Operator)
    (pairs : List (List Char × Operator)) :
    pairsText ((operand, op) :: pairs) = operand ++ op.symbol :: pairsText pairs := by
  simp [pairsText]

/-- One operand or more, each with an operator behind it, and perhaps a minus sign in front. -/
def IsSequence (text : List Char) : Prop :=
  ∃ (negative : Bool) (pairs : List (List Char × Operator)), pairs ≠ [] ∧
    (∀ pair ∈ pairs, IsEntry pair.1) ∧
    text = (if negative then ['-'] else []) ++ pairsText pairs

/-! ## Sequences -/

theorem exists_pairs (op : Operator) {first : List Char} {rest : List (Operator × List Char)}
    (entered : ∀ operand ∈ first :: rest.map Prod.snd, IsEntry operand) :
    ∃ pairs, pairs ≠ [] ∧ (∀ pair ∈ pairs, IsEntry pair.1) ∧
      first ++ Line.tail Operator.symbol rest ++ [op.symbol] = pairsText pairs := by
  induction rest generalizing first with
  | nil => exact ⟨[(first, op)], by simp, by simpa using entered, by simp [pairsText]⟩
  | cons pair rest ih =>
      obtain ⟨next, operand⟩ := pair
      obtain ⟨firstEntry, entered⟩ := List.forall_mem_cons.mp entered
      obtain ⟨pairs, _, entries, same⟩ := ih entered
      refine ⟨(first, next) :: pairs, by simp, List.forall_mem_cons.mpr ⟨firstEntry, entries⟩, ?_⟩
      rw [pairsText_cons, ← same]
      simp

theorem Line.Entered.isSequence {line : Line (List Char)} (entered : line.Entered) (op : Operator) :
    IsSequence (line.text ++ [op.symbol]) := by
  obtain ⟨negative, first, rest⟩ := line
  obtain ⟨pairs, nonempty, entries, same⟩ := exists_pairs op entered
  refine ⟨negative, pairs, nonempty, entries, ?_⟩
  rw [← same, Line.text, Line.join, List.append_assoc]
  rfl

theorem isChain_append_of_plain {text rest : List Char}
    (plain : ∀ c ∈ text, isOperatorChar c = false) (separate : rest.IsChain Separate) :
    (text ++ rest).IsChain Separate := by
  induction text with
  | nil => exact separate
  | cons c text ih =>
      obtain ⟨other, plain⟩ := List.forall_mem_cons.mp plain
      exact (ih plain).cons fun next _ => separate_of_plain (.inl other)

theorem isOperatorChar_of_head?_pairsText {pairs : List (List Char × Operator)}
    (entries : ∀ pair ∈ pairs, IsEntry pair.1) :
    ∀ c ∈ (pairsText pairs).head?, isOperatorChar c = false := by
  intro c head
  cases pairs with
  | nil => cases head
  | cons pair pairs =>
      have entry := entries pair List.mem_cons_self
      rw [pairsText_cons, List.head?_append_of_ne_nil _ entry.ne_nil] at head
      exact entry.isOperatorChar_eq_false c (List.mem_of_head? head)

theorem isChain_pairsText {pairs : List (List Char × Operator)}
    (entries : ∀ pair ∈ pairs, IsEntry pair.1) : (pairsText pairs).IsChain Separate := by
  induction pairs with
  | nil => exact .nil
  | cons pair pairs ih =>
      obtain ⟨entry, entries⟩ := List.forall_mem_cons.mp entries
      rw [pairsText_cons]
      exact isChain_append_of_plain entry.isOperatorChar_eq_false ((ih entries).cons fun c head =>
        separate_of_plain (.inr (isOperatorChar_of_head?_pairsText entries c head)))

theorem exists_getLast?_pairsText {pairs : List (List Char × Operator)} (nonempty : pairs ≠ []) :
    ∃ op : Operator, op.symbol ∈ (pairsText pairs).getLast? := by
  obtain ⟨init, pair, rfl⟩ := List.eq_nil_or_concat pairs |>.resolve_left nonempty
  exact ⟨pair.2, by simp [pairsText]⟩

namespace IsSequence

theorem ends {text : List Char} (sequence : IsSequence text) :
    ∃ op : Operator, op.symbol ∈ text.getLast? := by
  obtain ⟨negative, pairs, nonempty, _, rfl⟩ := sequence
  obtain ⟨op, last⟩ := exists_getLast?_pairsText nonempty
  exact ⟨op, Run.mem_getLast?_of_suffix (List.suffix_append _ _) last⟩

theorem separate {text : List Char} (sequence : IsSequence text) : text.IsChain Separate := by
  obtain ⟨negative, pairs, _, entries, rfl⟩ := sequence
  have separate := isChain_pairsText entries
  cases negative with
  | false => exact separate
  | true =>
      exact separate.cons fun c head =>
        separate_of_plain (.inr (isOperatorChar_of_head?_pairsText entries c head))

end IsSequence

namespace Session

/-- What the fields hold, and which of them exclude each other. -/
structure Invariant (s : Session) : Prop where
  entry : s.entry = [] ∨ IsEntry s.entry
  committed : s.committed = [] ∨ IsSequence s.committed
  ends : s.committed ≠ [] → ∃ op : Operator, op.symbol ∈ s.committed.getLast?
  separate : s.committed.IsChain Separate
  paired : s.result.isSome = s.expression.isSome
  shown : s.result.isSome = true → s.entry = [] ∧ s.committed = [] ∧ s.failed = false
  failure : s.failed = true →
    s.entry = [] ∧ s.committed = [] ∧ s.result = none ∧ s.expression = none

theorem Committed.isSequence {text : List Char} (committed : Committed text) :
    text = [] ∨ IsSequence text := by
  refine committed.imp_right ?_
  rintro ⟨line, op, entered, rfl⟩
  exact entered.isSequence op

theorem Valid.invariant {s : Session} (valid : s.Valid) : s.Invariant := by
  have committed := valid.committed.isSequence
  refine ⟨valid.entry, committed, fun nonempty => (committed.resolve_left nonempty).ends, ?_,
    valid.paired, ?_, ?_⟩
  · rcases committed with none | sequence
    · rw [none]
      exact .nil
    · exact sequence.separate
  · intro some
    have result : s.result ≠ none := Option.isSome_iff_ne_none.mp some
    obtain ⟨entry, committed⟩ := valid.idle (.inl result)
    exact ⟨entry, committed, valid.failed_eq_false result⟩
  · intro failed
    obtain ⟨entry, committed⟩ := valid.idle (.inr failed)
    have result := valid.exclusive failed
    exact ⟨entry, committed, result, valid.expression_eq_none result⟩

/-- Every session that commands lead to satisfies the invariant. -/
theorem invariant_run (commands : List Command) : (run {} commands).Invariant :=
  (valid_run commands).invariant

end Session

end PocketCalc
