import PocketCalc.Proofs.Expression.Refusal

/-! What is left when percent literals have been rewritten.

No percent sign has a number in front of it any more (`Percent.settled_expand`), and a text of
which that is true is left as it is (`Percent.expand_eq_self_iff`). So nothing is rewritten
twice, and what stands on either side of a symbol is rewritten by itself
(`Percent.expand_settles`).
-/

set_option autoImplicit false

namespace PocketCalc.Percent

/-- No percent sign has digits in front of it, with blanks between them or none. -/
def Settled (text : List Char) : Prop :=
  ∀ before behind, text = before ++ '%' :: behind → ¬ EndsNumber before

theorem Settled.of_suffix {inner text : List Char} (settled : Settled text) (suffix : inner <:+ text) :
    Settled inner := by
  rintro before behind rfl ends
  obtain ⟨front, rfl⟩ := suffix
  exact settled (front ++ before) behind (List.append_assoc ..).symm
    (ends.of_suffix (List.suffix_append ..))

theorem settled_of_not_mem {text : List Char} (none : '%' ∉ text) : Settled text := by
  rintro before behind rfl
  exact absurd (List.mem_append_right before List.mem_cons_self) none

theorem not_endsNumber_of_not_digit {text : List Char} (none : ∀ c ∈ text, c.isDigit = false) :
    ¬ EndsNumber text := by
  rintro ⟨before, digit, blanks, rfl, isDigit, _⟩
  rw [none digit (List.mem_append_right before List.mem_cons_self)] at isDigit
  cases isDigit

theorem EndsNumber.of_append {left right : List Char} (ends : EndsNumber (left ++ right)) :
    EndsNumber right ∨ EndsNumber left ∧ ∀ c ∈ right, Text.isBlank c = true := by
  obtain ⟨before, digit, blanks, same, isDigit, blank⟩ := ends
  rcases List.append_eq_append_iff.mp same with ⟨inner, rfl, rfl⟩ | ⟨inner, rfl, behind⟩
  · exact .inl ⟨inner, digit, blanks, rfl, isDigit, blank⟩
  · cases inner with
    | nil => exact .inl ⟨[], digit, blanks, behind.symm, isDigit, blank⟩
    | cons first inner =>
        obtain ⟨rfl, rfl⟩ := List.cons.inj behind
        obtain ⟨inLeft, inRight⟩ := List.forall_mem_append.mp blank
        exact .inr ⟨⟨before, digit, inner, rfl, isDigit, inLeft⟩, inRight⟩

theorem Settled.append {left right : List Char} (first : Settled left) (second : Settled right)
    (apart : EndsNumber left → sign? right = none) : Settled (left ++ right) := by
  intro before behind same ends
  rcases List.append_eq_append_iff.mp same with ⟨inner, rfl, rfl⟩ | ⟨inner, rfl, isBehind⟩
  · -- The sign stands in the right text, and the digits in front of it in either one.
    rcases ends.of_append with inRight | ⟨inLeft, blank⟩
    · exact second inner behind rfl inRight
    · exact sign?_eq_none_iff.mp (apart inLeft) inner behind blank rfl
  · cases inner with
    | nil =>
        rw [List.append_nil] at apart
        exact sign?_eq_none_iff.mp (apart ends) [] behind (List.forall_mem_nil _) isBehind.symm
    | cons c inner =>
        obtain ⟨rfl, rfl⟩ := List.cons.inj isBehind
        exact first before inner rfl ends

theorem Settled.cons {c : Char} {rest : List Char} (other : c.isDigit = false) (settled : Settled rest) :
    Settled (c :: rest) := by
  have none : ∀ d ∈ [c], d.isDigit = false := List.forall_mem_singleton.mpr other
  have alone : Settled [c] := fun before behind same =>
    not_endsNumber_of_not_digit fun d member => none d (same ▸ List.mem_append_left _ member)
  exact alone.append settled fun ends => absurd ends (not_endsNumber_of_not_digit none)

/-! ## The rewritten text -/

theorem sign?_expand {text : List Char} (absent : sign? text = none) : sign? (expand text) = none := by
  induction text with
  | nil => rw [expand_nil]; exact absent
  | cons c rest ih =>
      by_cases blank : Text.isBlank c = true
      · have skip : ∀ text, sign? (c :: text) = sign? text := fun text => by
          rw [sign?, sign?, List.dropWhile_cons_of_pos blank]
        rw [expand_of_not_digit (isDigit_of_isBlank blank), skip]
        exact ih ((skip rest).symm.trans absent)
      · have notPercent : c ≠ '%' := by
          rintro rfl
          exact sign?_eq_none_iff.mp absent [] rest (List.forall_mem_nil _) rfl
        refine sign?_of_head fun next head => ?_
        rcases head?_expand c rest with same | same
        · rw [same] at head
          cases head
          exact ⟨Bool.eq_false_iff.mpr blank, notPercent⟩
        · rw [same] at head
          cases head
          decide

theorem seam_of_hundredths (digits right : List Char) : Seam (hundredths digits) right :=
  seam_of_last fun last ends => by
    rw [hundredths, Run.getLast?_append_cons] at ends
    cases ends
    decide

theorem settled_expand (text : List Char) : Settled (expand text) := by
  fun_induction expand text with
  | case1 => exact settled_of_not_mem (by simp)
  | case2 c rest digit behind found ih =>
      have literal := count_percent_hundredths (digits_of_head digit rest)
      exact (settled_of_not_mem (List.count_eq_zero.mp literal)).append ih
        (seam_of_hundredths _ _).parted.percent
  | case3 c rest digit absent ih =>
      have literal := count_percent_digits (digits_of_head digit rest)
      exact (settled_of_not_mem (List.count_eq_zero.mp literal)).append ih fun _ => sign?_expand absent
  | case4 c rest other ih => exact ih.cons (Bool.eq_false_iff.mpr other)

theorem expand_of_settled {text : List Char} (settled : Settled text) : expand text = text := by
  fun_induction expand text with
  | case1 => rfl
  | case2 c rest digit behind found _ =>
      obtain ⟨blanks, blank, same⟩ := sign?_eq_some_iff.mp found
      have ends := endsNumber_of_run (List.cons_ne_nil c _) (digits_of_head digit rest) blank
      refine absurd ends (settled _ behind ?_)
      rw [List.append_assoc, ← same, List.cons_append, List.takeWhile_append_dropWhile]
  | case3 c rest digit absent ih =>
      rw [ih (settled.of_suffix (suffix_behind_digits c rest)), List.cons_append,
        List.takeWhile_append_dropWhile]
  | case4 c rest other ih => rw [ih (settled.of_suffix (List.suffix_cons c rest))]

theorem expand_eq_self_iff {text : List Char} : expand text = text ↔ Settled text :=
  ⟨fun same => same ▸ settled_expand text, expand_of_settled⟩

/-- The allowed characters that are neither digits nor blanks. -/
def symbols : List Char := "+-*/().%".toList

theorem apart_of_symbol {c : Char} (symbol : c ∈ symbols) :
    c.isDigit = false ∧ Text.isBlank c = false := by
  have all : symbols.all (fun c => !c.isDigit && !Text.isBlank c) = true := by decide
  simpa using List.all_eq_true.mp all c symbol

/-- Allowed characters are rewritten as allowed ones. In the rewritten text no percent sign has
digits in front of it, and just the texts of which this is true are left as they are: so nothing
is rewritten twice. A text that is empty or ends with a symbol is rewritten by itself, whatever
follows it. -/
theorem expand_settles :
    (∀ text : List Char, (∀ c ∈ text, c ∈ Expression.allowList) →
      ∀ c ∈ expand text, c ∈ Expression.allowList) ∧
    (∀ text, Settled (expand text) ∧ expand (expand text) = expand text ∧
      (expand text = text ↔ Settled text)) ∧
    ∀ left right, (∀ last ∈ left.getLast?, last ∈ symbols) →
      expand (left ++ right) = expand left ++ expand right := by
  refine ⟨fun text listed c member => ?_, fun text => ?_, fun left right symbol => ?_⟩
  · have allowed := fun d member => Expression.isAllowed_iff_mem.mpr (listed d member)
    exact Expression.isAllowed_iff_mem.mp (Expression.isAllowed_of_mem_expand allowed c member)
  · have settled := settled_expand text
    exact ⟨settled, expand_of_settled settled, expand_eq_self_iff⟩
  · exact expand_append (seam_of_last fun last ends => apart_of_symbol (symbol last ends))

/-- Of two percent signs behind digits one is rewritten, and so is one behind spaces. -/
theorem expand_doubled_percent :
    (∀ c ∈ "7%%3 %".toList, c ∈ Expression.allowList) ∧
      expand "7%%3 %".toList = "(7/100)%(3/100)".toList ∧
      (∀ c ∈ "(7/100)%(3/100)".toList, c ∈ Expression.allowList) ∧
      Settled "(7/100)%(3/100)".toList ∧
      expand "(7/100)%(3/100)".toList = "(7/100)%(3/100)".toList ∧
      (∀ last ∈ "7%".toList.getLast?, last ∈ symbols) ∧
      expand ("7%".toList ++ "%3 %".toList) = expand "7%".toList ++ expand "%3 %".toList := by
  have rewritten : expand "7%%3 %".toList = "(7/100)%(3/100)".toList := by decide +kernel
  have symbol : ∀ last ∈ "7%".toList.getLast?, last ∈ symbols := fun last ends => by cases ends; decide
  have inList : "7%%3 %".toList ⊆ Expression.allowList := by decide
  have listed : ∀ c ∈ "7%%3 %".toList, c ∈ Expression.allowList := fun c member => inList member
  obtain ⟨allowed, settles, locally⟩ := expand_settles
  have stays := allowed _ listed
  obtain ⟨settled, fixed, _⟩ := settles "7%%3 %".toList
  rw [rewritten] at stays settled fixed
  exact ⟨listed, rewritten, stays, settled, fixed, symbol, locally _ _ symbol⟩

end PocketCalc.Percent
