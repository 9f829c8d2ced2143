import PocketCalc.Proofs.Expression.Detached
import PocketCalc.Proofs.Expression.Line
import PocketCalc.Proofs.Expression.Parentheses

/-! Texts that are evaluated alike.

A percent literal stands for its hundredths (`Expression.evaluate_percent`) and
a space outside literals for nothing (`Expression.evaluate_insert_space`),
whatever stands around them.
-/

set_option autoImplicit false

namespace PocketCalc

open Decimal

namespace Expression

/-- All that an evaluation sees of a text are its first forbidden character and its tokens. -/
theorem evaluate_congr {first second : List Char}
    (forbidden : (first.map plainChar).find? (!isAllowed ·) = (second.map plainChar).find? (!isAllowed ·))
    (tokens : Token.ofText (Percent.expand (first.map plainChar)) =
      Token.ofText (Percent.expand (second.map plainChar))) :
    evaluate first = evaluate second := by
  have same : exactValue first = exactValue second := by
    rw [exactValue_eq, exactValue_eq, allowedText, allowedText, forbidden]
    cases (second.map plainChar).find? (!isAllowed ·) with
    | some c => rfl
    | none => rw [Outcome.ok_bind, Outcome.ok_bind, tokens]
  rw [evaluate, evaluate, same]

theorem find?_append_allowed {middle : List Char} (allowed : ∀ c ∈ middle, isAllowed c = true)
    (left right : List Char) :
    (left ++ (middle ++ right)).find? (!isAllowed ·) = (left ++ right).find? (!isAllowed ·) := by
  have none : middle.find? (!isAllowed ·) = none :=
    List.find?_eq_none.mpr fun c member => by simp [allowed c member]
  rw [List.find?_append, List.find?_append, none, Option.none_or, List.find?_append]

end Expression

/-! ## A percent literal -/

theorem Percent.expand_append_hundredths {digits : List Char} (all : ∀ c ∈ digits, c.isDigit = true)
    (before behind : List Char) :
    expand (before ++ (hundredths digits ++ behind)) =
      expand before ++ (hundredths digits ++ expand behind) := by
  have kept : expand (digits ++ ['/', '1', '0', '0']) = digits ++ ['/', '1', '0', '0'] :=
    expand_of_no_percent fun member => by
      rcases List.mem_append.mp member with inDigits | added
      · exact ne_percent_of_digit (all _ inDigits) rfl
      · exact absurd added (by decide)
  have enclosed := expand_parens before (digits ++ ['/', '1', '0', '0']) behind
  rw [kept] at enclosed
  simpa [hundredths] using enclosed

namespace Expression

theorem isDigit_plainChar (c : Char) : (plainChar c).isDigit = c.isDigit :=
  apply_plainChar Char.isDigit rfl rfl c

theorem plain_of_digits {digits : List Char} (all : ∀ c ∈ digits, c.isDigit = true) :
    digits.map plainChar = digits ∧ ∀ c ∈ digits, isAllowed c = true := by
  have plain := fun c member => Line.plain_of_isOperandChar (.inl (.inl (all c member)))
  exact ⟨(List.map_congr_left fun c member => (plain c member).1).trans (List.map_id digits),
    fun c member => (plain c member).2⟩

/-- All the digits in front of a percent sign stand for that many hundredths, whatever stands
around them, and whether the whole has an answer or a fault. -/
theorem evaluate_percent {before digits : List Char}
    (stop : ∀ last ∈ before.getLast?, last.isDigit = false) (nonempty : digits ≠ [])
    (all : ∀ c ∈ digits, c.isDigit = true) (spaces : Nat) (behind : List Char) :
    evaluate (before ++ digits ++ List.replicate spaces ' ' ++ '%' :: behind) =
      evaluate (before ++ '(' :: digits ++ "/100)".toList ++ behind) := by
  obtain ⟨kept, allowed⟩ := plain_of_digits all
  have plainPercent : (before ++ digits ++ List.replicate spaces ' ' ++ '%' :: behind).map plainChar =
      before.map plainChar ++ (digits ++ (List.replicate spaces ' ' ++ '%' :: behind.map plainChar)) := by
    simp [kept, plainChar]
  have plainHundredths : (before ++ '(' :: digits ++ "/100)".toList ++ behind).map plainChar =
      before.map plainChar ++ (Percent.hundredths digits ++ behind.map plainChar) := by
    simp [kept, plainChar, Percent.hundredths]
  have stopPlain : ∀ last ∈ (before.map plainChar).getLast?, last.isDigit = false := by
    rw [List.getLast?_map, Option.forall_mem_map]
    simpa only [isDigit_plainChar] using stop
  have blank : ∀ c ∈ List.replicate spaces ' ', Text.isBlank c = true ∧ isAllowed c = true := by
    intro c member
    rw [List.eq_of_mem_replicate member]
    decide
  have inHundredths : ∀ c ∈ Percent.hundredths digits, isAllowed c = true :=
    List.forall_mem_append.mpr ⟨List.forall_mem_cons.mpr ⟨rfl, allowed⟩, by simp [isAllowed]⟩
  apply evaluate_congr
  · rw [plainPercent, plainHundredths, find?_append_allowed inHundredths, find?_append_allowed allowed,
      find?_append_allowed fun c member => (blank c member).2, ← List.singleton_append (x := '%'),
      find?_append_allowed (List.forall_mem_singleton.mpr rfl)]
  · rw [plainPercent, plainHundredths, Percent.expand_append_hundredths all,
      Percent.expand_append_percent stopPlain nonempty all fun c member => (blank c member).1]

/-- One percentage among others, and one with a point in front of it. -/
theorem evaluate_percent_of_fifteen :
    (∀ last ∈ "200*".toList.getLast?, last.isDigit = false) ∧ "15".toList ≠ [] ∧
      (∀ c ∈ "15".toList, c.isDigit = true) ∧ (∀ last ∈ "3-0.".toList.getLast?, last.isDigit = false) ∧
      evaluate "200*15 %+7%".toList = .ok ⟨3007 / 100, "30.07".toList⟩ ∧
      evaluate "3-0.15%".toList = .error .malformedExpression := by
  have product : ∀ last ∈ "200*".toList.getLast?, last.isDigit = false := fun _ ends => by cases ends; rfl
  have digits : ∀ c ∈ "15".toList, c.isDigit = true := by simp
  have point : ∀ last ∈ "3-0.".toList.getLast?, last.isDigit = false := fun _ ends => by cases ends; rfl
  have answered : evaluate "200*(15/100)+7%".toList = .ok ⟨3007 / 100, "30.07".toList⟩ := by decide +kernel
  have refused : evaluate "3-0.(15/100)".toList = .error .malformedExpression := by decide +kernel
  exact ⟨product, by decide, digits, point,
    (evaluate_percent product (by decide) digits 1 "+7%".toList).trans answered,
    (evaluate_percent point (by decide) digits 0 []).trans refused⟩

end Expression

/-! ## A space -/

namespace Percent

theorem mem_head?_of_expand {text : List Char} {first : Char} (head : first ∈ (expand text).head?)
    (literal : IsLiteralChar first) : first ∈ text.head? := by
  cases text with
  | nil => rwa [expand_nil] at head
  | cons c rest =>
      rcases head?_expand c rest with same | paren
      · rwa [same] at head
      · rw [paren] at head
        cases head
        exact absurd literal (by decide)

theorem getLast?_expand_concat_percent (text : List Char) :
    ∃ last ∈ (expand (text ++ ['%'])).getLast?, ¬ IsLiteralChar last := by
  by_cases ends : EndsNumber text
  · obtain ⟨before, digits, blanks, rfl, stop, nonempty, all, blank⟩ := ends.exists_run
    refine ⟨')', ?_, by decide⟩
    rw [List.append_assoc, List.append_assoc, expand_append_percent stop nonempty all blank, expand_nil,
      List.append_nil, hundredths, ← List.append_assoc, Run.getLast?_append_cons]
    rfl
  · have parted : Parted text ['%'] :=
      ⟨fun _ _ _ next head => by cases head; rfl, fun ends' => absurd ends' ends⟩
    refine ⟨'%', ?_, by decide⟩
    rw [expand_append_of_parted parted, expand_of_not_digit rfl, expand_nil, List.getLast?_concat]
    rfl

theorem mem_getLast?_of_expand {text : List Char} {last : Char} (ends : last ∈ (expand text).getLast?)
    (literal : IsLiteralChar last) : last ∈ text.getLast? := by
  rcases List.eq_nil_or_concat text with rfl | ⟨init, final, rfl⟩
  · rwa [expand_nil] at ends
  · rw [List.concat_eq_append] at ends ⊢
    by_cases percent : final = '%'
    · subst percent
      obtain ⟨other, ends', notLiteral⟩ := getLast?_expand_concat_percent init
      cases Option.mem_unique ends ends'
      exact absurd literal notLiteral
    · have final' : final ∈ (init ++ [final]).getLast? := List.getLast?_concat
      cases Option.mem_unique ends (getLast?_expand final' percent)
      exact final'

theorem cut_expand {left right : List Char} (cut : Cut left right) : Cut (expand left) (expand right) :=
  fun _ ends literal _ head literal' =>
    cut _ (mem_getLast?_of_expand ends literal) literal _ (mem_head?_of_expand head literal') literal'

end Percent

theorem Token.ofText_insert_space {left right : List Char} (cut : Cut left right) :
    ofText (left ++ ' ' :: right) = ofText (left ++ right) := by
  have cutSpace : Cut left (' ' :: right) := cut_of_head fun next head => by cases head; decide
  rw [ofText_append cutSpace, ofText_append cut, ofText_cons_blank rfl]

namespace Percent

/-- Inside a percent literal the space is rewritten with it; elsewhere it stays, between two tokens. -/
theorem ofText_expand_insert_space {left right : List Char} (cut : Cut left right) :
    Token.ofText (expand (left ++ ' ' :: right)) = Token.ofText (expand (left ++ right)) := by
  by_cases parts : EndsNumber left → sign? right = none
  · have parted : Parted left right :=
      ⟨fun last ends digit next head => Bool.eq_false_iff.mpr fun digit' =>
        cut last ends (.inl digit) next head (.inl digit'), parts⟩
    have partedSpace : Parted left (' ' :: right) :=
      ⟨fun _ _ _ next head => by cases head; rfl, parts⟩
    rw [expand_append_of_parted partedSpace, expand_append_of_parted parted, expand_of_not_digit rfl]
    exact Token.ofText_insert_space (cut_expand cut)
  · -- The space is one more between the digits and the sign of a percent literal.
    obtain ⟨ends, found⟩ := Classical.not_imp.mp parts
    obtain ⟨behind, found⟩ := Option.ne_none_iff_exists'.mp found
    obtain ⟨before, digits, blanks, rfl, stop, nonempty, all, blank⟩ := ends.exists_run
    obtain ⟨blanks', blank', rfl⟩ := sign?_eq_some_iff.mp found
    have blanks_append : ∀ c ∈ blanks ++ blanks', Text.isBlank c = true :=
      List.forall_mem_append.mpr ⟨blank, blank'⟩
    have blanks_space : ∀ c ∈ blanks ++ ' ' :: blanks', Text.isBlank c = true :=
      List.forall_mem_append.mpr ⟨blank, List.forall_mem_cons.mpr ⟨rfl, blank'⟩⟩
    have without := expand_append_percent stop nonempty all blanks_append behind
    have spaced := expand_append_percent stop nonempty all blanks_space behind
    simp only [List.append_assoc, List.cons_append] at without spaced ⊢
    rw [spaced, without]

end Percent

namespace Expression

theorem isLiteralChar_plainChar {c : Char} : IsLiteralChar (plainChar c) ↔ IsLiteralChar c :=
  iff_of_eq (apply_plainChar (fun c => IsLiteralChar c) (propext (by decide)) (propext (by decide)) c)

theorem cut_plain {left right : List Char} (cut : Cut left right) :
    Cut (left.map plainChar) (right.map plainChar) := by
  intro last ends literal next head
  rw [List.getLast?_map] at ends
  rw [List.head?_map] at head
  obtain ⟨last, isLast, rfl⟩ := Option.map_eq_some_iff.mp ends
  obtain ⟨next, isNext, rfl⟩ := Option.map_eq_some_iff.mp head
  rw [isLiteralChar_plainChar] at literal ⊢
  exact cut last isLast literal next isNext

/-- A space between two characters that are not both of a literal makes no difference: not to an
answer, and not to a fault. -/
theorem evaluate_insert_space {before behind : List Char} (cut : Cut before behind) :
    evaluate (before ++ ' ' :: behind) = evaluate (before ++ behind) := by
  have plain : (before ++ ' ' :: behind).map plainChar =
      before.map plainChar ++ ([' '] ++ behind.map plainChar) := by
    rw [List.map_append, List.map_cons]
    rfl
  apply evaluate_congr
  · rw [plain, find?_append_allowed (List.forall_mem_singleton.mpr rfl), List.map_append]
  · rw [plain, List.map_append]
    exact Percent.ofText_expand_insert_space (cut_plain cut)

theorem evaluate_spaced_percent :
    Cut "2*5".toList "%".toList ∧ evaluate "2*5 %".toList = .ok ⟨1 / 10, "0.1".toList⟩ ∧
      Cut "1/".toList "0)".toList ∧ evaluate "1/ 0)".toList = .error .unexpectedClosing := by
  have percent : Cut "2*5".toList "%".toList := cut_of_head fun next head => by cases head; decide
  have quotient : Cut "1/".toList "0)".toList := cut_of_last fun last ends => by cases ends; decide
  have answered : evaluate "2*5%".toList = .ok ⟨1 / 10, "0.1".toList⟩ := by decide +kernel
  have refused : evaluate "1/0)".toList = .error .unexpectedClosing := by decide +kernel
  exact ⟨percent, (evaluate_insert_space percent).trans answered,
    quotient, (evaluate_insert_space quotient).trans refused⟩

end Expression

end PocketCalc
