import PocketCalc.Proofs.Expression.Percent

/-! Percent signs that no digits precede: they stay when percent literals are rewritten. -/

set_option autoImplicit false

namespace PocketCalc.Percent

/-- The percent signs directly behind a character that is no digit. -/
def detached : List Char → Nat
  | c :: next :: rest => (if c.isDigit = false ∧ next = '%' then 1 else 0) + detached (next :: rest)
  | _ => 0

/-- Whether the last character is such a percent sign. -/
def endsDetached (text : List Char) : Bool :=
  match text.reverse with
  | '%' :: c :: _ => !c.isDigit
  | _ => false

theorem detached_of_digit {c : Char} (digit : c.isDigit = true) (rest : List Char) :
    detached (c :: rest) = detached rest := by
  cases rest with
  | nil => rfl
  | cons next rest => simp [detached, digit]

theorem detached_digits (digits : List Char) (all : ∀ c ∈ digits, c.isDigit = true)
    (rest : List Char) : detached (digits ++ rest) = detached rest := by
  induction digits with
  | nil => rfl
  | cons c digits ih =>
      rw [List.cons_append, detached_of_digit (all c List.mem_cons_self),
        ih fun d member => all d (List.mem_cons_of_mem c member)]

theorem detached_of_head {rest : List Char} (stop : ∀ next ∈ rest.head?, next ≠ '%') (c : Char) :
    detached (c :: rest) = detached rest := by
  cases rest with
  | nil => rfl
  | cons next rest => simp [detached, stop next rfl]

theorem detached_congr {c d : Char} (other : c.isDigit = false) (other' : d.isDigit = false)
    (rest : List Char) : detached (c :: rest) = detached (d :: rest) := by
  cases rest with
  | nil => rfl
  | cons next rest => simp [detached, other, other']

theorem detached_pos (before behind : List Char) {c : Char} (other : c.isDigit = false) :
    0 < detached (before ++ c :: '%' :: behind) := by
  induction before with
  | nil => simp [detached, other]
  | cons first before ih =>
      cases before with
      | nil => exact Nat.lt_of_lt_of_le ih (Nat.le_add_left _ _)
      | cons second before => exact Nat.lt_of_lt_of_le ih (Nat.le_add_left _ _)

theorem endsDetached_concat (before : List Char) (c : Char) :
    endsDetached (before ++ [c, '%']) = !c.isDigit := by
  simp [endsDetached]

theorem endsDetached_digits {before digits : List Char} (all : ∀ c ∈ digits, c.isDigit = true)
    (stop : ∀ last ∈ before.getLast?, last.isDigit = false) (nonempty : before ++ digits ≠ []) :
    endsDetached (before ++ digits ++ ['%']) = digits.isEmpty := by
  rcases List.eq_nil_or_concat digits with rfl | ⟨digits, digit, rfl⟩
  · rcases List.eq_nil_or_concat before with rfl | ⟨before, c, rfl⟩
    · exact absurd rfl nonempty
    · have other := stop c (by simp)
      have ends := endsDetached_concat before c
      rw [other] at ends
      simpa using ends
  · have isDigit := all digit (by simp)
    have ends := endsDetached_concat (before ++ digits) digit
    have some : (digits.concat digit).isEmpty = false := by simp
    rw [isDigit] at ends
    rw [some]
    simpa using ends

theorem endsDetached_of_last {text : List Char} (stop : ∀ last ∈ text.getLast?, last ≠ '%') :
    endsDetached text = false := by
  rcases List.eq_nil_or_concat text with rfl | ⟨init, last, rfl⟩
  · rfl
  · have other := stop last (by simp)
    unfold endsDetached
    split
    · next same => simp [other] at same
    · rfl

theorem detached_pos_of_endsDetached {text : List Char} (ends : endsDetached text = true) :
    0 < detached text := by
  unfold endsDetached at ends
  split at ends
  · next c before same =>
      have whole : text = before.reverse ++ [c, '%'] := by simp [← List.reverse_inj, same]
      rw [whole]
      exact detached_pos before.reverse [] (by simpa using ends)
  · cases ends

/-! ## The rewritten text -/

theorem ne_percent_of_digit {c : Char} (digit : c.isDigit = true) : c ≠ '%' := by
  rintro rfl
  cases digit

theorem count_percent_digits {digits : List Char} (all : ∀ c ∈ digits, c.isDigit = true) :
    digits.count '%' = 0 :=
  List.count_eq_zero.mpr fun member => ne_percent_of_digit (all _ member) rfl

theorem count_percent_hundredths {digits : List Char} (all : ∀ c ∈ digits, c.isDigit = true) :
    (hundredths digits).count '%' = 0 := by
  simp [hundredths, count_percent_digits all]

theorem detached_behind_digits {c : Char} (digit : c.isDigit = true) (rest : List Char) :
    detached ('%' :: c :: rest) = detached (rest.dropWhile Char.isDigit) := by
  have head : ∀ next ∈ (c :: rest).head?, next ≠ '%' := by
    intro next same
    cases same
    exact ne_percent_of_digit digit
  have skipped := detached_digits (rest.takeWhile Char.isDigit)
    (fun _ => List.mem_takeWhile_imp) (rest.dropWhile Char.isDigit)
  rw [List.takeWhile_append_dropWhile] at skipped
  rw [detached_of_head head, detached_of_digit digit, skipped]

theorem sign?_of_unspaced {text behind : List Char} (unspaced : ∀ c ∈ text, Text.isBlank c = false)
    (found : sign? text = some behind) : text = '%' :: behind := by
  obtain ⟨blanks, blank, same⟩ := sign?_eq_some_iff.mp found
  cases blanks with
  | nil => exact same
  | cons b blanks =>
      have notBlank := unspaced b (by simp [same])
      rw [blank b List.mem_cons_self] at notBlank
      cases notBlank

theorem count_expand {text : List Char} (unspaced : ∀ c ∈ text, Text.isBlank c = false) :
    (expand text).count '%' = detached ('%' :: text) := by
  -- The sign in front stands for what was rewritten last, behind which a sign is detached.
  fun_induction expand text with
  | case1 => rfl
  | case2 c rest digit behind found ih =>
      have same := sign?_of_unspaced
        (fun d member => unspaced d ((suffix_behind_digits c rest).mem member)) found
      have later := ih fun d member => unspaced d ((suffix_behind_percent c found).mem member)
      rw [List.count_append, count_percent_hundredths (digits_of_head digit rest), Nat.zero_add, later,
        detached_behind_digits digit, same]
  | case3 c rest digit absent ih =>
      have stop : ∀ next ∈ (rest.dropWhile Char.isDigit).head?, next ≠ '%' := by
        rintro next head rfl
        obtain ⟨behind, same⟩ := List.head?_eq_some_iff.mp head
        exact sign?_eq_none_iff.mp absent [] behind (by simp) same
      have literal := count_percent_digits (digits_of_head digit rest)
      rw [List.count_append, literal, Nat.zero_add,
        ih fun d member => unspaced d ((suffix_behind_digits c rest).mem member),
        detached_behind_digits digit, detached_of_head stop]
  | case4 c rest other ih =>
      have notDigit := Bool.eq_false_iff.mpr other
      have later := ih fun d member => unspaced d (List.mem_cons_of_mem c member)
      rw [List.count_cons, later, detached_congr (d := c) rfl notDigit]
      simp [detached, Nat.add_comm]

theorem mem_of_mem_expand {text : List Char} {c : Char} (member : c ∈ expand text) :
    c ∈ text ∨ c ∈ ['(', '/', '1', '0', ')'] := by
  fun_induction expand text with
  | case1 => cases member
  | case2 d rest digit behind found ih =>
      rcases List.mem_append.mp member with inLiteral | later
      · have inDigits : c ∈ d :: rest.takeWhile Char.isDigit → c ∈ d :: rest :=
          fun digits => ((List.takeWhile_sublist Char.isDigit).cons_cons d).mem digits
        rw [hundredths, List.cons_append, List.mem_cons, List.mem_append] at inLiteral
        rcases inLiteral with paren | digits | behind
        · exact .inr (by simp [paren])
        · exact .inl (inDigits digits)
        · have added : ['/', '1', '0', '0', ')'] ⊆ ['(', '/', '1', '0', ')'] := by decide
          exact .inr (added behind)
      · exact (ih later).imp_left (suffix_behind_percent d found).mem
  | case3 d rest digit absent ih =>
      rcases List.mem_append.mp member with inDigits | later
      · exact .inl (((List.takeWhile_sublist Char.isDigit).cons_cons d).mem inDigits)
      · exact (ih later).imp_left (suffix_behind_digits d rest).mem
  | case4 d rest other ih =>
      rcases List.mem_cons.mp member with rfl | later
      · exact .inl List.mem_cons_self
      · exact (ih later).imp_left (List.mem_cons_of_mem d)

theorem getLast?_expand {text : List Char} {last : Char} (ends : last ∈ text.getLast?)
    (other : last ≠ '%') : last ∈ (expand text).getLast? := by
  fun_induction expand text with
  | case1 => cases ends
  | case2 d rest digit behind found ih =>
      obtain ⟨before, whole⟩ := suffix_of_percent d found
      rw [← whole] at ends
      cases behind with
      | nil =>
          rw [List.getLast?_concat] at ends
          exact absurd (Option.some.inj ends).symm other
      | cons c behind =>
          rw [Run.getLast?_append_cons, List.getLast?_cons_cons] at ends
          exact Run.mem_getLast?_of_suffix (List.suffix_append _ _) (ih ends)
  | case3 d rest digit absent ih =>
      have whole := List.takeWhile_append_dropWhile (p := Char.isDigit) (l := rest)
      -- The digits end the text, or the last character is one behind them.
      cases left : rest.dropWhile Char.isDigit with
      | nil =>
          rw [left, List.append_nil] at whole
          rw [expand_nil, List.append_nil, whole]
          exact ends
      | cons c behind =>
          rw [left] at ih
          rw [← whole, left, ← List.cons_append, Run.getLast?_append_cons] at ends
          exact Run.mem_getLast?_of_suffix (List.suffix_append _ _) (ih ends)
  | case4 d rest notDigit ih =>
      cases rest with
      | nil => rwa [expand_nil]
      | cons c rest =>
          rw [List.getLast?_cons_cons] at ends
          exact Run.mem_getLast?_of_suffix (List.suffix_cons d _) (ih ends)

theorem head?_expand (c : Char) (rest : List Char) :
    (expand (c :: rest)).head? = some c ∨ (expand (c :: rest)).head? = some '(' := by
  by_cases digit : c.isDigit = true
  · cases found : sign? (rest.dropWhile Char.isDigit) with
    | none => rw [expand_of_no_sign digit found]; exact .inl rfl
    | some behind => rw [expand_of_sign digit found]; exact .inr rfl
  · rw [expand_of_not_digit (Bool.eq_false_iff.mpr digit)]
    exact .inl rfl

/-! ## One percent sign -/

/-- What a percent sign is written as with the digits in front of it. -/
def written (digits : List Char) : List Char := if digits = [] then ['%'] else hundredths digits

def writtenTokens (digits : List Char) : List Token :=
  if digits = [] then [.op .rem]
  else [.openParen, .num (Nat.ofDigitChars 10 digits 0), .op .div, .num 100, .closeParen]

theorem expand_written {digits : List Char} (all : ∀ c ∈ digits, c.isDigit = true)
    (rest : List Char) : expand (digits ++ '%' :: rest) = written digits ++ expand rest := by
  unfold written
  split
  · next none => rw [none, List.nil_append, expand_of_not_digit rfl]; rfl
  · next some => exact expand_percent some all (sign?_eq_some_iff.mpr ⟨[], by simp, rfl⟩)

theorem ofText_written {digits : List Char} (all : ∀ c ∈ digits, c.isDigit = true) :
    Token.ofText (written digits) = .ok (writtenTokens digits) := by
  unfold written writtenTokens
  split
  · exact Token.ofText_symbol rfl
  · next some => exact ofText_hundredths some all

theorem cut_written (left digits right : List Char) : Cut left (written digits ++ right) := by
  refine cut_of_head fun next head => ?_
  unfold written at head
  split at head
  · cases head; decide
  · cases head; decide

theorem cut_of_written (digits right : List Char) : Cut (written digits) right := by
  refine cut_of_last fun last ends => ?_
  unfold written at ends
  split at ends
  · cases ends; decide
  · rw [hundredths, Run.getLast?_append_cons] at ends
    cases ends
    decide

end PocketCalc.Percent
