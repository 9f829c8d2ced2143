import PocketCalc.Expression.Percent
import PocketCalc.Proofs.Text.Pattern
import PocketCalc.Proofs.Token.Spelling

/-! Which percent signs are rewritten.

`Rewrites` says it for the whole text: a maximal run of digits with a percent
sign behind it, and nothing else. There is one such rewriting
(`rewrites_iff`). It works on two texts by themselves where neither a run of
digits nor a percent literal goes on from one into the other
(`expand_append_of_parted`), as on either side of a symbol.
-/

set_option autoImplicit false

namespace PocketCalc.Percent

/-- Every maximal run of digits, blanks and a percent sign is written as hundredths. -/
inductive Rewrites : List Char → List Char → Prop where
  | done : Rewrites [] []
  | other {c : Char} {rest result : List Char} : c.isDigit = false → Rewrites rest result →
      Rewrites (c :: rest) (c :: result)
  | run {digits rest result : List Char} : digits ≠ [] → (∀ c ∈ digits, c.isDigit = true) →
      (∀ c ∈ rest.head?, c.isDigit = false) →
      (∀ blanks behind, (∀ c ∈ blanks, Text.isBlank c = true) → rest ≠ blanks ++ '%' :: behind) →
      Rewrites rest result → Rewrites (digits ++ rest) (digits ++ result)
  | percent {digits blanks rest result : List Char} : digits ≠ [] →
      (∀ c ∈ digits, c.isDigit = true) → (∀ c ∈ blanks, Text.isBlank c = true) →
      Rewrites rest result → Rewrites (digits ++ (blanks ++ '%' :: rest)) (hundredths digits ++ result)

theorem isDigit_of_isBlank {c : Char} (blank : Text.isBlank c = true) : c.isDigit = false :=
  Bool.eq_false_iff.mpr fun digit => Token.not_isLiteralChar_of_isBlank blank (.inl digit)

theorem sign?_eq_some_iff {text rest : List Char} :
    sign? text = some rest ↔
      ∃ blanks, (∀ c ∈ blanks, Text.isBlank c = true) ∧ text = blanks ++ '%' :: rest := by
  constructor
  · intro found
    refine ⟨text.takeWhile Text.isBlank, fun c => List.mem_takeWhile_imp, ?_⟩
    have whole := List.takeWhile_append_dropWhile (p := Text.isBlank) (l := text)
    unfold sign? at found
    split at found
    · next same => cases found; rw [← same, whole]
    · cases found
  · rintro ⟨blanks, all, rfl⟩
    have run := Run.exact Text.isBlank blanks ('%' :: rest) all
      fun c head => by cases head; decide
    rw [sign?, run.2]
    rfl

theorem sign?_eq_none_iff {text : List Char} :
    sign? text = none ↔
      ∀ blanks behind, (∀ c ∈ blanks, Text.isBlank c = true) → text ≠ blanks ++ '%' :: behind := by
  rw [Option.eq_none_iff_forall_ne_some]
  constructor
  · intro absent blanks behind all same
    exact absent behind (sign?_eq_some_iff.mpr ⟨blanks, all, same⟩)
  · intro absent behind found
    obtain ⟨blanks, all, same⟩ := sign?_eq_some_iff.mp found
    exact absent blanks behind all same

theorem sign?_of_head {text : List Char}
    (other : ∀ next ∈ text.head?, Text.isBlank next = false ∧ next ≠ '%') : sign? text = none := by
  cases text with
  | nil => rfl
  | cons next text =>
      obtain ⟨notBlank, notPercent⟩ := other next rfl
      rw [sign?, List.dropWhile_cons_of_neg (by simp [notBlank])]
      split
      · next same => cases same; exact absurd rfl notPercent
      · rfl

theorem suffix_of_sign? {text rest : List Char} (found : sign? text = some rest) :
    '%' :: rest <:+ text := by
  obtain ⟨blanks, _, rfl⟩ := sign?_eq_some_iff.mp found
  exact List.suffix_append _ _

theorem suffix_behind_digits (c : Char) (rest : List Char) :
    rest.dropWhile Char.isDigit <:+ c :: rest :=
  (List.dropWhile_suffix _).trans (List.suffix_cons c rest)

theorem suffix_of_percent (c : Char) {rest behind : List Char}
    (found : sign? (rest.dropWhile Char.isDigit) = some behind) : '%' :: behind <:+ c :: rest :=
  (suffix_of_sign? found).trans (suffix_behind_digits c rest)

theorem suffix_behind_percent (c : Char) {rest behind : List Char}
    (found : sign? (rest.dropWhile Char.isDigit) = some behind) : behind <:+ c :: rest :=
  (List.suffix_cons '%' behind).trans (suffix_of_percent c found)

theorem not_digit_head_of_sign? {text rest : List Char} (found : sign? text = some rest) :
    ∀ c ∈ text.head?, c.isDigit = false := by
  obtain ⟨blanks, all, rfl⟩ := sign?_eq_some_iff.mp found
  intro c head
  cases blanks with
  | nil => cases head; decide
  | cons first blanks => cases head; exact isDigit_of_isBlank (all _ List.mem_cons_self)

theorem expand_run {digits rest : List Char} (all : ∀ c ∈ digits, c.isDigit = true)
    (stop : ∀ c ∈ rest.head?, c.isDigit = false) (absent : sign? rest = none) :
    expand (digits ++ rest) = digits ++ expand rest := by
  cases digits with
  | nil => rfl
  | cons c digits =>
      have run := Run.exact Char.isDigit digits rest
        (fun d member => all d (List.mem_cons_of_mem c member)) stop
      rw [List.cons_append, expand_of_no_sign (all c List.mem_cons_self) (by rw [run.2]; exact absent),
        run.1, run.2]

theorem expand_percent {digits rest behind : List Char} (nonempty : digits ≠ [])
    (all : ∀ c ∈ digits, c.isDigit = true) (found : sign? rest = some behind) :
    expand (digits ++ rest) = hundredths digits ++ expand behind := by
  cases digits with
  | nil => exact absurd rfl nonempty
  | cons c digits =>
      have run := Run.exact Char.isDigit digits rest
        (fun d member => all d (List.mem_cons_of_mem c member)) (not_digit_head_of_sign? found)
      rw [List.cons_append, expand_of_sign (all c List.mem_cons_self)
        (by rw [run.2]; exact found), run.1]

theorem digits_of_head {c : Char} (digit : c.isDigit = true) (rest : List Char) :
    ∀ d ∈ c :: rest.takeWhile Char.isDigit, d.isDigit = true :=
  List.forall_mem_cons.mpr ⟨digit, fun _ => List.mem_takeWhile_imp⟩

/-- There is one rewriting of a text. -/
theorem rewrites_iff {text result : List Char} : Rewrites text result ↔ result = expand text := by
  constructor
  · intro rewrites
    -- Each rule takes the branch that the function takes there.
    induction rewrites with
    | done => exact expand_nil.symm
    | other digit _ ih => rw [expand_of_not_digit digit, ih]
    | run _ all stop absent _ ih => rw [expand_run all stop (sign?_eq_none_iff.mpr absent), ih]
    | percent nonempty all blank _ ih =>
        rw [expand_percent nonempty all (sign?_eq_some_iff.mpr ⟨_, blank, rfl⟩), ih]
  · rintro rfl
    fun_induction expand text with
    | case1 => exact .done
    | case2 c rest digit behind found ih =>
        obtain ⟨blanks, blank, same⟩ := sign?_eq_some_iff.mp found
        have whole := List.takeWhile_append_dropWhile (p := Char.isDigit) (l := rest)
        rw [same] at whole
        have rewrites := Rewrites.percent (List.cons_ne_nil c _) (digits_of_head digit rest) blank ih
        rwa [List.cons_append, whole] at rewrites
    | case3 c rest digit absent ih =>
        have rewrites := Rewrites.run (List.cons_ne_nil c _) (digits_of_head digit rest) (Run.stops _ rest)
          (sign?_eq_none_iff.mp absent) ih
        rwa [List.cons_append, List.takeWhile_append_dropWhile] at rewrites
    | case4 c rest other ih => exact .other (Bool.eq_false_iff.mpr other) ih

/-! ## The pattern -/

theorem expand_cons_of_no_sign {c : Char} {rest : List Char} (digit : c.isDigit = true)
    (absent : sign? (rest.dropWhile Char.isDigit) = none) : expand (c :: rest) = c :: expand rest := by
  have behind : expand (rest.takeWhile Char.isDigit ++ rest.dropWhile Char.isDigit) =
      rest.takeWhile Char.isDigit ++ expand (rest.dropWhile Char.isDigit) :=
    expand_run (fun _ => List.mem_takeWhile_imp) (Run.stops Char.isDigit rest) absent
  rw [List.takeWhile_append_dropWhile] at behind
  rw [expand_of_no_sign digit absent, behind, List.cons_append]

/-- The blanks of a match are those in front of the sign: none of them is a sign. -/
theorem match?_blanks_sign (text : List Char) :
    Text.Pattern.match? [.star Text.isBlank, .one (Text.inRanges [('%', '%')])] text =
      (sign? text).map fun behind => ([text.takeWhile Text.isBlank, ['%']], behind) := by
  have stuck : ∀ c rest, Text.isBlank c = true →
      Text.Pattern.match? [.one (Text.inRanges [('%', '%')])] (c :: rest) = none := by
    intro c rest blank
    have other : c ≠ '%' := by
      rintro rfl
      exact absurd blank (by decide)
    simp [Text.Pattern.match?, other]
  rw [Text.Pattern.match?, Text.longest?_eq stuck, sign?]
  cases text.dropWhile Text.isBlank with
  | nil => rfl
  | cons next behind =>
      by_cases percent : next = '%'
      · simp [percent, Text.Pattern.match?]
      · simp [percent, Text.Pattern.match?]

/-- The digits of a match are the whole run: no blank and no sign is a digit. -/
theorem match?_pattern (c : Char) (rest : List Char) :
    pattern.match? (c :: rest) =
      if c.isDigit then
        (sign? (rest.dropWhile Char.isDigit)).map fun behind =>
          ([c :: rest.takeWhile Char.isDigit, (rest.dropWhile Char.isDigit).takeWhile Text.isBlank,
            ['%']], behind)
      else none := by
  -- The class of digits gives nothing back: what follows starts with a blank or the sign.
  have stuck : ∀ c rest, c.isDigit = true →
      Text.Pattern.match? [.star Text.isBlank, .one (Text.inRanges [('%', '%')])] (c :: rest) = none := by
    intro c rest digit
    rw [match?_blanks_sign, sign?_of_head, Option.map_none]
    intro next head
    cases head
    refine ⟨Bool.eq_false_iff.mpr fun blank => ?_, fun same => ?_⟩
    · rw [isDigit_of_isBlank blank] at digit
      cases digit
    · rw [same] at digit
      cases digit
  have digits : Text.inRanges [('0', '9')] = Char.isDigit := by
    funext c
    simp
  rw [pattern, Text.Pattern.match?, digits, Text.longest?_eq stuck, match?_blanks_sign]
  cases sign? (rest.dropWhile Char.isDigit) <;> rfl

/-- Each match gives way to hundredths, leftmost first and as long as can be. -/
theorem expand_eq_replaceAll (text : List Char) : expand text = pattern.replaceAll template text := by
  fun_induction Text.Pattern.replaceAll pattern template text with
  | case1 => rw [expand_nil]
  | case2 c rest groups behind found _ ih =>
      rw [match?_pattern] at found
      split at found
      · next digit =>
          obtain ⟨tail, sign, same⟩ := Option.map_eq_some_iff.mp found
          cases same
          rw [expand_of_sign digit sign, ih]
          rfl
      · cases found
  -- A match is never empty, so the text behind it is shorter.
  | case3 c rest groups behind found longer _ =>
      rw [match?_pattern] at found
      split at found
      · obtain ⟨tail, sign, same⟩ := Option.map_eq_some_iff.mp found
        cases same
        have run := (List.dropWhile_suffix (l := rest) Char.isDigit).length_le
        exact absurd ((sign?_shorter sign).le.trans run) longer
      · cases found
  | case4 c rest absent ih =>
      rw [match?_pattern] at absent
      split at absent
      · next digit => rw [expand_cons_of_no_sign digit (Option.map_eq_none_iff.mp absent), ih]
      · next other => rw [expand_of_not_digit (Bool.eq_false_iff.mpr other), ih]

theorem expand_of_no_percent {text : List Char} (none : '%' ∉ text) : expand text = text := by
  fun_induction expand text with
  | case1 => rfl
  | case2 c rest _ behind found _ =>
      exact absurd ((suffix_of_percent c found).mem List.mem_cons_self) none
  | case3 c rest _ _ ih =>
      rw [ih fun member => none ((suffix_behind_digits c rest).mem member), List.cons_append,
        List.takeWhile_append_dropWhile]
  | case4 c rest _ ih => rw [ih fun member => none (List.mem_cons_of_mem c member)]

theorem expand_literal {literal : Decimal.Literal}
    (digits : ∀ c ∈ literal.whole ++ literal.fractionDigits, c.isDigit = true) :
    expand literal.text = literal.text :=
  expand_of_no_percent fun member =>
    absurd (Decimal.Literal.isLiteralChar_of_mem_text digits member) (by decide)

/-! ## Locality -/

/-- No percent literal goes on from the first text into the second. -/
def Seam (left right : List Char) : Prop :=
  ∀ last ∈ left.getLast?, last.isDigit = true ∨ Text.isBlank last = true →
    ∀ next ∈ right.head?, next.isDigit = false ∧ Text.isBlank next = false ∧ next ≠ '%'

theorem seam_of_head {left right : List Char}
    (stop : ∀ next ∈ right.head?, next.isDigit = false ∧ Text.isBlank next = false ∧ next ≠ '%') :
    Seam left right := fun _ _ _ => stop

theorem seam_of_last {left right : List Char}
    (stop : ∀ last ∈ left.getLast?, last.isDigit = false ∧ Text.isBlank last = false) :
    Seam left right := by
  rintro last member (digit | blank)
  · rw [(stop last member).1] at digit; cases digit
  · rw [(stop last member).2] at blank; cases blank

theorem sign?_append {text rest : List Char}
    (stop : text.dropWhile Text.isBlank = [] → sign? rest = none) :
    sign? (text ++ rest) = (sign? text).map (· ++ rest) := by
  unfold sign? at stop ⊢
  rw [List.dropWhile_append]
  cases same : text.dropWhile Text.isBlank with
  | nil => exact stop same
  | cons c behind =>
      by_cases percent : c = '%'
      · subst percent; rfl
      · simp [percent]

/-- Blanks apart, the text ends with a digit. -/
def EndsNumber (text : List Char) : Prop :=
  ∃ before digit blanks, text = before ++ digit :: blanks ∧ digit.isDigit = true ∧
    ∀ c ∈ blanks, Text.isBlank c = true

theorem EndsNumber.of_suffix {inner text : List Char} (ends : EndsNumber inner)
    (suffix : inner <:+ text) : EndsNumber text := by
  obtain ⟨before, digit, blanks, rfl, isDigit, blank⟩ := ends
  obtain ⟨front, rfl⟩ := suffix
  exact ⟨front ++ before, digit, blanks, by simp, isDigit, blank⟩

theorem endsNumber_of_run {digits blanks : List Char} (nonempty : digits ≠ [])
    (all : ∀ c ∈ digits, c.isDigit = true) (blank : ∀ c ∈ blanks, Text.isBlank c = true) :
    EndsNumber (digits ++ blanks) := by
  obtain ⟨init, digit, rfl⟩ := List.eq_nil_or_concat digits |>.resolve_left nonempty
  exact ⟨init, digit, blanks, by simp, all digit (by simp), blank⟩

theorem EndsNumber.exists_run {text : List Char} (ends : EndsNumber text) :
    ∃ before digits blanks, text = before ++ (digits ++ blanks) ∧
      (∀ last ∈ before.getLast?, last.isDigit = false) ∧ digits ≠ [] ∧
      (∀ c ∈ digits, c.isDigit = true) ∧ ∀ c ∈ blanks, Text.isBlank c = true := by
  obtain ⟨init, digit, blanks, rfl, isDigit, blank⟩ := ends
  obtain ⟨before, digits, same, all, stop⟩ := Run.exists_at_end Char.isDigit (init ++ [digit])
  refine ⟨before, digits, blanks, ?_, stop, ?_, all, blank⟩
  · rw [← List.append_assoc, ← same, List.append_assoc, List.singleton_append]
  · rintro rfl
    rw [List.append_nil] at same
    have other := stop digit (by rw [← same, List.getLast?_concat]; rfl)
    rw [isDigit] at other
    cases other

/-- Neither a run of digits nor a percent literal goes on from the first text into the second. -/
structure Parted (left right : List Char) : Prop where
  digits : ∀ last ∈ left.getLast?, last.isDigit = true → ∀ next ∈ right.head?, next.isDigit = false
  percent : EndsNumber left → sign? right = none

theorem Parted.of_suffix {left inner right : List Char} (parted : Parted left right)
    (suffix : inner <:+ left) : Parted inner right where
  digits last member := parted.digits last (Run.mem_getLast?_of_suffix suffix member)
  percent ends := parted.percent (ends.of_suffix suffix)

theorem Seam.parted {left right : List Char} (seam : Seam left right) : Parted left right where
  digits last member digit next head := (seam last member (.inl digit) next head).1
  percent := by
    rintro ⟨before, digit, blanks, rfl, isDigit, blank⟩
    -- The last character is a digit or a blank, so neither a blank nor a percent sign follows it.
    have all : ∀ last ∈ digit :: blanks, last.isDigit = true ∨ Text.isBlank last = true :=
      List.forall_mem_cons.mpr ⟨.inl isDigit, fun last member => .inr (blank last member)⟩
    have ends := List.getLast?_eq_some_getLast (List.cons_ne_nil digit blanks)
    have stop := seam _ ((Run.getLast?_append_cons before digit blanks).trans ends)
      (all _ (List.getLast_mem _))
    exact sign?_of_head fun next head => (stop next head).2

theorem Parted.behind_digits {c : Char} {rest right : List Char} (parted : Parted (c :: rest) right)
    (digit : c.isDigit = true) :
    (rest ++ right).takeWhile Char.isDigit = rest.takeWhile Char.isDigit ∧
      (rest ++ right).dropWhile Char.isDigit = rest.dropWhile Char.isDigit ++ right ∧
      sign? (rest.dropWhile Char.isDigit ++ right) =
        (sign? (rest.dropWhile Char.isDigit)).map (· ++ right) := by
  have all := digits_of_head digit rest
  have whole := List.takeWhile_append_dropWhile (p := Char.isDigit) (l := rest)
  have run := Run.append Char.isDigit rest right fun ended => by
    -- All of the text is digits, so its last character is one.
    rw [ended, List.append_nil] at whole
    rw [whole] at all
    have nonempty := List.cons_ne_nil c rest
    exact parted.digits _ (List.getLast?_eq_some_getLast nonempty) (all _ (List.getLast_mem nonempty))
  refine ⟨run.1, run.2, sign?_append fun ended => parted.percent ?_⟩
  have ends := endsNumber_of_run (List.cons_ne_nil c _) all (List.dropWhile_eq_nil_iff.mp ended)
  rwa [List.cons_append, whole] at ends

theorem expand_append_of_parted {left right : List Char} (parted : Parted left right) :
    expand (left ++ right) = expand left ++ expand right := by
  -- What follows a run of digits is the same with the right text behind it.
  fun_induction expand left with
  | case1 => rfl
  | case2 c rest digit behind found ih =>
      obtain ⟨taken, dropped, sign⟩ := parted.behind_digits digit
      rw [found] at sign
      rw [List.cons_append, expand_of_sign digit (by rw [dropped]; exact sign), taken,
        ih (parted.of_suffix (suffix_behind_percent c found)), List.append_assoc]
  | case3 c rest digit absent ih =>
      obtain ⟨taken, dropped, sign⟩ := parted.behind_digits digit
      rw [absent] at sign
      rw [List.cons_append, expand_of_no_sign digit (by rw [dropped]; exact sign), taken, dropped,
        ih (parted.of_suffix (suffix_behind_digits c rest)), List.append_assoc]
  | case4 c rest other ih =>
      rw [List.cons_append, expand_of_not_digit (Bool.eq_false_iff.mpr other),
        ih (parted.of_suffix (List.suffix_cons c rest)), List.cons_append]

theorem expand_append {left right : List Char} (seam : Seam left right) :
    expand (left ++ right) = expand left ++ expand right := expand_append_of_parted seam.parted

theorem expand_append_percent {before digits blanks : List Char}
    (stop : ∀ last ∈ before.getLast?, last.isDigit = false) (nonempty : digits ≠ [])
    (all : ∀ c ∈ digits, c.isDigit = true) (blank : ∀ c ∈ blanks, Text.isBlank c = true)
    (behind : List Char) :
    expand (before ++ (digits ++ (blanks ++ '%' :: behind))) =
      expand before ++ (hundredths digits ++ expand behind) := by
  obtain ⟨digit, digits, rfl⟩ := List.exists_cons_of_ne_nil nonempty
  have isDigit := all digit List.mem_cons_self
  have parted : Parted before (digit :: digits ++ (blanks ++ '%' :: behind)) := by
    refine ⟨fun last ends lastDigit => ?_, fun _ => sign?_of_head fun next head => ?_⟩
    · rw [stop last ends] at lastDigit
      cases lastDigit
    · cases head
      refine ⟨Bool.eq_false_iff.mpr fun isBlank => ?_, ?_⟩
      · rw [isDigit_of_isBlank isBlank] at isDigit
        cases isDigit
      · rintro rfl
        cases isDigit
  rw [expand_append_of_parted parted,
    expand_percent nonempty all (sign?_eq_some_iff.mpr ⟨blanks, blank, rfl⟩)]

/-! ## Tokens -/

theorem ofText_digits {digits : List Char} (nonempty : digits ≠ [])
    (all : ∀ c ∈ digits, c.isDigit = true) :
    Token.ofText digits = .ok [.num (Nat.ofDigitChars 10 digits 0)] := by
  have wellFormed : (⟨digits, none⟩ : Decimal.Literal).WellFormed := by
    constructor <;> simpa [Decimal.Literal.fractionDigits]
  have number := Token.ofText_number wellFormed (show 0 < UInt32.size by decide)
  rwa [Decimal.Literal.number, Decimal.Literal.text, Decimal.Literal.fractionDigits, Option.getD_none,
    List.append_nil, List.length_nil, pow_zero, div_one] at number

theorem ofText_hundredths {digits : List Char} (nonempty : digits ≠ [])
    (all : ∀ c ∈ digits, c.isDigit = true) :
    Token.ofText (hundredths digits) =
      .ok [.openParen, .num (Nat.ofDigitChars 10 digits 0), .op .div, .num 100, .closeParen] := by
  have percent : Token.ofText ['/', '1', '0', '0', ')'] = .ok [.op .div, .num 100, .closeParen] := by
    decide +kernel
  have cut : Cut digits ['/', '1', '0', '0', ')'] := cut_of_head fun next head => by
    cases head
    decide
  rw [hundredths, List.cons_append, Token.ofText_cons_symbol rfl, Token.ofText_append cut,
    ofText_digits nonempty all, percent]
  rfl

end PocketCalc.Percent
