import PocketCalc.Decimal.Scale
import PocketCalc.Fault

/-! Unsigned decimal literals: ASCII digits with an optional point among or around them.

A literal denotes an exact rational. The longest literal at the head of a text
is split off by `Literal.split`, which loses nothing (`Literal.text_split`).
-/

set_option autoImplicit false

namespace PocketCalc.Decimal

structure Literal where
  whole : List Char
  /-- The digits after the point, or none when no point is written. -/
  fraction : Option (List Char)
  deriving DecidableEq, Repr

namespace Literal

def text (literal : Literal) : List Char :=
  match literal.fraction with
  | none => literal.whole
  | some digits => literal.whole ++ '.' :: digits

def fractionDigits (literal : Literal) : List Char := literal.fraction.getD []

/-- The whole and fractional digits read as one number, over the scale of the
fraction. A point alone is no number. -/
def value (literal : Literal) : Except Fault Rat :=
  if literal.whole = [] ∧ literal.fractionDigits = [] then .error (.malformedNumber literal.text)
  else .ok (mkRat (Nat.ofDigitChars 10 (literal.whole ++ literal.fractionDigits) 0)
    (scale literal.fractionDigits.length))

/-- The longest literal at the head, and what follows it. -/
def split (text : List Char) : Literal × List Char :=
  match text.dropWhile Char.isDigit with
  | '.' :: rest =>
      (⟨text.takeWhile Char.isDigit, some (rest.takeWhile Char.isDigit)⟩,
        rest.dropWhile Char.isDigit)
  | rest => (⟨text.takeWhile Char.isDigit, none⟩, rest)

theorem text_split (text : List Char) : (split text).1.text ++ (split text).2 = text := by
  have whole := List.takeWhile_append_dropWhile (p := Char.isDigit) (l := text)
  unfold split
  split
  · next rest same => rw [same] at whole; simpa [Literal.text] using whole
  · exact whole

theorem split_shorter {c : Char} (start : c.isDigit = true ∨ c = '.') (rest : List Char) :
    (split (c :: rest)).2.length < (c :: rest).length := by
  have whole := congrArg List.length (text_split (c :: rest))
  suffices 0 < (split (c :: rest)).1.text.length by
    rw [List.length_append] at whole; omega
  unfold split
  rcases start with digit | rfl
  · split <;> simp [Literal.text, digit]
  · simp [Literal.text, show ('.' : Char).isDigit = false from rfl]

end Literal

end PocketCalc.Decimal
