import Mathlib.Data.Char
import Mathlib.Data.List.TakeWhile
import PocketCalc.Text.Pattern

/-! Where a repeated piece need give nothing back.

If the pieces behind it fit in front of none of its own characters, it takes the
run at the head of the text or fails (`longest?_eq`).
-/

set_option autoImplicit false

namespace PocketCalc.Text

@[simp] theorem inRanges_nil (c : Char) : inRanges [] c = false := rfl

@[simp] theorem inRanges_cons_single (d : Char) (ranges : List (Char × Char)) (c : Char) :
    inRanges ((d, d) :: ranges) c = (c == d || inRanges ranges c) := by
  have same : d ≤ c ∧ c ≤ d ↔ c = d := and_comm.trans le_antisymm_iff.symm
  rw [Bool.eq_iff_iff]
  simp [inRanges, same]

@[simp] theorem inRanges_cons_digits (ranges : List (Char × Char)) (c : Char) :
    inRanges (('0', '9') :: ranges) c = (c.isDigit || inRanges ranges c) := rfl

theorem longest?_eq {A : Type} {test : Char → Bool} {fit? : List Char → Option A}
    (stuck : ∀ c rest, test c = true → fit? (c :: rest) = none) (text : List Char) :
    longest? test fit? text =
      (fit? (text.dropWhile test)).map (text.takeWhile test, ·) := by
  induction text with
  | nil => rfl
  | cons c rest ih =>
      rw [longest?]
      -- Inside the run a shorter match would put the rest in front of a character it is stuck at.
      by_cases inRun : test c = true
      · rw [if_pos inRun, ih, List.dropWhile_cons_of_pos inRun, List.takeWhile_cons_of_pos inRun]
        cases fit? (rest.dropWhile test) with
        | none => simp [stuck c rest inRun]
        | some fit => rfl
      · rw [if_neg inRun, List.dropWhile_cons_of_neg inRun, List.takeWhile_cons_of_neg inRun]

namespace Pattern

/-- A whole text fits a repeated class if it is not empty and of that class. -/
theorem fits_plus_finish_iff {test : Char → Bool} {text : List Char} :
    fits [.plus test, .finish] text = true ↔ text ≠ [] ∧ ∀ c ∈ text, test c = true := by
  have stuck : ∀ c rest, test c = true → match? [.finish] (c :: rest) = none := fun c rest _ => by
    rw [match?, if_neg (List.cons_ne_nil c rest)]
  cases text with
  | nil => simp [fits, match?]
  | cons c rest =>
      by_cases first : test c = true
      · have whole : (match? [.finish] (rest.dropWhile test)).isSome = true ↔
            ∀ d ∈ rest, test d = true := by
          rw [← List.dropWhile_eq_nil_iff]
          by_cases finished : rest.dropWhile test = [] <;> simp [match?, finished]
        rw [fits, match?, if_pos first, longest?_eq stuck, Option.isSome_map, Option.isSome_map, whole]
        simp [first]
      · simp [fits, match?, first]

end Pattern

end PocketCalc.Text
