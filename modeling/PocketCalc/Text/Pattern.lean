/-! Patterns of character classes, and what they find in a text.

A pattern is tried piece by piece. A repeated piece takes all it can at first, and
gives back one character after the other until the pieces behind it fit.
-/

set_option autoImplicit false

namespace PocketCalc.Text

/-- The class of the characters in one of the closed ranges. -/
def inRanges (ranges : List (Char × Char)) (c : Char) : Bool :=
  ranges.any fun range => range.1 ≤ c && c ≤ range.2

inductive Piece where
  | one (test : Char → Bool)
  | star (test : Char → Bool)
  | plus (test : Char → Bool)
  | finish

/-- The longest run with a fit behind it, and that fit. -/
def longest? {A : Type} (test : Char → Bool) (fit? : List Char → Option A) :
    List Char → Option (List Char × A)
  | [] => (fit? []).map ([], ·)
  | c :: rest =>
      if test c then
        match longest? test fit? rest with
        | some (run, fit) => some (c :: run, fit)
        | none => (fit? (c :: rest)).map ([], ·)
      else (fit? (c :: rest)).map ([], ·)

abbrev Pattern := List Piece

namespace Pattern

/-- What each piece takes from the head of the text, and what is left behind the last. -/
def match? : Pattern → List Char → Option (List (List Char) × List Char)
  | [], text => some ([], text)
  | .one _ :: _, [] => none
  | .one test :: pieces, c :: rest =>
      if test c then (match? pieces rest).map fun (groups, behind) => ([c] :: groups, behind)
      else none
  | .star test :: pieces, text =>
      (longest? test (match? pieces) text).map fun (run, groups, behind) => (run :: groups, behind)
  | .plus _ :: _, [] => none
  | .plus test :: pieces, c :: rest =>
      if test c then
        (longest? test (match? pieces) rest).map fun (run, groups, behind) =>
          ((c :: run) :: groups, behind)
      else none
  | .finish :: pieces, text =>
      if text = [] then (match? pieces []).map fun (groups, behind) => ([] :: groups, behind)
      else none

def fits (pattern : Pattern) (text : List Char) : Bool := (pattern.match? text).isSome

/-- Each match, from left to right, gives way to what is made of its groups. A match
takes at least one character. -/
def replaceAll (pattern : Pattern) (template : List (List Char) → List Char) : List Char → List Char
  | [] => []
  | c :: rest =>
      match pattern.match? (c :: rest) with
      | some (groups, behind) =>
          if _ : behind.length ≤ rest.length then
            template groups ++ replaceAll pattern template behind
          else c :: replaceAll pattern template rest
      | none => c :: replaceAll pattern template rest
termination_by text => text.length
decreasing_by
  all_goals simp only [List.length_cons]; omega

end Pattern

end PocketCalc.Text
