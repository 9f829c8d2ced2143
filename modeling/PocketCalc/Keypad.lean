import PocketCalc.Command

/-! The keys of the keypad, in five rows of four cells. -/

set_option autoImplicit false

namespace PocketCalc.Keypad

/-- Cells row by row; one of them has no key. -/
def rows : List (List (Option Command)) :=
  [[some .clear, some .backspace, some .percent, some (.operator .div)],
   [some (.digit '7'), some (.digit '8'), some (.digit '9'), some (.operator .mul)],
   [some (.digit '4'), some (.digit '5'), some (.digit '6'), some (.operator .sub)],
   [some (.digit '1'), some (.digit '2'), some (.digit '3'), some (.operator .add)],
   [some (.digit '0'), some .point, none, some .equals]]

/-- The commands of the keys, in the order in which the keys are drawn. -/
def commands : List Command := rows.flatten.reduceOption

abbrev KeyCommand : Type := { command : Command // command ∈ commands }

def label : Command → Char
  | .digit c => c
  | .point => '.'
  | .operator op => op.label
  | .percent => '%'
  | .clear => 'C'
  | .backspace => '⌫'
  | .equals => '='

def labels : List (List Char) := rows.flatten.map fun cell => (cell.map label).toList

def command? (text : List Char) : Option KeyCommand :=
  commands.attach.find? fun key => [label key.val] = text

/-- No two keys have the same label. -/
theorem command?_label : ∀ key ∈ commands.attach, command? [label key.val] = some key := by decide

end PocketCalc.Keypad
