import PocketCalc.Keypad
import PocketCalc.Session.Display

/-! The window: input events and clicks become commands of one session, and the
screen is read from the session.
-/

set_option autoImplicit false

namespace PocketCalc

inductive Key where
  | enter
  | backspace
  | escape
  | other
  deriving DecidableEq, Repr

def Key.command? : Key → Option Command
  | enter => some .equals
  | backspace => some .backspace
  | escape => some .clear
  | other => none

inductive Event where
  | text (typed : List Char)
  | paste (content : List Char)
  | key (which : Key) (pressed repeated : Bool)
  deriving DecidableEq, Repr

/-- Pastes and released keys are ignored; a repeated key acts again. -/
def Event.command? : Event → Option Command
  | text typed => Command.ofText? typed
  | paste _ => none
  | key which pressed _ => if pressed then which.command? else none

/-- What happens between two redraws of the window. -/
inductive Input where
  | frame (events : List Event)
  | click (key : Keypad.KeyCommand)
  deriving DecidableEq, Repr

namespace Input

def events : Input → List Event
  | frame events => events
  | click _ => []

/-- Whether the key of a command is found clicked when it is drawn. -/
def clicks : Input → Command → Bool
  | frame _, _ => false
  | click key, drawn => drawn = key.val

/-- The events are gone through before the window is drawn. The keypad is drawn key by key,
and one that is found clicked sends its command. -/
def sent (input : Input) : List Command :=
  input.events.filterMap Event.command? ++ Keypad.commands.filter input.clicks

end Input

namespace Window

def title : List Char := ['C', 'a', 'l', 'c', 'u', 'l', 'a', 't', 'r', 'i', 'c', 'e']

def update (s : Session) (input : Input) : Session := s.run input.sent

def run (inputs : List Input) : Session := inputs.foldl update {}

structure Screen where
  history : List Char
  main : List Char
  alert : Bool
  deriving DecidableEq, Repr

/-- An empty history line keeps its height: it is drawn as one space. -/
def screen (s : Session) : Screen where
  history := if s.display.history = [] then [' '] else s.display.history
  main := s.display.main
  alert := s.phase = .failed

end Window

end PocketCalc
