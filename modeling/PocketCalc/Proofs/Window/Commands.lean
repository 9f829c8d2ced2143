import Mathlib.Data.List.Infix
import Mathlib.Logic.Relation
import PocketCalc.Window

/-! The window as a run of commands.

However events are cut into frames, and whichever device they come from, the
session runs the commands that the inputs stand for (`Window.run_eq_run_commands`).
Inputs stand for the same commands exactly if they can be rephrased into each
other: frames cut or joined, ignored events left out, clicks typed instead
(`Window.eqvGen_rephrases_iff`).
-/

set_option autoImplicit false

namespace PocketCalc

/-! ## Keyboard and keypad -/

namespace Keypad

theorem filter_commands : ∀ command ∈ commands, commands.filter (decide <| · = command) = [command] := by
  decide

theorem digit_mem_commands {c : Char} (digit : c.isDigit = true) : .digit c ∈ commands := by
  have all : ∀ n < 10, Command.digit (Char.ofNat (48 + n)) ∈ commands := by decide
  have bounds : 48 ≤ c.toNat ∧ c.toNat ≤ 57 := by
    simpa [Char.isDigit, UInt32.le_iff_toNat_le] using digit
  have same := all (c.toNat - 48) (by omega)
  rwa [Nat.add_sub_cancel' bounds.1, Char.ofNat_toNat] at same

theorem operator_mem_commands (op : Operator) : .operator op ∈ commands := by
  cases op <;> decide

end Keypad

namespace Event

/-- What to do on the keyboard for a command of the keypad. -/
def ofCommand : Command → Event
  | .digit c => text [c]
  | .point => text ['.']
  | .operator op => text [op.symbol]
  | .percent => text ['%']
  | .equals => text ['=']
  | .clear => key .escape true false
  | .backspace => key .backspace true false

theorem command?_ofCommand : ∀ command ∈ Keypad.commands, (ofCommand command).command? = some command := by
  decide

end Event

theorem Command.mem_commands_of_ofChar? {c : Char} {command : Command}
    (found : Command.ofChar? c = some command) : command ∈ Keypad.commands := by
  unfold Command.ofChar? at found
  split at found
  · next digit => cases found; exact Keypad.digit_mem_commands digit
  · split at found
    · cases found; decide
    · cases found; decide
    · cases found; decide
    · obtain ⟨op, _, rfl⟩ := Option.map_eq_some_iff.mp found
      exact Keypad.operator_mem_commands op

theorem Event.mem_commands {event : Event} {command : Command} (found : event.command? = some command) :
    command ∈ Keypad.commands := by
  cases event with
  | text typed =>
      simp only [Event.command?, Command.ofText?] at found
      split at found
      · exact Command.mem_commands_of_ofChar? found
      · cases found
  | paste content => cases found
  | key which pressed repeated =>
      cases pressed with
      | false => cases found
      | true => cases which <;> cases found <;> decide

/-- The keyboard has an event for a command exactly if the keypad has a key for it. -/
theorem exists_event_iff (command : Command) :
    (∃ event : Event, event.command? = some command) ↔ ∃ key : Keypad.KeyCommand, key.val = command :=
  ⟨fun ⟨_, found⟩ => ⟨⟨command, Event.mem_commands found⟩, rfl⟩,
    fun ⟨key, same⟩ => ⟨_, same ▸ Event.command?_ofCommand key.val key.property⟩⟩

/-! ## Runs -/

namespace Session

def after (s : Session) : List Command → List Session
  | [] => []
  | command :: rest => s.apply command :: (s.apply command).after rest

theorem after_append (s : Session) (first second : List Command) :
    s.after (first ++ second) = s.after first ++ (s.run first).after second := by
  induction first generalizing s with
  | nil => rfl
  | cons command first ih => exact congrArg (s.apply command :: ·) (ih (s.apply command))

theorem after_eq_map_inits (s : Session) (commands : List Command) :
    s.after commands = commands.inits.tail.map s.run := by
  induction commands generalizing s with
  | nil => rfl
  | cons command commands ih =>
      have first : s.run ∘ (command :: ·) = (s.apply command).run := rfl
      rw [after, ih, List.inits_cons, List.tail_cons, List.map_map, first]
      cases commands <;> rfl

end Session

namespace Input

def commands : Input → List Command
  | frame events => events.filterMap Event.command?
  | click key => [key.val]

theorem sent_eq_commands (input : Input) : input.sent = input.commands := by
  cases input with
  | frame events => simp [sent, Input.events, clicks, commands]
  | click key => exact Keypad.filter_commands key.val key.property

end Input

namespace Window

/-- The sessions behind each command that is sent for the inputs. -/
def trace (s : Session) : List Input → List Session
  | [] => []
  | input :: rest => s.after input.sent ++ trace (update s input) rest

theorem foldl_update (s : Session) (inputs : List Input) :
    inputs.foldl update s = s.run (inputs.flatMap Input.commands) := by
  induction inputs generalizing s with
  | nil => rfl
  | cons input rest ih =>
      rw [List.foldl_cons, ih, List.flatMap_cons, Session.run_append, update, input.sent_eq_commands]

theorem trace_eq_after (s : Session) (inputs : List Input) :
    trace s inputs = s.after (inputs.flatMap Input.commands) := by
  induction inputs generalizing s with
  | nil => rfl
  | cons input rest ih =>
      rw [trace, ih, List.flatMap_cons, Session.after_append, update, input.sent_eq_commands]

/-! ## Rephrasing -/

/-- Other inputs for the same commands. -/
inductive Rewords : List Input → List Input → Prop where
  | cut (pieces : List (List Event)) : Rewords [.frame pieces.flatten] (pieces.map .frame)
  | drop (before : List Event) {ignored : Event} (behind : List Event) : ignored.command? = none →
      Rewords [.frame (before ++ ignored :: behind)] [.frame (before ++ behind)]
  | type {key : Keypad.KeyCommand} {event : Event} : event.command? = some key.val →
      Rewords [.click key] [.frame [event]]

theorem Rewords.commands_eq {first second : List Input} (rewords : Rewords first second) :
    first.flatMap Input.commands = second.flatMap Input.commands := by
  cases rewords with
  | cut pieces =>
      have same : Input.commands ∘ Input.frame = List.filterMap Event.command? := rfl
      simp [Input.commands, List.filterMap_flatten, List.flatMap_def, same]
  | drop before behind ignored => simp [Input.commands, ignored]
  | type found => simp [Input.commands, found]

/-- Somewhere among the inputs some are put in other words. -/
inductive Rephrases : List Input → List Input → Prop where
  | within (before after : List Input) {first second : List Input} : Rewords first second →
      Rephrases (before ++ first ++ after) (before ++ second ++ after)

theorem Rephrases.commands_eq {first second : List Input} (rephrases : Rephrases first second) :
    first.flatMap Input.commands = second.flatMap Input.commands := by
  obtain ⟨before, after, rewords⟩ := rephrases
  simp only [List.flatMap_append, rewords.commands_eq]

open Relation (EqvGen)

theorem commands_eq_of_eqvGen {first second : List Input} (same : EqvGen Rephrases first second) :
    first.flatMap Input.commands = second.flatMap Input.commands := by
  induction same with
  | rel _ _ rephrases => exact rephrases.commands_eq
  | refl _ => rfl
  | symm _ _ _ ih => exact ih.symm
  | trans _ _ _ _ _ ih ih' => exact ih.trans ih'

theorem eqvGen_of_rewords {first second : List Input} (rewords : Rewords first second) :
    EqvGen Rephrases first second := by
  have whole := Rephrases.within [] [] rewords
  rw [List.nil_append, List.nil_append, List.append_nil, List.append_nil] at whole
  exact .rel _ _ whole

theorem eqvGen_within (before after : List Input) {first second : List Input}
    (same : EqvGen Rephrases first second) :
    EqvGen Rephrases (before ++ first ++ after) (before ++ second ++ after) := by
  induction same with
  | rel _ _ rephrases =>
      obtain ⟨before', after', rewords⟩ := rephrases
      have larger := Rephrases.within (before ++ before') (after' ++ after) rewords
      exact .rel _ _ (by simpa only [List.append_assoc] using larger)
  | refl _ => exact .refl _
  | symm _ _ _ ih => exact .symm _ _ ih
  | trans _ _ _ _ _ ih ih' => exact .trans _ _ _ ih ih'

theorem eqvGen_append {first second first' second' : List Input} (same : EqvGen Rephrases first second)
    (same' : EqvGen Rephrases first' second') :
    EqvGen Rephrases (first ++ first') (second ++ second') := by
  have left := eqvGen_within [] first' same
  have right := eqvGen_within second [] same'
  simp only [List.nil_append, List.append_nil] at left right
  exact .trans _ _ _ left right

theorem exists_clicks_of_frame (events : List Event) :
    ∃ keys : List Keypad.KeyCommand, keys.map Subtype.val = events.filterMap Event.command? ∧
      EqvGen Rephrases [.frame events] (keys.map .click) := by
  induction events with
  | nil => exact ⟨[], rfl, eqvGen_of_rewords (.cut [])⟩
  | cons event events ih =>
      obtain ⟨keys, commands, clicked⟩ := ih
      cases found : event.command? with
      | none =>
          refine ⟨keys, by rw [List.filterMap_cons_none found, commands], ?_⟩
          exact .trans _ _ _ (eqvGen_of_rewords (.drop [] events found)) clicked
      | some command =>
          have typed : Rewords [.click ⟨command, Event.mem_commands found⟩] [.frame [event]] := .type found
          have cut := Rewords.cut [[event], events]
          rw [List.flatten_cons, List.flatten_singleton] at cut
          refine ⟨⟨command, Event.mem_commands found⟩ :: keys, ?_, ?_⟩
          · rw [List.filterMap_cons_some found, List.map_cons, commands]
          · exact .trans _ _ _ (eqvGen_of_rewords cut)
              (eqvGen_append (.symm _ _ (eqvGen_of_rewords typed)) clicked)

theorem exists_clicks (inputs : List Input) :
    ∃ keys : List Keypad.KeyCommand, keys.map Subtype.val = inputs.flatMap Input.commands ∧
      EqvGen Rephrases inputs (keys.map .click) := by
  induction inputs with
  | nil => exact ⟨[], rfl, .refl _⟩
  | cons input inputs ih =>
      obtain ⟨keys, commands, clicked⟩ := ih
      obtain ⟨own, ownCommands, ownClicked⟩ : ∃ own : List Keypad.KeyCommand,
          own.map Subtype.val = input.commands ∧ EqvGen Rephrases [input] (own.map .click) := by
        cases input with
        | frame events => exact exists_clicks_of_frame events
        | click key => exact ⟨[key], rfl, .refl _⟩
      refine ⟨own ++ keys, by simp [ownCommands, commands], ?_⟩
      rw [List.map_append]
      exact eqvGen_append ownClicked clicked

/-- Rephrasing leads to all inputs for the same commands, and to no others. -/
theorem eqvGen_rephrases_iff {first second : List Input} :
    EqvGen Rephrases first second ↔
      first.flatMap Input.commands = second.flatMap Input.commands := by
  refine ⟨commands_eq_of_eqvGen, fun same => ?_⟩
  obtain ⟨keys, commands, clicked⟩ := exists_clicks first
  obtain ⟨keys', commands', clicked'⟩ := exists_clicks second
  have equal : keys = keys' :=
    List.map_injective_iff.mpr Subtype.val_injective (commands.trans (same.trans commands'.symm))
  subst equal
  exact .trans _ _ _ clicked (.symm _ _ clicked')

/-- The window runs the commands that its inputs stand for, in their order, and nothing else
changes its session. So inputs that are rephrased, by which all inputs for the same commands can
be had, lead through the same sessions and screens, command by command. The keyboard and the
keypad have the same commands. -/
theorem run_eq_run_commands :
    (∀ inputs : List Input,
      run inputs = Session.run {} (inputs.flatMap Input.commands) ∧
        trace {} inputs = (inputs.flatMap Input.commands).inits.tail.map (Session.run {})) ∧
    (∀ first second : List Input,
      EqvGen Rephrases first second ↔
        first.flatMap Input.commands = second.flatMap Input.commands) ∧
    (∀ first second : List Input, EqvGen Rephrases first second →
      run first = run second ∧ screen (run first) = screen (run second) ∧
        trace {} first = trace {} second ∧
        (trace {} first).map screen = (trace {} second).map screen) ∧
    (∀ command : Command,
      (∃ event : Event, event.command? = some command) ↔
        ∃ key : Keypad.KeyCommand, key.val = command) := by
  refine ⟨fun inputs => ⟨foldl_update {} inputs, ?_⟩, fun _ _ => eqvGen_rephrases_iff,
    fun first second same => ?_, exists_event_iff⟩
  · rw [trace_eq_after, Session.after_eq_map_inits]
  · have commands := commands_eq_of_eqvGen same
    have ends : run first = run second := by
      rw [run, run, foldl_update, foldl_update, commands]
    have through : trace {} first = trace {} second := by
      rw [trace_eq_after, trace_eq_after, commands]
    exact ⟨ends, by rw [ends], through, by rw [through]⟩

/-- The keys 6 × 7 = clicked, and typed in two frames among what the window ignores. -/
theorem run_of_typed_product :
    let clicked : List Input := [.click ⟨.digit '6', by decide⟩, .click ⟨.operator .mul, by decide⟩,
      .click ⟨.digit '7', by decide⟩, .click ⟨.equals, by decide⟩]
    let typed : List Input := [.frame [.text ['6'], .paste ['1', '2'], .text ['*']],
      .frame [.key .enter false false, .text ['7'], .text ['7', '7'], .key .enter true true]]
    EqvGen Rephrases clicked typed ∧ run clicked = run typed ∧
      (trace {} clicked).map screen = (trace {} typed).map screen := by
  intro clicked typed
  obtain ⟨_, rephrased, same, _⟩ := run_eq_run_commands
  have rephrases : EqvGen Rephrases clicked typed := (rephrased clicked typed).mpr (by decide)
  obtain ⟨ends, _, _, screens⟩ := same clicked typed rephrases
  exact ⟨rephrases, ends, screens⟩

end Window

end PocketCalc
