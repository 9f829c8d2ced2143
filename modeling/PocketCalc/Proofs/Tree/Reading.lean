import Mathlib.Data.List.Induction
import Mathlib.Data.List.TakeWhile
import PocketCalc.Postfix.Conversion
import PocketCalc.Proofs.Outcome
import PocketCalc.Proofs.Run
import PocketCalc.Tree.Grammar

/-! Conversion to postfix order accepts exactly the sentences of the grammar.

What a state holds after some tokens is described by `Expects`: the tokens read
are a prefix of sentences, one for each pending operation. Reading a sentence
adds pending operations of its own only (`foldlM_step_of_reads`), and each step
keeps the description (`Follows.step`).
-/

set_option autoImplicit false

namespace PocketCalc

open Postfix

theorem BinaryOp.level_le_one (op : BinaryOp) : op.level ≤ 1 := by cases op <;> decide

namespace Tree

theorem Reads.mono {low high : Nat} {tokens : List Token} {tree : Tree}
    (reads : Reads high tokens tree) (le : low ≤ high) : Reads low tokens tree := by
  induction le with
  | refl => exact reads
  | step _ ih => exact ih reads.lift

theorem Reads.binary_of_level {op : BinaryOp} {level : Nat} {left right : List Token}
    {leftTree rightTree : Tree} (same : op.level = level) (leftReads : Reads level left leftTree)
    (rightReads : Reads (level + 1) right rightTree) :
    Reads level (left ++ .op op :: right) (.op op leftTree rightTree) := by
  subst same
  exact .binary leftReads rightReads

theorem reads_hundredth (value : Rat) :
    Reads 2 [.openParen, .num value, .op .div, .num 100, .closeParen]
      (.op .div (.num value) (.num 100)) := by
  have level : BinaryOp.div.level = 1 := rfl
  exact .parens (.lift (.binary_of_level level (.lift (.num value)) (.num 100)))

theorem toPostfix_reverse_append {first second : Tree} {left right : List Token}
    (same : first.toPostfix.reverse ++ left = second.toPostfix.reverse ++ right) :
    first = second ∧ left = right := by
  induction first generalizing second left right with
  | num value => cases second <;> simp_all [toPostfix]
  | sign mark operand ih =>
      cases second with
      | sign mark' operand' =>
          simp only [toPostfix, List.reverse_append, List.reverse_singleton, List.cons_append,
            List.cons.injEq, Token.sign.injEq] at same
          obtain ⟨rfl, rfl⟩ := ih same.2
          exact ⟨by rw [same.1], rfl⟩
      | _ => simp [toPostfix] at same
  | op operation a b ihLeft ihRight =>
      cases second with
      | op operation' a' b' =>
          simp only [toPostfix, List.reverse_append, List.reverse_singleton, List.cons_append,
            List.append_assoc, List.cons.injEq, Token.op.injEq] at same
          obtain ⟨rfl, rest⟩ := ihRight same.2
          obtain ⟨rfl, rfl⟩ := ihLeft rest
          exact ⟨by rw [same.1], rfl⟩
      | _ => simp [toPostfix] at same

theorem toPostfix_injective {first second : Tree} (same : first.toPostfix = second.toPostfix) :
    first = second :=
  have reversed : first.toPostfix.reverse ++ [] = second.toPostfix.reverse ++ [] := by rw [same]
  (toPostfix_reverse_append reversed).1

end Tree

namespace Postfix

/-! ## Sentences are read -/

namespace Pending

/-- It claims a value in front of any operation up to the level. -/
def Tight (level : Nat) : Pending → Prop
  | op operation => level ≤ operation.level
  | sign _ => True
  | paren => False

/-- It claims no value in front of an operation from the level on. -/
def Loose (level : Nat) : Pending → Prop
  | op operation => operation.level < level
  | sign _ => 2 ≤ level
  | paren => True

theorem Tight.mono {low high : Nat} {pending : Pending} (tight : pending.Tight high)
    (le : low ≤ high) : pending.Tight low := by
  cases pending with
  | op operation => exact Nat.le_trans le tight
  | sign mark => trivial
  | paren => exact tight.elim

theorem Loose.mono {low high : Nat} {pending : Pending} (loose : pending.Loose low)
    (le : low ≤ high) : pending.Loose high := by
  cases pending with
  | op operation => exact Nat.lt_of_lt_of_le loose le
  | sign mark => exact Nat.le_trans loose le
  | paren => trivial

theorem Tight.bindsBefore {next : BinaryOp} {pending : Pending} (tight : pending.Tight next.level) :
    pending.bindsBefore next = true := by
  cases pending with
  | op operation => exact decide_eq_true tight
  | sign mark => rfl
  | paren => exact tight.elim

theorem Loose.not_bindsBefore {next : BinaryOp} {pending : Pending}
    (loose : pending.Loose next.level) : pending.bindsBefore next = false := by
  cases pending with
  | op operation => exact decide_eq_false (Nat.not_le_of_lt loose)
  | sign mark => exact absurd (Nat.le_trans loose next.level_le_one) (by decide)
  | paren => rfl

theorem Tight.ne_paren {level : Nat} {pending : Pending} (tight : pending.Tight level) :
    (pending != .paren) = true := by
  cases pending <;> first | rfl | exact tight.elim

end Pending

namespace Conversion

theorem release_append (own rest : List Pending) (output : List Token) (afterValue : Bool)
    (test : Pending → Bool) (all : ∀ pending ∈ own, test pending = true)
    (stop : ∀ pending ∈ rest.head?, test pending = false) :
    release ⟨output, own ++ rest, afterValue⟩ test =
      ⟨(own.map Pending.token).reverse ++ output, rest, afterValue⟩ := by
  rw [release, (Run.exact test own rest all stop).1, (Run.exact test own rest all stop).2]

theorem foldlM_step_parens {tokens output out : List Token} {own pending : List Pending}
    (run : tokens.foldlM step ⟨output, .paren :: pending, false⟩ =
      .ok ⟨out, own ++ .paren :: pending, true⟩)
    (tight : ∀ top ∈ own, top.Tight 0) :
    (Token.openParen :: tokens ++ [Token.closeParen]).foldlM step ⟨output, pending, false⟩ =
      .ok ⟨(own.map Pending.token).reverse ++ out, pending, true⟩ := by
  have close := release_append own (.paren :: pending) out true (· != .paren)
    (fun top member => (tight top member).ne_paren) (by simp)
  have first : step ⟨output, pending, false⟩ .openParen =
      .ok ⟨output, .paren :: pending, false⟩ := rfl
  have last : step ⟨out, own ++ .paren :: pending, true⟩ .closeParen =
      .ok ⟨(own.map Pending.token).reverse ++ out, pending, true⟩ := by
    simp only [step, close]; rfl
  rw [List.cons_append, List.foldlM_cons, first, Outcome.ok_bind, List.foldlM_append, run,
    Outcome.ok_bind, List.foldlM_cons, last]
  rfl

/-- A sentence leaves its operations pending on top of those that were there,
and its output with them is its tree in postfix order. -/
theorem foldlM_step_of_reads {level : Nat} {tokens : List Token} {tree : Tree}
    (reads : Tree.Reads level tokens tree) (output : List Token) (pending : List Pending)
    (loose : ∀ top ∈ pending.head?, top.Loose level) :
    ∃ own out, tokens.foldlM step ⟨output, pending, false⟩ = .ok ⟨out, own ++ pending, true⟩ ∧
      (∀ top ∈ own, top.Tight level) ∧
      (own.map Pending.token).reverse ++ out = tree.toPostfix.reverse ++ output := by
  -- Operations that were pending before are loose, so no token of the sentence puts them out.
  induction reads generalizing output pending with
  | num value => exact ⟨[], .num value :: output, rfl, by simp, rfl⟩
  | @signed op sign tokens operand isSign _ ih =>
      obtain ⟨own, out, run, tight, spelled⟩ := ih output (.sign sign :: pending) (by simp [Pending.Loose])
      refine ⟨own ++ [.sign sign], out, ?_, ?_, ?_⟩
      · have first : step ⟨output, pending, false⟩ (.op op) =
            .ok ⟨output, .sign sign :: pending, false⟩ := by simp [step, isSign]
        rw [List.foldlM_cons, first, Outcome.ok_bind, run, List.append_assoc]
        rfl
      · simpa [or_imp, forall_and, Pending.Tight] using tight
      · simp [Tree.toPostfix, Pending.token, spelled]
  | @parens tokens tree _ ih =>
      obtain ⟨own, out, run, tight, spelled⟩ := ih output (.paren :: pending) (by simp [Pending.Loose])
      exact ⟨[], (own.map Pending.token).reverse ++ out, foldlM_step_parens run tight, by simp, spelled⟩
  | @binary op left right leftTree rightTree _ _ ihLeft ihRight =>
      obtain ⟨own, out, run, tight, spelled⟩ := ihLeft output pending loose
      obtain ⟨own', out', run', tight', spelled'⟩ :=
        ihRight (leftTree.toPostfix.reverse ++ output) (.op op :: pending)
          (by simp [Pending.Loose])
      refine ⟨own' ++ [.op op], out', ?_, ?_, ?_⟩
      · -- The operator puts out what its left operand left pending, and that spells the operand.
        have free := release_append own pending out true (·.bindsBefore op)
          (fun top member => (tight top member).bindsBefore)
          (fun top member => (loose top member).not_bindsBefore)
        have middle : step ⟨out, own ++ pending, true⟩ (.op op) =
            .ok ⟨leftTree.toPostfix.reverse ++ output, .op op :: pending, false⟩ := by
          simp only [step, free, spelled]; rfl
        rw [List.foldlM_append, run, Outcome.ok_bind, List.foldlM_cons, middle, Outcome.ok_bind,
          run', List.append_assoc]
        rfl
      · intro top member
        rcases List.mem_append.mp member with inner | own
        · exact (tight' top inner).mono (Nat.le_succ _)
        · rw [List.mem_singleton.mp own]; exact Nat.le_refl _
      · simp [Tree.toPostfix, Pending.token, spelled']
  | lift _ ih =>
      obtain ⟨own, out, run, tight, spelled⟩ :=
        ih output pending fun top member => (loose top member).mono (Nat.le_succ _)
      exact ⟨own, out, run, fun top member => (tight top member).mono (Nat.le_succ _), spelled⟩

/-! ## What is read is a sentence -/

/-- After these tokens an operand of the level or a tighter one is expected.
Each pending operation keeps the operand read on its left. -/
inductive Expects : Nat → List Token → List Pending → List Token → Prop where
  | start : Expects 0 [] [] []
  | paren {level : Nat} {tokens output : List Token} {pending : List Pending} :
      Expects level tokens pending output →
      Expects 0 (tokens ++ [.openParen]) (.paren :: pending) output
  | sign {level : Nat} {tokens output : List Token} {pending : List Pending} {op : BinaryOp}
      {sign : Sign} : Expects level tokens pending output → op.sign? = some sign →
      Expects 2 (tokens ++ [.op op]) (.sign sign :: pending) output
  | op {level : Nat} {tokens left output : List Token} {pending : List Pending} {op : BinaryOp}
      {tree : Tree} : Expects level tokens pending output → level ≤ op.level →
      Tree.Reads op.level left tree →
      Expects (op.level + 1) (tokens ++ left ++ [.op op]) (.op op :: pending)
        (tree.toPostfix.reverse ++ output)

theorem Expects.level_le {level : Nat} {tokens output : List Token} {pending : List Pending}
    (expects : Expects level tokens pending output) : level ≤ 2 := by
  cases expects with
  | start => decide
  | paren _ => decide
  | sign _ _ => decide
  | op _ _ _ => exact Nat.succ_le_succ (BinaryOp.level_le_one _)

/-- After these tokens a value of the level or a tighter one has been read. -/
inductive Holds (bound : Nat) : List Token → List Pending → List Token → Prop where
  | intro {level high : Nat} {tokens last output : List Token} {pending : List Pending}
      {tree : Tree} : Expects level tokens pending output → Tree.Reads high last tree →
      level ≤ high → bound ≤ high →
      Holds bound (tokens ++ last) pending (tree.toPostfix.reverse ++ output)

theorem Expects.release {test : Pending → Bool} {bound : Nat}
    (tight : ∀ pending, test pending = true → pending.Tight bound) (small : bound ≤ 2)
    {level high : Nat} {tokens last output : List Token} {pending : List Pending} {tree : Tree}
    (expects : Expects level tokens pending output) (reads : Tree.Reads high last tree)
    (le : level ≤ high) (bounded : bound ≤ high) :
    Holds bound (tokens ++ last) (pending.dropWhile test)
      (((pending.takeWhile test).map Pending.token).reverse ++
        (tree.toPostfix.reverse ++ output)) := by
  -- From the inside out, each operation takes the value read so far as its last operand.
  induction expects generalizing high last tree with
  | start => exact .intro .start reads le bounded
  | paren expects ih =>
      have stays : test .paren = false := Bool.eq_false_iff.mpr (tight .paren)
      simpa [stays] using Holds.intro (.paren expects) reads le bounded
  | @sign level tokens output pending op sign expects isSign ih =>
      by_cases claims : test (.sign sign) = true
      · have larger := ih (.signed isSign (reads.mono le)) expects.level_le small
        simpa [claims, Tree.toPostfix, Pending.token] using larger
      · simpa [claims] using Holds.intro (.sign expects isSign) reads le bounded
  | @op level tokens left output pending op leftTree expects leLeft leftReads ih =>
      by_cases claims : test (.op op) = true
      · have larger := ih (.binary leftReads (reads.mono le)) leLeft (tight _ claims)
        simpa [claims, Tree.toPostfix, Pending.token] using larger
      · simpa [claims] using Holds.intro (.op expects leLeft leftReads) reads le bounded

theorem Holds.release {test : Pending → Bool} {bound : Nat}
    (tight : ∀ pending, test pending = true → pending.Tight bound) (small : bound ≤ 2)
    {tokens output : List Token} {pending : List Pending} (holds : Holds 2 tokens pending output) :
    Holds bound tokens (pending.dropWhile test)
      (((pending.takeWhile test).map Pending.token).reverse ++ output) := by
  obtain ⟨expects, reads, le, bounded⟩ := holds
  exact expects.release tight small reads le (Nat.le_trans small bounded)

/-- A state after some tokens: an operand is expected, or one has just been read. -/
inductive Follows : List Token → Conversion → Prop where
  | operand {level : Nat} {tokens output : List Token} {pending : List Pending} :
      Expects level tokens pending output → Follows tokens ⟨output, pending, false⟩
  | value {tokens output : List Token} {pending : List Pending} :
      Holds 2 tokens pending output → Follows tokens ⟨output, pending, true⟩

theorem Expects.level_le_of_stays {next : BinaryOp} {level : Nat} {tokens output : List Token}
    {pending : List Pending} (expects : Expects level tokens pending output)
    (stays : ∀ top ∈ pending.head?, top.bindsBefore next = false) : level ≤ next.level := by
  cases expects with
  | start => exact Nat.zero_le _
  | paren _ => exact Nat.zero_le _
  | sign _ _ => exact absurd (stays _ rfl) (by simp [Pending.bindsBefore])
  | op _ _ _ => exact Nat.lt_of_not_le (of_decide_eq_false (stays _ rfl))

theorem tight_of_bindsBefore (next : BinaryOp) (pending : Pending)
    (binds : pending.bindsBefore next = true) : pending.Tight next.level := by
  cases pending with
  | op operation =>
      simp only [Pending.bindsBefore, decide_eq_true_eq] at binds
      exact binds
  | sign mark => trivial
  | paren => cases binds

theorem tight_of_ne_paren (pending : Pending) (other : (pending != .paren) = true) :
    pending.Tight 0 := by
  cases pending with
  | op operation => exact Nat.zero_le _
  | sign mark => trivial
  | paren => cases other

theorem Holds.op {op : BinaryOp} {tokens output : List Token} {pending : List Pending}
    (holds : Holds op.level tokens pending output)
    (stays : ∀ top ∈ pending.head?, top.bindsBefore op = false) :
    Follows (tokens ++ [.op op]) ⟨output, .op op :: pending, false⟩ := by
  obtain ⟨expects, reads, le, bounded⟩ := holds
  exact .operand (.op expects (expects.level_le_of_stays stays) (reads.mono bounded))

theorem Holds.close {tokens output : List Token} {pending : List Pending}
    (holds : Holds 0 tokens (.paren :: pending) output) :
    Holds 2 (tokens ++ [.closeParen]) pending output := by
  obtain ⟨_ | expects, reads, _, _⟩ := holds
  simpa using Holds.intro expects (.parens (reads.mono (Nat.zero_le _))) expects.level_le
    (Nat.le_refl 2)

theorem exists_of_step_closeParen {state next : Conversion} (stepped : state.step .closeParen = .ok next) :
    ∃ inner outer, state.pending = inner ++ .paren :: outer ∧ .paren ∉ inner ∧
      state.afterValue = true ∧
      next = ⟨(inner.map Pending.token).reverse ++ state.output, outer, true⟩ := by
  obtain ⟨output, pending, after⟩ := state
  cases after with
  | false => cases stepped
  | true =>
      -- The partner is the first parenthesis on the stack; all above it goes to the output.
      have stops := Run.stops (· != .paren) pending
      have whole := List.takeWhile_append_dropWhile (p := (· != .paren)) (l := pending)
      simp only [step, release, if_true] at stepped
      cases partner : pending.dropWhile (· != .paren) with
      | nil => rw [partner] at stepped; cases stepped
      | cons top outer =>
          rw [partner] at stepped stops whole
          have isParen : top = .paren := by simpa using stops top rfl
          subst isParen
          cases stepped
          refine ⟨_, outer, whole.symm, fun member => ?_, rfl, rfl⟩
          have other := List.mem_takeWhile_imp member
          cases other

theorem Follows.step {tokens : List Token} {state next : Conversion} {token : Token}
    (follows : Follows tokens state) (stepped : state.step token = .ok next) :
    Follows (tokens ++ [token]) next := by
  -- Where a value is expected nothing is released. Behind a value an operator or a closing
  -- parenthesis first completes what binds tighter, so the value that it ends is whole.
  cases follows with
  | @operand level tokens output pending expects =>
      cases token with
      | num value =>
          cases stepped
          exact .value (.intro expects (.num value) expects.level_le (Nat.le_refl 2))
      | openParen => cases stepped; exact .operand (.paren expects)
      | closeParen => cases stepped
      | sign mark => cases stepped
      | op op =>
          cases isSign : op.sign? with
          | some sign =>
              simp only [Conversion.step, Bool.false_eq_true, if_false, isSign] at stepped
              cases stepped
              exact .operand (.sign expects isSign)
          | none =>
              simp only [Conversion.step, Bool.false_eq_true, if_false, isSign] at stepped
              cases stepped
  | @value tokens output pending holds =>
      cases token with
      | num value => cases stepped
      | openParen => cases stepped
      | sign mark => cases stepped
      | closeParen =>
          obtain ⟨inner, outer, rfl, alone, _, rfl⟩ := exists_of_step_closeParen stepped
          have all : ∀ top ∈ inner, (top != .paren) = true := by
            intro top member
            rw [bne_iff_ne]
            rintro rfl
            exact alone member
          have inside := holds.release tight_of_ne_paren (Nat.zero_le 2)
          obtain ⟨taken, left⟩ := Run.exact (· != .paren) inner (.paren :: outer) all (by simp)
          rw [taken, left] at inside
          exact .value inside.close
      | op op =>
          have outer := holds.release (tight_of_bindsBefore op)
            (Nat.le_succ_of_le op.level_le_one)
          cases stepped
          exact outer.op (Run.stops _ pending)

theorem follows_of_read {tokens : List Token} {state : Conversion}
    (run : read tokens = .ok state) : Follows tokens state := by
  induction tokens using List.reverseRecOn generalizing state with
  | nil => cases run; exact .operand .start
  | append_singleton tokens last ih =>
      rw [read_concat] at run
      obtain ⟨before, run', stepped⟩ := Outcome.bind_eq_ok_iff.mp run
      exact (ih run').step stepped

theorem Holds.sentence {bound : Nat} {tokens output : List Token}
    (holds : Holds bound tokens [] output) :
    ∃ tree, Tree.Reads 0 tokens tree ∧ output = tree.toPostfix.reverse := by
  obtain ⟨_ | _, reads, _, _⟩ := holds
  exact ⟨_, reads.mono (Nat.zero_le _), List.append_nil _⟩

theorem reads_of_finish {tokens output : List Token} {state : Conversion}
    (follows : Follows tokens state) (finished : state.finish = .ok output) :
    ∃ tree, Tree.Reads 0 tokens tree ∧ output = tree.toPostfix := by
  cases follows with
  | operand expects => cases finished
  | @value tokens out pending holds =>
      simp only [finish, if_true] at finished
      split at finished
      · cases finished
      · next closed =>
        cases finished
        have all : ∀ top ∈ pending, (top != .paren) = true := by
          intro top member
          rw [bne_iff_ne]
          rintro rfl
          exact closed member
        have whole := holds.release tight_of_ne_paren (Nat.zero_le 2)
        rw [List.takeWhile_eq_self_iff.mpr all, List.dropWhile_eq_nil_iff.mpr all] at whole
        obtain ⟨tree, reads, spelled⟩ := whole.sentence
        refine ⟨tree, reads, ?_⟩
        rw [release, List.takeWhile_eq_self_iff.mpr fun _ _ => rfl, spelled, List.reverse_reverse]

theorem finish_of_tight {output : List Token} {pending : List Pending} {tree : Tree}
    (tight : ∀ top ∈ pending, top.Tight 0)
    (spelled : (pending.map Pending.token).reverse ++ output = tree.toPostfix.reverse) :
    finish ⟨output, pending, true⟩ = .ok tree.toPostfix := by
  have closed : .paren ∉ pending := fun member => tight _ member
  rw [finish, if_pos rfl, if_neg closed, release, List.takeWhile_eq_self_iff.mpr fun _ _ => rfl,
    spelled, List.reverse_reverse]

end Conversion

/-! ## Conversion and the grammar -/

theorem ofTokens_of_reads {tokens : List Token} {tree : Tree} (reads : Tree.Reads 0 tokens tree) :
    ofTokens tokens = .ok tree.toPostfix := by
  obtain ⟨own, out, run, tight, spelled⟩ :=
    Conversion.foldlM_step_of_reads reads [] [] (by simp)
  rw [List.append_nil] at run spelled
  have nonempty : tokens ≠ [] := by
    rintro rfl
    cases run
  rw [ofTokens_of_ne_nil nonempty, Conversion.read, run, Outcome.ok_bind]
  exact Conversion.finish_of_tight tight spelled

theorem reads_of_ofTokens {tokens output : List Token} (converted : ofTokens tokens = .ok output) :
    ∃ tree, Tree.Reads 0 tokens tree ∧ output = tree.toPostfix := by
  rw [ofTokens] at converted
  split at converted
  · cases converted
  · obtain ⟨state, run, finished⟩ := Outcome.bind_eq_ok_iff.mp converted
    exact Conversion.reads_of_finish (Conversion.follows_of_read run) finished

end Postfix

/-- A token list denotes at most one tree. -/
theorem Tree.Reads.unique {tokens : List Token} {first second : Tree}
    (one : Tree.Reads 0 tokens first) (other : Tree.Reads 0 tokens second) : first = second := by
  have same := ofTokens_of_reads one
  rw [ofTokens_of_reads other] at same
  exact (Tree.toPostfix_injective (Except.ok.inj same)).symm

end PocketCalc
