import PocketCalc.Proofs.Tree.Reading

/-! Parentheses that pair, and what conversion to postfix order can find wrong.

The parentheses that wait are those that have been opened and not closed
(`Postfix.Conversion.count_paren_of_read`). So where parentheses pair, none is left open
and none closes what is not open (`Postfix.fault_of_balanced`).
-/

set_option autoImplicit false

namespace PocketCalc

/-- Parentheses that pair. -/
structure Token.Balanced (tokens : List Token) : Prop where
  opened : ∀ before, before <+: tokens → before.count .closeParen ≤ before.count .openParen
  closed : tokens.count .closeParen = tokens.count .openParen

namespace Token.Balanced

variable {tokens left right : List Token}

theorem append (first : Balanced left) (second : Balanced right) : Balanced (left ++ right) where
  opened before isPrefix := by
    rcases List.prefix_or_prefix_of_prefix isPrefix (List.prefix_append left right) with inside | whole
    · exact first.opened before inside
    · obtain ⟨inner, rfl⟩ := whole
      have bound := second.opened inner ((List.prefix_append_right_inj left).mp isPrefix)
      rw [List.count_append, List.count_append, first.closed]
      exact Nat.add_le_add_left bound _
  closed := by rw [List.count_append, List.count_append, first.closed, second.closed]

theorem of_not_mem (opening : .openParen ∉ tokens) (closing : .closeParen ∉ tokens) : Balanced tokens where
  opened before isPrefix := by
    rw [List.count_eq_zero.mpr fun member => closing (isPrefix.subset member)]
    exact Nat.zero_le _
  closed := by rw [List.count_eq_zero.mpr closing, List.count_eq_zero.mpr opening]

theorem enclose (inside : Balanced tokens) : Balanced (.openParen :: tokens ++ [.closeParen]) where
  opened before isPrefix := by
    rcases List.prefix_concat_iff.mp isPrefix with rfl | shorter
    · simp [inside.closed]
    · rcases List.prefix_cons_iff.mp shorter with rfl | ⟨inner, rfl, isInner⟩
      · exact Nat.le_refl 0
      · have bound := inside.opened inner isInner
        simp only [List.count_cons_self, List.count_cons_of_ne, ne_eq, reduceCtorEq, not_false_eq_true]
        exact Nat.le_succ_of_le bound
  closed := by simp [inside.closed]

theorem of_filter (keep : Token → Bool) (opening : keep .openParen = true)
    (closing : keep .closeParen = true) (kept : Balanced (tokens.filter keep)) : Balanced tokens where
  opened before isPrefix := by
    have bound := kept.opened _ (isPrefix.filter keep)
    rwa [List.count_filter closing, List.count_filter opening] at bound
  closed := by
    have same := kept.closed
    rwa [List.count_filter closing, List.count_filter opening] at same

end Token.Balanced

namespace Postfix

namespace Conversion

theorem count_paren_dropWhile (test : Pending → Bool) (stays : test .paren = false)
    (pending : List Pending) : (pending.dropWhile test).count .paren = pending.count .paren := by
  have taken : (pending.takeWhile test).count .paren = 0 :=
    List.count_eq_zero.mpr fun member => by
      rw [List.mem_takeWhile_imp member] at stays
      cases stays
  have whole := congrArg (List.count Pending.paren) (List.takeWhile_append_dropWhile (p := test) (l := pending))
  rwa [List.count_append, taken, Nat.zero_add] at whole

theorem count_paren_of_step {state next : Conversion} {token : Token}
    (stepped : state.step token = .ok next) :
    [token].count .closeParen + next.pending.count .paren =
      [token].count .openParen + state.pending.count .paren := by
  -- Only a parenthesis changes the count, a closing one by its partner; what an operator
  -- releases stands above every waiting parenthesis.
  cases token with
  | num value =>
      obtain ⟨output, pending, after⟩ := state
      cases after <;> cases stepped
      rfl
  | openParen =>
      obtain ⟨output, pending, after⟩ := state
      cases after <;> cases stepped
      simp [Nat.add_comm]
  | closeParen =>
      obtain ⟨inner, outer, waits, alone, _, rfl⟩ := exists_of_step_closeParen stepped
      simp [waits, List.count_append, List.count_eq_zero.mpr alone, Nat.add_comm]
  | op op =>
      obtain ⟨output, pending, after⟩ := state
      cases after with
      | true =>
          cases stepped
          have stays := count_paren_dropWhile (·.bindsBefore op) rfl pending
          simpa [release] using stays
      | false =>
          simp only [step, Bool.false_eq_true, if_false] at stepped
          cases isSign : op.sign? with
          | none => rw [isSign] at stepped; cases stepped
          | some sign => rw [isSign] at stepped; cases stepped; simp
  | sign mark => cases stepped

theorem count_paren_of_read {tokens : List Token} {state : Conversion} (run : read tokens = .ok state) :
    tokens.count .closeParen + state.pending.count .paren = tokens.count .openParen := by
  induction tokens using List.reverseRecOn generalizing state with
  | nil => cases run; rfl
  | append_singleton tokens last ih =>
      rw [read_concat] at run
      obtain ⟨before, run', stepped⟩ := Outcome.bind_eq_ok_iff.mp run
      have waiting := ih run'
      have change := count_paren_of_step stepped
      rw [List.count_append, List.count_append]
      omega

/-! ## Faults -/

theorem fault_of_step_closeParen {state : Conversion} {fault : Fault}
    (failed : state.step .closeParen = .error fault) :
    state.afterValue = false ∧ fault = .malformedExpression ∨
      state.afterValue = true ∧ .paren ∉ state.pending ∧ fault = .unexpectedClosing := by
  obtain ⟨output, pending, after⟩ := state
  cases after with
  | false => cases failed; exact .inl ⟨rfl, rfl⟩
  | true =>
      simp only [step, release, if_true] at failed
      cases partner : pending.dropWhile (· != .paren) with
      | cons top outer => rw [partner] at failed; cases failed
      | nil =>
          rw [partner] at failed
          cases failed
          refine .inr ⟨rfl, fun waits => ?_, rfl⟩
          have other := List.dropWhile_eq_nil_iff.mp partner .paren waits
          cases other

theorem fault_of_step {state : Conversion} {token : Token} {fault : Fault}
    (failed : state.step token = .error fault) :
    fault = .malformedExpression ∨
      fault = .unexpectedClosing ∧ token = .closeParen ∧ state.afterValue = true ∧
        .paren ∉ state.pending := by
  cases token with
  | closeParen =>
      obtain ⟨_, malformed⟩ | ⟨after, absent, unexpected⟩ := fault_of_step_closeParen failed
      · exact .inl malformed
      · exact .inr ⟨unexpected, rfl, after, absent⟩
  | num value => obtain ⟨output, pending, after⟩ := state; cases after <;> cases failed; exact .inl rfl
  | openParen => obtain ⟨output, pending, after⟩ := state; cases after <;> cases failed; exact .inl rfl
  | op op =>
      obtain ⟨output, pending, after⟩ := state
      cases after with
      | true => cases failed
      | false =>
          simp only [step, Bool.false_eq_true, if_false] at failed
          cases isSign : op.sign? with
          | none => rw [isSign] at failed; cases failed; exact .inl rfl
          | some sign => rw [isSign] at failed; cases failed
  | sign mark => cases failed; exact .inl rfl

theorem exists_of_read_eq_error {tokens : List Token} {fault : Fault} (failed : read tokens = .error fault) :
    ∃ before token rest state, tokens = before ++ token :: rest ∧ read before = .ok state ∧
      state.step token = .error fault := by
  induction tokens using List.reverseRecOn with
  | nil => cases failed
  | append_singleton tokens last ih =>
      rw [read_concat] at failed
      rcases Outcome.bind_eq_error_iff.mp failed with earlier | ⟨state, run, stepped⟩
      · obtain ⟨before, token, rest, state, rfl, run, stepped⟩ := ih earlier
        exact ⟨before, token, rest ++ [last], state, by simp, run, stepped⟩
      · exact ⟨tokens, last, [], state, rfl, run, stepped⟩

theorem fault_of_read {tokens : List Token} {fault : Fault} (failed : read tokens = .error fault) :
    fault = .malformedExpression ∨
      fault = .unexpectedClosing ∧ ∃ before, before ++ [.closeParen] <+: tokens ∧
        before.count .closeParen = before.count .openParen := by
  obtain ⟨before, token, rest, state, rfl, run, stepped⟩ := exists_of_read_eq_error failed
  refine (fault_of_step stepped).imp_right fun ⟨unexpected, isClosing, _, absent⟩ => ?_
  have waiting := count_paren_of_read run
  rw [List.count_eq_zero.mpr absent, Nat.add_zero] at waiting
  subst isClosing
  exact ⟨unexpected, before, ⟨rest, by simp⟩, waiting⟩

theorem fault_of_finish {state : Conversion} {fault : Fault} (failed : state.finish = .error fault) :
    fault = .malformedExpression ∨ fault = .unclosedParen ∧ .paren ∈ state.pending := by
  unfold finish at failed
  split at failed
  · split at failed
    · next waits => cases failed; exact .inr ⟨rfl, waits⟩
    · cases failed
  · cases failed
    exact .inl rfl

end Conversion

/-- Tokens whose parentheses pair can only be malformed. -/
theorem fault_of_balanced {tokens : List Token} {fault : Fault} (balanced : Token.Balanced tokens)
    (nonempty : tokens ≠ []) (failed : ofTokens tokens = .error fault) : fault = .malformedExpression := by
  rw [ofTokens_of_ne_nil nonempty] at failed
  rcases Outcome.bind_eq_error_iff.mp failed with reading | ⟨state, run, finishing⟩
  · -- A parenthesis that closes nothing would end a prefix in which more are closed than opened.
    refine (Conversion.fault_of_read reading).resolve_right fun ⟨_, before, isPrefix, count⟩ => ?_
    have bound := balanced.opened _ isPrefix
    rw [List.count_append, List.count_append, count] at bound
    exact absurd bound (Nat.not_succ_le_self _)
  · -- One that waits at the end has been opened and not closed.
    refine (Conversion.fault_of_finish finishing).resolve_right fun ⟨_, waits⟩ => ?_
    have waiting := Conversion.count_paren_of_read run
    have some := List.count_pos_iff.mpr waits
    rw [balanced.closed] at waiting
    omega

end Postfix

end PocketCalc
