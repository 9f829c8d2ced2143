import PocketCalc.Proofs.Token.Spelling

/-! What single characters of a text say of its tokens. -/

set_option autoImplicit false

namespace PocketCalc.Token

open Decimal

theorem ofSymbol?_injective {c d : Char} {token : Token} (found : ofSymbol? c = some token)
    (found' : ofSymbol? d = some token) : c = d := by
  have same := (text_of_ofSymbol? found).symm.trans (text_of_ofSymbol? found')
  exact List.singleton_inj.mp same

theorem ofSymbol?_ne_num {c : Char} {value : Rat} : ofSymbol? c ≠ some (.num value) := by
  unfold ofSymbol?
  split <;> simp

theorem ofSymbol?_eq_none_of_isLiteralChar {c : Char} (literal : IsLiteralChar c) : ofSymbol? c = none :=
  Option.eq_none_iff_forall_ne_some.mpr fun _ found => not_isLiteralChar_of_ofSymbol? found literal

theorem ofSymbol?_eq_none_of_isBlank {c : Char} (blank : Text.isBlank c = true) : ofSymbol? c = none := by
  refine Option.eq_none_iff_forall_ne_some.mpr fun token found => ?_
  rw [isBlank_eq_false_of_ofSymbol? found] at blank
  cases blank

def isSymbol : Token → Bool
  | num _ => false
  | op _ | sign _ | openParen | closeParen => true

theorem isSymbol_of_ofSymbol? {c : Char} {token : Token} (found : ofSymbol? c = some token) :
    token.isSymbol = true := by
  cases token with
  | num value => exact absurd found ofSymbol?_ne_num
  | op _ | sign _ | openParen | closeParen => rfl

theorem filter_of_ofText {text : List Char} {tokens : List Token} (read : ofText text = .ok tokens) :
    tokens.filter isSymbol = text.filterMap ofSymbol? := by
  fun_induction Lexeme.ofText text generalizing tokens with
  | case1 =>
      rw [ofText_nil] at read
      cases read
      rfl
  | case2 c rest start ih =>
      obtain ⟨value, later, _, laterRead, rfl⟩ := exists_of_ofText_literal start read
      have literal : (Literal.split (c :: rest)).1.text.filterMap ofSymbol? = [] :=
        List.filterMap_eq_nil_iff.mpr fun d member => ofSymbol?_eq_none_of_isLiteralChar
          (Literal.isLiteralChar_of_mem_text (Literal.digits_split _) member)
      have whole := congrArg (List.filterMap ofSymbol?) (Literal.text_split (c :: rest))
      rw [List.filterMap_append, literal, List.nil_append] at whole
      rw [List.filter_cons_of_neg (by simp [isSymbol]), ih laterRead, whole]
  | case3 c rest other ih =>
      obtain ⟨later, laterRead, ⟨rfl, blank⟩ | ⟨token, found, rfl⟩⟩ := exists_of_ofText_cons other read
      · rw [ih laterRead, List.filterMap_cons, ofSymbol?_eq_none_of_isBlank blank]
      · rw [List.filter_cons_of_pos (isSymbol_of_ofSymbol? found), ih laterRead, List.filterMap_cons, found]

theorem count_of_ofText {c : Char} {token : Token} {text : List Char} {tokens : List Token}
    (found : ofSymbol? c = some token) (read : ofText text = .ok tokens) :
    tokens.count token = text.count c := by
  rw [← List.count_filter (isSymbol_of_ofSymbol? found), filter_of_ofText read, List.count_filterMap,
    List.count]
  refine List.countP_congr fun d _ => ?_
  rw [beq_iff_eq, beq_iff_eq]
  constructor
  · exact fun found' => ofSymbol?_injective found' found
  · rintro rfl
    exact found

theorem isBlank_of_ofText_nil {text : List Char} (read : ofText text = .ok []) :
    ∀ c ∈ text, Text.isBlank c = true := by
  fun_induction Lexeme.ofText text with
  | case1 => simp
  | case2 c rest start _ =>
      obtain ⟨_, _, _, _, same⟩ := exists_of_ofText_literal start read
      cases same
  | case3 c rest other ih =>
      obtain ⟨later, laterRead, ⟨rfl, blank⟩ | ⟨token, _, same⟩⟩ := exists_of_ofText_cons other read
      · exact List.forall_mem_cons.mpr ⟨blank, ih laterRead⟩
      · cases same

theorem ofText_of_isBlank {text : List Char} (blank : ∀ c ∈ text, Text.isBlank c = true) :
    ofText text = .ok [] := by
  induction text with
  | nil => exact ofText_nil
  | cons c rest ih =>
      obtain ⟨first, later⟩ := List.forall_mem_cons.mp blank
      rw [ofText_cons_blank first, ih later]

theorem fault_of_ofChar {c : Char} {fault : Fault} (failed : (Lexeme.ofChar c).tokens = .error fault) :
    fault = .forbiddenChar c ∧ Lexeme.ofChar c = .stray c := by
  unfold Lexeme.ofChar at failed ⊢
  split at failed
  · cases failed
  · next notBlank =>
    split at failed
    · cases failed
    · cases failed
      simp [notBlank]

/-- What has no tokens has a point on its own, or a character that no token starts with. -/
theorem fault_of_ofText {text : List Char} {fault : Fault} (failed : ofText text = .error fault) :
    fault = .malformedNumber ['.'] ∨
      ∃ c ∈ text, fault = .forbiddenChar c ∧ ¬ IsLiteralChar c ∧ Lexeme.ofChar c = .stray c := by
  fun_induction Lexeme.ofText text with
  | case1 =>
      rw [ofText_nil] at failed
      cases failed
  | case2 c rest start ih =>
      have whole := Literal.text_split (c :: rest)
      rw [ofText_cons_of_literal start] at failed
      rcases Outcome.bind_eq_error_iff.mp failed with number | ⟨value, _, later⟩
      · refine .inl (Literal.fault_of_value ?_ number)
        -- The literal is not empty, as it starts here; so only the point is left without a digit.
        intro empty
        have shorter := Literal.split_shorter start rest
        rw [empty, List.nil_append] at whole
        rw [whole] at shorter
        exact absurd shorter (Nat.lt_irrefl _)
      · rcases Outcome.bind_eq_error_iff.mp later with later | ⟨_, _, same⟩
        · rcases ih later with point | ⟨d, member, isFault⟩
          · exact .inl point
          · refine .inr ⟨d, ?_, isFault⟩
            rw [← whole]
            exact List.mem_append_right _ member
        · cases same
  | case3 c rest other ih =>
      rw [ofText_cons_of_char other] at failed
      rcases Outcome.bind_eq_error_iff.mp failed with first | ⟨_, _, later⟩
      · obtain ⟨isFault, stray⟩ := fault_of_ofChar first
        exact .inr ⟨c, List.mem_cons_self, isFault, other, stray⟩
      · rcases Outcome.bind_eq_error_iff.mp later with later | ⟨_, _, same⟩
        · rcases ih later with point | ⟨d, member, isFault⟩
          · exact .inl point
          · exact .inr ⟨d, List.mem_cons_of_mem c member, isFault⟩
        · cases same

theorem exists_num_head {text : List Char} {tokens : List Token} {first : Char}
    (read : ofText text = .ok tokens) (head : first ∈ text.head?) (literal : IsLiteralChar first) :
    ∃ value, .num value ∈ tokens.head? := by
  cases text with
  | nil => cases head
  | cons c rest =>
      cases head
      obtain ⟨value, later, _, _, rfl⟩ := exists_of_ofText_literal literal read
      exact ⟨value, rfl⟩

theorem head_of_symbol {text : List Char} {tokens : List Token} {first : Char} {token : Token}
    (read : ofText text = .ok tokens) (head : first ∈ text.head?)
    (found : ofSymbol? first = some token) : token ∈ tokens.head? := by
  cases text with
  | nil => cases head
  | cons c rest =>
      cases head
      obtain ⟨later, _, ⟨_, blank⟩ | ⟨token', found', rfl⟩⟩ :=
        exists_of_ofText_cons (not_isLiteralChar_of_ofSymbol? found) read
      · rw [isBlank_eq_false_of_ofSymbol? found] at blank
        cases blank
      · exact found'.symm.trans found

theorem exists_num_last {text : List Char} {tokens : List Token} {last : Char}
    (read : ofText text = .ok tokens) (ends : last ∈ text.getLast?) (literal : IsLiteralChar last) :
    ∃ value, .num value ∈ tokens.getLast? := by
  fun_induction Lexeme.ofText text generalizing tokens with
  | case1 => cases ends
  | case2 c rest start ih =>
      obtain ⟨value, later, _, laterRead, rfl⟩ := exists_of_ofText_literal start read
      have whole := Literal.text_split (c :: rest)
      -- The number of the literal is the last token, or the text goes on behind it.
      rcases List.eq_nil_or_concat (Literal.split (c :: rest)).2 with none | ⟨init, final, same⟩
      · rw [none, ofText_nil] at laterRead
        cases laterRead
        exact ⟨value, rfl⟩
      · have isFinal : last = final := by
          rw [← whole, same, List.concat_eq_append, ← List.append_assoc, List.getLast?_concat] at ends
          exact (Option.some.inj ends).symm
        obtain ⟨value', ends'⟩ := ih laterRead (by simp [same, isFinal])
        exact ⟨value', Run.mem_getLast?_of_suffix (List.suffix_cons _ later) ends'⟩
  | case3 c rest other ih =>
      obtain ⟨later, laterRead, isTokens⟩ := exists_of_ofText_cons other read
      have suffix : later <:+ tokens := by
        obtain ⟨rfl, _⟩ | ⟨first, _, rfl⟩ := isTokens
        · exact List.suffix_rfl
        · exact List.suffix_cons first later
      cases rest with
      | nil =>
          cases ends
          exact absurd literal other
      | cons next rest =>
          rw [List.getLast?_cons_cons] at ends
          obtain ⟨value, ends'⟩ := ih laterRead ends
          exact ⟨value, Run.mem_getLast?_of_suffix suffix ends'⟩

end PocketCalc.Token
