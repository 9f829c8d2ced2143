import Mathlib.Data.List.TakeWhile

/-! The run of elements at the head of a list that satisfy a test. -/

set_option autoImplicit false

namespace PocketCalc.Run

variable {A : Type} (test : A → Bool)

theorem stops (list : List A) : ∀ next ∈ (list.dropWhile test).head?, test next = false := by
  intro next member
  have stops := List.head?_dropWhile_not test list
  rw [Option.mem_def.mp member] at stops
  exact stops

theorem exact (run rest : List A) (all : ∀ element ∈ run, test element = true)
    (stop : ∀ next ∈ rest.head?, test next = false) :
    (run ++ rest).takeWhile test = run ∧ (run ++ rest).dropWhile test = rest := by
  have none : rest.takeWhile test = [] ∧ rest.dropWhile test = rest := by
    cases rest with
    | nil => exact ⟨rfl, rfl⟩
    | cons next rest => simp [stop next rfl]
  rw [List.takeWhile_append_of_pos all, List.dropWhile_append_of_pos all, none.1, none.2]
  exact ⟨List.append_nil run, rfl⟩

/-- A run ends where it ended, unless it took the whole list and goes on behind it. -/
theorem append (list rest : List A)
    (stop : list.dropWhile test = [] → ∀ next ∈ rest.head?, test next = false) :
    (list ++ rest).takeWhile test = list.takeWhile test ∧
      (list ++ rest).dropWhile test = list.dropWhile test ++ rest := by
  induction list with
  | nil => exact exact test [] rest (fun _ member => nomatch member) (stop rfl)
  | cons head list ih =>
      by_cases satisfies : test head = true
      · simp only [List.dropWhile_cons_of_pos satisfies] at stop
        simp [satisfies, ih stop]
      · simp [satisfies]

theorem exists_at_end (list : List A) :
    ∃ before run, list = before ++ run ∧ (∀ element ∈ run, test element = true) ∧
      ∀ last ∈ before.getLast?, test last = false := by
  refine ⟨(list.reverse.dropWhile test).reverse, (list.reverse.takeWhile test).reverse, ?_, ?_, ?_⟩
  · rw [← List.reverse_append, List.takeWhile_append_dropWhile, List.reverse_reverse]
  · exact fun element member => List.mem_takeWhile_imp (List.mem_reverse.mp member)
  · intro last member
    rw [List.getLast?_reverse] at member
    exact stops test list.reverse last member

theorem mem_getLast?_of_suffix {inner list : List A} (suffix : inner <:+ list) {last : A}
    (member : last ∈ inner.getLast?) : last ∈ list.getLast? :=
  List.singleton_suffix_iff_getLast?_eq_some.mp
    ((List.singleton_suffix_iff_getLast?_eq_some.mpr member).trans suffix)

theorem getLast?_append_cons (before : List A) (head : A) (rest : List A) :
    (before ++ head :: rest).getLast? = (head :: rest).getLast? := by
  simp [List.getLast?_append, List.getLast?_cons]

end PocketCalc.Run
