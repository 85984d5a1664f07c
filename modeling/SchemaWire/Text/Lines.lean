/-!
# Lines

A line ends at a line feed, which takes a carriage return directly before it along. A carriage return
anywhere else is an ordinary character. A text that ends with a line feed has no empty line after it.
-/

namespace SchemaWire.Text

/-- The lines of a text, without what ends them. -/
def lines : List Char → List (List Char)
  | [] => []
  | '\n' :: cs => [] :: lines cs
  | '\r' :: '\n' :: cs => [] :: lines cs
  | c :: cs =>
    match lines cs with
    | [] => [[c]]
    | line :: rest => (c :: line) :: rest

@[simp] theorem lines_nil : lines [] = [] := rfl

theorem lines_eq_nil_iff {cs : List Char} : lines cs = [] ↔ cs = [] := by
  constructor
  · intro h
    fun_cases lines cs <;> simp_all [lines]
  · rintro rfl
    rfl

/-- No line holds a line feed. -/
theorem newline_not_mem_of_mem_lines {cs line : List Char} (h : line ∈ lines cs) : '\n' ∉ line := by
  fun_induction lines cs generalizing line with
  | case1 => simp at h
  | case2 cs ih =>
    rcases List.mem_cons.mp h with rfl | h
    · simp
    · exact ih h
  | case3 cs ih =>
    rcases List.mem_cons.mp h with rfl | h
    · simp
    · exact ih h
  | case4 c cs hn hr hcs ih =>
    simp only [List.mem_singleton] at h
    subst h
    simp only [List.mem_singleton]
    exact fun e => hn e.symm
  | case5 c cs hn hr first rest hcs ih =>
    rcases List.mem_cons.mp h with rfl | h
    · rw [hcs] at ih
      simp only [List.mem_cons, not_or]
      exact ⟨fun e => hn e.symm, ih List.mem_cons_self⟩
    · exact ih (hcs ▸ List.mem_cons_of_mem _ h)

end SchemaWire.Text
