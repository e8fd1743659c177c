import Mathlib.Data.List.Basic

/-!
# Lines of a text

A text is broken at each separator, and each piece after every `width`
elements behind which another one stands.  What one more element at the end of
the text does to its lines is all that a printer needs to know.
-/

namespace Lines

variable {α : Type}

/-- A piece without separators, cut after every `width` elements. -/
def wrapLine (width : Nat) (line : List α) : List (List α) :=
  if 0 < width ∧ width < line.length then
    line.take width :: wrapLine width (line.drop width)
  else
    [line]
termination_by line.length
decreasing_by
  simp only [List.length_drop]
  omega

theorem wrapLine_of_le {width : Nat} {line : List α}
    (short : line.length ≤ width) : wrapLine width line = [line] := by
  rw [wrapLine, if_neg (by omega)]

theorem wrapLine_of_lt {width : Nat} {line : List α} (positive : 0 < width)
    (long : width < line.length) :
    wrapLine width line =
      line.take width :: wrapLine width (line.drop width) := by
  rw [wrapLine, if_pos ⟨positive, long⟩]

/-- The lines, of which `last` is the last one, with one more element. -/
def extend (width : Nat) (done : List (List α)) (last : List α) (item : α) :
    List (List α) :=
  if last.length = width then
    done ++ [last] ++ [[item]]
  else
    done ++ [last ++ [item]]

theorem wrapLine_concat {width : Nat} (positive : 0 < width) (item : α) :
    ∀ {line : List α} {done : List (List α)} {last : List α},
      wrapLine width line = done ++ [last] →
        wrapLine width (line ++ [item]) = extend width done last item := by
  intro line
  induction line using wrapLine.induct width with
  | case1 line long inductionHypothesis =>
      intro done last lines
      rw [wrapLine_of_lt positive long.2] at lines
      have longer : width < (line ++ [item]).length := by
        simp only [List.length_append]
        omega
      rw [wrapLine_of_lt positive longer,
        List.take_append_of_le_length (Nat.le_of_lt long.2),
        List.drop_append_of_le_length (Nat.le_of_lt long.2)]
      cases done with
      | nil =>
          simp only [List.nil_append, List.cons.injEq] at lines
          have nonempty : wrapLine width (line.drop width) ≠ [] := by
            rw [wrapLine]
            split <;> simp
          exact absurd lines.2 nonempty
      | cons first rest =>
          simp only [List.cons_append, List.cons.injEq] at lines
          rw [inductionHypothesis lines.2, lines.1]
          unfold extend
          split <;> simp
  | case2 line short =>
      intro done last lines
      have fits : line.length ≤ width := by omega
      rw [wrapLine_of_le fits] at lines
      obtain ⟨rfl, same⟩ := List.append_inj'
        (show [] ++ [line] = done ++ [last] from lines) rfl
      obtain rfl : line = last := List.singleton_inj.mp same
      unfold extend
      by_cases full : line.length = width
      · have long : width < (line ++ [item]).length := by
          simp only [List.length_append, List.length_singleton]
          omega
        rw [if_pos full, wrapLine_of_lt positive long, ← full,
          List.take_left, List.drop_left,
          wrapLine_of_le (by simp only [List.length_singleton]; omega)]
        rfl
      · rw [if_neg full, wrapLine_of_le (by
          simp only [List.length_append, List.length_singleton]
          omega)]
        rfl

variable [BEq α]

/-- The lines of a text. -/
def linesOf (width : Nat) (separator : α) (text : List α) : List (List α) :=
  (text.splitOn separator).flatMap (wrapLine width)

theorem linesOf_nil (width : Nat) (separator : α) :
    linesOf width separator [] = [[]] := by
  simp [linesOf, wrapLine_of_le]

variable [LawfulBEq α]

/-- An element that is no separator goes to the last piece. -/
theorem splitOn_concat {separator item : α} (other : item ≠ separator) :
    ∀ {text : List α} {done : List (List α)} {last : List α},
      text.splitOn separator = done ++ [last] →
        (text ++ [item]).splitOn separator = done ++ [last ++ [item]] := by
  intro text
  induction text with
  | nil =>
      intro done last pieces
      obtain ⟨rfl, same⟩ := List.append_inj'
        (show [] ++ [[]] = done ++ [last] from pieces) rfl
      obtain rfl : [] = last := List.singleton_inj.mp same
      simp [List.splitOn_cons_eq_if_modifyHead, other]
  | cons head tail inductionHypothesis =>
      intro done last pieces
      obtain ⟨earlier, current, tailPieces⟩ : ∃ earlier current,
          tail.splitOn separator = earlier ++ [current] :=
        ⟨_, _, (List.dropLast_append_getLast
          (List.splitOn_ne_nil separator tail)).symm⟩
      have longer := inductionHypothesis tailPieces
      rw [List.splitOn_cons_eq_if_modifyHead, tailPieces] at pieces
      rw [List.cons_append, List.splitOn_cons_eq_if_modifyHead, longer]
      by_cases same : (head == separator) = true
      · rw [if_pos same, ← List.cons_append] at pieces
        obtain ⟨rfl, lastSame⟩ := List.append_inj' pieces rfl
        obtain rfl : current = last := List.singleton_inj.mp lastSame
        rw [if_pos same]
        rfl
      · rw [if_neg same] at pieces ⊢
        cases earlier with
        | nil =>
            obtain ⟨rfl, lastSame⟩ := List.append_inj'
              (show [] ++ [head :: current] = _ ++ [last] from pieces) rfl
            obtain rfl : head :: current = last :=
              List.singleton_inj.mp lastSame
            rfl
        | cons first rest =>
            rw [List.cons_append, List.modifyHead_cons,
              ← List.cons_append] at pieces
            obtain ⟨rfl, lastSame⟩ := List.append_inj' pieces rfl
            obtain rfl : current = last := List.singleton_inj.mp lastSame
            rfl

/-- A separator opens an empty line. -/
theorem linesOf_concat_separator (width : Nat) (separator : α)
    (text : List α) :
    linesOf width separator (text ++ [separator]) =
      linesOf width separator text ++ [[]] := by
  unfold linesOf
  rw [List.splitOn_append_cons_self, List.flatMap_append]
  simp [wrapLine_of_le]

/-- Every other element goes behind the last line, or on a line of its own
when that one is full. -/
theorem linesOf_concat {width : Nat} (positive : 0 < width)
    {separator item : α} (other : item ≠ separator) {text : List α}
    {done : List (List α)} {last : List α}
    (lines : linesOf width separator text = done ++ [last]) :
    linesOf width separator (text ++ [item]) =
      extend width done last item := by
  obtain ⟨earlier, current, pieces⟩ : ∃ earlier current,
      text.splitOn separator = earlier ++ [current] :=
    ⟨_, _, (List.dropLast_append_getLast
      (List.splitOn_ne_nil separator text)).symm⟩
  obtain ⟨cut, piece, wrapped⟩ : ∃ cut piece,
      wrapLine width current = cut ++ [piece] := by
    refine ⟨_, _, (List.dropLast_append_getLast ?_).symm⟩
    rw [wrapLine]
    split <;> simp
  unfold linesOf at lines ⊢
  rw [splitOn_concat other pieces, List.flatMap_append,
    List.flatMap_singleton, wrapLine_concat positive item wrapped]
  rw [pieces, List.flatMap_append, List.flatMap_singleton, wrapped,
    ← List.append_assoc] at lines
  obtain ⟨rfl, same⟩ := List.append_inj' lines rfl
  obtain rfl : piece = last := List.singleton_inj.mp same
  unfold extend
  split <;> simp

end Lines
