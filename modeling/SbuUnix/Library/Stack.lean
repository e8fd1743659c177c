import Mathlib.Data.Int.Order.Basic
import Mathlib.Data.List.Induction
import Mathlib.Logic.Function.Basic
import Mathlib.Tactic.Common

/-!
# A stack that grows downward

Cells of eight bytes below each other.  What was pushed is popped in the
reverse order, whatever happens to the memory below the stack pointer and
above the cells that were pushed.
-/

universe u

/-- A stack pointer and the memory. -/
@[ext]
structure Stack (V : Type u) where
  sp : Int
  mem : Int → V

namespace Stack

variable {V : Type u} (st other : Stack V) (value : V) (values : List V)

def push : Stack V where
  sp := st.sp - 8
  mem := Function.update st.mem (st.sp - 8) value

/-- The stack behind the topmost cell. -/
def pop : Stack V where
  sp := st.sp + 8
  mem := st.mem

/-- The topmost cell. -/
def top : V := st.mem st.sp

def pushAll : List V → Stack V → Stack V
  | [], st => st
  | value :: rest, st => pushAll rest (st.push value)

/-- The topmost cells, from the stack pointer on. -/
def popAll : Nat → Stack V → List V × Stack V
  | 0, st => ([], st)
  | count + 1, st => (st.top :: (popAll count st.pop).1, (popAll count st.pop).2)

@[simp]
theorem push_sp : (st.push value).sp = st.sp - 8 :=
  rfl

@[simp]
theorem push_top : (st.push value).top = value :=
  Function.update_self ..

theorem push_mem {place : Int} (above : st.sp ≤ place) :
    (st.push value).mem place = st.mem place :=
  Function.update_of_ne (by omega) _ _

theorem pushAll_append (first second : List V) :
    pushAll (first ++ second) st = pushAll second (pushAll first st) := by
  induction first generalizing st with
  | nil => rfl
  | cons value rest inductionHypothesis => exact inductionHypothesis _

theorem pushAll_sp : (pushAll values st).sp = st.sp - 8 * values.length := by
  induction values generalizing st with
  | nil => simp [pushAll]
  | cons value rest inductionHypothesis =>
      rw [pushAll, inductionHypothesis, push_sp, List.length_cons]
      push_cast
      omega

/-- The memory above is as before. -/
theorem pushAll_mem {place : Int} (above : st.sp ≤ place) :
    (pushAll values st).mem place = st.mem place := by
  induction values generalizing st with
  | nil => rfl
  | cons value rest inductionHypothesis =>
      rw [pushAll, inductionHypothesis _ (by rw [push_sp]; omega),
        push_mem st value above]

/-- The cells from one address up to another are the same. -/
def SameCells (low high : Int) (first second : Int → V) : Prop :=
  ∀ place, low ≤ place → place < high → second place = first place

theorem SameCells.trans {low high : Int} {first second third : Int → V}
    (before : SameCells low high first second)
    (after : SameCells low high second third) :
    SameCells low high first third :=
  fun place above below =>
    (after place above below).trans (before place above below)

theorem SameCells.mono {low high lower higher : Int} {first second : Int → V}
    (same : SameCells lower higher first second) (wider : lower ≤ low)
    (higherTop : high ≤ higher) : SameCells low high first second :=
  fun place above below =>
    same place (Int.le_trans wider above) (Int.lt_of_lt_of_le below higherTop)

/-- Pops give back what was pushed, last first. -/
theorem popAll_of_sameCells (first second : List V) :
    ∀ {count : Nat}, second.length = count →
      other.sp = (pushAll (first ++ second) st).sp →
        SameCells (pushAll (first ++ second) st).sp st.sp
          (pushAll (first ++ second) st).mem other.mem →
          popAll count other =
            (second.reverse, ⟨(pushAll first st).sp, other.mem⟩) := by
  induction second using List.reverseRecOn generalizing other with
  | nil =>
      intro count none here _
      obtain rfl : 0 = count := none
      rw [List.append_nil] at here
      rw [← here]
      rfl
  | append_singleton front value inductionHypothesis =>
      intro count length here same
      obtain ⟨count, rfl⟩ : ∃ less, count = less + 1 := by
        refine ⟨front.length, ?_⟩
        rw [← length, List.length_append, List.length_singleton]
      rw [List.length_append, List.length_singleton,
        Nat.add_right_cancel_iff] at length
      have split : pushAll (first ++ (front ++ [value])) st =
          (pushAll (first ++ front) st).push value := by
        rw [← List.append_assoc, pushAll_append]
        rfl
      rw [split] at here same
      have lower := pushAll_sp st (first ++ front)
      have topmost : other.top = value := by
        unfold top
        rw [here, same _ (Int.le_refl _) (by rw [push_sp]; omega)]
        exact push_top _ value
      have rest := inductionHypothesis other.pop length
        (by rw [push_sp] at here; unfold pop; simp only; omega)
        (by
          intro place above below
          rw [push_sp] at same
          exact (same place (by omega) below).trans (push_mem _ value above))
      rw [popAll, rest, topmost, List.reverse_append]
      rfl

theorem popAll_cell {count : Nat} :
    ∀ {st : Stack V} {i : Nat}, i < count →
      (popAll count st).1[i]? = some (st.mem (st.sp + 8 * i)) := by
  induction count with
  | zero => exact fun inside => absurd inside (Nat.not_lt_zero _)
  | succ count inductionHypothesis =>
      intro st i inside
      cases i with
      | zero => simp [popAll, top]
      | succ i =>
          have later := @inductionHypothesis st.pop i
            (Nat.lt_of_succ_lt_succ inside)
          rw [popAll, List.getElem?_cons_succ, later]
          change some (st.mem (st.sp + 8 + 8 * i)) = _
          congr 2
          push_cast
          omega

/-- The cells from the stack pointer on hold what was pushed, last first. -/
theorem pushAll_cell {i : Nat} (inside : i < values.length) :
    values.reverse[i]? =
      some ((pushAll values st).mem ((pushAll values st).sp + 8 * i)) := by
  have cells := popAll_of_sameCells st (pushAll values st) [] values rfl rfl
    fun _ _ _ => rfl
  rw [← popAll_cell inside, cells]

/-- The cells of the values that were pushed first. -/
theorem SameCells.of_append {first second : List V} {mem : Int → V}
    (same : SameCells (pushAll (first ++ second) st).sp st.sp
      (pushAll (first ++ second) st).mem mem) :
    SameCells (pushAll first st).sp st.sp (pushAll first st).mem mem := by
  rw [pushAll_append] at same
  intro place above below
  have lower := pushAll_sp (pushAll first st) second
  rw [same place (by omega) below]
  exact pushAll_mem (pushAll first st) second above

theorem popAll_mem (count : Nat) :
    ∀ {st : Stack V}, (popAll count st).2.mem = st.mem := by
  induction count with
  | zero => exact rfl
  | succ count inductionHypothesis => exact inductionHypothesis

end Stack
