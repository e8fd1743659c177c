import Mathlib.Data.List.Basic
import Mathlib.Tactic.Common
import SbuUnix.Paging.Words

/-!
# Fields of bytes

Where a list of bytes stands in an array, and what storing one changes.
-/

namespace SbuUnix

/-- The bytes of a field stand in an array from an index on. -/
def HoldsAt (array : Nat → Byte) (index : Nat) (field : List Byte) : Prop :=
  ∀ offset < field.length, array (index + offset) = field.getD offset 0

def putField (array : Nat → Byte) (index : Nat) (field : List Byte) :
    Nat → Byte :=
  fun other =>
    if index ≤ other ∧ other < index + field.length then
      field.getD (other - index) 0
    else
      array other

section Arrays

variable {array : Nat → Byte} {index : Nat} {field : List Byte}

theorem holdsAt_nil : HoldsAt array index [] :=
  fun offset below => absurd below (Nat.not_lt_zero offset)

theorem holdsAt_cons {char : Byte} {rest : List Byte} :
    HoldsAt array index (char :: rest) ↔
      array index = char ∧ HoldsAt array (index + 1) rest := by
  constructor
  · intro holds
    refine ⟨holds 0 (Nat.succ_pos _), fun offset below => ?_⟩
    have here := holds (offset + 1) (by simpa using below)
    rwa [← Nat.add_assoc, Nat.add_right_comm] at here
  · rintro ⟨first, later⟩ offset below
    cases offset with
    | zero => exact first
    | succ offset =>
        have here := later offset (by simpa using below)
        rwa [Nat.add_right_comm, Nat.add_assoc] at here

theorem holdsAt_append {first second : List Byte} :
    HoldsAt array index (first ++ second) ↔
      HoldsAt array index first ∧
        HoldsAt array (index + first.length) second := by
  induction first generalizing index with
  | nil => simp [holdsAt_nil]
  | cons char first inductionHypothesis =>
      rw [List.cons_append, holdsAt_cons, holdsAt_cons, inductionHypothesis,
        and_assoc, List.length_cons, Nat.add_right_comm, Nat.add_assoc]

theorem holdsAt_putField (array : Nat → Byte) (index : Nat)
    (field : List Byte) : HoldsAt (putField array index field) index field := by
  intro offset below
  unfold putField
  rw [if_pos ⟨Nat.le_add_right _ _, by omega⟩, Nat.add_sub_cancel_left]

theorem putField_below {other : Nat} (below : other < index) :
    putField array index field other = array other := by
  unfold putField
  rw [if_neg (by omega)]

theorem holdsAt_putField_append {rest : List Byte} :
    HoldsAt (putField array index (field ++ rest)) index field :=
  (holdsAt_append.mp (holdsAt_putField array index (field ++ rest))).1

theorem putField_nil (array : Nat → Byte) (index : Nat) :
    putField array index [] = array := by
  funext other
  unfold putField
  rw [List.length_nil, if_neg (by omega)]

theorem putField_cons (array : Nat → Byte) (index : Nat) (char : Byte)
    (rest : List Byte) :
    putField (fun other => if other = index then char else array other)
        (index + 1) rest =
      putField array index (char :: rest) := by
  funext other
  unfold putField
  dsimp only
  rw [List.length_cons]
  by_cases here : other = index
  · rw [if_neg (by omega), if_pos here, if_pos (by omega), here, Nat.sub_self]
    rfl
  · by_cases within : index + 1 ≤ other ∧ other < index + 1 + rest.length
    · rw [if_pos within, if_pos (by omega)]
      obtain ⟨offset, distance⟩ : ∃ offset, other - index = offset + 1 :=
        ⟨other - index - 1, by omega⟩
      rw [distance, show other - (index + 1) = offset by omega]
      rfl
    · rw [if_neg within, if_neg here, if_neg (by omega)]

theorem putField_append (array : Nat → Byte) (first second : List Byte) :
    ∀ index, putField array index (first ++ second) =
      putField (putField array index first) (index + first.length)
        second := by
  induction first generalizing array with
  | nil =>
      intro index
      rw [putField_nil]
      rfl
  | cons char rest inductionHypothesis =>
      intro index
      rw [List.cons_append, ← putField_cons, inductionHypothesis,
        putField_cons, List.length_cons, Nat.add_assoc, Nat.add_comm 1]

/-- What is written behind a field leaves it as it is. -/
theorem HoldsAt.congr {other : Nat → Byte} (holds : HoldsAt array index field)
    (same : ∀ place < index + field.length, other place = array place) :
    HoldsAt other index field := by
  intro offset below
  rw [same (index + offset) (by omega)]
  exact holds offset below

/-- A list with zeros behind it. -/
theorem holdsAt_getD (field : List Byte) (count : Nat) :
    HoldsAt (fun index => field.getD index 0) 0
      (field ++ List.replicate count 0) := by
  intro offset below
  rw [List.length_append, List.length_replicate] at below
  rw [Nat.zero_add]
  by_cases inside : offset < field.length
  · rw [List.getD_append _ _ _ _ inside]
  · have padding : offset - field.length < count := by omega
    rw [List.getD_append_right _ _ _ _ (Nat.not_lt.mp inside),
      List.getD_replicate _ padding]
    exact List.getD_eq_default _ _ (Nat.not_lt.mp inside)

end Arrays

end SbuUnix
