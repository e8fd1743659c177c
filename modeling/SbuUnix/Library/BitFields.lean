import Mathlib.Algebra.Order.Group.Nat
import Mathlib.Data.Nat.ModEq
import Mathlib.Tactic.Common

/-!
# Packed bit fields

Fields of given widths, the first one in the lowest bits.  A slice that starts
where a field starts and ends where one ends holds the fields in between.
-/

namespace BitFields

/-- The bits of a number from `start` on. -/
def slice (start width n : Nat) : Nat :=
  n / 2 ^ start % 2 ^ width

/-- Fields as pairs of a width and a value. -/
def pack : List (Nat × Nat) → Nat
  | [] => 0
  | (width, value) :: rest => value % 2 ^ width + 2 ^ width * pack rest

def widthOf (fields : List (Nat × Nat)) : Nat :=
  (fields.map Prod.fst).sum

theorem pack_lt (fields : List (Nat × Nat)) :
    pack fields < 2 ^ widthOf fields := by
  induction fields with
  | nil => exact Nat.one_pos
  | cons field rest inductionHypothesis =>
      have low := Nat.mod_lt field.2 (Nat.two_pow_pos field.1)
      have next : pack rest + 1 ≤ 2 ^ widthOf rest := inductionHypothesis
      have scaled := Nat.mul_le_mul_left (2 ^ field.1) next
      rw [show widthOf (field :: rest) = field.1 + widthOf rest from rfl,
        Nat.pow_add, pack]
      rw [Nat.mul_add, Nat.mul_one] at scaled
      omega

theorem pack_append (first second : List (Nat × Nat)) :
    pack (first ++ second) =
      pack first + 2 ^ widthOf first * pack second := by
  induction first with
  | nil => simp [pack, widthOf]
  | cons field rest inductionHypothesis =>
      rw [List.cons_append, pack, inductionHypothesis, pack,
        show widthOf (field :: rest) = field.1 + widthOf rest from rfl,
        Nat.pow_add, Nat.mul_add, Nat.mul_assoc, Nat.add_assoc]

/-- The fields between two borders. -/
theorem slice_pack (before middle after : List (Nat × Nat)) :
    slice (widthOf before) (widthOf middle)
      (pack (before ++ (middle ++ after))) = pack middle := by
  have low := pack_lt before
  have inner := pack_lt middle
  unfold slice
  rw [pack_append, pack_append,
    Nat.add_mul_div_left _ _ (Nat.two_pow_pos (widthOf before)),
    Nat.div_eq_of_lt low, Nat.zero_add, Nat.add_mul_mod_self_left,
    Nat.mod_eq_of_lt inner]

/-- Slices next to each other. -/
theorem slice_add (start first second n : Nat) :
    slice start (first + second) n =
      slice start first n + 2 ^ first * slice (start + first) second n := by
  unfold slice
  rw [Nat.pow_add 2 start first, ← Nat.div_div_eq_div_mul, Nat.pow_add,
    Nat.mod_mul]

/-- A slice of a slice. -/
theorem slice_slice {start width inner length n : Nat}
    (inside : inner + length ≤ width) :
    slice inner length (slice start width n) =
      slice (start + inner) length n := by
  obtain ⟨rest, rfl⟩ := Nat.exists_eq_add_of_le inside
  unfold slice
  rw [Nat.add_assoc, Nat.pow_add, Nat.mod_mul_right_div_self,
    Nat.div_div_eq_div_mul, ← Nat.pow_add,
    Nat.mod_mod_of_dvd _ (Nat.pow_dvd_pow 2 (Nat.le_add_right length rest))]

end BitFields
