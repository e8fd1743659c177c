import SbuUnix.Tarfs.Strings

/-!
# The size field

A header holds the size of a file as eleven octal digits.  `atoi` reads them
as a decimal number in an `int`, and `octtodec` takes this apart again.
-/

namespace SbuUnix

/-! ## Digits of a fixed width -/

/-- The last `width` digits of a number, the most significant one first. -/
def digitsOf (base : Nat) : Nat → Nat → List Nat
  | 0, _ => []
  | width + 1, value => digitsOf base width (value / base) ++ [value % base]

theorem digitsOf_lt {base : Nat} (positive : 0 < base) :
    ∀ {width value : Nat}, ∀ d ∈ digitsOf base width value, d < base := by
  intro width
  induction width with
  | zero =>
      intro value d member
      cases member
  | succ width inductionHypothesis =>
      intro value d member
      rcases List.mem_append.mp member with before | last
      · exact inductionHypothesis d before
      · rw [List.mem_singleton.mp last]
        exact Nat.mod_lt _ positive

theorem valueOf_digitsOf (base : Nat) :
    ∀ {width value : Nat}, value < base ^ width →
      valueOf base (digitsOf base width value) = value := by
  intro width
  induction width with
  | zero =>
      intro value small
      have zero : value = 0 := by simpa using small
      rw [zero]
      rfl
  | succ width inductionHypothesis =>
      intro value small
      rw [digitsOf, valueOf_concat,
        inductionHypothesis (Nat.div_lt_of_lt_mul (by
          rwa [Nat.mul_comm, ← Nat.pow_succ]))]
      exact Nat.div_add_mod' value base

/-- The octal digits of a number, read as decimal ones. -/
def decimalReading (width value : Nat) : Nat :=
  valueOf 10 (digitsOf 8 width value)

theorem decimalReading_succ (width value : Nat) :
    decimalReading (width + 1) value =
      decimalReading width (value / 8) * 10 + value % 8 :=
  valueOf_concat ..

/-- The reading grows with the number. -/
theorem decimalReading_lt :
    ∀ {width fewer more : Nat}, fewer < more → more < 8 ^ width →
      decimalReading width fewer < decimalReading width more := by
  intro width
  induction width with
  | zero =>
      intro fewer more less small
      simp at small
      omega
  | succ width inductionHypothesis =>
      intro fewer more less small
      rw [decimalReading_succ, decimalReading_succ]
      rcases Nat.lt_or_ge (fewer / 8) (more / 8) with below | equal
      · have fits : more / 8 < 8 ^ width :=
          Nat.div_lt_of_lt_mul (by rwa [Nat.mul_comm, ← Nat.pow_succ])
        have before := inductionHypothesis below fits
        omega
      · have same : fewer / 8 = more / 8 := by omega
        rw [same]
        omega

/-! ## `atoi` and `octtodec` beyond an `int` -/

/-- `atoi` keeps the low 32 bits of the number that it reads. -/
theorem atoi_digitChars_int32 {digits : List Nat}
    (decimal : ∀ d ∈ digits, d < 10) :
    atoi (digitChars digits) = int32 (valueOf 10 digits) := by
  induction digits using List.reverseRecOn with
  | nil => rfl
  | append_singleton digits digit inductionHypothesis =>
      have before := inductionHypothesis
        fun d member => decimal d (List.mem_append_left _ member)
      have isDigit : digit < 10 := decimal digit (by simp)
      have chars : digitChars (digits ++ [digit]) =
          digitChars digits ++ [BitVec.ofNat 8 (0x30 + digit)] := by
        simp [digitChars]
      rw [chars, atoi_concat, before, digitChar_toInt isDigit, valueOf_concat]
      simp only [int32, Int.bmod_mul_bmod, Int.bmod_add_bmod]
      push_cast
      rfl

/-- With a first digit of at most 2, the digits stay below 3 * 8 ^ width in
base eight. -/
theorem valueOf_eight_digitsOf_ten :
    ∀ {width value : Nat}, value < 3 * 10 ^ width →
      7 * valueOf 8 (digitsOf 10 (width + 1) value) + 9 ≤ 23 * 8 ^ width := by
  intro width
  induction width with
  | zero =>
      intro value small
      rw [digitsOf, valueOf_concat]
      simp [digitsOf, valueOf] at small ⊢
      omega
  | succ width inductionHypothesis =>
      intro value small
      have fewer : value / 10 < 3 * 10 ^ width := by
        rw [Nat.pow_succ] at small
        omega
      have before := inductionHypothesis fewer
      rw [digitsOf, valueOf_concat, Nat.pow_succ]
      omega

/-- What `octtodec` makes of any `int`. -/
theorem octtodec_small {value : Nat} (small : value < 2 ^ 31) :
    ∃ result : Nat, octtodec value = result ∧ result < 2 ^ 29 := by
  have whole : valueOf 10 (digitsOf 10 10 value) = value :=
    valueOf_digitsOf 10 (by omega)
  have decimal : ∀ d ∈ digitsOf 10 10 value, d < 10 :=
    digitsOf_lt (by decide)
  have less : 7 * valueOf 8 (digitsOf 10 10 value) + 9 ≤ 23 * 8 ^ 9 :=
    valueOf_eight_digitsOf_ten (by omega)
  have sum := octtodecLoop_eq decimal value 0 0 (by omega) (by omega)
    (by omega)
  rw [whole] at sum
  exact ⟨_, sum, by omega⟩

/-! ## The field -/

/-- The text of the size field for a file of `size` bytes. -/
def sizeText (size : Nat) : List Byte :=
  digitChars (digitsOf 8 11 size)

theorem atoi_sizeText (size : Nat) :
    atoi (sizeText size) = int32 (decimalReading 11 size) :=
  atoi_digitChars_int32 fun d member =>
    Nat.lt_trans (digitsOf_lt (by decide) d member) (by decide)

/-- The sizes whose digits fit an `int` as a decimal number. -/
theorem decimalReading_fits_iff {size : Nat} (field : size < 8 ^ 11) :
    decimalReading 11 size < 2 ^ 31 ↔ size < 295600128 := by
  have last : decimalReading 11 295600127 = 2147477777 := by decide
  have next : decimalReading 11 295600128 = 2147500000 := by decide
  constructor
  · intro fits
    by_contra large
    rcases Nat.eq_or_lt_of_le (Nat.not_lt.mp large) with same | beyond
    · rw [← same, next] at fits
      omega
    · have grows := decimalReading_lt beyond field
      omega
  · intro small
    rcases Nat.eq_or_lt_of_le (Nat.le_of_lt_succ small) with same | below
    · rw [same, last]
      decide
    · have grows : decimalReading 11 size < decimalReading 11 295600127 :=
        decimalReading_lt below (by decide)
      omega

theorem octtodec_of_nonpos {value : Int} (nonpos : value ≤ 0) :
    octtodec value = 0 := by
  rw [octtodec, Int.toNat_of_nonpos nonpos]
  rfl

/-- A size is decoded exactly when its eleven octal digits, read as a decimal
number, fit an `int`: up to 02147477777. -/
theorem octtodec_sizeText_iff {size : Nat} (field : size < 8 ^ 11) :
    octtodec (atoi (sizeText size)) = size ↔ size < 295600128 := by
  rw [← decimalReading_fits_iff field, atoi_sizeText]
  constructor
  · intro decoded
    by_contra large
    have notZero : size ≠ 0 := by
      rintro rfl
      exact large (by decide)
    have word := Int.bmod_def (decimalReading 11 size : Int) (2 ^ 32)
    rw [← int32] at word
    rcases Int.lt_or_le 0 (int32 (decimalReading 11 size)) with
      positive | nonpos
    · -- The low 32 bits decode to less than 2 ^ 29, but a reading that wraps
      -- to a positive value belongs to a larger size.
      have wrapped : 2 ^ 32 ≤ decimalReading 11 size := by
        split at word <;> omega
      have bounded : 2 ^ 29 ≤ size := by
        by_contra less
        have low : decimalReading 11 (2 ^ 29) = 4000000000 := by decide
        have grows : decimalReading 11 size < decimalReading 11 (2 ^ 29) :=
          decimalReading_lt (Nat.not_le.mp less) (by decide)
        omega
      obtain ⟨value, isValue⟩ := Int.eq_ofNat_of_zero_le
        (Int.le_of_lt positive)
      have small : value < 2 ^ 31 := by
        split at word <;> omega
      obtain ⟨result, isResult, below⟩ := octtodec_small small
      rw [isValue, isResult] at decoded
      omega
    · rw [octtodec_of_nonpos nonpos] at decoded
      omega
  · intro fits
    rw [int32_of_small fits, decimalReading,
      octtodec_valueOf (digitsOf_lt (by decide)) fits, valueOf_digitsOf 8 field]

theorem octtodec_sizeText_largest :
    295600127 < 8 ^ 11 ∧
      (octtodec (atoi (sizeText 295600127)) = 295600127 ↔
        295600127 < 295600128) :=
  ⟨by decide, octtodec_sizeText_iff (by decide)⟩

/-- The size 02147500000 is read as a negative number, which decodes
to 0. -/
theorem not_octtodec_sizeText :
    295600128 < 8 ^ 11 ∧ octtodec (atoi (sizeText 295600128)) ≠ 295600128 := by
  have negative : atoi (sizeText 295600128) ≤ 0 := by
    rw [atoi_sizeText]
    decide +kernel
  rw [octtodec_of_nonpos negative]
  decide

end SbuUnix
