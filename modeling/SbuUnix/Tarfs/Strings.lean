import Mathlib.Algebra.Order.Ring.Nat
import Mathlib.Data.List.Induction
import Mathlib.Tactic.Ring
import SbuUnix.Paging.Words

/-!
# Numbers and strings of the C library

`atoi` of `sys/string.c`, `pow` and `octtodec` of `sys/utils.c`.  An `int` is
an integer that every operation reduces to 32 bits.  A C string is the list of
its bytes up to the NUL; `EncodedAt` places a field of bytes in memory.
-/

namespace SbuUnix

/-! ## Integers -/

/-- The `int` with the low 32 bits of a sum or a product. -/
def int32 (value : Int) : Int :=
  value.bmod (2 ^ 32)

def atoi (str : List Byte) : Int :=
  str.foldl (fun val char => int32 (int32 (val * 10) + (char.toInt - 0x30))) 0

def pow (base : Int) : Nat → Int
  | 0 => 1
  | exp + 1 => int32 (base * pow base exp)

/-- The loop of `octtodec`; its value is at least divided by ten in each
pass. -/
def octtodecLoop : Nat → Int → Nat → Int → Int
  | 0, _, _, intVal => intVal
  | fuel + 1, octalVal, powEight, intVal =>
      if 0 < octalVal then
        octtodecLoop fuel (octalVal.tdiv 10) (powEight + 1)
          (int32 (intVal + int32 (octalVal.tmod 10 * pow 8 powEight)))
      else
        intVal

def octtodec (octalVal : Int) : Int :=
  octtodecLoop octalVal.toNat octalVal 0 0

theorem int32_of_small {value : Nat} (small : value < 2 ^ 31) :
    int32 value = value := by
  unfold int32
  rw [Int.bmod_eq_of_le] <;> omega

/-! ## Digits -/

/-- The value of digits, the most significant one first. -/
def valueOf (base : Nat) (digits : List Nat) : Nat :=
  digits.foldl (fun value digit => value * base + digit) 0

theorem valueOf_concat (base : Nat) (digits : List Nat) (digit : Nat) :
    valueOf base (digits ++ [digit]) = valueOf base digits * base + digit := by
  simp [valueOf, List.foldl_append]

/-- A field of decimal digits, as characters. -/
def digitChars (digits : List Nat) : List Byte :=
  digits.map fun digit => BitVec.ofNat 8 (0x30 + digit)

theorem digitChar_toInt {digit : Nat} (small : digit < 10) :
    (BitVec.ofNat 8 (0x30 + digit)).toInt - 0x30 = digit := by
  have value : (BitVec.ofNat 8 (0x30 + digit)).toNat = 0x30 + digit := by
    simp only [BitVec.toNat_ofNat]
    omega
  rw [BitVec.toInt_eq_toNat_of_lt (by omega), value]
  omega

theorem int32_add {first second : Nat} (small : first + second < 2 ^ 31) :
    int32 ((first : Int) + second) = (first + second : Nat) := by
  rw [← Int.natCast_add]
  exact int32_of_small small

theorem int32_mul {first second : Nat} (small : first * second < 2 ^ 31) :
    int32 ((first : Int) * second) = (first * second : Nat) := by
  rw [← Int.natCast_mul]
  exact int32_of_small small

theorem atoi_concat (str : List Byte) (char : Byte) :
    atoi (str ++ [char]) =
      int32 (int32 (atoi str * 10) + (char.toInt - 0x30)) := by
  simp [atoi, List.foldl_append]

/-- Without overflow `atoi` reads a decimal number. -/
theorem atoi_digitChars {digits : List Nat} (decimal : ∀ d ∈ digits, d < 10)
    (small : valueOf 10 digits < 2 ^ 31) :
    atoi (digitChars digits) = valueOf 10 digits := by
  induction digits using List.reverseRecOn with
  | nil => rfl
  | append_singleton digits digit inductionHypothesis =>
      rw [valueOf_concat] at small ⊢
      have before := inductionHypothesis
        (fun d member => decimal d (List.mem_append_left _ member)) (by omega)
      have isDigit : digit < 10 := decimal digit (by simp)
      have chars : digitChars (digits ++ [digit]) =
          digitChars digits ++ [BitVec.ofNat 8 (0x30 + digit)] := by
        simp [digitChars]
      have shifted : int32 ((valueOf 10 digits : Int) * 10) =
          (valueOf 10 digits * 10 : Nat) :=
        int32_mul (show valueOf 10 digits * 10 < 2 ^ 31 from by omega)
      rw [chars, atoi_concat, before, digitChar_toInt isDigit, shifted]
      exact int32_add small

theorem pow_eight : ∀ exp ≤ 9, pow 8 exp = (8 ^ exp : Nat) := by
  decide

/-- One pass of `octtodec` without overflow. -/
theorem octtodecLoop_succ (fuel : Nat) {octalVal powEight intVal : Nat}
    (positive : 0 < octalVal) (early : powEight ≤ 9)
    (small : intVal + octalVal % 10 * 8 ^ powEight < 2 ^ 31) :
    octtodecLoop (fuel + 1) octalVal powEight intVal =
      octtodecLoop fuel (octalVal / 10 : Nat) (powEight + 1)
        (intVal + octalVal % 10 * 8 ^ powEight : Nat) := by
  have product : int32 ((octalVal : Int).tmod 10 * pow 8 powEight) =
      (octalVal % 10 * 8 ^ powEight : Nat) := by
    rw [pow_eight powEight early]
    exact int32_mul (Nat.lt_of_le_of_lt (Nat.le_add_left _ _) small)
  rw [octtodecLoop, if_pos (by exact_mod_cast positive), product,
    int32_add small]
  rfl

theorem octtodecLoop_zero (fuel powEight : Nat) (intVal : Int) :
    octtodecLoop fuel 0 powEight intVal = intVal := by
  cases fuel with
  | zero => rfl
  | succ fuel => simp [octtodecLoop]

/-- Reading the digits in base eight gives no more than in base ten. -/
theorem valueOf_eight_le (digits : List Nat) :
    valueOf 8 digits ≤ valueOf 10 digits := by
  induction digits using List.reverseRecOn with
  | nil => exact Nat.le_refl _
  | append_singleton digits digit inductionHypothesis =>
      rw [valueOf_concat, valueOf_concat]
      omega

/-- The loop takes the digits from the last one on; what it returns in the
end bounds every value on the way. -/
theorem octtodecLoop_eq {digits : List Nat} (decimal : ∀ d ∈ digits, d < 10) :
    ∀ fuel powEight intVal : Nat,
      valueOf 10 digits ≤ fuel →
        valueOf 10 digits * 10 ^ powEight < 10 ^ 10 →
          intVal + valueOf 8 digits * 8 ^ powEight < 2 ^ 31 →
            octtodecLoop fuel (valueOf 10 digits) powEight intVal =
              (intVal + valueOf 8 digits * 8 ^ powEight : Nat) := by
  induction digits using List.reverseRecOn with
  | nil =>
      intro fuel powEight intVal _ _ _
      simpa [valueOf] using octtodecLoop_zero fuel powEight intVal
  | append_singleton digits digit inductionHypothesis =>
      intro fuel powEight intVal enough short small
      have isDigit : digit < 10 := decimal digit (by simp)
      rw [valueOf_concat] at enough short
      rw [valueOf_concat] at small ⊢
      rw [valueOf_concat 8]
      by_cases zero : valueOf 10 digits * 10 + digit = 0
      · have none : valueOf 8 digits * 8 + digit = 0 := by
          have less := valueOf_eight_le digits
          omega
        rw [zero, none, Nat.zero_mul, Nat.add_zero]
        exact octtodecLoop_zero fuel powEight intVal
      · obtain ⟨rest, rfl⟩ : ∃ rest, fuel = rest + 1 :=
          ⟨fuel - 1, by omega⟩
        have early : powEight ≤ 9 := by
          have power : 10 ^ powEight < 10 ^ 10 :=
            Nat.lt_of_le_of_lt
              (Nat.le_mul_of_pos_left _ (Nat.pos_of_ne_zero zero)) short
          have less := (Nat.pow_lt_pow_iff_right (by omega)).mp power
          omega
        have digitIs : (valueOf 10 digits * 10 + digit) % 10 = digit := by
          omega
        have restIs :
            (valueOf 10 digits * 10 + digit) / 10 = valueOf 10 digits := by
          omega
        have total : intVal + digit * 8 ^ powEight +
            valueOf 8 digits * 8 ^ (powEight + 1) =
              intVal + (valueOf 8 digits * 8 + digit) * 8 ^ powEight := by
          ring
        have room : intVal + digit * 8 ^ powEight < 2 ^ 31 := by
          rw [← total] at small
          exact Nat.lt_of_le_of_lt (Nat.le_add_right _ _) small
        have pass := octtodecLoop_succ rest (Nat.pos_of_ne_zero zero) early
          (show intVal + (valueOf 10 digits * 10 + digit) % 10 *
            8 ^ powEight < 2 ^ 31 by rw [digitIs]; exact room)
        rw [pass, digitIs, restIs, inductionHypothesis
          (fun d member => decimal d (List.mem_append_left _ member)) rest
          (powEight + 1) _ (by omega) ?_ (by rw [total]; exact small), total]
        refine Nat.lt_of_le_of_lt ?_ short
        rw [Nat.pow_succ, Nat.mul_comm (10 ^ powEight), ← Nat.mul_assoc]
        exact Nat.mul_le_mul_right _ (Nat.le_add_right _ _)

/-- `octtodec` of a field of octal digits that was read as a decimal
number. -/
theorem octtodec_valueOf {digits : List Nat} (octal : ∀ d ∈ digits, d < 8)
    (small : valueOf 10 digits < 2 ^ 31) :
    octtodec (valueOf 10 digits) = valueOf 8 digits := by
  have less := valueOf_eight_le digits
  have decimal : ∀ d ∈ digits, d < 10 :=
    fun d member => Nat.lt_trans (octal d member) (by decide)
  have sum := octtodecLoop_eq decimal (valueOf 10 digits) 0 0 (Nat.le_refl _)
    (by rw [Nat.pow_zero, Nat.mul_one]; omega)
    (by rw [Nat.pow_zero, Nat.mul_one]; omega)
  simpa [octtodec] using sum

/-! ## Strings in memory -/

/-- The bytes of a field stand in memory from an address on. -/
def EncodedAt (bytes : Word → Byte) : Word → List Byte → Prop
  | _, [] => True
  | addr, char :: rest => bytes addr = char ∧ EncodedAt bytes (addr + 1) rest

instance EncodedAt.decidable (bytes : Word → Byte) :
    ∀ (addr : Word) (field : List Byte), Decidable (EncodedAt bytes addr field)
  | _, [] => isTrue trivial
  | addr, char :: rest =>
      @instDecidableAnd _ _ (decEq (bytes addr) char)
        (EncodedAt.decidable bytes (addr + 1) rest)

/-- The C string at an address, when it ends within `fuel` bytes. -/
def cString (bytes : Word → Byte) : Nat → Word → Option (List Byte)
  | 0, _ => none
  | fuel + 1, addr =>
      if bytes addr = 0 then
        some []
      else
        (cString bytes fuel (addr + 1)).map fun rest => bytes addr :: rest

section Memory

variable {bytes : Word → Byte} {addr : Word}

theorem addr_add_succ (addr : Word) (count : Nat) :
    addr + BitVec.ofNat 64 (count + 1) = addr + 1 + BitVec.ofNat 64 count := by
  apply BitVec.eq_of_toNat_eq
  simp only [BitVec.ofNat_eq_ofNat, BitVec.toNat_add, BitVec.toNat_ofNat]
  omega

theorem encodedAt_iff {field : List Byte} :
    EncodedAt bytes addr field ↔ ∀ index < field.length,
      bytes (addr + BitVec.ofNat 64 index) = field.getD index 0 := by
  induction field generalizing addr with
  | nil => simp [EncodedAt]
  | cons char rest inductionHypothesis =>
      rw [EncodedAt, inductionHypothesis, List.length_cons]
      constructor
      · rintro ⟨first, later⟩ index below
        cases index with
        | zero =>
            rw [show addr + BitVec.ofNat 64 0 = addr from BitVec.add_zero addr]
            exact first
        | succ index =>
            rw [addr_add_succ]
            exact later index (by omega)
      · intro holds
        refine ⟨?_, fun index below => ?_⟩
        · have first := holds 0 (by omega)
          rwa [show addr + BitVec.ofNat 64 0 = addr from BitVec.add_zero addr]
            at first
        · have later := holds (index + 1) (by omega)
          rwa [addr_add_succ] at later

theorem encodedAt_append {first second : List Byte} :
    EncodedAt bytes addr (first ++ second) ↔
      EncodedAt bytes addr first ∧
        EncodedAt bytes (addr + BitVec.ofNat 64 first.length) second := by
  induction first generalizing addr with
  | nil => simp [EncodedAt]
  | cons char rest inductionHypothesis =>
      simp only [List.cons_append, EncodedAt, inductionHypothesis,
        List.length_cons, addr_add_succ, and_assoc]

theorem cString_of_encodedAt {str rest : List Byte} (noNul : 0 ∉ str) :
    ∀ (fuel : Nat) (addr : Word), str.length < fuel →
      EncodedAt bytes addr (str ++ 0 :: rest) →
        cString bytes fuel addr = some str := by
  induction str with
  | nil =>
      intro fuel addr enough encoded
      obtain ⟨fuel, rfl⟩ : ∃ more, fuel = more + 1 := ⟨fuel - 1, by omega⟩
      exact if_pos encoded.1
  | cons char str inductionHypothesis =>
      intro fuel addr enough encoded
      obtain ⟨fuel, rfl⟩ : ∃ more, fuel = more + 1 := ⟨fuel - 1, by omega⟩
      have notNul : bytes addr ≠ 0 := by
        rw [encoded.1]
        exact fun same => noNul (same ▸ List.mem_cons_self ..)
      have later := inductionHypothesis
        (fun member => noNul (List.mem_cons_of_mem _ member)) fuel (addr + 1)
        (by simpa using enough) encoded.2
      rw [cString, if_neg notNul, later, encoded.1]
      rfl

end Memory

/-- A memory that holds a list of bytes from an address on, and NULs behind
it. -/
def listBytes (start : Word) (field : List Byte) (addr : Word) : Byte :=
  field.getD (addr - start).toNat 0

/-- What stands in a list stands in its memory. -/
theorem encodedAt_listBytes (start : Word) (whole : List Byte) :
    ∀ (part : List Byte) (offset : Nat), offset + part.length ≤ 2 ^ 64 →
      (∀ index < part.length,
        whole.getD (offset + index) 0 = part.getD index 0) →
        EncodedAt (listBytes start whole) (start + BitVec.ofNat 64 offset)
          part := by
  intro part offset fits same
  apply encodedAt_iff.mpr
  intro index below
  have distance : (start + BitVec.ofNat 64 offset + BitVec.ofNat 64 index -
      start).toNat = offset + index := by
    simp only [BitVec.toNat_sub, BitVec.toNat_add, BitVec.toNat_ofNat]
    omega
  unfold listBytes
  rw [distance]
  exact same index below

end SbuUnix
