import Mathlib.Data.Nat.Digits.Defs
import SbuUnix.Console.Screen
import SbuUnix.Tarfs.Strings

/-!
# Hexadecimal numbers on the screen

`convertHex2String` and `convertPointerAddress2String` of `sys/kprintf.c` are
the same loop with two types for the quotient.  What they print is compared
with the numeral of a number in base 16.
-/

namespace SbuUnix

/-! ## Numerals -/

/-- `0123456789ABCDEF` -/
def hexAlphabet : List Byte :=
  [0x30, 0x31, 0x32, 0x33, 0x34, 0x35, 0x36, 0x37, 0x38, 0x39, 0x41, 0x42,
    0x43, 0x44, 0x45, 0x46]

/-- The numeral of a number, without leading zeros. -/
def hexNumeral (value : Nat) : List Byte :=
  if value = 0 then
    [0x30]
  else
    ((Nat.digits 16 value).map fun digit => hexAlphabet.getD digit 0).reverse

/-- The number that a numeral denotes. -/
def readHex (numeral : List Byte) : Nat :=
  valueOf 16 (numeral.map hexAlphabet.idxOf)

theorem idxOf_hexAlphabet :
    ∀ digit < 16, hexAlphabet.idxOf (hexAlphabet.getD digit 0) = digit := by
  decide

theorem valueOf_reverse (base : Nat) (digits : List Nat) :
    valueOf base digits.reverse = Nat.ofDigits base digits := by
  induction digits with
  | nil => rfl
  | cons digit rest inductionHypothesis =>
      rw [List.reverse_cons, valueOf_concat, inductionHypothesis,
        Nat.ofDigits_cons, Nat.mul_comm, Nat.add_comm]

theorem readHex_hexNumeral (value : Nat) :
    readHex (hexNumeral value) = value := by
  by_cases zero : value = 0
  · rw [zero]
    decide
  · have digitsKept : ((Nat.digits 16 value).map fun digit =>
        hexAlphabet.idxOf (hexAlphabet.getD digit 0)) =
          Nat.digits 16 value := by
      conv_rhs => rw [← List.map_id (Nat.digits 16 value)]
      apply List.map_congr_left
      intro digit member
      exact idxOf_hexAlphabet digit (Nat.digits_lt_base (by decide) member)
    rw [readHex, hexNumeral, if_neg zero, List.map_reverse, List.map_map,
      valueOf_reverse]
    exact (congrArg (Nat.ofDigits 16) digitsKept).trans
      (Nat.ofDigits_digits 16 value)

/-! ## The loop -/

theorem hexDigit_eq {rem : Word} (small : rem.toNat < 16) :
    hexDigit rem = hexAlphabet.getD rem.toNat 0 := by
  have each : ∀ digit < 16, hexDigit (BitVec.ofNat 64 digit) =
      hexAlphabet.getD digit 0 := by
    decide
  have here := each rem.toNat small
  rwa [BitVec.ofNat_toNat, BitVec.setWidth_eq] at here

/-- As long as the quotient keeps its value the loop prints the digits. -/
theorem hexDigits_eq {cut : Word → Word} :
    ∀ {room : Nat} {n : Word}, n.toNat < 16 ^ room →
      (∀ div : Word, div.toNat ≤ n.toNat / 16 → cut div = div) →
        hexDigits cut room n = .ok ((Nat.digits 16 n.toNat).map
          fun digit => hexAlphabet.getD digit 0).reverse := by
  intro room
  induction room with
  | zero =>
      intro n small _
      have zero : n = 0 := BitVec.eq_of_toNat_eq (by simpa using small)
      subst zero
      rfl
  | succ room inductionHypothesis =>
      intro n small keeps
      by_cases zero : n = 0
      · subst zero
        rfl
      · have positive : 0 < n.toNat := by
          rw [Nat.pos_iff_ne_zero]
          exact fun none => zero (BitVec.eq_of_toNat_eq none)
        have div : (n / 16).toNat = n.toNat / 16 := BitVec.toNat_udiv
        have rem : (n % 16).toNat = n.toNat % 16 := BitVec.toNat_umod
        have fewer : (n / 16).toNat < 16 ^ room := by
          rw [div, Nat.div_lt_iff_lt_mul (by decide), ← Nat.pow_succ]
          exact small
        have rest := inductionHypothesis fewer
          fun other below => keeps other (by omega)
        rw [hexDigits, if_neg zero, keeps _ (Nat.le_of_eq div), rest,
          Nat.digits_def' (by decide) positive, List.map_cons,
          List.reverse_cons, hexDigit_eq (by omega), rem, div]
        rfl

/-! ## The quotient in an `int` -/

/-- The quotient as `convertHex2String` keeps it. -/
def intQuotient (div : Word) : Word :=
  (div.setWidth 32).signExtend 64

theorem intQuotient_of_small {div : Word} (small : div.toNat < 2 ^ 31) :
    intQuotient div = div := by
  apply BitVec.eq_of_toInt_eq
  unfold intQuotient
  rw [BitVec.toInt_signExtend_of_le (by decide),
    BitVec.toInt_eq_toNat_of_lt (by rw [BitVec.toNat_setWidth]; omega),
    BitVec.toInt_eq_toNat_of_lt (by omega), BitVec.toNat_setWidth]
  omega

/-- A negative number stays negative, so that the loop fills any array. -/
theorem hexDigits_overruns :
    ∀ {room : Nat} {n : Word}, 2 ^ 64 - 2 ^ 31 ≤ n.toNat →
      hexDigits intQuotient room n = .error .outOfBounds := by
  intro room
  induction room with
  | zero =>
      intro n large
      rw [hexDigits, if_neg]
      · rfl
      · rintro rfl
        simp at large
  | succ room inductionHypothesis =>
      intro n large
      have notZero : n ≠ 0 := by
        rintro rfl
        simp at large
      have next : 2 ^ 64 - 2 ^ 31 ≤ (intQuotient (n / 16)).toNat := by
        have div : (n / 16).toNat = n.toNat / 16 := BitVec.toNat_udiv
        have below := n.isLt
        unfold intQuotient
        rw [BitVec.toNat_signExtend, BitVec.msb_eq_decide]
        simp only [BitVec.toNat_setWidth, div]
        rw [if_pos (by simp only [decide_eq_true_eq]; omega)]
        omega
      rw [hexDigits, if_neg notZero, inductionHypothesis next]
      rfl

/-- Both functions print the numeral of their argument, and the numeral
denotes it. -/
structure RendersHex (int : BitVec 32) (n : Word) : Prop where
  hex : convertHex2String (int.signExtend 64) =
    .ok (hexNumeral (int.signExtend 64).toNat)
  pointer : convertPointerAddress2String n =
    .ok (0x30 :: 0x78 :: hexNumeral n.toNat)
  readBack : readHex (hexNumeral n.toNat) = n.toNat

theorem convertPointerAddress2String_eq (n : Word) :
    convertPointerAddress2String n =
      .ok (0x30 :: 0x78 :: hexNumeral n.toNat) := by
  have fits : n.toNat < 16 ^ 100 :=
    Nat.lt_of_lt_of_le n.isLt (by decide)
  have digits := hexDigits_eq fits
    (show ∀ div : Word, div.toNat ≤ n.toNat / 16 → id div = div from
      fun _ _ => rfl)
  rw [convertPointerAddress2String, digits]
  by_cases zero : n.toNat = 0
  · rw [zero]
    rfl
  · have notEmpty : ((Nat.digits 16 n.toNat).map
        fun digit => hexAlphabet.getD digit 0).reverse ≠ [] := by
      simpa [Nat.digits_eq_nil_iff_eq_zero] using zero
    rw [hexNumeral, if_neg zero]
    show Except.ok (0x30 :: 0x78 :: if _ = [] then [0x30] else _) = _
    rw [if_neg notEmpty]

theorem convertHex2String_eq_iff (int : BitVec 32) :
    convertHex2String (int.signExtend 64) =
      .ok (hexNumeral (int.signExtend 64).toNat) ↔ 0 < int.toInt := by
  have same : convertHex2String (int.signExtend 64) =
      hexDigits intQuotient 100 (int.signExtend 64) := rfl
  have value : (int.signExtend 64).toInt = int.toInt :=
    BitVec.toInt_signExtend_of_le (by decide)
  have above := int.toInt_lt
  have below := int.le_toInt
  have cases64 := BitVec.toInt_eq_toNat_cond (int.signExtend 64)
  rw [value] at cases64
  rw [same]
  rcases Int.lt_trichotomy int.toInt 0 with negative | zero | positive
  · have large : 2 ^ 64 - 2 ^ 31 ≤ (int.signExtend 64).toNat := by
      split at cases64 <;> omega
    rw [hexDigits_overruns large]
    simp only [reduceCtorEq, false_iff]
    omega
  · have isZero : int = 0 := BitVec.eq_of_toInt_eq zero
    subst isZero
    decide
  · have small : (int.signExtend 64).toNat < 2 ^ 31 := by
      split at cases64 <;> omega
    have digits := hexDigits_eq
      (show (int.signExtend 64).toNat < 16 ^ 100 from
        Nat.lt_trans small (by decide))
      (show ∀ div : Word, div.toNat ≤ (int.signExtend 64).toNat / 16 →
        intQuotient div = div from
          fun div below => intQuotient_of_small (by omega))
    have notZero : (int.signExtend 64).toNat ≠ 0 := by
      split at cases64 <;> omega
    rw [digits, hexNumeral, if_neg notZero]
    exact iff_of_true rfl positive

/-- The `int` renderer is right exactly for the positive ones; the other one
always is. -/
theorem rendersHex_iff (int : BitVec 32) (n : Word) :
    RendersHex int n ↔ 0 < int.toInt := by
  constructor
  · exact fun renders => (convertHex2String_eq_iff int).mp renders.hex
  · intro positive
    exact ⟨(convertHex2String_eq_iff int).mpr positive,
      convertPointerAddress2String_eq n, readHex_hexNumeral n.toNat⟩

/-- Nothing is printed for 0, and the digits of -1 fill the array. -/
theorem not_rendersHex : ¬ RendersHex 0 0 ∧ ¬ RendersHex (-1) 0 := by
  constructor
  · intro renders
    exact absurd ((convertHex2String_eq_iff 0).mp renders.hex) (by decide)
  · intro renders
    exact absurd ((convertHex2String_eq_iff (-1)).mp renders.hex) (by decide)

end SbuUnix
