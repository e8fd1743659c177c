import SbuUnix.Console.Hexadecimal
import SbuUnix.Libc.Printf

/-!
# Decimal numbers

`strtoint` of `sys/kprintf.c` and of `libc/stdio.c`, on an array of any size.
Each level of the recursion looks for the end of what the levels below have
written; the one of `libc` clears the array before.  A negative number is
taken for a digit.
-/

namespace SbuUnix

/-- The numeral of an integer, with a sign before those of negative ones. -/
def intNumeral (num : Int) : List Byte :=
  if num < 0 then
    0x2D :: decimalNumeral num.natAbs
  else
    decimalNumeral num.natAbs

/-- A digit behind the text of an array of `size` bytes. -/
def appendDigitIn (size : Nat) (str : Memory) (digit : Int) :
    Except Fault Memory := do
  let i ← endOfText str size 0
  let str ← storeAt size str i (BitVec.ofInt 8 (digit + 0x30))
  storeAt size str (i + 1) 0

/-- `str[0] = '0'; str[1] = '\0';` -/
def putZero (size : Nat) (str : Memory) : Except Fault Memory := do
  let str ← storeAt size str 0 0x30
  storeAt size str 1 0

/-- `strtoint` of the kernel. -/
def Sys.strtoint (size : Nat) (num : Int) (str : Memory) :
    Except Fault Memory := do
  if 9 < num then
    let str ← Sys.strtoint size (num / 10) str
    appendDigitIn size str (num % 10)
  else if num = 0 then
    putZero size str
  else
    appendDigitIn size str num
termination_by num.toNat

/-- `strtoint` of `libc`. -/
def Libc.strtointIn (size : Nat) (num : Int) (str : Memory) :
    Except Fault Memory := do
  let str ← clearText size str 0
  if 9 < num then
    let str ← Libc.strtointIn size (num / 10) str
    appendDigitIn size str (num % 10)
  else if num = 0 then
    putZero size str
  else
    appendDigitIn size str num
termination_by num.toNat

/-- In `printf` the array has 100 bytes. -/
theorem strtointIn_hundred (num : Int) (str : Memory) :
    Libc.strtointIn 100 num str = Libc.strtoint num str := by
  induction num, str using Libc.strtoint.induct with
  | case1 num str inductionHypothesis =>
      rw [Libc.strtointIn, Libc.strtoint]
      cases clearText 100 str 0 with
      | error fault => rfl
      | ok cleared =>
          show (if 9 < num then _ else if num = 0 then _ else _) =
            if 9 < num then _ else if num = 0 then _ else _
          by_cases large : 9 < num
          · rw [if_pos large, if_pos large, inductionHypothesis cleared large]
            rfl
          · rw [if_neg large, if_neg large]
            rfl

/-! ## The text -/

/-- The text of one character, which is empty for the NUL. -/
def charText (char : Byte) : List Byte :=
  if char = 0 then [] else [char]

theorem charText_digit {digit : Nat} (small : digit ≤ 9) :
    charText (BitVec.ofInt 8 ((digit : Int) + 0x30)) =
      [BitVec.ofNat 8 (digit + 0x30)] := by
  have char : BitVec.ofInt 8 ((digit : Int) + 0x30) =
      BitVec.ofNat 8 (digit + 0x30) := by
    rw [← BitVec.ofInt_natCast]
    rfl
  rw [charText, char, if_neg (digitChar_ne_zero small)]

theorem charText_length (char : Byte) : (charText char).length ≤ 1 := by
  unfold charText
  split
  · exact Nat.zero_le _
  · exact Nat.le_refl _

theorem strtoint_large {num : Int} (large : 9 < num) :
    strtoint num = strtoint (num / 10) ++
      charText (BitVec.ofInt 8 (num % 10 + 0x30)) := by
  obtain ⟨digit, isDigit⟩ : ∃ digit : Nat, num % 10 = digit :=
    ⟨(num % 10).toNat, by omega⟩
  have char := charText_digit (show digit ≤ 9 by omega)
  rw [strtoint, if_pos large, isDigit, char]
  congr 2

theorem strtoint_small {num : Int} (small : ¬ 9 < num) (notZero : num ≠ 0) :
    strtoint num = charText (BitVec.ofInt 8 (num + 0x30)) := by
  rw [strtoint, if_neg small, if_neg notZero]
  rfl

theorem strtoint_zero : strtoint 0 = [0x30] := by
  rw [strtoint]
  rfl

/-! ## The loops -/

section Arrays

variable {size : Nat} {str : Memory} {text : List Byte}

theorem appendDigitIn_eq (digit : Int) (isText : TextAt str 0 text)
    (room : text.length + 1 < size) :
    ∃ after, appendDigitIn size str digit = .ok after ∧
      TextAt after 0 (text ++ charText (BitVec.ofInt 8 (digit + 0x30))) := by
  have found : endOfText str size 0 = .ok (0 + text.length) :=
    endOfText_eq isText (by omega)
  have stored : appendDigitIn size str digit =
      .ok (store (store str (0 + text.length)
        (BitVec.ofInt 8 (digit + 0x30))) (0 + text.length + 1) 0) := by
    rw [appendDigitIn, found]
    show (storeAt size str (0 + text.length) _ >>= _) = _
    rw [storeAt_eq (by omega)]
    exact storeAt_eq (by omega) _ _
  refine ⟨_, stored, ?_⟩
  unfold charText
  split
  · rename_i isNul
    rw [List.append_nil, isNul]
    apply isText.congr
    intro place _ inside
    rw [store_other (by omega)]
    by_cases last : place = 0 + text.length
    · rw [last, store_same, isText.ended]
    · exact store_other last
  · rename_i notNul
    exact isText.append notNul

theorem putZero_eq (empty : TextAt str 0 []) (room : 1 < size) :
    ∃ after, putZero size str = .ok after ∧ TextAt after 0 (strtoint 0) := by
  have notNul : (0x30 : Byte) ≠ 0 := by decide
  rw [strtoint_zero]
  refine ⟨_, ?_, empty.append notNul⟩
  rw [putZero, storeAt_eq (by omega)]
  exact storeAt_eq room _ _

theorem strtoint_large_length {num : Int} (large : 9 < num) :
    (strtoint num).length = (strtoint (num / 10)).length + 1 := by
  obtain ⟨digit, isDigit⟩ : ∃ digit : Nat, num % 10 = digit :=
    ⟨(num % 10).toNat, by omega⟩
  rw [strtoint_large large, isDigit, charText_digit (by omega),
    List.length_append, List.length_singleton]

/-- One level on an empty array, when the levels below leave the digits before
the last one. -/
theorem strtoint_level {num : Int} {below : Except Fault Memory}
    (empty : TextAt str 0 []) (room : 1 < size)
    (fits : (strtoint num).length < size)
    (front : 9 < num → ∃ after, below = .ok after ∧
      TextAt after 0 (strtoint (num / 10))) :
    ∃ after,
      (if 9 < num then do
        let str ← below
        appendDigitIn size str (num % 10)
      else if num = 0 then
        putZero size str
      else
        appendDigitIn size str num) = .ok after ∧
      TextAt after 0 (strtoint num) := by
  by_cases large : 9 < num
  · obtain ⟨digits, recursed, isFront⟩ := front large
    rw [strtoint_large_length large] at fits
    rw [if_pos large, recursed, strtoint_large large]
    exact appendDigitIn_eq (num % 10) isFront fits
  rw [if_neg large]
  by_cases zero : num = 0
  · rw [if_pos zero, zero]
    exact putZero_eq empty room
  · rw [if_neg zero, strtoint_small large zero]
    exact appendDigitIn_eq num empty room

theorem sys_strtoint_eq (num : Int) (empty : TextAt str 0 [])
    (room : 1 < size) (fits : (strtoint num).length < size) :
    ∃ after, Sys.strtoint size num str = .ok after ∧
      TextAt after 0 (strtoint num) := by
  rw [Sys.strtoint]
  apply strtoint_level empty room fits
  intro large
  have shorter := strtoint_large_length large
  exact sys_strtoint_eq (num / 10) empty room (by omega)
termination_by num.toNat

/-- A level of the recursion in `libc` starts on an array that it has
cleared. -/
theorem libc_strtointIn_eq (num : Int) {str : Memory}
    (ended : Ended size str) (room : 1 < size)
    (fits : (strtoint num).length < size) :
    ∃ after, Libc.strtointIn size num str = .ok after ∧
      TextAt after 0 (strtoint num) := by
  obtain ⟨cleared, clears, empty⟩ := clearText_zero ended
  rw [Libc.strtointIn, clears]
  apply strtoint_level empty room fits
  intro large
  have shorter := strtoint_large_length large
  have endedToo : Ended size cleared :=
    empty.ended_array (Nat.zero_lt_of_lt room)
  exact libc_strtointIn_eq (num / 10) endedToo room (by omega)
termination_by num.toNat

end Arrays

/-! ## The numeral -/

theorem decimalNumeral_ne_nil (value : Nat) : decimalNumeral value ≠ [] := by
  unfold decimalNumeral
  split
  · exact List.cons_ne_nil _ _
  · rename_i notZero
    intro empty
    rw [List.reverse_eq_nil_iff, List.map_eq_nil_iff,
      Nat.digits_eq_nil_iff_eq_zero] at empty
    exact notZero empty

/-- The digits of the numeral, as `atoi` reads them. -/
theorem decimalNumeral_eq (value : Nat) :
    decimalNumeral value = digitChars
      (if value = 0 then [0] else (Nat.digits 10 value).reverse) := by
  unfold decimalNumeral digitChars
  split
  · rfl
  · rw [List.map_reverse]
    simp only [Nat.add_comm]

theorem atoi_decimalNumeral {value : Nat} (small : value < 2 ^ 31) :
    atoi (decimalNumeral value) = value := by
  by_cases zero : value = 0
  · rw [zero]
    rfl
  · have read : valueOf 10 (Nat.digits 10 value).reverse = value := by
      rw [valueOf_reverse, Nat.ofDigits_digits]
    have decimal : ∀ digit ∈ (Nat.digits 10 value).reverse, digit < 10 := by
      intro digit member
      exact Nat.digits_lt_base (by decide) (List.mem_reverse.mp member)
    rw [decimalNumeral_eq, if_neg zero, atoi_digitChars decimal (by omega),
      read]

/-- The digits that the recursion appends are those of the numeral. -/
theorem strtoint_natCast (value : Nat) :
    strtoint value = decimalNumeral value := by
  induction value using Nat.strong_induction_on with
  | h value inductionHypothesis =>
      rcases Nat.lt_or_ge 9 value with large | small
      · have front : strtoint ((value : Int) / 10) =
            decimalNumeral (value / 10) :=
          inductionHypothesis (value / 10) (by omega)
        have digit : (value : Int) % 10 = (value % 10 : Nat) := by omega
        rw [strtoint_large (by omega), front, digit,
          charText_digit (by omega), ← decimalNumeral_step large]
      · by_cases zero : value = 0
        · rw [zero]
          exact strtoint_zero
        · rw [strtoint_small (by omega) (by omega), charText_digit small,
            decimalNumeral_digit (by omega) small]

theorem strtoint_negative {num : Int} (negative : num < 0) :
    (strtoint num).length ≤ 1 := by
  rw [strtoint_small (by omega) (by omega)]
  exact charText_length _

/-- The sign and a digit are at least two characters. -/
theorem intNumeral_negative {num : Int} (negative : num < 0) :
    1 < (intNumeral num).length := by
  have digits := List.length_pos_iff.mpr (decimalNumeral_ne_nil num.natAbs)
  rw [intNumeral, if_pos negative, List.length_cons]
  omega

theorem intNumeral_eq_iff (num : Int) :
    strtoint num = intNumeral num ↔ 0 ≤ num := by
  rcases Int.lt_or_le num 0 with negative | notNegative
  · have shown := strtoint_negative negative
    have signed := intNumeral_negative negative
    apply iff_of_false
    · intro same
      rw [same] at shown
      omega
    · omega
  · obtain ⟨value, rfl⟩ := Int.eq_ofNat_of_zero_le notNegative
    apply iff_of_true _ notNegative
    rw [intNumeral, if_neg (by omega)]
    exact strtoint_natCast value

/-- A text is the numeral of an `int`, which `atoi` reads back if there is no
sign. -/
def Renders (num : BitVec 32) (text : List Byte) : Prop :=
  text = intNumeral num.toInt ∧ (0 ≤ num.toInt → atoi text = num.toInt)

theorem renders_strtoint_iff (num : BitVec 32) :
    Renders num (strtoint num.toInt) ↔ 0 ≤ num.toInt := by
  constructor
  · intro renders
    exact (intNumeral_eq_iff num.toInt).mp renders.1
  · intro notNegative
    refine ⟨(intNumeral_eq_iff num.toInt).mpr notNegative, fun _ => ?_⟩
    have bound := num.toInt_lt
    obtain ⟨value, isValue⟩ := Int.eq_ofNat_of_zero_le notNegative
    rw [isValue] at bound ⊢
    rw [strtoint_natCast]
    exact atoi_decimalNumeral (by omega)

/-- Both functions leave the same text, which is the numeral exactly for the
numbers that are not negative. -/
theorem strtoint_renders_iff (num : BitVec 32) {size : Nat}
    {str buffer : Memory} (room : (intNumeral num.toInt).length < size)
    (startsWithNul : str 0 = 0) (ended : Ended size buffer) :
    ∃ text kernelStr libcStr,
      Sys.strtoint size num.toInt str = .ok kernelStr ∧
      TextAt kernelStr 0 text ∧
      Libc.strtointIn size num.toInt buffer = .ok libcStr ∧
      TextAt libcStr 0 text ∧
      (Renders num text ↔ 0 ≤ num.toInt) := by
  have fits : 1 < size ∧ (strtoint num.toInt).length < size := by
    rcases Int.lt_or_le num.toInt 0 with negative | notNegative
    · have shown := strtoint_negative negative
      have signed := intNumeral_negative negative
      omega
    · have same := (intNumeral_eq_iff num.toInt).mpr notNegative
      have digits : 0 < (intNumeral num.toInt).length := by
        rw [intNumeral, if_neg (by omega)]
        exact List.length_pos_iff.mpr (decimalNumeral_ne_nil _)
      rw [same]
      omega
  obtain ⟨kernelStr, kernelReturned, kernelText⟩ :=
    sys_strtoint_eq num.toInt (textAt_nil.mpr startsWithNul) fits.1 fits.2
  obtain ⟨libcStr, libcReturned, libcText⟩ :=
    libc_strtointIn_eq num.toInt ended fits.1 fits.2
  exact ⟨strtoint num.toInt, kernelStr, libcStr, kernelReturned, kernelText,
    libcReturned, libcText, renders_strtoint_iff num⟩

theorem strtoint_renders_hundred :
    ∃ text kernelStr libcStr,
      Sys.strtoint 100 (100 : BitVec 32).toInt (fun _ => 0) = .ok kernelStr ∧
      TextAt kernelStr 0 text ∧
      Libc.strtointIn 100 (100 : BitVec 32).toInt (oneChar 0 0x41) =
        .ok libcStr ∧
      TextAt libcStr 0 text ∧
      (Renders 100 text ↔ 0 ≤ (100 : BitVec 32).toInt) :=
  strtoint_renders_iff 100 (by decide) rfl ⟨1, by decide, rfl⟩

/-- The result of a failed `fork` is printed as a slash. -/
theorem not_renders_minusOne :
    ∃ kernelStr libcStr,
      Sys.strtoint 100 (-1 : BitVec 32).toInt (fun _ => 0) = .ok kernelStr ∧
      TextAt kernelStr 0 [0x2F] ∧
      Libc.strtointIn 100 (-1 : BitVec 32).toInt (fun _ => 0) =
        .ok libcStr ∧
      TextAt libcStr 0 [0x2F] ∧ ¬ Renders (-1) [0x2F] := by
  have shown : strtoint (-1 : BitVec 32).toInt = [0x2F] := by
    rw [strtoint_small (by decide) (by decide)]
    decide
  have kernel : ∃ after,
      Sys.strtoint 100 (-1 : BitVec 32).toInt (fun _ => 0) = .ok after ∧
        TextAt after 0 (strtoint (-1 : BitVec 32).toInt) :=
    sys_strtoint_eq _ (textAt_nil.mpr rfl) (by decide) (by rw [shown]; decide)
  have libc : ∃ after,
      Libc.strtointIn 100 (-1 : BitVec 32).toInt (fun _ => 0) = .ok after ∧
        TextAt after 0 (strtoint (-1 : BitVec 32).toInt) :=
    libc_strtointIn_eq _ ⟨0, by decide, rfl⟩ (by decide) (by rw [shown]; decide)
  rw [shown] at kernel libc
  obtain ⟨kernelStr, kernelReturned, kernelText⟩ := kernel
  obtain ⟨libcStr, libcReturned, libcText⟩ := libc
  refine ⟨kernelStr, libcStr, kernelReturned, kernelText, libcReturned,
    libcText, ?_⟩
  rw [← shown, renders_strtoint_iff]
  decide

end SbuUnix
