import Mathlib.Data.Nat.Digits.Defs
import Mathlib.Tactic.IntervalCases
import SbuUnix.Console.Screen
import SbuUnix.Libc.Strings
import SbuUnix.Process.Environment

/-!
# `printf`

`printf` and `strtoint` of `libc/stdio.c`.  The text is put together in the
array `result`, which system call 1 gets.  The case `'c'` moves the format
pointer, and the code behind the `switch` moves it again.
-/

namespace SbuUnix

/-- The array `result` with `count`, and the local array `str`. -/
structure PrintBuffer where
  result : Memory
  count : Nat
  str : Memory

/-- `result[count++] = byte` -/
def PrintBuffer.put (buffer : PrintBuffer) (byte : Byte) :
    Except Fault PrintBuffer := do
  let result ← storeAt 1000 buffer.result buffer.count byte
  pure
    { buffer with
      result
      count := buffer.count + 1 }

/-- `while (array[i] != '\0') array[i++] = '\0';` with `room` bytes from `i`
to the end of the array. -/
def clearText : Nat → Memory → Nat → Except Fault Memory
  | 0, _, _ => throw .outOfBounds
  | room + 1, array, i =>
      if array i ≠ 0 then
        clearText room (store array i 0) (i + 1)
      else
        pure array

/-- `while (str[i] != '\0') i++;` -/
def endOfText (array : Memory) : Nat → Nat → Except Fault Nat
  | 0, _ => throw .outOfBounds
  | room + 1, i =>
      if array i ≠ 0 then endOfText array room (i + 1) else pure i

/-- A digit behind the text of `str`. -/
def appendDigit (str : Memory) (digit : Int) : Except Fault Memory := do
  let i ← endOfText str 100 0
  let str ← storeAt 100 str i (BitVec.ofInt 8 (digit + 0x30))
  storeAt 100 str (i + 1) 0

namespace Libc

/-- `strtoint`, which clears the array again in every call. -/
def strtoint (num : Int) (str : Memory) : Except Fault Memory := do
  let str ← clearText 100 str 0
  if 9 < num then
    let str ← strtoint (num / 10) str
    appendDigit str (num % 10)
  else if num = 0 then
    pure (store (store str 0 0x30) 1 0)
  else
    appendDigit str num
termination_by num.toNat

end Libc

/-- The loops that copy a string to `result`; `stop` is what happens where no
NUL comes. -/
def printText (stop : Fault) (text : Nat → Byte) :
    Nat → Nat → PrintBuffer → Except Fault PrintBuffer
  | 0, _, _ => throw stop
  | fuel + 1, i, buffer =>
      if text i ≠ 0 then do
        let buffer ← buffer.put (text i)
        printText stop text fuel (i + 1) buffer
      else
        pure buffer

/-- The loop over `str`. -/
def printStr (buffer : PrintBuffer) : Except Fault PrintBuffer :=
  printText .outOfBounds buffer.str 100 0 buffer

/-- The `switch`: the number of the next argument, and by how much the case
itself moves the format pointer.  The hexadecimal conversions store their
digits through a null pointer. -/
def printfConversion (fuel : Nat) (conversion : Byte) (args : Nat → PrintArg)
    (n : Nat) (buffer : PrintBuffer) :
    Except Fault (Nat × Nat × PrintBuffer) :=
  if conversion = 0x63 then do
    let buffer ← buffer.put ((args n).value.setWidth 8)
    pure (n + 1, 1, buffer)
  else if conversion = 0x70 then
    if (args n).value = 0 then do
      let str := putField buffer.str 0 [0x30, 0x78, 0x30, 0]
      let buffer ← printStr { buffer with str }
      pure (n + 1, 0, buffer)
    else
      throw .nullPointer
  else if conversion = 0x64 then do
    let str ← clearText 100 buffer.str 0
    let str ← Libc.strtoint ((args n).value.setWidth 32).toInt str
    let buffer ← printStr { buffer with str }
    pure (n + 1, 0, buffer)
  else if conversion = 0x73 then do
    let buffer ← printText .outOfFuel (args n).text fuel 0 buffer
    pure (n + 1, 0, buffer)
  else if conversion = 0x78 then
    if (args n).value.setWidth 32 = (0 : BitVec 32) then do
      let buffer ← printStr { buffer with str := store buffer.str 0 0 }
      pure (n + 1, 0, buffer)
    else
      throw .nullPointer
  else
    pure (n, 0, buffer)

/-- The loops of `printf` from byte `i` of the format and argument `n` on. -/
def printfFrom (string : Nat → Byte) (args : Nat → PrintArg) :
    Nat → Nat → Nat → PrintBuffer → Except Fault PrintBuffer
  | 0, _, _, _ => throw .outOfFuel
  | fuel + 1, i, n, buffer =>
      if string i ≠ 0 then
        if string i ≠ 0x25 then do
          let buffer ← buffer.put (string i)
          printfFrom string args fuel (i + 1) n buffer
        else do
          let (n, moved, buffer) ←
            printfConversion fuel (string (i + 1)) args n buffer
          printfFrom string args fuel (i + moved + 2) n buffer
      else
        pure buffer

/-- `printf` with what stood in its arrays; returns what system call 1
gets. -/
def printf (fuel : Nat) (string : Nat → Byte) (args : Nat → PrintArg)
    (result str : Memory) : Except Fault Memory := do
  let result ← clearText 1000 result 0
  let buffer ← printfFrom string args fuel 0 0 { result, count := 0, str }
  storeAt 1000 buffer.result buffer.count 0

/-- The indices at which the loops read the format. -/
def printfReads (string : Nat → Byte) : Nat → Nat → List Nat
  | 0, _ => []
  | fuel + 1, i =>
      if string i ≠ 0 then
        if string i ≠ 0x25 then
          i :: printfReads string fuel (i + 1)
        else
          let moved := if string (i + 1) = 0x63 then 1 else 0
          i :: (i + 1) :: printfReads string fuel (i + moved + 2)
      else
        [i]

/-! ## Arrays -/

/-- A NUL ends an array of a size somewhere. -/
def Ended (size : Nat) (array : Memory) : Prop :=
  ∃ i < size, array i = 0

theorem storeAt_eq {size index : Nat} (inside : index < size) (array : Memory)
    (byte : Byte) :
    storeAt size array index byte = .ok (store array index byte) :=
  if_pos inside

theorem ended_of_clearText :
    ∀ {room i : Nat} {array after : Memory},
      clearText room array i = .ok after →
        ∃ j, i ≤ j ∧ j < i + room ∧ array j = 0 := by
  intro room
  induction room with
  | zero =>
      intro i array after returned
      cases returned
  | succ room inductionHypothesis =>
      intro i array after returned
      rw [clearText] at returned
      split at returned
      · obtain ⟨j, behind, inside, nul⟩ := inductionHypothesis returned
        rw [store_other (by omega)] at nul
        exact ⟨j, by omega, by omega, nul⟩
      · rename_i nul
        exact ⟨i, Nat.le_refl _, by omega, not_not.mp nul⟩

theorem clearText_eq :
    ∀ {room i : Nat} {array : Memory},
      (∃ j, i ≤ j ∧ j < i + room ∧ array j = 0) →
        ∃ after, clearText room array i = .ok after ∧ after i = 0 ∧
          ∀ j < i, after j = array j := by
  intro room
  induction room with
  | zero =>
      rintro i array ⟨j, behind, inside, -⟩
      omega
  | succ room inductionHypothesis =>
      rintro i array ⟨j, behind, inside, nul⟩
      rw [clearText]
      by_cases here : array i = 0
      · rw [if_neg (not_not.mpr here)]
        exact ⟨array, rfl, here, fun _ _ => rfl⟩
      · have later : i ≠ j := by
          rintro rfl
          exact here nul
        obtain ⟨after, returned, -, kept⟩ := inductionHypothesis
          (show ∃ k, i + 1 ≤ k ∧ k < i + 1 + room ∧ store array i 0 k = 0 from
            ⟨j, by omega, by omega, by rw [store_other (by omega), nul]⟩)
        rw [if_pos here, returned]
        refine ⟨after, rfl, ?_, fun k below => ?_⟩
        · rw [kept i (by omega), store_same]
        · rw [kept k (by omega), store_other (by omega)]

/-- An array that is ended is cleared up to its first NUL. -/
theorem clearText_zero {size : Nat} {array : Memory}
    (ended : Ended size array) :
    ∃ after, clearText size array 0 = .ok after ∧ TextAt after 0 [] := by
  obtain ⟨j, inside, nul⟩ := ended
  obtain ⟨after, returned, cleared, -⟩ := clearText_eq
    (show ∃ k, 0 ≤ k ∧ k < 0 + size ∧ array k = 0 from
      ⟨j, Nat.zero_le _, by omega, nul⟩)
  exact ⟨after, returned, textAt_nil.mpr cleared⟩

theorem endOfText_eq {array : Memory} :
    ∀ {text : List Byte} {room i : Nat}, TextAt array i text →
      text.length < room → endOfText array room i = .ok (i + text.length) := by
  intro text
  induction text with
  | nil =>
      intro room i isText enough
      obtain ⟨room, rfl⟩ := Nat.exists_eq_add_of_lt enough
      rw [endOfText, if_neg (not_not.mpr (textAt_nil.mp isText))]
      rfl
  | cons char rest inductionHypothesis =>
      intro room i isText enough
      obtain ⟨room, rfl⟩ : ∃ less, room = less + 1 := ⟨room - 1, by omega⟩
      obtain ⟨notNul, first, later⟩ := textAt_cons.mp isText
      rw [List.length_cons] at enough
      rw [endOfText, first, if_pos notNul, inductionHypothesis later (by omega),
        List.length_cons]
      congr 1
      omega

/-! ## Decimal numbers -/

/-- The numeral of a number, without leading zeros. -/
def decimalNumeral (value : Nat) : List Byte :=
  if value = 0 then
    [0x30]
  else
    ((Nat.digits 10 value).map fun digit =>
      BitVec.ofNat 8 (digit + 0x30)).reverse

theorem decimalNumeral_digit {digit : Nat} (positive : 0 < digit)
    (small : digit ≤ 9) :
    decimalNumeral digit = [BitVec.ofNat 8 (digit + 0x30)] := by
  rw [decimalNumeral, if_neg (by omega), Nat.digits_of_lt _ _ (by omega)
    (by omega)]
  rfl

theorem decimalNumeral_step {value : Nat} (large : 9 < value) :
    decimalNumeral value = decimalNumeral (value / 10) ++
      [BitVec.ofNat 8 (value % 10 + 0x30)] := by
  rw [decimalNumeral, decimalNumeral, if_neg (by omega), if_neg (by omega),
    Nat.digits_def' (by decide) (by omega), List.map_cons, List.reverse_cons]

theorem digitChar_ne_zero {digit : Nat} (small : digit ≤ 9) :
    BitVec.ofNat 8 (digit + 0x30) ≠ 0 := by
  interval_cases digit <;> decide

theorem TextAt.append {mem : Memory} {addr : Nat} {text : List Byte}
    {char : Byte} (isText : TextAt mem addr text) (notNul : char ≠ 0) :
    TextAt (store (store mem (addr + text.length) char)
      (addr + text.length + 1) 0) addr (text ++ [char]) := by
  refine ⟨?_, ?_⟩
  · rw [List.append_assoc, holdsAt_append]
    refine ⟨fun offset below => ?_, holdsAt_cons.mpr ⟨?_,
      holdsAt_cons.mpr ⟨store_same .., holdsAt_nil⟩⟩⟩
    · rw [store_other (by omega), store_other (by omega)]
      exact (holdsAt_append.mp isText.chars).1 offset below
    · rw [store_other (by omega), store_same]
  · rw [List.mem_append, List.mem_singleton, not_or]
    exact ⟨isText.noNul, Ne.symm notNul⟩

theorem appendDigit_eq {str : Memory} {text : List Byte} {digit : Nat}
    (isText : TextAt str 0 text) (short : text.length < 98)
    (small : digit ≤ 9) :
    ∃ after, appendDigit str digit = .ok after ∧
      TextAt after 0 (text ++ [BitVec.ofNat 8 (digit + 0x30)]) := by
  have found : endOfText str 100 0 = .ok (0 + text.length) :=
    endOfText_eq isText (by omega)
  have char : BitVec.ofInt 8 ((digit : Int) + 0x30) =
      BitVec.ofNat 8 (digit + 0x30) := by
    rw [← BitVec.ofInt_natCast]
    rfl
  refine ⟨_, ?_, isText.append (digitChar_ne_zero small)⟩
  rw [appendDigit, found]
  show (storeAt 100 str (0 + text.length) _ >>= _) = _
  rw [storeAt_eq (by omega), char]
  show storeAt 100 _ (0 + text.length + 1) 0 = _
  rw [storeAt_eq (by omega)]

theorem TextAt.ended_array {array : Memory} {text : List Byte} {size : Nat}
    (isText : TextAt array 0 text) (inside : text.length < size) :
    Ended size array :=
  ⟨text.length, inside, by simpa using isText.ended⟩

theorem strtoint_digit {value : Nat} {str : Memory} (small : value ≤ 9)
    (ended : Ended 100 str) :
    ∃ after, Libc.strtoint value str = .ok after ∧
      TextAt after 0 (decimalNumeral value) := by
  obtain ⟨cleared, returned, empty⟩ := clearText_zero ended
  rw [Libc.strtoint, returned]
  show ∃ after, (if (9 : Int) < value then _ else
    if (value : Int) = 0 then _ else _) = Except.ok after ∧ _
  rw [if_neg (by omega)]
  by_cases zero : value = 0
  · subst zero
    refine ⟨_, rfl, ?_⟩
    exact empty.append (by decide)
  · rw [if_neg (by omega), decimalNumeral_digit (by omega) small]
    exact appendDigit_eq empty (by decide) small

/-- `strtoint` writes the numeral into any array that is ended. -/
theorem strtoint_eq :
    ∀ {width value : Nat} {str : Memory}, value < 10 ^ (width + 1) →
      width < 90 → Ended 100 str →
        ∃ after, Libc.strtoint value str = .ok after ∧
          TextAt after 0 (decimalNumeral value) ∧
            (decimalNumeral value).length ≤ width + 1 := by
  intro width
  induction width with
  | zero =>
      intro value str small _ ended
      obtain ⟨after, returned, isText⟩ :=
        strtoint_digit (show value ≤ 9 by omega) ended
      refine ⟨after, returned, isText, ?_⟩
      by_cases zero : value = 0
      · rw [zero]
        decide
      · rw [decimalNumeral_digit (by omega) (by omega), List.length_singleton]
  | succ width inductionHypothesis =>
      intro value str small short ended
      rw [Nat.pow_succ] at small
      by_cases digit : value ≤ 9
      · obtain ⟨after, returned, isText⟩ := strtoint_digit digit ended
        refine ⟨after, returned, isText, ?_⟩
        by_cases zero : value = 0
        · rw [zero]
          exact Nat.succ_le_succ (Nat.zero_le _)
        · rw [decimalNumeral_digit (by omega) digit, List.length_singleton]
          omega
      · obtain ⟨cleared, clears, empty⟩ := clearText_zero ended
        obtain ⟨front, recursed, frontText, frontLength⟩ :=
          inductionHypothesis (show value / 10 < 10 ^ (width + 1) by omega)
            (by omega) (empty.ended_array (show [].length < 100 by decide))
        obtain ⟨after, appended, isText⟩ := appendDigit_eq frontText
          (by omega) (show value % 10 ≤ 9 by omega)
        rw [← decimalNumeral_step (by omega)] at isText
        refine ⟨after, ?_, isText, ?_⟩
        · rw [Libc.strtoint, clears]
          show (if (9 : Int) < value then _ else
            if (value : Int) = 0 then _ else _) = _
          rw [if_pos (by omega)]
          show (Libc.strtoint ((value / 10 : Nat) : Int) cleared >>= _) = _
          rw [recursed]
          exact appended
        · rw [decimalNumeral_step (by omega), List.length_append,
            List.length_singleton]
          omega

end SbuUnix
