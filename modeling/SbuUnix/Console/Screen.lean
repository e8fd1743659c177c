import SbuUnix.Paging.Machine

/-!
# The screen

`sys/kprintf.c`: text goes to the video memory as pairs of a character and a
colour, 80 cells a row.  A row is left when the next character arrives, and
the rows move up when the cursor comes to row 23.

A C string is the memory from its first byte on.
-/

namespace SbuUnix

/-- The globals of `sys/kprintf.c`.  `written` is not in the source: the
indices that were written through `video`. -/
structure Terminal where
  video : Nat → Byte
  xPos : Nat := 0
  yPos : Nat := 0
  globalX : Nat := 0
  control : Bool := false
  shift : Bool := false
  written : List Nat := []

/-- `int colour = 7` -/
def colour : Byte := 7

namespace Terminal

/-- `video[index] = byte` -/
def put (t : Terminal) (index : Nat) (byte : Byte) : Terminal :=
  { t with
    video := fun other => if other = index then byte else t.video other
    written := index :: t.written }

/-- The two stores for a character, with `x_pos++` in each index. -/
def putCell (t : Terminal) (row : Nat) (char colour : Byte) : Terminal :=
  let first := { t.put (t.xPos + row * 160) char with xPos := t.xPos + 1 }
  { first.put (first.xPos + row * 160) colour with xPos := first.xPos + 1 }

/-- `memcpyy(video + source, video + target, n)`, which copies half of the
`n` bytes. -/
def memcpyy (t : Terminal) (source target n : Nat) : Terminal :=
  (List.range (n / 2)).foldl
    (fun t i => t.put (target + i) (t.video (source + i))) t

/-- `update_screen` -/
def updateScreen (t : Terminal) : Terminal :=
  (List.range 23).foldl
    (fun t y => t.memcpyy ((y + 1) * 160) (y * 160) 320) t

/-- `if (y_pos == 23) { update_screen(); y_pos--; }` -/
def scroll (t : Terminal) : Terminal :=
  if t.yPos = 23 then
    { t.updateScreen with yPos := t.updateScreen.yPos - 1 }
  else
    t

/-- `if (x_pos == 160) { x_pos = 0; y_pos++; }` -/
def wrap (t : Terminal) : Terminal :=
  if t.xPos = 160 then
    { t with
      xPos := 0
      yPos := t.yPos + 1 }
  else
    t

/-- The code for `'\n'`. -/
def newline (t : Terminal) : Terminal :=
  scroll
    { t with
      xPos := 0
      yPos := t.yPos + 1 }

/-- The code for a character of the text, of a string or of a number. -/
def putChar (t : Terminal) (char : Byte) : Terminal :=
  let t := t.wrap.scroll
  t.putCell t.yPos char colour

/-- The code for a character outside of a conversion. -/
def putText (t : Terminal) (char : Byte) : Terminal :=
  if char = 0x0A then
    t.newline
  else if char = 0x0D then
    { t with xPos := 0 }
  else
    t.putChar char

/-- The case `'c'`, which looks at the row only after a full one. -/
def putArgument (t : Terminal) (char : Byte) : Terminal :=
  let t := if t.xPos = 160 then t.wrap.scroll else t
  if char ≠ 0x0A then
    t.putCell t.yPos char colour
  else
    t.newline

end Terminal

/-! ## Numbers -/

/-- `strtoint`; a negative number gives one character, and none where that
is the NUL. -/
def strtoint (num : Int) : List Byte :=
  if 9 < num then
    strtoint (num / 10) ++ [BitVec.ofInt 8 (num % 10 + 0x30)]
  else if num = 0 then
    [0x30]
  else if BitVec.ofInt 8 (num + 0x30) = 0 then
    []
  else
    [BitVec.ofInt 8 (num + 0x30)]
termination_by num.toNat

def hexDigit (rem : Word) : Byte :=
  if rem.toNat ≤ 9 then
    BitVec.ofNat 8 (rem.toNat + 0x30)
  else
    BitVec.ofNat 8 (rem.toNat - 10 + 0x41)

/-- The loop of both conversions, which fills an array of 100 bytes from the
last digit on; `cut` is the type that holds the quotient. -/
def hexDigits (cut : Word → Word) : Nat → Word → Except Fault (List Byte)
  | 0, n => if n = 0 then pure [] else throw .outOfBounds
  | room + 1, n =>
      if n = 0 then
        pure []
      else do
        let digits ← hexDigits cut room (cut (n / 16))
        pure (digits ++ [hexDigit (n % 16)])

/-- `convertHex2String`, with its quotient in an `int`. -/
def convertHex2String (n : Word) : Except Fault (List Byte) :=
  hexDigits (fun div => (div.setWidth 32).signExtend 64) 100 n

/-- `convertPointerAddress2String` -/
def convertPointerAddress2String (n : Word) : Except Fault (List Byte) := do
  let digits ← hexDigits id 100 n
  pure (0x30 :: 0x78 :: if digits = [] then [0x30] else digits)

/-! ## `kprintf` -/

/-- An argument behind the format: the 64 bits that are passed, and the memory
they point to when they are the address of a string. -/
structure PrintArg where
  value : Word
  text : Nat → Byte

/-- The loop of the case `'s'`.  Behind a `'\n'` it prints the next byte
without a look at it. -/
def printString : Nat → (Nat → Byte) → Nat → Terminal →
    Except Fault Terminal
  | 0, _, _, _ => throw .outOfFuel
  | fuel + 1, text, i, t =>
      if text i ≠ 0 then
        if text i = 0x0A then
          printString fuel text (i + 2) (t.newline.putChar (text (i + 1)))
        else
          printString fuel text (i + 1) (t.putChar (text i))
      else
        pure t

/-- The loop over the characters of a number. -/
def printNumber (digits : List Byte) (t : Terminal) : Terminal :=
  digits.foldl Terminal.putChar t

/-- The `switch`; returns the number of the next argument. -/
def printConversion (fuel : Nat) (conversion : Byte) (args : Nat → PrintArg)
    (n : Nat) (t : Terminal) : Except Fault (Nat × Terminal) :=
  if conversion = 0x63 then
    pure (n + 1, t.putArgument ((args n).value.setWidth 8))
  else if conversion = 0x73 then do
    let t ← printString fuel (args n).text 0 t
    pure (n + 1, t)
  else if conversion = 0x64 then
    pure (n + 1,
      printNumber (strtoint ((args n).value.setWidth 32).toInt) t)
  else if conversion = 0x78 then do
    let digits ←
      convertHex2String (((args n).value.setWidth 32).signExtend 64)
    pure (n + 1, printNumber digits t)
  else if conversion = 0x70 then do
    let digits ← convertPointerAddress2String (args n).value
    pure (n + 1, printNumber digits t)
  else
    pure (n, t)

/-- `kprintf` from byte `i` of the format and argument `n` on. -/
def kprintfFrom : Nat → (Nat → Byte) → (Nat → PrintArg) → Nat → Nat →
    Terminal → Except Fault Terminal
  | 0, _, _, _, _, _ => throw .outOfFuel
  | fuel + 1, string, args, i, n, t =>
      if string i ≠ 0 then
        if string i ≠ 0x25 then
          kprintfFrom fuel string args (i + 1) n (t.putText (string i))
        else do
          let (n, t) ← printConversion fuel (string (i + 1)) args n t
          kprintfFrom fuel string args (i + 2) n t
      else
        pure t

def kprintf (fuel : Nat) (string : Nat → Byte) (args : Nat → PrintArg)
    (t : Terminal) : Except Fault Terminal :=
  kprintfFrom fuel string args 0 0 t

/-- A call of `kprintf`. -/
structure PrintCall where
  fuel : Nat
  string : Nat → Byte
  args : Nat → PrintArg

def PrintCall.run (call : PrintCall) :
    StateT Terminal (Except Fault) Unit := fun t => do
  let t ← kprintf call.fuel call.string call.args t
  pure ((), t)

/-! ## `kprintf_kb` -/

/-- `kprintf_kb`, without the `sys_exit` of character 31. -/
def kprintfKb (ch : Byte) (t : Terminal) : Terminal :=
  let t := t.scroll.wrap
  if ch = 0x0A then
    t.newline
  else if t.control then
    if ch = 0x68 ∧ t.globalX + 2 ≤ t.xPos then
      let blank :=
        { t with xPos := t.xPos - 2 }.putCell t.yPos 0x20 (colour + 1)
      { blank with xPos := blank.xPos - 2 }
    else
      t
  else if t.shift then
    if ch = 16 then
      t.putCell 24 0x22 colour
    else
      t.putCell t.yPos ch colour
  else if ch = 30 then
    (t.putCell 24 0x5E colour).putCell 24 0x43 colour
  else if ch = 31 then
    (t.putCell 24 0x5E colour).putCell 24 0x5A colour
  else
    t.putCell t.yPos ch colour

/-! ## What the operations do -/

namespace Terminal

variable (t : Terminal) (row index : Nat) (char byte : Byte)

@[simp]
theorem put_video (other : Nat) :
    (t.put index byte).video other =
      if other = index then byte else t.video other :=
  rfl

@[simp]
theorem put_xPos : (t.put index byte).xPos = t.xPos :=
  rfl

@[simp]
theorem put_yPos : (t.put index byte).yPos = t.yPos :=
  rfl

@[simp]
theorem put_written : (t.put index byte).written = index :: t.written :=
  rfl

@[simp]
theorem putCell_xPos (colour : Byte) :
    (t.putCell row char colour).xPos = t.xPos + 2 :=
  rfl

@[simp]
theorem putCell_yPos (colour : Byte) :
    (t.putCell row char colour).yPos = t.yPos :=
  rfl

theorem putCell_written (colour : Byte) :
    (t.putCell row char colour).written =
      (t.xPos + 1 + row * 160) :: (t.xPos + row * 160) :: t.written :=
  rfl

theorem putCell_video (colour : Byte) (other : Nat) :
    (t.putCell row char colour).video other =
      if other = t.xPos + 1 + row * 160 then
        colour
      else if other = t.xPos + row * 160 then
        char
      else
        t.video other :=
  rfl

/-- What a loop over `put` leaves as it was. -/
theorem foldl_keeps {β γ : Type} (read : Terminal → γ)
    {pass : Terminal → β → Terminal}
    (keeps : ∀ t item, read (pass t item) = read t) (items : List β) :
    ∀ t, read (items.foldl pass t) = read t := by
  induction items with
  | nil => exact fun _ => rfl
  | cons item rest inductionHypothesis =>
      intro t
      rw [List.foldl_cons, inductionHypothesis, keeps]

theorem updateScreen_keeps {γ : Type} (read : Terminal → γ)
    (keeps : ∀ t index byte, read (put t index byte) = read t) :
    read t.updateScreen = read t := by
  unfold updateScreen
  apply foldl_keeps read
  intro t y
  unfold memcpyy
  apply foldl_keeps read
  intro t i
  exact keeps t _ _

@[simp]
theorem updateScreen_xPos : t.updateScreen.xPos = t.xPos :=
  updateScreen_keeps t xPos fun _ _ _ => rfl

@[simp]
theorem updateScreen_yPos : t.updateScreen.yPos = t.yPos :=
  updateScreen_keeps t yPos fun _ _ _ => rfl

/-- The row below goes to the row that starts at `target`: no byte is read
behind its own store. -/
theorem memcpyy_video (target n other : Nat) (apart : n / 2 ≤ 160) :
    (t.memcpyy (target + 160) target n).video other =
      if target ≤ other ∧ other < target + n / 2 then
        t.video (other + 160)
      else
        t.video other := by
  unfold memcpyy
  generalize n / 2 = count at apart ⊢
  induction count generalizing other with
  | zero => simp
  | succ count inductionHypothesis =>
      have source := inductionHypothesis (target + 160 + count) (by omega)
      have here := inductionHypothesis other (by omega)
      rw [if_neg (by omega)] at source
      simp only [List.range_succ, List.foldl_append, List.foldl_cons,
        List.foldl_nil, put_video, source, here]
      by_cases last : other = target + count
      · rw [if_pos last, if_pos (by omega), last]
        congr 1
        omega
      · rw [if_neg last]
        simp only [show (other < target + (count + 1)) =
          (other < target + count ∨ other = target + count) by
            simp only [eq_iff_iff]; omega, last, or_false]

/-- All rows but the last one move up by one. -/
theorem updateScreen_video (other : Nat) :
    t.updateScreen.video other =
      if other < 23 * 160 then t.video (other + 160) else t.video other := by
  have moved : ∀ rows other,
      ((List.range rows).foldl
        (fun t y => t.memcpyy ((y + 1) * 160) (y * 160) 320) t).video other =
        if other < rows * 160 then
          t.video (other + 160)
        else
          t.video other := by
    intro rows
    induction rows with
    | zero => simp
    | succ rows inductionHypothesis =>
        intro other
        rw [List.range_succ, List.foldl_append, List.foldl_cons,
          List.foldl_nil, Nat.succ_mul, memcpyy_video _ _ _ _ (by decide)]
        simp only [inductionHypothesis]
        by_cases above : other < rows * 160
        · rw [if_neg (by omega), if_pos above, if_pos (by omega)]
        · by_cases inside : other < rows * 160 + 160
          · rw [if_pos (by omega), if_neg (by omega), if_pos inside]
          · rw [if_neg (by omega), if_neg above, if_neg inside]
  exact moved 23 other

/-- The stores of `update_screen` stay in the first 23 rows. -/
theorem updateScreen_written {index : Nat}
    (stored : index ∈ t.updateScreen.written) :
    index ∈ t.written ∨ index < 23 * 160 := by
  have copied : ∀ source target count (t : Terminal),
      index ∈ ((List.range count).foldl
        (fun t i => t.put (target + i) (t.video (source + i))) t).written →
        index ∈ t.written ∨ index < target + count := by
    intro source target count t
    induction count with
    | zero => exact Or.inl
    | succ count inductionHypothesis =>
        simp only [List.range_succ, List.foldl_append, List.foldl_cons,
          List.foldl_nil, put_written, List.mem_cons]
        rintro (same | before)
        · omega
        · exact (inductionHypothesis before).imp_right (by omega)
  have rows : ∀ rows,
      index ∈ ((List.range rows).foldl
        (fun t y => t.memcpyy ((y + 1) * 160) (y * 160) 320) t).written →
        index ∈ t.written ∨ index < rows * 160 := by
    intro rows
    induction rows with
    | zero => exact Or.inl
    | succ rows inductionHypothesis =>
        rw [List.range_succ, List.foldl_append, List.foldl_cons,
          List.foldl_nil]
        intro stored
        rcases copied _ _ _ _ stored with before | small
        · exact (inductionHypothesis before).imp_right (by omega)
        · exact Or.inr (by omega)
  exact rows 23 stored

end Terminal

/-- A text without conversions is printed as it stands. -/
theorem kprintfFrom_text {string : Nat → Byte} {args : Nat → PrintArg} :
    ∀ {rest : List Byte} {fuel i n : Nat} {t : Terminal},
      rest.length < fuel → (∀ char ∈ rest, char ≠ 0 ∧ char ≠ 0x25) →
        (∀ k (inside : k < rest.length), string (i + k) = rest[k]) →
          string (i + rest.length) = 0 →
            kprintfFrom fuel string args i n t =
              .ok (rest.foldl Terminal.putText t) := by
  intro rest
  induction rest with
  | nil =>
      intro fuel i n t enough _ _ nul
      obtain ⟨fuel, rfl⟩ := Nat.exists_eq_add_of_lt enough
      rw [kprintfFrom, if_neg (by simpa using nul)]
      rfl
  | cons char rest inductionHypothesis =>
      intro fuel i n t enough plain bytes nul
      obtain ⟨fuel, rfl⟩ : ∃ less, fuel = less + 1 :=
        ⟨fuel - 1, by simp only [List.length_cons] at enough; omega⟩
      have isChar : string i = char := bytes 0 (by simp)
      have isPlain := plain char (List.mem_cons_self ..)
      rw [kprintfFrom, isChar, if_pos isPlain.1, if_pos isPlain.2]
      apply inductionHypothesis
      · simp only [List.length_cons] at enough
        omega
      · exact fun other member =>
          plain other (List.mem_cons_of_mem _ member)
      · intro k inside
        rw [Nat.add_assoc, Nat.add_comm 1 k]
        exact bytes (k + 1) (by simp only [List.length_cons]; omega)
      · rw [Nat.add_assoc, Nat.add_comm 1]
        exact nul

end SbuUnix
