import SbuUnix.Libc.Strings
import SbuUnix.Shell.Dispatch

/-!
# Scripts

`executeSbang` of `libc/unistd.c` copies the bytes of a script, takes the copy
apart at its newlines and hands one line after the other to
`checkingForBinary`.
-/

namespace SbuUnix

/-! ## The functions -/

/-- `while (test(*temp)) temp++;` -/
def scanWhile (test : Byte → Bool) (mem : Memory) :
    Nat → Nat → Except Fault Nat
  | 0, _ => throw .outOfFuel
  | fuel + 1, temp =>
      if test (mem temp) then scanWhile test mem fuel (temp + 1)
      else pure temp

/-- The string that is handed over with its address. -/
def readText (mem : Memory) : Nat → Nat → Except Fault (List Byte)
  | 0, _ => throw .outOfFuel
  | fuel + 1, addr =>
      if mem addr ≠ 0 then do
        let rest ← readText mem fuel (addr + 1)
        pure (mem addr :: rest)
      else
        pure []

namespace Libc

/-- `removespace`, in memory. -/
def removespace (fuel : Nat) (mem : Memory) (str : Nat) :
    Except Fault Memory := do
  let temp ← scanWhile (fun char => char ≠ 0 && char ≠ 0x20) mem fuel str
  if mem temp = 0x20 then
    let temp := temp + 1
    let ch ← scanWhile (fun char => char ≠ 0 && char = 0x20) mem fuel temp
    if mem ch ≠ 0 then strcpy fuel mem temp ch else pure mem
  else
    pure mem

/-- What `checkingForBinary` returns, and what it leaves in the memory of the
shell: its arrays `str` and `temp` are filled, and `s` is squeezed.  The
program is started in the memory of a child. -/
def checkingForBinary (cwd : List Byte) (fuel : Nat) (mem : Memory)
    (s str temp : Nat) : Except Fault (Word × Memory) := do
  let mem := store (store mem str 0) temp 0
  let mem ← strcpy fuel mem str s
  let mem ← removespace fuel mem s
  let line ← readText mem fuel str
  match scriptCommand line with
  | some .cat | some .ls =>
      pure (0, endText (putField mem temp cwd) (temp + cwd.length))
  | _ => pure (0, mem)

end Libc

/-- The arrays of `executeSbang`, and those of `checkingForBinary`. -/
structure SbangArrays where
  temp3 : Nat
  temp4 : Nat
  str : Nat
  temp : Nat

/-- What a script leaves: the memory, the strings that `checkingForBinary`
was called with, the texts that were printed, and the addresses that were read
through `str` and in the copy at `temp3`. -/
structure ScriptEnd where
  mem : Memory
  commands : List (List Byte) := []
  printed : List (List Byte) := []
  lookedStr : List Nat := []
  lookedTemp3 : List Nat := []

/-- What comes before the end of a script. -/
def ScriptEnd.behind (commands printed : List (List Byte))
    (looked : List Nat) (ended : ScriptEnd) : ScriptEnd :=
  { ended with
    commands := commands ++ ended.commands
    printed := printed ++ ended.printed
    lookedTemp3 := looked ++ ended.lookedTemp3 }

/-- The addresses from `first` to `last`. -/
def addressesTo (first last : Nat) : List Nat :=
  List.range' first (last + 1 - first)

/-- `"Something went wrong"` -/
def wrongText : List Byte :=
  [0x53, 0x6F, 0x6D, 0x65, 0x74, 0x68, 0x69, 0x6E, 0x67, 0x20, 0x77, 0x65,
    0x6E, 0x74, 0x20, 0x77, 0x72, 0x6F, 0x6E, 0x67]

/-- `"-sbush:  No such file or directory\n"` -/
def noFileText : List Byte :=
  [0x2D, 0x73, 0x62, 0x75, 0x73, 0x68, 0x3A, 0x20, 0x20, 0x4E, 0x6F, 0x20,
    0x73, 0x75, 0x63, 0x68, 0x20, 0x66, 0x69, 0x6C, 0x65, 0x20, 0x6F, 0x72,
    0x20, 0x64, 0x69, 0x72, 0x65, 0x63, 0x74, 0x6F, 0x72, 0x79, 0x0A]

/-- `while (*temp != '\n') temp++;` -/
def findNewline (mem : Memory) (fuel temp : Nat) : Except Fault Nat :=
  scanWhile (fun char => char ≠ 0x0A) mem fuel temp

/-- The loop over the lines. -/
def scriptLines (cwd : List Byte) (arrays : SbangArrays) (fuel : Nat) :
    Nat → Memory → Nat → Except Fault ScriptEnd
  | 0, _, _ => throw .outOfFuel
  | rounds + 1, mem, temp =>
      if mem temp ≠ 0 then do
        let temp2 := temp
        let stop ← findNewline mem fuel temp
        let mem := store mem stop 0
        let copied ← findNul mem fuel temp2
        let mem ← Libc.strcpy fuel mem arrays.temp4 temp2
        let line ← readText mem fuel arrays.temp4
        let (r, mem) ← Libc.checkingForBinary cwd fuel mem arrays.temp4
          arrays.str arrays.temp
        let ended ← scriptLines cwd arrays fuel rounds mem (stop + 1)
        pure (ended.behind [line] (if r ≠ 0 then [wrongText] else [])
          (addressesTo temp stop ++ addressesTo temp2 copied))
      else
        pure { mem, lookedTemp3 := [temp] }

/-- `executeSbang`; `files` are the contents of the files that can be opened,
and the kernel's `read` copies at most 1000 bytes and nothing else. -/
def executeSbang (files : List Byte → Option (List Byte)) (cwd : List Byte)
    (arrays : SbangArrays) (fuel : Nat) (mem : Memory) (str : Nat) :
    Except Fault ScriptEnd := do
  let filename ← readText mem fuel str
  let mem := store mem str 0
  let mem := putField mem str (((files filename).getD []).take 1000)
  if mem str = 0x23 ∧ mem (str + 1) = 0x21 then
    let copied ← findNul mem fuel str
    let mem ← Libc.strcpy fuel mem arrays.temp3 str
    let temp ← findNewline mem fuel arrays.temp3
    let ended ← scriptLines cwd arrays fuel fuel mem (temp + 1)
    pure
      { ended.behind [] [] (addressesTo arrays.temp3 temp) with
        lookedStr := addressesTo str copied }
  else
    pure
      { mem
        printed := [noFileText]
        lookedStr := if mem str = 0x23 then [str, str + 1] else [str] }

/-! ## Scripts -/

/-- Lines that each end with a newline. -/
def linesText (lines : List (List Byte)) : List Byte :=
  (lines.map (· ++ [0x0A])).flatten

/-- The content of a script, whose last line may lack its newline. -/
def scriptText (final : Bool) (lines : List (List Byte)) : List Byte :=
  if final then linesText lines else (linesText lines).dropLast

/-- The arrays have 100 bytes each and are apart from each other as far as
they are in use at the same time. -/
structure SbangArrays.Placed (arrays : SbangArrays) (cwd : List Byte) :
    Prop where
  cwdShort : cwd.length + 2 ≤ 100
  temp3Temp4 : Apart arrays.temp3 100 arrays.temp4 100
  temp3Str : Apart arrays.temp3 100 arrays.str 100
  temp3Temp : Apart arrays.temp3 100 arrays.temp 100
  temp4Str : Apart arrays.temp4 100 arrays.str 100
  temp4Temp : Apart arrays.temp4 100 arrays.temp 100

/-- A script that can be opened and fits the arrays; without a final newline
its last line is not empty. -/
structure ScriptCall (files : List Byte → Option (List Byte))
    (cwd : List Byte) (arrays : SbangArrays) (mem : Memory) (str : Nat)
    (filename first : List Byte) (lines : List (List Byte))
    (final : Bool) : Prop where
  nameText : TextAt mem str filename
  stored : files filename = some (scriptText final (first :: lines))
  sbang : [0x23, 0x21] <+: first
  isLine : ∀ line ∈ first :: lines, 0 ∉ line ∧ 0x0A ∉ line
  lastLine : final = false → [] ∉ lines.getLast?
  short : (scriptText final (first :: lines)).length < 100
  placed : arrays.Placed cwd
  strTemp3 : Apart str 100 arrays.temp3 100

/-- The script is run to its end: every line after the first is handed over
once and in order, and no byte behind the content and its terminator is
read. -/
def RunsScript (files : List Byte → Option (List Byte)) (cwd : List Byte)
    (arrays : SbangArrays) (mem : Memory) (str length : Nat)
    (lines : List (List Byte)) : Prop :=
  ∃ enough, ∀ fuel, enough ≤ fuel → ∃ ended,
    executeSbang files cwd arrays fuel mem str = .ok ended ∧
      ended.commands = lines ∧
        (∀ place ∈ ended.lookedStr, str ≤ place ∧ place ≤ str + length) ∧
          ∀ place ∈ ended.lookedTemp3,
            arrays.temp3 ≤ place ∧ place ≤ arrays.temp3 + length

/-! ## Scans -/

section Scans

variable {test : Byte → Bool} {mem : Memory} {fuel addr : Nat}

theorem scanWhile_eq :
    ∀ {chars : List Byte} {fuel addr : Nat},
      (∀ char ∈ chars, test char = true) → HoldsAt mem addr chars →
        test (mem (addr + chars.length)) = false → chars.length < fuel →
          scanWhile test mem fuel addr = .ok (addr + chars.length) := by
  intro chars
  induction chars with
  | nil =>
      intro fuel addr _ _ stops enough
      obtain ⟨fuel, rfl⟩ := Nat.exists_eq_add_of_lt enough
      have stopsHere : ¬ test (mem addr) = true := by
        rw [Bool.not_eq_true]
        exact stops
      rw [scanWhile, if_neg stopsHere]
      rfl
  | cons char rest inductionHypothesis =>
      intro fuel addr passes holds stops enough
      obtain ⟨fuel, rfl⟩ : ∃ less, fuel = less + 1 := ⟨fuel - 1, by omega⟩
      obtain ⟨first, later⟩ := holdsAt_cons.mp holds
      have length : addr + (char :: rest).length =
          addr + 1 + rest.length := by
        rw [List.length_cons, Nat.add_assoc, Nat.add_comm 1]
      rw [length] at stops ⊢
      rw [List.length_cons] at enough
      rw [scanWhile, first, if_pos (passes char (by simp))]
      apply inductionHypothesis _ later stops (by omega)
      exact fun other isRest => passes other (List.mem_cons_of_mem _ isRest)

theorem scanWhile_le :
    ∀ {fuel addr stop : Nat}, scanWhile test mem fuel addr = .ok stop →
      addr ≤ stop := by
  intro fuel
  induction fuel with
  | zero =>
      intro addr stop found
      cases found
  | succ fuel inductionHypothesis =>
      intro addr stop found
      rw [scanWhile] at found
      split at found
      · exact Nat.le_of_succ_le (inductionHypothesis found)
      · cases found
        exact Nat.le_refl addr

/-- A scan does not stop at a character that passes its test. -/
theorem scanWhile_passes :
    ∀ {chars : List Byte} {fuel addr stop : Nat},
      (∀ char ∈ chars, test char = true) → HoldsAt mem addr chars →
        scanWhile test mem fuel addr = .ok stop →
          addr + chars.length ≤ stop := by
  intro chars
  induction chars with
  | nil => exact fun _ _ found => scanWhile_le found
  | cons char rest inductionHypothesis =>
      intro fuel addr stop passes holds found
      obtain ⟨first, later⟩ := holdsAt_cons.mp holds
      cases fuel with
      | zero => cases found
      | succ fuel =>
          rw [scanWhile, first, if_pos (passes char (by simp))] at found
          have ahead := inductionHypothesis
            (fun other isRest => passes other (List.mem_cons_of_mem _ isRest))
            later found
          rw [List.length_cons]
          omega

theorem readText_eq :
    ∀ {text : List Byte} {fuel addr : Nat}, TextAt mem addr text →
      text.length < fuel → readText mem fuel addr = .ok text := by
  intro text
  induction text with
  | nil =>
      intro fuel addr isText enough
      obtain ⟨fuel, rfl⟩ := Nat.exists_eq_add_of_lt enough
      rw [readText, if_neg (not_not.mpr (textAt_nil.mp isText))]
      rfl
  | cons char rest inductionHypothesis =>
      intro fuel addr isText enough
      obtain ⟨fuel, rfl⟩ : ∃ less, fuel = less + 1 := ⟨fuel - 1, by omega⟩
      obtain ⟨notNul, first, later⟩ := textAt_cons.mp isText
      rw [List.length_cons] at enough
      rw [readText, first, if_pos notNul,
        inductionHypothesis later (by omega)]
      rfl

end Scans

/-! ## A line -/

section Lines

variable {mem : Memory} {fuel str temp s : Nat} {line cwd : List Byte}
  {arrays : SbangArrays}

/-- A scan that stops at a NUL stops inside of a string. -/
theorem scanWhile_text (test : Byte → Bool) (stops : test 0 = false)
    (isText : TextAt mem str line) (enough : line.length < fuel) :
    ∃ passed rest, line = passed ++ rest ∧
      TextAt mem (str + passed.length) rest ∧
        scanWhile test mem fuel str = .ok (str + passed.length) := by
  have split : line = line.takeWhile test ++ line.dropWhile test :=
    List.takeWhile_append_dropWhile.symm
  have parts := isText
  rw [split, textAt_append] at parts
  obtain ⟨holds, -, later⟩ := parts
  refine ⟨_, _, split, later, scanWhile_eq
    (fun char passes => List.mem_takeWhile_imp passes) holds ?_ ?_⟩
  · cases rest : line.dropWhile test with
    | nil =>
        rw [rest, textAt_nil] at later
        rw [later]
        exact stops
    | cons char others =>
        rw [rest, textAt_cons] at later
        have failed := List.head_dropWhile_not test
          (show line.dropWhile test ≠ [] by simp [rest])
        simp only [rest, List.head_cons] at failed
        rw [later.2.1]
        exact failed
  · have shorter := (List.takeWhile_prefix (l := line) test).length_le
    omega

/-- `removespace` stays inside of its string, but for one NUL. -/
theorem removespace_outside (isText : TextAt mem str line)
    (enough : line.length < fuel) :
    ∃ after, Libc.removespace fuel mem str = .ok after ∧
      ∀ place, place < str ∨ str + line.length + 1 < place →
        after place = mem place := by
  obtain ⟨word, rest, lineSplit, later, foundSpace⟩ :=
    scanWhile_text (fun char => char ≠ 0 && char ≠ 0x20) rfl isText enough
  have wordLength : line.length = word.length + rest.length := by
    rw [lineSplit, List.length_append]
  by_cases isSpace : mem (str + word.length) = 0x20
  · cases rest with
    | nil =>
        rw [textAt_nil.mp later] at isSpace
        exact absurd isSpace (by decide)
    | cons space others =>
        obtain ⟨-, -, behind⟩ := textAt_cons.mp later
        rw [List.length_cons] at wordLength
        obtain ⟨spaces, tail, othersSplit, tailText, foundTail⟩ :=
          scanWhile_text (fun char => char ≠ 0 && char = 0x20) rfl behind
            (show others.length < fuel by omega)
        have spacesLength : others.length = spaces.length + tail.length := by
          rw [othersSplit, List.length_append]
        by_cases more :
            mem (str + word.length + 1 + spaces.length) ≠ 0
        · have moved := libc_strcpy_down tailText
            (show tail.length < fuel by omega) (Nat.le_add_right _ _)
          refine ⟨endText (putField mem (str + word.length + 1) tail)
            (str + word.length + 1 + tail.length), ?_,
            fun place outside => copied_outside (by omega)⟩
          rw [Libc.removespace, foundSpace]
          apply (if_pos isSpace).trans
          rw [foundTail]
          exact (if_pos more).trans moved
        · refine ⟨mem, ?_, fun place _ => rfl⟩
          rw [Libc.removespace, foundSpace]
          apply (if_pos isSpace).trans
          rw [foundTail]
          exact if_neg more
  · refine ⟨mem, ?_, fun place _ => rfl⟩
    rw [Libc.removespace, foundSpace]
    exact if_neg isSpace

/-- `checkingForBinary` returns 0 and changes only the three arrays. -/
theorem checkingForBinary_outside (isText : TextAt mem s line)
    (enough : line.length < fuel) (fits : line.length + 2 ≤ 100)
    (cwdFits : cwd.length + 2 ≤ 100) (apartStr : Apart s 100 str 100)
    (apartTemp : Apart s 100 temp 100) :
    ∃ after, Libc.checkingForBinary cwd fuel mem s str temp =
        .ok (0, after) ∧
      ∀ place, (place < s ∨ s + 100 ≤ place) →
        (place < str ∨ str + 100 ≤ place) →
          (place < temp ∨ temp + 100 ≤ place) → after place = mem place := by
  unfold Apart at apartStr apartTemp
  have cleared : ∀ place, place ≠ str → place ≠ temp →
      store (store mem str 0) temp 0 place = mem place := by
    intro place notStr notTemp
    rw [store_other notTemp, store_other notStr]
  unfold Libc.checkingForBinary
  dsimp only
  generalize store (store mem str 0) temp 0 = mem1 at cleared ⊢
  have kept1 : TextAt mem1 s line :=
    isText.congr fun place _ _ => cleared place (by omega) (by omega)
  -- `strcpy(str, s)`
  have copied : Libc.strcpy fuel mem1 str s = .ok
      (endText (putField mem1 str line) (str + line.length)) :=
    libc_strcpy_eq kept1 enough (by unfold Apart; omega)
  have copiedText : TextAt (endText (putField mem1 str line)
      (str + line.length)) str line :=
    textAt_copied isText.noNul
  have copiedSame : ∀ place, place < str ∨ str + line.length + 1 < place →
      endText (putField mem1 str line) (str + line.length) place =
        mem1 place :=
    fun place outside => copied_outside outside
  generalize endText (putField mem1 str line) (str + line.length) = mem2
    at copied copiedText copiedSame
  have kept2 : TextAt mem2 s line :=
    kept1.congr fun place _ _ => copiedSame place (by omega)
  -- `removespace(s)`
  obtain ⟨mem3, squeezed, squeezedSame⟩ := removespace_outside kept2 enough
  have kept3 : TextAt mem3 str line :=
    copiedText.congr fun place _ _ => squeezedSame place (by omega)
  have same : ∀ place, (place < s ∨ s + 100 ≤ place) →
      (place < str ∨ str + 100 ≤ place) →
        (place < temp ∨ temp + 100 ≤ place) → mem3 place = mem place := by
    intro place notS notStr notTemp
    rw [squeezedSame place (by omega), copiedSame place (by omega),
      cleared place (by omega) (by omega)]
  have withCwd : ∀ place, (place < s ∨ s + 100 ≤ place) →
      (place < str ∨ str + 100 ≤ place) →
        (place < temp ∨ temp + 100 ≤ place) →
          endText (putField mem3 temp cwd) (temp + cwd.length) place =
            mem place := by
    intro place notS notStr notTemp
    rw [copied_outside (by omega)]
    exact same place notS notStr notTemp
  obtain ⟨after, filled, afterSame⟩ : ∃ after,
      (match scriptCommand line with
        | some .cat | some .ls =>
            pure (0, endText (putField mem3 temp cwd) (temp + cwd.length))
        | _ => pure (0, mem3) : Except Fault (Word × Memory)) =
          .ok (0, after) ∧
      ∀ place, (place < s ∨ s + 100 ≤ place) →
        (place < str ∨ str + 100 ≤ place) →
          (place < temp ∨ temp + 100 ≤ place) →
            after place = mem place := by
    split
    · exact ⟨_, rfl, withCwd⟩
    · exact ⟨_, rfl, withCwd⟩
    · exact ⟨_, rfl, same⟩
  refine ⟨after, ?_, afterSame⟩
  rw [copied]
  show (Libc.removespace fuel mem2 s >>= _) = _
  rw [squeezed]
  show (readText mem3 fuel str >>= _) = _
  rw [readText_eq kept3 enough]
  exact filled

/-! ## The loop -/

theorem mem_addressesTo {first last place : Nat} :
    place ∈ addressesTo first last ↔ first ≤ place ∧ place ≤ last := by
  rw [addressesTo, List.mem_range'_1]
  omega

theorem ScriptEnd.behind_behind (ended : ScriptEnd)
    (commands printed later laterPrinted : List (List Byte))
    (looked laterLooked : List Nat) :
    (ended.behind later laterPrinted laterLooked).behind commands printed
        looked =
      ended.behind (commands ++ later) (printed ++ laterPrinted)
        (looked ++ laterLooked) := by
  simp only [behind, List.append_assoc]

theorem findNewline_eq {chars : List Byte} (noNewline : 0x0A ∉ line)
    (holds : HoldsAt mem temp (line ++ 0x0A :: chars))
    (enough : line.length < fuel) :
    findNewline mem fuel temp = .ok (temp + line.length) := by
  obtain ⟨lineHolds, newline⟩ := holdsAt_append.mp holds
  apply scanWhile_eq _ lineHolds _ enough
  · intro char isChar
    exact decide_eq_true (ne_of_mem_of_not_mem isChar noNewline)
  · rw [(holdsAt_cons.mp newline).1]
    rfl

/-- One round hands over one line and goes on behind its newline. -/
theorem scriptLines_line {rest : List Byte} (placed : arrays.Placed cwd)
    (isText : TextAt mem temp (line ++ 0x0A :: rest))
    (noNewline : 0x0A ∉ line) (above : arrays.temp3 ≤ temp)
    (below : temp + (line ++ 0x0A :: rest).length < arrays.temp3 + 100)
    (enough : (line ++ 0x0A :: rest).length < fuel) :
    ∃ after looks, TextAt after (temp + line.length + 1) rest ∧
      (∀ place ∈ looks, temp ≤ place ∧ place ≤ temp + line.length) ∧
        ∀ rounds, scriptLines cwd arrays fuel (rounds + 1) mem temp =
          (scriptLines cwd arrays fuel rounds after
            (temp + line.length + 1)).map
              (ScriptEnd.behind [line] [] looks) := by
  obtain ⟨cwdShort, temp3Temp4, temp3Str, temp3Temp, temp4Str, temp4Temp⟩ :=
    placed
  unfold Apart at temp3Temp4 temp3Str temp3Temp
  rw [List.length_append, List.length_cons] at below enough
  obtain ⟨lineHolds, lineNoNul, newline⟩ := textAt_append.mp isText
  obtain ⟨-, newlineHere, restText⟩ := textAt_cons.mp newline
  have notNul : mem temp ≠ 0 := by
    cases line with
    | nil =>
        rw [show mem temp = 0x0A from newlineHere]
        decide
    | cons char others =>
        rw [(holdsAt_cons.mp lineHolds).1]
        exact (List.ne_of_not_mem_cons lineNoNul).symm
  have together : HoldsAt mem temp (line ++ 0x0A :: rest) :=
    (holdsAt_append.mp isText.chars).1
  have found : findNewline mem fuel temp = .ok (temp + line.length) :=
    findNewline_eq noNewline together (by omega)
  -- `*temp = '\0'`
  have lineText : TextAt (store mem (temp + line.length) 0) temp line := by
    constructor
    · refine holdsAt_append.mpr ⟨?_, holdsAt_cons.mpr ⟨?_, holdsAt_nil⟩⟩
      · apply lineHolds.congr
        exact fun place inside => store_other (by omega)
      · exact store_same ..
    · exact lineNoNul
  have restKept : TextAt (store mem (temp + line.length) 0)
      (temp + line.length + 1) rest :=
    restText.congr fun place _ _ => store_other (by omega)
  have copied : findNul (store mem (temp + line.length) 0) fuel temp =
      .ok (temp + line.length) :=
    findNul_eq lineText (by omega)
  generalize ended : store mem (temp + line.length) 0 = mem1
    at lineText restKept copied
  -- `strcpy(temp4, temp2)`
  have handed : Libc.strcpy fuel mem1 arrays.temp4 temp =
      .ok (endText (putField mem1 arrays.temp4 line)
        (arrays.temp4 + line.length)) :=
    libc_strcpy_eq lineText (by omega) (by unfold Apart; omega)
  have handedText : TextAt (endText (putField mem1 arrays.temp4 line)
      (arrays.temp4 + line.length)) arrays.temp4 line :=
    textAt_copied lineNoNul
  have restHanded : TextAt (endText (putField mem1 arrays.temp4 line)
      (arrays.temp4 + line.length)) (temp + line.length + 1) rest :=
    restKept.congr fun place _ _ => copied_outside (by omega)
  generalize endText (putField mem1 arrays.temp4 line)
    (arrays.temp4 + line.length) = mem2 at handed handedText restHanded
  obtain ⟨after, checked, same⟩ := checkingForBinary_outside handedText
    (show line.length < fuel by omega) (by omega) cwdShort temp4Str temp4Temp
  refine ⟨after, addressesTo temp (temp + line.length) ++
    addressesTo temp (temp + line.length), ?_, ?_, ?_⟩
  · apply restHanded.congr
    exact fun place _ _ => same place (by omega) (by omega) (by omega)
  · intro place looked
    rw [List.mem_append, or_self, mem_addressesTo] at looked
    exact looked
  · intro rounds
    rw [scriptLines, if_pos notNul, found]
    show (findNul (store mem (temp + line.length) 0) fuel temp >>= _) = _
    rw [ended, copied]
    show (Libc.strcpy fuel mem1 arrays.temp4 temp >>= _) = _
    rw [handed]
    show (readText mem2 fuel arrays.temp4 >>= _) = _
    rw [readText_eq handedText (by omega)]
    show (Libc.checkingForBinary cwd fuel mem2 arrays.temp4 arrays.str
      arrays.temp >>= _) = _
    rw [checked]
    show (scriptLines cwd arrays fuel rounds after (temp + line.length + 1)
      >>= _) = _
    cases scriptLines cwd arrays fuel rounds after (temp + line.length + 1) <;>
      rfl

theorem linesText_cons (line : List Byte) (lines : List (List Byte)) :
    linesText (line :: lines) = line ++ 0x0A :: linesText lines := by
  rw [linesText, List.map_cons, List.flatten_cons, List.append_assoc]
  rfl

/-- All lines that end with a newline are handed over. -/
theorem scriptLines_run (placed : arrays.Placed cwd) {tail : List Byte} :
    ∀ {lines : List (List Byte)} {mem : Memory} {temp : Nat},
      (∀ line ∈ lines, 0x0A ∉ line) →
        TextAt mem temp (linesText lines ++ tail) → arrays.temp3 ≤ temp →
          temp + (linesText lines ++ tail).length < arrays.temp3 + 100 →
            (linesText lines ++ tail).length < fuel →
      ∃ after looks, TextAt after (temp + (linesText lines).length) tail ∧
        (∀ place ∈ looks,
          temp ≤ place ∧ place < temp + (linesText lines).length) ∧
        ∀ rounds, scriptLines cwd arrays fuel (rounds + lines.length) mem
            temp =
          (scriptLines cwd arrays fuel rounds after
            (temp + (linesText lines).length)).map
              (ScriptEnd.behind lines [] looks) := by
  intro lines
  induction lines with
  | nil =>
      intro mem temp _ isText _ _ _
      refine ⟨mem, [], isText, fun _ inNone => absurd inNone (by simp), ?_⟩
      intro rounds
      show scriptLines cwd arrays fuel rounds mem temp =
        (scriptLines cwd arrays fuel rounds mem temp).map _
      cases scriptLines cwd arrays fuel rounds mem temp <;> rfl
  | cons line lines inductionHypothesis =>
      intro mem temp noNewline isText above below enough
      have text : linesText (line :: lines) ++ tail =
          line ++ 0x0A :: (linesText lines ++ tail) := by
        rw [linesText_cons, List.append_assoc]
        rfl
      have length : (linesText (line :: lines)).length =
          line.length + 1 + (linesText lines).length := by
        rw [linesText_cons, List.length_append, List.length_cons]
        omega
      rw [text] at isText below enough
      have whole : (line ++ 0x0A :: (linesText lines ++ tail)).length =
          line.length + 1 + (linesText lines ++ tail).length := by
        rw [List.length_append, List.length_cons]
        omega
      obtain ⟨between, firstLooks, restText, firstInside, oneLine⟩ :=
        scriptLines_line placed isText (noNewline line (by simp)) above below
          enough
      rw [whole] at below enough
      obtain ⟨after, looks, tailText, inside, others⟩ :=
        inductionHypothesis
          (fun other isOther =>
            noNewline other (List.mem_cons_of_mem _ isOther))
          restText (by omega) (by omega) (by omega)
      have further : temp + line.length + 1 + (linesText lines).length =
          temp + (linesText (line :: lines)).length := by
        omega
      rw [further] at tailText inside others
      refine ⟨after, firstLooks ++ looks, tailText, ?_, ?_⟩
      · intro place looked
        rcases List.mem_append.mp looked with inFirst | inLooks
        · have bounds := firstInside place inFirst
          omega
        · have bounds := inside place inLooks
          omega
      · intro rounds
        rw [List.length_cons, ← Nat.add_assoc, oneLine, others]
        cases scriptLines cwd arrays fuel rounds after
            (temp + (linesText (line :: lines)).length) with
        | error fault => rfl
        | ok ended =>
            show Except.ok _ = Except.ok _
            rw [ScriptEnd.behind_behind]
            rfl

theorem findNul_eq_scanWhile (mem : Memory) :
    ∀ fuel addr, findNul mem fuel addr =
      scanWhile (fun char => char ≠ 0) mem fuel addr := by
  intro fuel
  induction fuel with
  | zero => exact fun _ => rfl
  | succ fuel inductionHypothesis =>
      intro addr
      rw [findNul, scanWhile, inductionHypothesis]
      simp only [decide_eq_true_eq]

theorem findNul_passes {chars : List Byte} {stop : Nat} (noNul : 0 ∉ chars)
    (holds : HoldsAt mem temp chars)
    (found : findNul mem fuel temp = .ok stop) :
    temp + chars.length ≤ stop := by
  rw [findNul_eq_scanWhile] at found
  apply scanWhile_passes _ holds found
  intro char isChar
  exact decide_eq_true (ne_of_mem_of_not_mem isChar noNul)

/-- A line without its newline is read over its NUL. -/
theorem findNewline_passes {stop : Nat} (isText : TextAt mem temp line)
    (noNewline : 0x0A ∉ line)
    (found : findNewline mem fuel temp = .ok stop) :
    temp + line.length + 1 ∈ addressesTo temp stop := by
  have past : temp + (line ++ [0]).length ≤ stop := by
    apply scanWhile_passes _ isText.chars found
    intro char isChar
    apply decide_eq_true
    rcases List.mem_append.mp isChar with inLine | isNul
    · exact ne_of_mem_of_not_mem inLine noNewline
    · rw [List.mem_singleton.mp isNul]
      decide
  rw [List.length_append, List.length_singleton] at past
  rw [mem_addressesTo]
  omega

theorem scriptLines_passes {rounds : Nat} {ended : ScriptEnd}
    (isText : TextAt mem temp line) (notEmpty : line ≠ [])
    (noNewline : 0x0A ∉ line)
    (returned : scriptLines cwd arrays fuel rounds mem temp = .ok ended) :
    temp + line.length + 1 ∈ ended.lookedTemp3 := by
  cases rounds with
  | zero => cases returned
  | succ rounds =>
      have notNul : mem temp ≠ 0 := by
        obtain ⟨char, others, rfl⟩ := List.exists_cons_of_ne_nil notEmpty
        obtain ⟨charNotNul, here, -⟩ := textAt_cons.mp isText
        rw [here]
        exact charNotNul
      rw [scriptLines, if_pos notNul] at returned
      obtain ⟨stop, found, returned⟩ := Outcome.exists_of_bind_ok returned
      obtain ⟨copied, -, returned⟩ := Outcome.exists_of_bind_ok returned
      obtain ⟨mem1, -, returned⟩ := Outcome.exists_of_bind_ok returned
      obtain ⟨command, -, returned⟩ := Outcome.exists_of_bind_ok returned
      obtain ⟨⟨r, mem2⟩, -, returned⟩ := Outcome.exists_of_bind_ok returned
      obtain ⟨later, -, returned⟩ := Outcome.exists_of_bind_ok returned
      cases returned
      apply List.mem_append_left
      apply List.mem_append_left
      exact findNewline_passes isText noNewline found

end Lines

/-! ## The whole script -/

/-- What `read` leaves in the buffer. -/
def readBuffer (mem : Memory) (str : Nat) (content : List Byte) : Memory :=
  putField (store mem str 0) str content

section Calls

variable {files : List Byte → Option (List Byte)} {cwd : List Byte}
  {arrays : SbangArrays} {mem : Memory} {str fuel : Nat}
  {filename first : List Byte} {lines : List (List Byte)} {final : Bool}

theorem scriptText_first (final : Bool) (first : List Byte)
    (lines : List (List Byte)) :
    first <+: scriptText final (first :: lines) := by
  unfold scriptText
  rw [linesText_cons]
  split
  · exact List.prefix_append _ _
  · rw [List.dropLast_append_cons]
    exact List.prefix_append _ _

/-- The first two bytes of the buffer. -/
theorem readBuffer_sbang {content : List Byte}
    (sbang : [0x23, 0x21] <+: content) :
    readBuffer mem str content str = 0x23 ∧
      readBuffer mem str content (str + 1) = 0x21 := by
  obtain ⟨rest, rfl⟩ := sbang
  have holds : HoldsAt (readBuffer mem str ([0x23, 0x21] ++ rest)) str
      [0x23, 0x21] :=
    holdsAt_putField_append
  obtain ⟨first, later⟩ := holdsAt_cons.mp holds
  exact ⟨first, (holdsAt_cons.mp later).1⟩

theorem ScriptCall.notEmpty
    (call : ScriptCall files cwd arrays mem str filename first lines final) :
    scriptText final (first :: lines) ≠ [] := by
  intro empty
  have sbang := call.sbang.trans (scriptText_first final first lines)
  rw [empty] at sbang
  exact absurd (List.prefix_nil.mp sbang) (by decide)

/-- The start of a script, before its loop. -/
theorem executeSbang_eq
    (call : ScriptCall files cwd arrays mem str filename first lines final)
    (enough : filename.length < fuel) :
    executeSbang files cwd arrays fuel mem str = (do
      let copied ← findNul (readBuffer mem str
        (scriptText final (first :: lines))) fuel str
      let mem ← Libc.strcpy fuel (readBuffer mem str
        (scriptText final (first :: lines))) arrays.temp3 str
      let temp ← findNewline mem fuel arrays.temp3
      let ended ← scriptLines cwd arrays fuel fuel mem (temp + 1)
      pure
        { ended.behind [] [] (addressesTo arrays.temp3 temp) with
          lookedStr := addressesTo str copied }) := by
  have short := call.short
  have whole : (scriptText final (first :: lines)).take 1000 =
      scriptText final (first :: lines) :=
    List.take_of_length_le (by omega)
  rw [executeSbang, readText_eq call.nameText enough]
  show (if putField (store mem str 0) str
    (((files filename).getD []).take 1000) str = 0x23 ∧ _ then _ else _) = _
  rw [call.stored, Option.getD_some, whole]
  exact if_pos (readBuffer_sbang
    (call.sbang.trans (scriptText_first final first lines)))

/-- Every byte of a script is one of a line or a newline. -/
theorem scriptText_noNul
    (isLine : ∀ line ∈ first :: lines, 0 ∉ line ∧ 0x0A ∉ line) :
    0 ∉ scriptText final (first :: lines) := by
  have noNul : 0 ∉ linesText (first :: lines) := by
    rw [linesText, List.mem_flatten]
    rintro ⟨text, isText, isNul⟩
    obtain ⟨line, inLines, rfl⟩ := List.mem_map.mp isText
    rcases List.mem_append.mp isNul with inLine | isNewline
    · exact (isLine line inLines).1 inLine
    · exact absurd (List.mem_singleton.mp isNewline) (by decide)
  unfold scriptText
  split
  · exact noNul
  · exact fun isNul => noNul (List.dropLast_subset _ isNul)

/-- A buffer that is ended behind the content. -/
theorem readBuffer_text {content : List Byte} (notEmpty : content ≠ [])
    (noNul : 0 ∉ content) (ended : mem (str + content.length) = 0) :
    TextAt (readBuffer mem str content) str content := by
  have long := List.length_pos_of_ne_nil notEmpty
  refine ⟨holdsAt_append.mpr ⟨holdsAt_putField _ _ _,
    holdsAt_cons.mpr ⟨?_, holdsAt_nil⟩⟩, noNul⟩
  unfold readBuffer putField
  rw [if_neg (by omega), store_other (by omega)]
  exact ended

/-- A buffer with another byte behind the content is read over it. -/
theorem readBuffer_passes {content : List Byte} {stop : Nat}
    (notEmpty : content ≠ []) (noNul : 0 ∉ content)
    (stale : mem (str + content.length) ≠ 0)
    (found : findNul (readBuffer mem str content) fuel str = .ok stop) :
    str + content.length + 1 ∈ addressesTo str stop := by
  have long := List.length_pos_of_ne_nil notEmpty
  have holds : HoldsAt (readBuffer mem str content) str
      (content ++ [mem (str + content.length)]) := by
    refine holdsAt_append.mpr ⟨holdsAt_putField _ _ _,
      holdsAt_cons.mpr ⟨?_, holdsAt_nil⟩⟩
    unfold readBuffer putField
    rw [if_neg (by omega), store_other (by omega)]
  have noNulYet : 0 ∉ content ++ [mem (str + content.length)] := by
    rw [List.mem_append, not_or, List.mem_singleton]
    exact ⟨noNul, Ne.symm stale⟩
  have past := findNul_passes noNulYet holds found
  rw [List.length_append, List.length_singleton] at past
  rw [mem_addressesTo]
  omega

theorem linesText_append (first second : List (List Byte)) :
    linesText (first ++ second) = linesText first ++ linesText second := by
  rw [linesText, List.map_append, List.flatten_append]
  rfl

/-- A script without its final newline. -/
theorem scriptText_concat (earlier : List (List Byte)) (last : List Byte) :
    scriptText false (earlier ++ [last]) = linesText earlier ++ last := by
  show (linesText (earlier ++ [last])).dropLast = _
  rw [linesText_append, linesText_cons]
  show (linesText earlier ++ (last ++ [0x0A])).dropLast = _
  rw [← List.append_assoc, List.dropLast_concat]

theorem length_le_linesText (lines : List (List Byte)) :
    lines.length ≤ (linesText lines).length := by
  induction lines with
  | nil => exact Nat.le_refl 0
  | cons line lines inductionHypothesis =>
      rw [linesText_cons, List.length_append, List.length_cons,
        List.length_cons]
      omega

/-- The script up to its first newline, when the buffer is ended behind the
content. -/
theorem executeSbang_copied
    (call : ScriptCall files cwd arrays mem str filename first lines final)
    (ended : mem (str + (scriptText final (first :: lines)).length) = 0)
    (enough : filename.length < fuel) (long : 100 ≤ fuel) :
    ∃ copy,
      TextAt copy arrays.temp3 (scriptText final (first :: lines)) ∧
      executeSbang files cwd arrays fuel mem str = (do
        let temp ← findNewline copy fuel arrays.temp3
        let ended ← scriptLines cwd arrays fuel fuel copy (temp + 1)
        pure
          { ended.behind [] [] (addressesTo arrays.temp3 temp) with
            lookedStr := addressesTo str
              (str + (scriptText final (first :: lines)).length) }) := by
  have short := call.short
  have apart := call.strTemp3
  have read :=
    readBuffer_text call.notEmpty (scriptText_noNul call.isLine) ended
  rw [executeSbang_eq call enough]
  generalize scriptText final (first :: lines) = content at *
  unfold Apart at apart
  have copied : Libc.strcpy fuel (readBuffer mem str content) arrays.temp3
      str = .ok (endText (putField (readBuffer mem str content) arrays.temp3
        content) (arrays.temp3 + content.length)) :=
    libc_strcpy_eq read (by omega) (by unfold Apart; omega)
  refine ⟨endText (putField (readBuffer mem str content) arrays.temp3
    content) (arrays.temp3 + content.length), textAt_copied read.noNul, ?_⟩
  rw [findNul_eq read (by omega), copied]
  rfl

/-- A script whose lines all end with a newline, in a buffer that is ended. -/
theorem runsScript_of_ended
    (call : ScriptCall files cwd arrays mem str filename first lines true)
    (ended : mem (str + (scriptText true (first :: lines)).length) = 0) :
    RunsScript files cwd arrays mem str
      (scriptText true (first :: lines)).length lines := by
  refine ⟨filename.length + 101, fun fuel enough => ?_⟩
  have short := call.short
  obtain ⟨copy, isText, run⟩ :=
    executeSbang_copied call ended (show filename.length < fuel by omega)
      (by omega)
  rw [run]
  have text : scriptText true (first :: lines) =
      first ++ 0x0A :: (linesText lines ++ []) := by
    rw [List.append_nil, ← linesText_cons]
    rfl
  have length : (scriptText true (first :: lines)).length =
      first.length + 1 + (linesText lines).length := by
    rw [text, List.append_nil, List.length_append, List.length_cons]
    omega
  rw [text] at isText
  have found : findNewline copy fuel arrays.temp3 =
      .ok (arrays.temp3 + first.length) :=
    findNewline_eq (call.isLine first (by simp)).2
      (holdsAt_append.mp isText.chars).1 (by omega)
  have behind := (textAt_cons.mp (textAt_append.mp isText).2.2).2.2
  have few := length_le_linesText lines
  obtain ⟨after, looks, endText, inside, loop⟩ :=
    scriptLines_run call.placed
      (fun line isLine =>
        (call.isLine line (List.mem_cons_of_mem _ isLine)).2)
      behind (by omega) (by rw [List.append_nil]; omega)
      (show (linesText lines ++ []).length < fuel by
        rw [List.append_nil]; omega)
  have rounds : fuel = fuel - lines.length - 1 + 1 + lines.length := by
    omega
  have looped := loop (fuel - lines.length - 1 + 1)
  rw [← rounds, scriptLines,
    if_neg (not_not.mpr (textAt_nil.mp endText))] at looped
  rw [found]
  show ∃ ended, (scriptLines cwd arrays fuel fuel copy
    (arrays.temp3 + first.length + 1) >>= _) = .ok ended ∧ _
  rw [looped]
  refine ⟨_, rfl, List.append_nil lines, ?_, ?_⟩
  · intro place looked
    exact mem_addressesTo.mp looked
  · intro place looked
    rcases List.mem_append.mp looked with inFirst | later
    · rw [mem_addressesTo] at inFirst
      omega
    · rcases List.mem_append.mp later with inLooks | isEnd
      · have bounds := inside place inLooks
        omega
      · rw [List.mem_singleton.mp isEnd]
        omega

/-- A byte behind the content is read. -/
theorem not_runsScript_of_stale
    (call : ScriptCall files cwd arrays mem str filename first lines final)
    (stale : mem (str + (scriptText final (first :: lines)).length) ≠ 0) :
    ¬ RunsScript files cwd arrays mem str
      (scriptText final (first :: lines)).length lines := by
  rintro ⟨enough, runs⟩
  obtain ⟨ended, returned, -, inside, -⟩ :=
    runs (enough + filename.length + 1) (by omega)
  rw [executeSbang_eq call (by omega)] at returned
  obtain ⟨copied, found, returned⟩ := Outcome.exists_of_bind_ok returned
  obtain ⟨mem1, -, returned⟩ := Outcome.exists_of_bind_ok returned
  obtain ⟨temp, -, returned⟩ := Outcome.exists_of_bind_ok returned
  obtain ⟨later, -, returned⟩ := Outcome.exists_of_bind_ok returned
  cases returned
  have bounds := inside _ (readBuffer_passes call.notEmpty
    (scriptText_noNul call.isLine) stale found)
  omega

/-- Without the final newline the NUL of the copy is passed. -/
theorem not_runsScript_of_open
    (call : ScriptCall files cwd arrays mem str filename first lines false)
    (ended : mem (str + (scriptText false (first :: lines)).length) = 0) :
    ¬ RunsScript files cwd arrays mem str
      (scriptText false (first :: lines)).length lines := by
  rintro ⟨enough, runs⟩
  obtain ⟨fuel, fuel_eq⟩ :
      ∃ fuel, fuel = enough + filename.length + 101 := ⟨_, rfl⟩
  obtain ⟨final, returned, -, -, inside⟩ := runs fuel (by omega)
  have short := call.short
  obtain ⟨copy, isText, run⟩ := executeSbang_copied call ended
    (show filename.length < fuel by omega) (by omega)
  rw [run] at returned
  obtain ⟨temp, found, returned⟩ := Outcome.exists_of_bind_ok returned
  obtain ⟨loopEnd, loop, returned⟩ := Outcome.exists_of_bind_ok returned
  cases returned
  rcases List.eq_nil_or_concat' lines with rfl | ⟨earlier, last, rfl⟩
  · -- the first line is the last one
    have text : scriptText false [first] = first :=
      scriptText_concat [] first
    rw [text] at isText inside
    have bounds := inside _ (List.mem_append_left _ (findNewline_passes isText
      (call.isLine first (by simp)).2 found))
    omega
  · have text : scriptText false (first :: (earlier ++ [last])) =
        first ++ 0x0A :: (linesText earlier ++ last) := by
      rw [← List.cons_append, scriptText_concat, linesText_cons,
        List.append_assoc]
      rfl
    have length : (scriptText false (first :: (earlier ++ [last]))).length =
        first.length + 1 + (linesText earlier ++ last).length := by
      rw [text, List.length_append, List.length_cons]
      omega
    have isLast := call.isLine last (by simp)
    have notEmpty : last ≠ [] := by
      rintro rfl
      exact call.lastLine rfl (by simp)
    rw [text] at isText
    rw [findNewline_eq (call.isLine first (by simp)).2
      (holdsAt_append.mp isText.chars).1 (by omega)] at found
    cases found
    have behind := (textAt_cons.mp (textAt_append.mp isText).2.2).2.2
    have few := length_le_linesText earlier
    rw [List.length_append] at length
    obtain ⟨after, looks, lastText, -, rest⟩ :=
      scriptLines_run call.placed
        (fun line inEarlier => (call.isLine line (by simp [inEarlier])).2)
        behind (by omega) (by rw [List.length_append]; omega)
        (show (linesText earlier ++ last).length < fuel by
          rw [List.length_append]; omega)
    have rounds : fuel = fuel - earlier.length + earlier.length := by
      omega
    have looped := rest (fuel - earlier.length)
    rw [← rounds, loop] at looped
    cases lastEnd : scriptLines cwd arrays fuel (fuel - earlier.length) after
        (arrays.temp3 + first.length + 1 + (linesText earlier).length) with
    | error fault =>
        rw [lastEnd] at looped
        cases looped
    | ok final =>
        rw [lastEnd] at looped
        cases looped
        have passed := scriptLines_passes lastText notEmpty isLast.2 lastEnd
        have bounds := inside _ (List.mem_append_right _
          (List.mem_append_right _ passed))
        omega

/-- A script is run exactly when its last line ends with a newline and the
byte that the buffer holds behind the content is a NUL. -/
theorem executeSbang_runsScript_iff
    (call : ScriptCall files cwd arrays mem str filename first lines final) :
    RunsScript files cwd arrays mem str
        (scriptText final (first :: lines)).length lines ↔
      final = true ∧
        mem (str + (scriptText final (first :: lines)).length) = 0 := by
  constructor
  · intro runs
    have ended : mem (str + (scriptText final (first :: lines)).length) =
        0 := by
      by_contra stale
      exact not_runsScript_of_stale call stale runs
    refine ⟨?_, ended⟩
    cases final with
    | true => rfl
    | false => exact absurd runs (not_runsScript_of_open call ended)
  · rintro ⟨rfl, ended⟩
    exact runsScript_of_ended call ended

end Calls

/-- A file system with one script, `"#!\nps"` with or without a newline. -/
def psScript (final : Bool) : List Byte → Option (List Byte) :=
  fun _ => some (scriptText final [[0x23, 0x21], [0x70, 0x73]])

def psArrays : SbangArrays :=
  { temp3 := 100, temp4 := 200, str := 300, temp := 400 }

theorem scriptCall_ps (final : Bool) :
    ScriptCall (psScript final) [] psArrays (oneChar 0 0x61) 0 [0x61]
      [0x23, 0x21] [[0x70, 0x73]] final where
  nameText := textAt_cons.mpr ⟨by decide, rfl, textAt_nil.mpr rfl⟩
  stored := rfl
  sbang := List.prefix_rfl
  isLine := by decide
  lastLine := fun _ => by decide
  short := by cases final <;> decide
  placed :=
    { cwdShort := by decide
      temp3Temp4 := Or.inl (by decide)
      temp3Str := Or.inl (by decide)
      temp3Temp := Or.inl (by decide)
      temp4Str := Or.inl (by decide)
      temp4Temp := Or.inl (by decide) }
  strTemp3 := Or.inl (by decide)

theorem executeSbang_runsScript_ps :
    RunsScript (psScript true) [] psArrays (oneChar 0 0x61) 0 6
        [[0x70, 0x73]] ↔
      true = true ∧ oneChar 0 0x61 (0 + 6) = 0 :=
  executeSbang_runsScript_iff (scriptCall_ps true)

/-- `ps` is not run as it should when its line does not end with a newline. -/
theorem not_runsScript_ps :
    ScriptCall (psScript false) [] psArrays (oneChar 0 0x61) 0 [0x61]
        [0x23, 0x21] [[0x70, 0x73]] false ∧
      ¬ RunsScript (psScript false) [] psArrays (oneChar 0 0x61) 0 5
        [[0x70, 0x73]] :=
  ⟨scriptCall_ps false, not_runsScript_of_open (scriptCall_ps false) rfl⟩

end SbuUnix
