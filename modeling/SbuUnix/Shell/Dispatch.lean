import Mathlib.Data.List.TakeWhile
import Mathlib.Tactic.IntervalCases
import SbuUnix.Paging.Machine

/-!
# The two dispatchers of the shell

`main` of `bin/sbush/sbush.c` and `checkingForBinary` of `libc/unibinary.c`
look at a line in the same way and start the same programs.  The first one
squeezes the spaces of the line before it looks; the second one squeezes
another buffer.

A string is the list of its bytes up to the NUL.
-/

namespace SbuUnix

/-! ## The helpers of the C library -/

/-- `removespace`: only the first run of spaces, and only when something
stands behind it. -/
def removespace (str : List Byte) : List Byte :=
  match str.dropWhile (· ≠ 0x20) with
  | [] => str
  | space :: rest =>
      match rest.dropWhile (· = 0x20) with
      | [] => str
      | ch => str.takeWhile (· ≠ 0x20) ++ space :: ch

/-- `array[i]` for an `int i`; `below k` is the byte `k` below the array. -/
def charAt (below : Nat → Byte) (array : List Byte) (i : Int) : Byte :=
  if 0 ≤ i then array.getD i.toNat 0 else below (-i).toNat

/-- The condition of `addParent`, at the end of the array. -/
def NeedsSlash (below : Nat → Byte) (array : List Byte) : Prop :=
  charAt below array (array.length - 1) ≠ 0x2F ∧
    charAt below array (array.length - 3) ≠ 0x2E ∧
    charAt below array (array.length - 2) ≠ 0x73 ∧
    charAt below array (array.length - 1) ≠ 0x68 ∧
    charAt below array (array.length - 4) ≠ 0x2E ∧
    charAt below array (array.length - 3) ≠ 0x74 ∧
    charAt below array (array.length - 2) ≠ 0x78 ∧
    charAt below array (array.length - 1) ≠ 0x74

instance (below : Nat → Byte) (array : List Byte) :
    Decidable (NeedsSlash below array) :=
  inferInstanceAs (Decidable (_ ∧ _))

/-- `addParent(parent, array + off)` for an array of 100 bytes.  The last
store is the second NUL of `strlen`. -/
def addParent (below : Nat → Byte) (array : List Byte) (off : Nat)
    (parent : List Byte) : Except Fault (List Byte) :=
  let str := parent.drop 7 ++ array.drop off
  if off + str.length + 3 ≤ 100 then
    if NeedsSlash below ((array ++ [0]).take off ++ str) then
      pure (str ++ [0x2F])
    else
      pure str
  else
    throw .outOfBounds

/-! ## The dispatchers -/

/-- The files that `execvpe` is called with. -/
inductive Program where
  | sleep
  | ls
  | ps
  | kill
  | echo
  | cat
  deriving DecidableEq

/-- The tests of `main`.  The branches without a program are built in, start
the shell itself or a script, or find no command. -/
def mainCommand (str : List Byte) : Option Program :=
  if str = [0x70, 0x77, 0x64] then none
  else if [0x65, 0x78, 0x70] <+: str then none
  else if [0x63, 0x64, 0x20] <+: str then none
  else if [0x73, 0x6C, 0x65, 0x65, 0x70, 0x20] <+: str then some .sleep
  else if [0x6C, 0x73] <+: str then some .ls
  else if [0x70, 0x73] <+: str then some .ps
  else if [0x6B, 0x69, 0x6C, 0x6C] <+: str ∧ [0x2D, 0x39] <+: str.drop 5 then
    some .kill
  else if [0x2E, 0x2F] <+: str then none
  else if [0x65, 0x63, 0x68, 0x6F, 0x20] <+: str then some .echo
  else if [0x63, 0x61, 0x74] <+: str then some .cat
  else none

/-- The tests of `checkingForBinary`. -/
def scriptCommand (str : List Byte) : Option Program :=
  if [0x73, 0x6C, 0x65, 0x65, 0x70, 0x20] <+: str then some .sleep
  else if [0x63, 0x61, 0x74, 0x20] <+: str then some .cat
  else if [0x65, 0x63, 0x68, 0x6F, 0x20] <+: str then some .echo
  else if [0x6C, 0x73] <+: str then some .ls
  else if [0x6B, 0x69, 0x6C, 0x6C] <+: str ∧ [0x2D, 0x39] <+: str.drop 5 then
    some .kill
  else if [0x70, 0x73] <+: str then some .ps
  else none

/-- Where the argument of `ls` starts. -/
def lsOffset (str : List Byte) : Nat :=
  if str.getD 2 0 = 0x20 then 3 else 2

/-- The argument that both dispatchers hand to `execvpe`. -/
def argument (below : Nat → Byte) (cwd str : List Byte) :
    Program → Except Fault (List Byte)
  | .sleep => pure (str.drop 6)
  | .ls => addParent below str (lsOffset str) cwd
  | .ps => pure str
  | .kill => pure (str.drop 7)
  | .echo => pure (str.drop 5)
  | .cat => addParent below str 4 cwd

/-- The call of `execvpe` for a command. -/
def execute (below : Nat → Byte) (cwd str : List Byte) :
    Option Program → Except Fault (Option (Program × List Byte))
  | none => pure none
  | some program => do
      let arg ← argument below cwd str program
      pure (some (program, arg))

/-- What `main` runs for a line that is typed. -/
def interactive (below : Nat → Byte) (cwd line : List Byte) :
    Except Fault (Option (Program × List Byte)) :=
  let str := removespace line
  if line = [] then pure none else execute below cwd str (mainCommand str)

/-- `checkingForBinary`, which squeezes `s` and not its copy `str`. -/
def checkingForBinary (below : Nat → Byte) (cwd s : List Byte) :
    Except Fault (Option (Program × List Byte)) :=
  let str := s
  execute below cwd str (scriptCommand str)

/-- A line as the shell takes it. -/
structure CommandLine where
  text : List Byte
  short : text.length ≤ 90
  noNul : 0 ∉ text

/-- Both dispatchers run the same program with the same argument, or none.
The bytes below their arrays are theirs. -/
def RunsAlike (below belowScript : Nat → Byte) (cwd : List Byte)
    (line : CommandLine) : Prop :=
  ∃ call, interactive below cwd line.text = .ok call ∧
    checkingForBinary belowScript cwd line.text = .ok call

/-! ## The tests -/

/-- The form of a command that `main` accepts. -/
def Program.Accepts (str : List Byte) : Program → Prop
  | .sleep => [0x73, 0x6C, 0x65, 0x65, 0x70, 0x20] <+: str
  | .ls => [0x6C, 0x73] <+: str
  | .ps => [0x70, 0x73] <+: str
  | .kill => [0x6B, 0x69, 0x6C, 0x6C] <+: str ∧ [0x2D, 0x39] <+: str.drop 5
  | .echo => [0x65, 0x63, 0x68, 0x6F, 0x20] <+: str
  | .cat => [0x63, 0x61, 0x74] <+: str

theorem mainCommand_iff (str : List Byte) (program : Program) :
    mainCommand str = some program ↔ program.Accepts str := by
  constructor
  · intro found
    unfold mainCommand at found
    simp only [Option.ite_none_left_eq_some] at found
    obtain ⟨-, -, -, found⟩ := found
    split_ifs at found with sleep ls ps kill file echo cat <;> cases found
    · exact sleep
    · exact ls
    · exact ps
    · exact kill
    · exact echo
    · exact cat
  · cases program with
    | kill =>
        rintro ⟨⟨rest, rfl⟩, flag⟩
        simpa [mainCommand] using flag
    | _ =>
        rintro ⟨rest, rfl⟩
        simp [mainCommand]

theorem scriptCommand_iff (str : List Byte) (program : Program) :
    scriptCommand str = some program ↔
      program.Accepts str ∧ (program = .cat → str.getD 3 0 = 0x20) := by
  constructor
  · intro found
    unfold scriptCommand at found
    split_ifs at found with sleep cat echo ls kill ps <;> cases found
    · exact ⟨sleep, nofun⟩
    · obtain ⟨rest, rfl⟩ := cat
      exact ⟨⟨0x20 :: rest, rfl⟩, fun _ => rfl⟩
    · exact ⟨echo, nofun⟩
    · exact ⟨ls, nofun⟩
    · exact ⟨kill, nofun⟩
    · exact ⟨ps, nofun⟩
  · rintro ⟨accepts, space⟩
    cases program with
    | kill =>
        obtain ⟨⟨rest, rfl⟩, flag⟩ := accepts
        simpa [scriptCommand] using flag
    | cat =>
        obtain ⟨rest, rfl⟩ := accepts
        have here := space rfl
        cases rest with
        | nil => exact absurd here (by decide)
        | cons char rest =>
            have isSpace : char = 0x20 := here
            simp [scriptCommand, isSpace]
    | _ =>
        obtain ⟨rest, rfl⟩ := accepts
        simp [scriptCommand]

/-! ## Squeezed lines -/

/-- What a squeezed line shares with the line: the word before the spaces, the
last character, and a smaller length. -/
structure Squeezed (str line : List Byte) : Prop where
  shorter : str.length < line.length
  last : str.getLast? = line.getLast?
  word : ∃ word, 0x20 ∉ word ∧ word ++ [0x20] <+: str ∧
    word ++ [0x20, 0x20] <+: line ∧ word.length + 1 < str.length

theorem removespace_of_text {line rest ch : List Byte} {space : Byte}
    (behind : line.dropWhile (· ≠ 0x20) = space :: rest)
    (text : rest.dropWhile (· = 0x20) = ch) (nonempty : ch ≠ []) :
    removespace line = line.takeWhile (· ≠ 0x20) ++ space :: ch := by
  unfold removespace
  simp only [behind, text]

theorem removespace_cases (line : List Byte) :
    removespace line = line ∨ Squeezed (removespace line) line := by
  have parts : line.takeWhile (· ≠ 0x20) ++ line.dropWhile (· ≠ 0x20) =
      line := List.takeWhile_append_dropWhile
  have noSpace : 0x20 ∉ line.takeWhile (· ≠ (0x20 : Byte)) := by
    intro member
    have kept := List.mem_takeWhile_imp member
    exact absurd kept (by decide)
  cases behind : line.dropWhile (· ≠ (0x20 : Byte)) with
  | nil =>
      left
      unfold removespace
      simp only [behind]
  | cons space rest =>
      have isSpace : space = 0x20 := by
        have first := List.head?_dropWhile_not (· ≠ (0x20 : Byte)) line
        rw [behind] at first
        simpa using first
      have gap : rest.takeWhile (· = 0x20) ++ rest.dropWhile (· = 0x20) =
          rest := List.takeWhile_append_dropWhile
      rw [behind, isSpace] at parts
      cases text : rest.dropWhile (· = (0x20 : Byte)) with
      | nil =>
          left
          unfold removespace
          simp only [behind, text]
      | cons char chars =>
          rw [removespace_of_text behind text (List.cons_ne_nil _ _),
            isSpace]
          rw [text] at gap
          cases spaces : rest.takeWhile (· = (0x20 : Byte)) with
          | nil =>
              rw [spaces, List.nil_append] at gap
              left
              rw [gap]
              exact parts
          | cons second more =>
              have isSecond : second = 0x20 := by
                have member : second ∈ rest.takeWhile (· = (0x20 : Byte)) := by
                  rw [spaces]
                  exact List.mem_cons_self ..
                simpa using List.mem_takeWhile_imp member
              rw [spaces, isSecond] at gap
              right
              generalize line.takeWhile (· ≠ (0x20 : Byte)) = word at *
              rw [← gap] at parts
              rw [← parts]
              constructor
              · simp only [List.length_append, List.length_cons]
                omega
              · have last : ∀ front : List Byte,
                    (front ++ char :: chars).getLast? =
                      (char :: chars).getLast? :=
                  fun front => List.getLast?_append_of_ne_nil front
                    (List.cons_ne_nil _ _)
                have first := last (word ++ [0x20])
                have second := last (word ++ 0x20 :: 0x20 :: more)
                simp only [List.append_assoc, List.cons_append,
                  List.nil_append] at first second ⊢
                rw [first, second]
              · refine ⟨word, noSpace, ?_, ?_, ?_⟩
                · exact ⟨char :: chars, by simp⟩
                · exact ⟨more ++ char :: chars, by simp⟩
                · simp only [List.length_append, List.length_cons]
                  omega

theorem Squeezed.drop {str line : List Byte} (squeezed : Squeezed str line)
    {off : Nat} (inside : off ≤ str.length) :
    str.drop off ≠ line.drop off := by
  intro same
  have lengths := congrArg List.length same
  have shorter := squeezed.shorter
  simp only [List.length_drop] at lengths
  omega

/-- A form that ends with the only space in it is that of the word. -/
theorem word_of_starts {word form str : List Byte} (noSpace : 0x20 ∉ form)
    (noSpaceWord : 0x20 ∉ word) (starts : form ++ [0x20] <+: str)
    (wordStarts : word ++ [0x20] <+: str) : word = form := by
  obtain ⟨first, isFirst⟩ := starts
  obtain ⟨second, isSecond⟩ := wordStarts
  have same : form ++ 0x20 :: first = word ++ 0x20 :: second := by
    simpa using isFirst.trans isSecond.symm
  have formWord : (form ++ 0x20 :: first).takeWhile (· ≠ 0x20) = form := by
    rw [List.takeWhile_append_of_pos]
    · simp
    · intro char member
      have other : char ≠ 0x20 := by
        rintro rfl
        exact noSpace member
      simpa using other
  have wordWord : (word ++ 0x20 :: second).takeWhile (· ≠ 0x20) = word := by
    rw [List.takeWhile_append_of_pos]
    · simp
    · intro char member
      have other : char ≠ 0x20 := by
        rintro rfl
        exact noSpaceWord member
      simpa using other
  rw [← wordWord, ← same, formWord]

/-- Two spaces stand behind the flag of `kill`. -/
theorem length_of_kill {word line : List Byte}
    (starts : [0x6B, 0x69, 0x6C, 0x6C] <+: line)
    (flag : [0x2D, 0x39] <+: line.drop 5)
    (second : word ++ [0x20, 0x20] <+: line) : 7 ≤ word.length := by
  have letters : ∀ (i : Nat) (inside : i < 4),
      (line)[i]? = some [0x6B, 0x69, 0x6C, (0x6C : Byte)][i] := by
    intro i inside
    obtain ⟨rest, rfl⟩ := starts
    rw [List.getElem?_append_left inside, List.getElem?_eq_getElem inside]
  have sign : ∀ (i : Nat) (inside : i < 2),
      (line)[5 + i]? = some [0x2D, (0x39 : Byte)][i] := by
    intro i inside
    obtain ⟨rest, behind⟩ := flag
    rw [← List.getElem?_drop, ← behind, List.getElem?_append_left inside,
      List.getElem?_eq_getElem inside]
  have spaces : (line)[word.length]? = some 0x20 ∧
      (line)[word.length + 1]? = some 0x20 := by
    obtain ⟨rest, rfl⟩ := second
    simp
  by_contra short
  have upTo : word.length ≤ 6 := by omega
  generalize word.length = length at spaces upTo
  have first := letters 0 (by decide)
  have k := letters 1 (by decide)
  have l := letters 2 (by decide)
  have m := letters 3 (by decide)
  have minus := sign 0 (by decide)
  have nine := sign 1 (by decide)
  interval_cases length <;> simp_all

/-- Where the script finds a command in the line, `main` finds it in the
squeezed one. -/
theorem Squeezed.accepts {str line : List Byte} (squeezed : Squeezed str line)
    {program : Program} (accepts : program.Accepts line)
    (script : program = .cat → line.getD 3 0 = 0x20) :
    program.Accepts str := by
  obtain ⟨word, noSpace, first, second, -⟩ := squeezed.word
  have wordLine : word ++ [0x20] <+: line :=
    (List.prefix_append_right_inj word).mpr ⟨[0x20], rfl⟩ |>.trans second
  -- a form with a space at its end is the word and its space
  have spaced : ∀ form : List Byte, 0x20 ∉ form → form ++ [0x20] <+: line →
      form ++ [0x20] <+: str := by
    intro form noSpaceForm starts
    rw [← word_of_starts noSpaceForm noSpace starts wordLine]
    exact first
  -- a form without a space lies in the word
  have unspaced : ∀ form : List Byte, 0x20 ∉ form → form <+: line →
      form <+: str := by
    intro form noSpaceForm starts
    refine List.IsPrefix.trans ?_ first
    rcases List.prefix_or_prefix_of_prefix starts wordLine with inside | long
    · exact inside
    · exfalso
      exact noSpaceForm (long.subset (List.mem_append_right _
        (List.mem_singleton.mpr rfl)))
  cases program with
  | sleep => exact spaced [0x73, 0x6C, 0x65, 0x65, 0x70] (by decide) accepts
  | ls => exact unspaced _ (by decide) accepts
  | ps => exact unspaced _ (by decide) accepts
  | echo => exact spaced [0x65, 0x63, 0x68, 0x6F] (by decide) accepts
  | cat => exact unspaced _ (by decide) accepts
  | kill =>
      obtain ⟨starts, flag⟩ := accepts
      refine ⟨unspaced _ (by decide) starts, ?_⟩
      have long := length_of_kill starts flag second
      have inWord : [0x2D, 0x39] <+: word.drop 5 := by
        apply List.prefix_of_prefix_length_le flag
          (((List.prefix_append word [0x20]).trans wordLine).drop 5)
        simp only [List.length_cons, List.length_nil, List.length_drop]
        omega
      exact inWord.trans
        (((List.prefix_append word [0x20]).trans first).drop 5)

/-- A form without a space that starts a squeezed line lies in its word. -/
theorem length_le_of_form {word form str : List Byte} (noSpace : 0x20 ∉ form)
    (starts : form <+: str) (wordStarts : word ++ [0x20] <+: str) :
    form.length ≤ word.length := by
  by_contra longer
  have inside : word ++ [0x20] <+: form := by
    apply List.prefix_of_prefix_length_le wordStarts starts
    simp only [List.length_append, List.length_singleton]
    omega
  exact noSpace (inside.subset
    (List.mem_append_right _ (List.mem_singleton.mpr rfl)))

/-! ## The argument with the current directory -/

/-- The text of the argument fits in the arrays. -/
def Room (cwd str : List Byte) (off : Nat) : Prop :=
  off + (cwd.drop 7 ++ str.drop off).length + 3 ≤ 100

theorem addParent_eq_ok {below : Nat → Byte} {str cwd arg : List Byte}
    {off : Nat} (made : addParent below str off cwd = .ok arg) :
    Room cwd str off ∧
      arg = (cwd.drop 7 ++ str.drop off) ++
        if NeedsSlash below
            ((str ++ [0]).take off ++ (cwd.drop 7 ++ str.drop off))
        then [0x2F] else [] := by
  unfold addParent at made
  simp only at made
  split_ifs at made with room slash
  · cases made
    exact ⟨room, by rw [if_pos slash]⟩
  · cases made
    exact ⟨room, by rw [if_neg slash, List.append_nil]⟩

theorem addParent_of_room {below : Nat → Byte} {str cwd : List Byte}
    {off : Nat} (room : Room cwd str off) :
    addParent below str off cwd =
      .ok ((cwd.drop 7 ++ str.drop off) ++
        if NeedsSlash below
            ((str ++ [0]).take off ++ (cwd.drop 7 ++ str.drop off))
        then [0x2F] else []) := by
  unfold addParent
  simp only [if_pos (show _ ≤ _ from room)]
  split_ifs
  · rfl
  · rw [List.append_nil]
    rfl

theorem charAt_last {below : Nat → Byte} {array : List Byte} {char : Byte}
    (last : array.getLast? = some char) :
    charAt below array (array.length - 1) = char := by
  have nonempty : array ≠ [] := by
    rintro rfl
    cases last
  have positive := List.length_pos_iff.mpr nonempty
  rw [List.getLast?_eq_getElem?] at last
  unfold charAt
  rw [if_pos (by omega), show ((array.length : Int) - 1).toNat =
    array.length - 1 by omega, List.getD_eq_getElem?_getD, last]
  rfl

/-- The slash cannot stand for the spaces that are missing. -/
theorem Squeezed.addParent {below belowScript : Nat → Byte}
    {str line cwd arg : List Byte} {off : Nat}
    (squeezed : Squeezed str line) (inside : off < str.length)
    (made : addParent below str off cwd = .ok arg) :
    addParent belowScript line off cwd ≠ .ok arg := by
  intro again
  have shorter := squeezed.shorter
  have first := (addParent_eq_ok made).2
  have second := (addParent_eq_ok again).2
  have lengths := congrArg List.length (first.symm.trans second)
  simp only [List.length_append, List.length_drop] at lengths
  have lastOf : ∀ (front text : List Byte), off < text.length →
      (front ++ (cwd.drop 7 ++ text.drop off)).getLast? = text.getLast? := by
    intro front text long
    have nonempty : text.drop off ≠ [] := by
      rw [ne_eq, List.drop_eq_nil_iff]
      omega
    rw [← List.append_assoc, List.getLast?_append_of_ne_nil _ nonempty,
      List.getLast?_drop, if_neg (by omega)]
  by_cases slash : NeedsSlash below
      ((str ++ [0]).take off ++ (cwd.drop 7 ++ str.drop off))
  · rw [if_pos slash] at first lengths
    by_cases slashScript : NeedsSlash belowScript
        ((line ++ [0]).take off ++ (cwd.drop 7 ++ line.drop off))
    · rw [if_pos slashScript] at lengths
      omega
    · rw [if_neg slashScript, List.append_nil] at second
      have last : str.getLast? = some 0x2F := by
        have ends := lastOf [] line (by omega)
        rw [List.nil_append, ← second, first,
          List.getLast?_concat] at ends
        rw [squeezed.last, ← ends]
      exact slash.1 (charAt_last ((lastOf _ str inside).trans last))
  · rw [if_neg slash] at lengths
    split_ifs at lengths <;> simp only [List.length_nil,
      List.length_singleton] at lengths <;> omega

/-- The condition reads below the array only for a bare `ls` in the root. -/
theorem needsSlash_congr {array : List Byte}
    (far : 4 ≤ array.length ∨ array.getD (array.length - 2) 0 = 0x73 ∧
      2 ≤ array.length) (below belowScript : Nat → Byte) :
    NeedsSlash below array ↔ NeedsSlash belowScript array := by
  rcases far with long | ⟨letter, long⟩
  · have same : ∀ k ≤ 4, charAt below array (array.length - k : Int) =
        charAt belowScript array (array.length - k : Int) := by
      intro k small
      unfold charAt
      rw [if_pos (by omega), if_pos (by omega)]
    have one := same 1 (by decide)
    have two := same 2 (by decide)
    have three := same 3 (by decide)
    have four := same 4 (by decide)
    unfold NeedsSlash
    rw [one, two, three, four]
  · have stops : ∀ below : Nat → Byte, ¬ NeedsSlash below array := by
      intro below slash
      apply slash.2.2.1
      unfold charAt
      rw [if_pos (by omega),
        show ((array.length : Int) - 2).toNat = array.length - 2 by omega]
      exact letter
    exact iff_of_false (stops below) (stops belowScript)

/-- What the bytes below the array say for a bare `ls`. -/
def SlashBelow (below : Nat → Byte) : Prop :=
  below 1 ≠ 0x2E ∧ below 2 ≠ 0x2E ∧ below 1 ≠ 0x74

theorem needsSlash_ls (below : Nat → Byte) :
    NeedsSlash below [0x6C, 0x73] ↔ SlashBelow below := by
  simp [NeedsSlash, SlashBelow, charAt]

/-- The condition: there is nothing to squeeze, `cat` has its space, and the
argument of `cat` or `ls` fits in the arrays.  For a bare `ls` in the root the
bytes below the two arrays have to say the same. -/
structure SameCommand (below belowScript : Nat → Byte) (cwd line : List Byte)
    (program : Program) : Prop where
  squeezed : removespace line = line
  cat : program = .cat → line.getD 3 0 = 0x20 ∧ Room cwd line 4
  ls : program = .ls → Room cwd line (lsOffset line)
  bare : line = [0x6C, 0x73] → cwd.drop 7 = [] →
    (SlashBelow below ↔ SlashBelow belowScript)

/-! ## Both dispatchers -/

section Dispatchers

variable {below belowScript : Nat → Byte} {cwd str line : List Byte}

theorem execute_eq_ok {command : Option Program}
    {call : Option (Program × List Byte)}
    (ran : execute below cwd str command = .ok call) :
    command = call.map Prod.fst ∧
      ∀ program arg, call = some (program, arg) →
        argument below cwd str program = .ok arg := by
  cases command with
  | none =>
      cases ran
      exact ⟨rfl, nofun⟩
  | some program =>
      cases made : argument below cwd str program with
      | error failure =>
          rw [execute, made] at ran
          cases ran
      | ok arg =>
          rw [execute, made] at ran
          cases ran
          refine ⟨rfl, ?_⟩
          intro other otherArg same
          cases same
          exact made

theorem execute_some {program : Program} {arg : List Byte}
    (made : argument below cwd str program = .ok arg) :
    execute below cwd str (some program) = .ok (some (program, arg)) := by
  rw [execute, made]
  rfl

theorem getD_of_starts {front : List Byte} (starts : front <+: str) {i : Nat}
    (inside : i < front.length) : str.getD i 0 = front.getD i 0 := by
  obtain ⟨rest, rfl⟩ := starts
  exact List.getD_append _ _ _ _ inside

/-- A squeezed line gives another argument. -/
theorem Squeezed.argument_ne (squeezed : Squeezed str line)
    {program : Program} (accepts : program.Accepts str) {arg : List Byte}
    (made : argument below cwd str program = .ok arg) :
    argument belowScript cwd line program ≠ .ok arg := by
  obtain ⟨word, noSpace, first, second, room⟩ := squeezed.word
  have wordLine : word ++ [0x20] <+: line :=
    (List.prefix_append_right_inj word).mpr ⟨[0x20], rfl⟩ |>.trans second
  have dropped : ∀ off ≤ str.length, str.drop off = arg →
      (.ok (line.drop off) : Except Fault (List Byte)) ≠ .ok arg := by
    intro off inside isArg again
    exact squeezed.drop inside (isArg.trans (Except.ok.inj again).symm)
  cases program with
  | sleep => exact dropped 6 accepts.length_le (Except.ok.inj made)
  | echo => exact dropped 5 accepts.length_le (Except.ok.inj made)
  | ps => exact dropped 0 (Nat.zero_le _) (Except.ok.inj made)
  | kill =>
      have flag := accepts.2.length_le
      simp only [List.length_cons, List.length_nil, List.length_drop] at flag
      exact dropped 7 (by omega) (Except.ok.inj made)
  | cat =>
      have long := length_le_of_form (by decide) accepts first
      simp only [List.length_cons, List.length_nil] at long
      exact squeezed.addParent (by omega) made
  | ls =>
      have long := length_le_of_form (by decide) accepts first
      simp only [List.length_cons, List.length_nil] at long
      have third : str.getD 2 0 = line.getD 2 0 := by
        have inside : 2 < (word ++ [0x20]).length := by
          simp only [List.length_append, List.length_singleton]
          omega
        rw [getD_of_starts first inside, getD_of_starts wordLine inside]
      have sameOffset : lsOffset line = lsOffset str := by
        unfold lsOffset
        rw [third]
      have small : lsOffset str ≤ 3 := by
        unfold lsOffset
        split <;> omega
      unfold argument
      rw [sameOffset]
      exact squeezed.addParent (by omega) made

/-- A command of the line itself. -/
theorem argument_alike {program : Program} (accepts : program.Accepts line)
    (same : SameCommand below belowScript cwd line program) :
    ∃ arg, argument below cwd line program = .ok arg ∧
      argument belowScript cwd line program = .ok arg := by
  have slashes : ∀ off, Room cwd line off →
      (NeedsSlash below
        ((line ++ [0]).take off ++ (cwd.drop 7 ++ line.drop off)) ↔
      NeedsSlash belowScript
        ((line ++ [0]).take off ++ (cwd.drop 7 ++ line.drop off))) →
        ∃ arg, addParent below line off cwd = .ok arg ∧
          addParent belowScript line off cwd = .ok arg := by
    intro off room alike
    refine ⟨_, addParent_of_room room, ?_⟩
    rw [addParent_of_room room]
    simp only [alike]
  cases program with
  | sleep => exact ⟨_, rfl, rfl⟩
  | echo => exact ⟨_, rfl, rfl⟩
  | ps => exact ⟨_, rfl, rfl⟩
  | kill => exact ⟨_, rfl, rfl⟩
  | cat =>
      obtain ⟨space, room⟩ := same.cat rfl
      apply slashes 4 room
      apply needsSlash_congr
      have long : 4 ≤ line.length := by
        by_contra short
        rw [List.getD_eq_default _ _ (by omega)] at space
        exact absurd space (by decide)
      left
      simp only [List.length_append, List.length_take, List.length_singleton]
      omega
  | ls =>
      have room := same.ls rfl
      apply slashes _ room
      obtain ⟨rest, rfl⟩ := accepts
      by_cases bare : rest = [] ∧ cwd.drop 7 = []
      · have alike := same.bare (by rw [bare.1]; rfl) bare.2
        rw [bare.1, bare.2]
        exact (needsSlash_ls below).trans
          (alike.trans (needsSlash_ls belowScript).symm)
      · -- something stands behind the two letters
        obtain ⟨behind, nonempty, isArray⟩ : ∃ behind, behind ≠ [] ∧
            (([0x6C, 0x73] ++ rest ++ [0]).take
                (lsOffset ([0x6C, 0x73] ++ rest)) ++
              (cwd.drop 7 ++
                ([0x6C, 0x73] ++ rest).drop
                  (lsOffset ([0x6C, 0x73] ++ rest)))) =
              0x6C :: 0x73 :: behind := by
          cases rest with
          | nil => exact ⟨cwd.drop 7, fun none => bare ⟨rfl, none⟩, by
              simp [lsOffset]⟩
          | cons char rest =>
              by_cases space : char = 0x20
              · exact ⟨char :: (cwd.drop 7 ++ rest), List.cons_ne_nil _ _, by
                  simp [lsOffset, space]⟩
              · have two : lsOffset ([0x6C, 0x73] ++ char :: rest) = 2 :=
                  if_neg space
                rw [two]
                exact ⟨cwd.drop 7 ++ char :: rest, by simp, by simp⟩
        rw [isArray]
        apply needsSlash_congr
        cases behind with
        | nil => exact absurd rfl nonempty
        | cons char more =>
            cases more with
            | nil => exact Or.inr ⟨rfl, Nat.le_add_left 2 1⟩
            | cons other others =>
                left
                simp only [List.length_cons]
                omega

theorem interactive_of_ne (nonempty : line ≠ []) :
    interactive below cwd line =
      execute below cwd (removespace line) (mainCommand (removespace line)) :=
  if_neg nonempty

theorem interactive_of_none (nothing : mainCommand (removespace line) = none) :
    interactive below cwd line = .ok none := by
  by_cases empty : line = []
  · exact if_pos empty
  · rw [interactive_of_ne empty, nothing]
    rfl

theorem checkingForBinary_eq :
    checkingForBinary below cwd line =
      execute below cwd line (scriptCommand line) := rfl

/-- The script runs what the interactive shell runs if and only if the command
of the line meets the condition, or there is none. -/
theorem runsAlike_iff (below belowScript : Nat → Byte) (cwd : List Byte)
    (line : CommandLine) :
    RunsAlike below belowScript cwd line ↔
      ∀ program, mainCommand (removespace line.text) = some program →
        SameCommand below belowScript cwd line.text program := by
  unfold RunsAlike
  generalize line.text = line
  have filled : ∀ program, mainCommand (removespace line) = some program →
      line ≠ [] := by
    rintro program found rfl
    cases found
  constructor
  · rintro ⟨call, typed, scripted⟩ program found
    rw [interactive_of_ne (filled program found), found] at typed
    rw [checkingForBinary_eq] at scripted
    obtain ⟨isCall, argTyped⟩ := execute_eq_ok typed
    obtain ⟨isCommand, argScripted⟩ := execute_eq_ok scripted
    cases call with
    | none => cases isCall
    | some result =>
        obtain ⟨other, arg⟩ := result
        obtain rfl : program = other := Option.some.inj isCall
        have made := argTyped program arg rfl
        have again := argScripted program arg rfl
        obtain ⟨accepts, space⟩ := (scriptCommand_iff line program).mp isCommand
        rcases removespace_cases line with same | squeezed
        · rw [same] at made
          constructor
          · exact same
          · rintro rfl
            exact ⟨space rfl, (addParent_eq_ok made).1⟩
          · rintro rfl
            exact (addParent_eq_ok made).1
          · rintro rfl root
            have isLs : program = .ls := by
              have found' := found
              rw [same] at found'
              exact (Option.some.inj found').symm
            subst isLs
            have first := (addParent_eq_ok made).2
            have second := (addParent_eq_ok again).2
            rw [first, root] at second
            have slashes : (if NeedsSlash below [0x6C, 0x73]
                then [(0x2F : Byte)] else []) =
                  if NeedsSlash belowScript [0x6C, 0x73]
                    then [0x2F] else [] := by
              simpa [lsOffset] using second
            rw [← needsSlash_ls, ← needsSlash_ls]
            split_ifs at slashes with typedSlash scriptSlash scriptSlash
            · exact iff_of_true typedSlash scriptSlash
            · exact iff_of_false typedSlash scriptSlash
        · have acceptsTyped := (mainCommand_iff _ program).mp found
          exact absurd again (squeezed.argument_ne acceptsTyped made)
  · intro alike
    cases found : mainCommand (removespace line) with
    | none =>
        have nothing : scriptCommand line = none := by
          cases scripted : scriptCommand line with
          | none => rfl
          | some program =>
              obtain ⟨accepts, space⟩ :=
                (scriptCommand_iff line program).mp scripted
              have acceptsTyped : program.Accepts (removespace line) := by
                rcases removespace_cases line with same | squeezed
                · rw [same]
                  exact accepts
                · exact squeezed.accepts accepts space
              rw [(mainCommand_iff _ program).mpr acceptsTyped] at found
              cases found
        refine ⟨none, interactive_of_none found, ?_⟩
        rw [checkingForBinary_eq, nothing]
        rfl
    | some program =>
        have same := alike program found
        have acceptsTyped := (mainCommand_iff _ program).mp found
        rw [same.squeezed] at acceptsTyped
        have scripted : scriptCommand line = some program :=
          (scriptCommand_iff line program).mpr
            ⟨acceptsTyped, fun isCat => (same.cat isCat).1⟩
        obtain ⟨arg, made, again⟩ := argument_alike acceptsTyped same
        refine ⟨some (program, arg), ?_, ?_⟩
        · rw [interactive_of_ne (filled program found), found, same.squeezed]
          exact execute_some made
        · rw [checkingForBinary_eq, scripted]
          exact execute_some again

end Dispatchers

/-- `echo`, two spaces and a letter. -/
def spacedEcho : CommandLine where
  text := [0x65, 0x63, 0x68, 0x6F, 0x20, 0x20, 0x61]
  short := by decide
  noNul := by decide

/-- The script hands the second space to the program. -/
theorem not_runsAlike_spacedEcho :
    ¬ ∀ (below belowScript : Nat → Byte) (cwd : List Byte)
      (line : CommandLine),
        (mainCommand (removespace line.text)).isSome →
          RunsAlike below belowScript cwd line := by
  intro always
  obtain ⟨call, typed, scripted⟩ := always (fun _ => 0) (fun _ => 0) []
    spacedEcho (by decide)
  have first : interactive (fun _ => 0) [] spacedEcho.text =
      .ok (some (.echo, [0x61])) := by
    decide
  have second : checkingForBinary (fun _ => 0) [] spacedEcho.text =
      .ok (some (.echo, [0x20, 0x61])) := by
    decide
  rw [first] at typed
  rw [second] at scripted
  cases typed
  cases scripted

end SbuUnix
