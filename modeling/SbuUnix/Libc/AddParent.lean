import SbuUnix.Libc.Strings
import SbuUnix.Shell.Dispatch
import SbuUnix.Tarfs.Archive

/-!
# Paths of the shell

`addParent` of `libc/unistd.c` in memory: it puts the working directory before
an argument, and appends a slash unless one of eight tests of the last four
characters says that the path is a file's.
-/

namespace SbuUnix

/-- What `addParent` leaves: the memory, and where its condition looked,
counted from the start of the argument. -/
structure ParentEnd where
  mem : Memory
  looked : List Int

/-- The operands of the condition in their order: how far before the end, and
the character that must not be there. -/
def slashTests : List (Nat × Byte) :=
  [(1, 0x2F), (3, 0x2E), (2, 0x73), (1, 0x68), (4, 0x2E), (3, 0x74),
    (2, 0x78), (1, 0x74)]

/-- The condition, up to the first test that fails. -/
def passTests (mem : Memory) (str : Nat) (len : Int) :
    List (Nat × Byte) → Bool × List Int
  | [] => (true, [])
  | (back, char) :: rest =>
      if mem (str + (len - back)).toNat ≠ char then
        let (passed, looked) := passTests mem str len rest
        (passed, (len - back) :: looked)
      else
        (false, [len - back])

namespace Libc

/-- `addParent`, with its array `temp`. -/
def addParent (fuel : Nat) (mem : Memory) (parent str temp : Nat) :
    Except Fault ParentEnd := do
  let mem ← strcpy fuel mem temp (parent + 7)
  let mem ← strcat fuel mem temp (.address str)
  let mem ← strcpy fuel mem str temp
  let (len, mem) ← strlen fuel mem str
  let (passed, looked) := passTests mem str len slashTests
  if passed then
    let mem := store mem (str + len).toNat 0x2F
    let mem := store mem (str + len + 1).toNat 0
    pure { mem, looked }
  else
    pure { mem, looked }

end Libc

/-! ## The path -/

/-- An argument and a working directory, whose path fits the array. -/
structure PathCall (mem : Memory) (parent str temp : Nat)
    (rootfs cwd arg : List Byte) : Prop where
  cwdText : TextAt mem parent (rootfs ++ cwd)
  rootfsLength : rootfs.length = 7
  argText : TextAt mem str arg
  notEmpty : arg ≠ []
  short : (cwd ++ arg).length ≤ 98
  tempCwd : Apart temp 100 parent ((rootfs ++ cwd).length + 1)
  tempArg : Apart temp 100 str ((cwd ++ arg).length + 3)

section Call

variable {mem : Memory} {parent str temp fuel : Nat}
  {rootfs cwd arg text other : List Byte}

/-- The path stands at the argument, and `strlen` has stored its NULs. -/
theorem addParent_path (call : PathCall mem parent str temp rootfs cwd arg)
    (enough : (cwd ++ arg).length < fuel) :
    ∃ after, TextAt after str (cwd ++ arg) ∧
      Libc.addParent fuel mem parent str temp =
        let (passed, looked) :=
          passTests after str (cwd ++ arg).length slashTests
        if passed then
          .ok { mem := store (store after (str + (cwd ++ arg).length) 0x2F)
                  (str + (cwd ++ arg).length + 1) 0
                looked }
        else
          .ok { mem := after, looked } := by
  obtain ⟨cwdText, rootfsLength, argText, notEmpty, short, tempCwd, tempArg⟩ :=
    call
  have parentText := (textAt_append.mp cwdText).2.2
  rw [rootfsLength] at parentText
  simp only [List.length_append] at short enough tempCwd tempArg
  have noNul : 0 ∉ cwd ++ arg := by
    rw [List.mem_append, not_or]
    exact ⟨parentText.noNul, argText.noNul⟩
  unfold Apart at tempCwd tempArg
  -- `strcpy(temp, parent + 7)`
  have first : Libc.strcpy fuel mem temp (parent + 7) =
      .ok (endText (putField mem temp cwd) (temp + cwd.length)) :=
    libc_strcpy_eq parentText (by omega) (by unfold Apart; omega)
  have cwdCopied : TextAt (endText (putField mem temp cwd)
      (temp + cwd.length)) temp cwd :=
    textAt_copied parentText.noNul
  have argKept : TextAt (endText (putField mem temp cwd)
      (temp + cwd.length)) str arg :=
    argText.congr fun place _ _ => copied_outside (by omega)
  generalize endText (putField mem temp cwd) (temp + cwd.length) = mem1
    at first cwdCopied argKept
  -- `strcat(temp, str)`
  have second := strcat_eq argKept cwdCopied (show arg.length < fuel by omega)
    (show cwd.length < fuel by omega) (by unfold Apart; omega)
  have pathBuilt : TextAt (endText (putField mem1 (temp + cwd.length) arg)
      (temp + (cwd.length + arg.length))) temp (cwd ++ arg) := by
    rw [← Nat.add_assoc]
    refine textAt_append.mpr ⟨?_, parentText.noNul,
      textAt_copied argText.noNul⟩
    intro offset below
    rw [copied_outside (by omega)]
    exact (holdsAt_append.mp cwdCopied.chars).1 offset below
  generalize endText (putField mem1 (temp + cwd.length) arg)
    (temp + (cwd.length + arg.length)) = mem2 at second pathBuilt
  -- `strcpy(str, temp)`
  have length : (cwd ++ arg).length = cwd.length + arg.length :=
    List.length_append
  have third : Libc.strcpy fuel mem2 str temp =
      .ok (endText (putField mem2 str (cwd ++ arg))
        (str + (cwd ++ arg).length)) :=
    libc_strcpy_eq pathBuilt (by omega) (by unfold Apart; omega)
  have pathCopied : TextAt (endText (putField mem2 str (cwd ++ arg))
      (str + (cwd ++ arg).length)) str (cwd ++ arg) :=
    textAt_copied noNul
  generalize endText (putField mem2 str (cwd ++ arg))
    (str + (cwd ++ arg).length) = mem3 at third pathCopied
  -- `strlen(str)`
  have measured := libc_strlen_eq pathCopied
    (show (cwd ++ arg).length < fuel by omega)
  rw [int32_of_small (by omega)] at measured
  refine ⟨endText mem3 (str + (cwd ++ arg).length + 1), ?_, ?_⟩
  · apply pathCopied.congr
    intro place _ below
    rw [endText_apply, if_neg (by omega)]
  · rw [Libc.addParent, first]
    show (strcat fuel mem1 temp (.address str) >>= _) = _
    rw [second]
    show (Libc.strcpy fuel mem2 str temp >>= _) = _
    rw [third]
    show (Libc.strlen fuel mem3 str >>= _) = _
    rw [measured]
    show (if _ then _ else _) = _
    rfl

end Call

/-! ## The tests -/

section Tests

variable {mem : Memory} {str : Nat} {path : List Byte}

/-- The character so far before the end of a path. -/
def fromEnd (path : List Byte) (back : Nat) : Byte :=
  path.getD (path.length - back) 0

/-- Every test is made inside of the path and passed. -/
def PassesAll (path : List Byte) : List (Nat × Byte) → Prop
  | [] => True
  | (back, char) :: rest =>
      back ≤ path.length ∧ fromEnd path back ≠ char ∧ PassesAll path rest

/-- A test fails, and all up to it are made inside of the path. -/
def FailsInside (path : List Byte) : List (Nat × Byte) → Prop
  | [] => False
  | (back, char) :: rest =>
      back ≤ path.length ∧ (fromEnd path back = char ∨ FailsInside path rest)

/-- A path that keeps its end although it has no slash: one of the characters
of `.sh`, `.s` or `.txt` stands where the tests look for it. -/
def KeepsEnd (path : List Byte) : Prop :=
  3 ≤ path.length ∧ (fromEnd path 3 = 0x2E ∨ fromEnd path 2 = 0x73 ∨
      fromEnd path 1 = 0x68) ∨
    4 ≤ path.length ∧ (fromEnd path 4 = 0x2E ∨ fromEnd path 3 = 0x74 ∨
      fromEnd path 2 = 0x78 ∨ fromEnd path 1 = 0x74)

theorem mem_fromEnd (isText : TextAt mem str path) {back : Nat}
    (inside : back ≤ path.length) (positive : 0 < back) :
    mem ((str : Int) + ((path.length : Int) - back)).toNat =
      fromEnd path back := by
  have place : ((str : Int) + ((path.length : Int) - back)).toNat =
      str + (path.length - back) := by
    omega
  have here := isText.chars (path.length - back) (by
    rw [List.length_append, List.length_singleton]
    omega)
  rw [place, here, fromEnd, List.getD_append _ _ _ _ (by omega)]

/-- The condition, when it only looks at the path. -/
theorem passTests_inside_iff (isText : TextAt mem str path) :
    ∀ {tests : List (Nat × Byte)}, (∀ test ∈ tests, 0 < test.1) →
      ((passTests mem str path.length tests).1 = true ∧
          (∀ offset ∈ (passTests mem str path.length tests).2, 0 ≤ offset) ↔
        PassesAll path tests) ∧
      ((passTests mem str path.length tests).1 = false ∧
          (∀ offset ∈ (passTests mem str path.length tests).2, 0 ≤ offset) ↔
        FailsInside path tests) := by
  intro tests
  induction tests with
  | nil =>
      intro _
      simp [passTests, PassesAll, FailsInside]
  | cons test rest inductionHypothesis =>
      obtain ⟨back, char⟩ := test
      intro positive
      obtain ⟨passes, fails⟩ := inductionHypothesis
        fun other member => positive other (List.mem_cons_of_mem _ member)
      have ahead : 0 < back := positive _ (List.mem_cons_self ..)
      have inPath : (0 : Int) ≤ path.length - back ↔ back ≤ path.length := by
        omega
      rw [PassesAll, FailsInside, ← passes, ← fails, passTests]
      by_cases inside : back ≤ path.length
      · rw [mem_fromEnd isText inside ahead]
        by_cases same : fromEnd path back = char
        · rw [if_neg (not_not.mpr same)]
          simp [same, inside]
        · rw [if_pos same]
          simp [same, inside]
      · split
        · simp [inside]
        · simp [inside]

theorem passesAll_slashTests :
    PassesAll path slashTests ↔
      4 ≤ path.length ∧ fromEnd path 1 ≠ 0x2F ∧ ¬ KeepsEnd path := by
  simp only [slashTests, PassesAll, KeepsEnd, and_true]
  grind

theorem failsInside_slashTests (notEmpty : path ≠ []) :
    FailsInside path slashTests ↔
      fromEnd path 1 = 0x2F ∨ KeepsEnd path := by
  have positive : 1 ≤ path.length := List.length_pos_iff.mpr notEmpty
  simp only [slashTests, FailsInside, KeepsEnd, or_false]
  grind

/-- The tests are the condition that the shell's model has for a path. -/
theorem passTests_needsSlash (isText : TextAt mem str path) :
    (passTests mem str path.length slashTests).1 = true ↔
      NeedsSlash (fun back => mem (str - back)) path := by
  have look : ∀ back : Nat, 0 < back →
      mem ((str : Int) + ((path.length : Int) - back)).toNat =
        charAt (fun back => mem (str - back)) path
          ((path.length : Int) - back) := by
    intro back positive
    unfold charAt
    split
    · rw [mem_fromEnd isText (by omega) positive, fromEnd]
      congr 1
      omega
    · congr 1
      omega
  have lookOne := look 1 (by decide)
  have lookTwo := look 2 (by decide)
  have lookThree := look 3 (by decide)
  have lookFour := look 4 (by decide)
  simp only [Nat.cast_one, Nat.cast_ofNat] at lookOne lookTwo lookThree lookFour
  simp only [slashTests, passTests, NeedsSlash, Nat.cast_one, Nat.cast_ofNat,
    lookOne, lookTwo, lookThree, lookFour]
  grind

end Tests

/-! ## The names of the archive -/

/-- A path names an entry: a regular file, or a directory with or without its
slash. -/
def Entry.NamedBy (entry : Entry) (path : List Byte) : Prop :=
  entry.name = path ∨ entry.isDirectory = true ∧ entry.name = path ++ [slash]

/-- The argument became a name, and nothing below it was read. -/
structure ResolvesTo (result : ParentEnd) (str : Nat) (name : List Byte) :
    Prop where
  text : TextAt result.mem str name
  noneBelow : ∀ offset ∈ result.looked, 0 ≤ offset

section Resolution

variable {mem : Memory} {parent str temp fuel : Nat}
  {rootfs cwd arg path : List Byte} {entry : Entry}

theorem textAt_addSlash (isText : TextAt mem str path) :
    TextAt (store (store mem (str + path.length) 0x2F)
      (str + path.length + 1) 0) str (path ++ [slash]) := by
  refine textAt_append.mpr ⟨fun offset below => ?_, isText.noNul,
    textAt_cons.mpr ⟨by decide, ?_, textAt_nil.mpr (store_same ..)⟩⟩
  · rw [store_other (by omega), store_other (by omega)]
    exact (holdsAt_append.mp isText.chars).1 offset below
  · rw [store_other (by omega), store_same]
    rfl

/-- `addParent` makes the name of an entry of a path exactly when the path
ends like what the entry is. -/
theorem addParent_resolves_iff
    (call : PathCall mem parent str temp rootfs cwd arg)
    (named : entry.NamedBy (cwd ++ arg))
    (enough : (cwd ++ arg).length < fuel) :
    ∃ result, Libc.addParent fuel mem parent str temp = .ok result ∧
      (ResolvesTo result str entry.name ↔
        if entry.name = cwd ++ arg then
          fromEnd (cwd ++ arg) 1 = slash ∨ KeepsEnd (cwd ++ arg)
        else
          4 ≤ (cwd ++ arg).length ∧ fromEnd (cwd ++ arg) 1 ≠ slash ∧
            ¬ KeepsEnd (cwd ++ arg)) := by
  obtain ⟨after, isText, returned⟩ := addParent_path call enough
  have notEmpty : cwd ++ arg ≠ [] := by
    simp [call.notEmpty]
  have tests := passTests_inside_iff isText
    (show ∀ test ∈ slashTests, 0 < test.1 by decide)
  generalize passTests after str (cwd ++ arg).length slashTests = outcome
    at returned tests
  obtain ⟨passed, looked⟩ := outcome
  have kept := tests.2.trans (failsInside_slashTests notEmpty)
  have added := tests.1.trans passesAll_slashTests
  have different : cwd ++ arg ++ [slash] ≠ cwd ++ arg := by simp
  have isOther : entry.name ≠ cwd ++ arg →
      entry.name = cwd ++ arg ++ [slash] :=
    fun notPath => (named.resolve_left notPath).2
  cases passed with
  | true =>
      have written := textAt_addSlash isText
      refine ⟨_, returned, ?_⟩
      split
      · rename_i isPath
        apply iff_of_false
        · intro resolves
          exact different ((written.unique resolves.text).trans isPath)
        · exact fun keeps => Bool.false_ne_true (kept.mpr keeps).1.symm
      · rename_i notPath
        have isName := isOther notPath
        constructor
        · exact fun resolves => added.mp ⟨rfl, resolves.noneBelow⟩
        · exact fun adds => ⟨isName ▸ written, (added.mpr adds).2⟩
  | false =>
      refine ⟨_, returned, ?_⟩
      split
      · rename_i isPath
        constructor
        · exact fun resolves => kept.mp ⟨rfl, resolves.noneBelow⟩
        · exact fun keeps => ⟨isPath ▸ isText, (kept.mpr keeps).2⟩
      · rename_i notPath
        apply iff_of_false
        · exact fun resolves => notPath (resolves.text.unique isText)
        · exact fun adds => Bool.false_ne_true (added.mpr adds).1

end Resolution

/-- A memory with `rootfs/` at 0, an argument at 16 and the array behind. -/
def pathMemory (arg : List Byte) : Memory :=
  putField (fun place => [0x72, 0x6F, 0x6F, 0x74, 0x66, 0x73, 0x2F].getD
    place 0) 16 (arg ++ [0])

theorem pathCall_pathMemory {arg : List Byte} (noNul : 0 ∉ arg)
    (notEmpty : arg ≠ []) (short : arg.length ≤ 98) :
    PathCall (pathMemory arg) 0 16 200
      [0x72, 0x6F, 0x6F, 0x74, 0x66, 0x73, 0x2F] [] arg where
  cwdText := by
    apply (textAt_getD (by decide)).congr
    intro place _ below
    exact putField_below (Nat.lt_of_le_of_lt below (by decide))
  rootfsLength := rfl
  argText := ⟨holdsAt_putField _ _ _, noNul⟩
  notEmpty := notEmpty
  short := short
  tempCwd := Or.inr (by decide)
  tempArg := Or.inr (by simp only [List.nil_append]; omega)

/-- `home` is made `home/`. -/
theorem addParent_resolves_home :
    ∃ result, Libc.addParent 5 (pathMemory [0x68, 0x6F, 0x6D, 0x65]) 0 16 200 =
        .ok result ∧
      ResolvesTo result 16 [0x68, 0x6F, 0x6D, 0x65, 0x2F] := by
  have call := pathCall_pathMemory
    (show (0 : Byte) ∉ [0x68, 0x6F, 0x6D, 0x65] by decide) (by decide)
    (by decide)
  have named : Entry.NamedBy ⟨[0x68, 0x6F, 0x6D, 0x65, 0x2F], true, []⟩
      ([] ++ [0x68, 0x6F, 0x6D, 0x65]) :=
    Or.inr ⟨rfl, rfl⟩
  have enough : ([] ++ [0x68, 0x6F, 0x6D, 0x65] : List Byte).length < 5 := by
    decide
  obtain ⟨result, returned, right⟩ := addParent_resolves_iff call named enough
  refine ⟨result, returned, right.mpr ?_⟩
  unfold KeepsEnd
  decide

/-- The regular file `bin/ps` becomes `bin/ps/`. -/
theorem not_resolvesTo_ps :
    ∃ result, Libc.addParent 7
        (pathMemory [0x62, 0x69, 0x6E, 0x2F, 0x70, 0x73]) 0 16 200 =
          .ok result ∧
      ¬ ResolvesTo result 16 [0x62, 0x69, 0x6E, 0x2F, 0x70, 0x73] := by
  have call := pathCall_pathMemory
    (show (0 : Byte) ∉ [0x62, 0x69, 0x6E, 0x2F, 0x70, 0x73] by decide)
    (by decide) (by decide)
  have enough : ([] ++ [0x62, 0x69, 0x6E, 0x2F, 0x70, 0x73] :
      List Byte).length < 7 := by
    decide
  obtain ⟨after, isText, returned⟩ := addParent_path call enough
  have passes : PassesAll ([] ++ [0x62, 0x69, 0x6E, 0x2F, 0x70, 0x73])
      slashTests := by
    rw [passesAll_slashTests]
    unfold KeepsEnd
    decide
  have passed := ((passTests_inside_iff isText
    (show ∀ test ∈ slashTests, 0 < test.1 by decide)).1.mpr passes).1
  simp only [passed, if_true] at returned
  refine ⟨_, returned, fun resolves => ?_⟩
  have same := resolves.text.unique (textAt_addSlash isText)
  revert same
  decide

end SbuUnix
