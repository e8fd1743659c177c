import SbuUnix.Process.Create
import SbuUnix.Tarfs.Archive

/-!
# The working directory

`substr_tillchar` of `sys/string.c`, `chdir` and `changedir` of
`sys/tarfs.c`.  A process keeps its working directory twice, and `chdir`
changes `temp_curr_dir` before the lookup that can still fail.  `Dirs` are the
two strings, `cd` is what `chdir` does to them.
-/

namespace SbuUnix

open Outcome

/-! ## The source -/

/-- `strcat(dest, src)` for a `dest` of `size` bytes.  The routine ends the
string with two NULs. -/
def strcatTo (size : Nat) (dest src : List Byte) : KernelM (List Byte) :=
  if dest.length + src.length + 2 ≤ size then
    pure (dest ++ src)
  else
    throw .outOfBounds

/-- The loop of `substr_tillchar` from index `count - 1` down, with `count` of
the source as `seen`; the result is one above the last `i`. -/
def substrLoop (s : List Byte) (c : Byte) : Nat → Nat → Nat
  | 0, _ => 0
  | i + 1, seen =>
      if seen < 2 then
        substrLoop s c i (if s.getD i 0 = c then seen + 1 else seen)
      else
        i + 1

/-- `substr_tillchar`: the string up to the last character but one that is
`c`; `none` for `-1`, which leaves the empty string. -/
def substrTillchar (s : List Byte) (c : Byte) : Option (List Byte) :=
  match substrLoop s c (s.length + 1) 0 with
  | 0 => none
  | i + 1 => some (s.take (i + 2))

/-- The two copies of the working directory. -/
structure Dirs where
  curr : List Byte
  temp : List Byte
  deriving DecidableEq

/-- The test of `changedir` for an entry with the name it looks for. -/
def Enters (name : List Byte) (dirs : Dirs) : Prop :=
  (dirs.curr = rootDir ∧ substrTillchar name slash = none) ∨
    rootDir ++ (substrTillchar name slash).getD [] = dirs.temp

instance (name : List Byte) (dirs : Dirs) : Decidable (Enters name dirs) :=
  inferInstanceAs (Decidable (_ ∨ _))

def dirsOf (pcb : Pcb) : Dirs where
  curr := pcb.currDir
  temp := pcb.tempCurrDir

/-- `curr_process->curr_dir = …` -/
def setCurrDir (path : List Byte) : KernelM Unit := do
  storePcb (← globals).currProcess fun pcb => { pcb with currDir := path }

/-- `curr_process->temp_curr_dir = …` -/
def setTempCurrDir (path : List Byte) : KernelM Unit := do
  storePcb (← globals).currProcess fun pcb =>
    { pcb with tempCurrDir := path }

/-- The loop of `changedir`.  It goes on to the entry behind the last one,
which is cleared memory while the table is not full. -/
def changedirLoop (filename : List Byte) : List TarFile → KernelM Int
  | [] => do
      if (← get).tarfs.length < 100 then
        pure 999
      else
        throw .outOfBounds
  | file :: rest => do
      if file.type = directory ∧ file.name = filename then
        let parentName ← strcpyTo 100 file.name
        let _ ← strcatTo 100 rootDir
          ((substrTillchar parentName slash).getD [])
        let curr ← derefPcb (← globals).currProcess
        if Enters parentName (dirsOf curr) then
          let path ← strcatTo 50 rootDir filename
          setCurrDir path
          setTempCurrDir path
          pure 1
        else
          changedirLoop filename rest
      else
        changedirLoop filename rest

def changedir (filename : List Byte) : KernelM Int := do
  changedirLoop filename (← get).tarfs

/-- `-sbush: cd: %s: No such file or directory` -/
def noSuchFile (dir : List Byte) : List Byte :=
  [0x2D, 0x73, 0x62, 0x75, 0x73, 0x68, 0x3A, 0x20, 0x63, 0x64, 0x3A, 0x20] ++
    dir ++
      [0x3A, 0x20, 0x4E, 0x6F, 0x20, 0x73, 0x75, 0x63, 0x68, 0x20, 0x66, 0x69,
        0x6C, 0x65, 0x20, 0x6F, 0x72, 0x20, 0x64, 0x69, 0x72, 0x65, 0x63,
        0x74, 0x6F, 0x72, 0x79, 0x0A]

/-- `'.'` -/
def dot : Byte := 0x2E

/-- `path + 7`, behind `ROOT`. -/
def behindRoot (path : List Byte) : KernelM (List Byte) :=
  if 7 ≤ path.length then
    pure (path.drop 7)
  else
    throw .outOfBounds

/-- The cases of `chdir` before the lookup; `none` when there is none. -/
def chdirTarget (dir : List Byte) : KernelM (Option (List Byte)) := do
  let pcb ← derefPcb (← globals).currProcess
  if dir.getD 0 0 = slash then
    if dir.length = 1 then
      setCurrDir (← strcpyTo 50 rootDir)
      pure none
    else
      setTempCurrDir (← strcpyTo 50 rootDir)
      let dirname ← strcpyTo 100 (dir.drop 1)
      pure (some dirname)
  else if 2 ≤ dir.length ∧ dir.getD 0 0 = dot ∧ dir.getD 1 0 = dot then
    let temp := (substrTillchar pcb.tempCurrDir slash).getD rootDir
    setTempCurrDir temp
    if dir.length = 2 then
      setCurrDir (← strcpyTo 50 temp)
      pure none
    else
      let dirname ← strcpyTo 100 (← behindRoot temp)
      let dirname ← strcatTo 100 dirname (dir.drop 3)
      pure (some dirname)
  else
    let dirname ← strcpyTo 100 (← behindRoot pcb.currDir)
    if 2 < dir.length ∧ dir.getD 0 0 = dot ∧ dir.getD 1 0 = slash then
      let dirname ← strcatTo 100 dirname (dir.drop 2)
      pure (some dirname)
    else
      let dirname ← strcatTo 100 dirname dir
      pure (some dirname)

/-- `dirname[len-1]`; `before` is the byte before the array. -/
def lastByte (before : Byte) (dirname : List Byte) : Byte :=
  dirname.getLastD before

/-- `chdir`: the message it prints. -/
def chdir (before : Byte) (dir : List Byte) :
    KernelM (Option (List Byte)) := do
  if 0 < dir.length then
    match ← chdirTarget dir with
    | none => pure none
    | some dirname => do
        let dirname ← strcatTo 100 dirname []
        let dirname ←
          if lastByte before dirname ≠ slash then
            strcatTo 100 dirname [slash]
          else
            pure dirname
        let ret ← changedir dirname
        if ret = 999 then
          pure (some (noSuchFile dir))
        else
          pure none
  else
    pure none

/-! ## What a call does to the two strings -/

/-- `changedir` finds a directory that it goes to. -/
def Found (tarfs : List TarFile) (filename : List Byte) (dirs : Dirs) :
    Prop :=
  ∃ file ∈ tarfs,
    file.type = directory ∧ file.name = filename ∧ Enters filename dirs

instance (tarfs : List TarFile) (filename : List Byte) (dirs : Dirs) :
    Decidable (Found tarfs filename dirs) :=
  inferInstanceAs (Decidable (∃ file ∈ tarfs, _))

/-- The parent of a path. -/
def parentPath (path : List Byte) : List Byte :=
  (substrTillchar path slash).getD rootDir

/-- What the cases of `chdir` do, and the name that they look up. -/
def cdTarget (dir : List Byte) (dirs : Dirs) : Dirs × Option (List Byte) :=
  if dir.getD 0 0 = slash then
    if dir.length = 1 then
      ({ dirs with curr := rootDir }, none)
    else
      ({ dirs with temp := rootDir }, some (dir.drop 1))
  else if 2 ≤ dir.length ∧ dir.getD 0 0 = dot ∧ dir.getD 1 0 = dot then
    if dir.length = 2 then
      ({ curr := parentPath dirs.temp, temp := parentPath dirs.temp }, none)
    else
      ({ dirs with temp := parentPath dirs.temp },
        some ((parentPath dirs.temp).drop 7 ++ dir.drop 3))
  else if 2 < dir.length ∧ dir.getD 0 0 = dot ∧ dir.getD 1 0 = slash then
    (dirs, some (dirs.curr.drop 7 ++ dir.drop 2))
  else
    (dirs, some (dirs.curr.drop 7 ++ dir))

/-- The name with a slash at its end. -/
def withSlash (before : Byte) (dirname : List Byte) : List Byte :=
  if lastByte before dirname ≠ slash then dirname ++ [slash] else dirname

/-- The lookup; `true` when it fails. -/
def lookUp (tarfs : List TarFile) (filename : List Byte) (dirs : Dirs) :
    Dirs × Bool :=
  if Found tarfs filename dirs then
    ({ curr := rootDir ++ filename, temp := rootDir ++ filename }, false)
  else
    (dirs, true)

/-- The lookup of `chdir`, when there is one. -/
def finishCd (tarfs : List TarFile) (before : Byte) :
    Dirs × Option (List Byte) → Dirs × Bool
  | (moved, none) => (moved, false)
  | (moved, some dirname) => lookUp tarfs (withSlash before dirname) moved

/-- What `chdir` does, and whether it reports that there is no such file. -/
def cd (tarfs : List TarFile) (before : Byte) (dir : List Byte)
    (dirs : Dirs) : Dirs × Bool :=
  if 0 < dir.length then
    finishCd tarfs before (cdTarget dir dirs)
  else
    (dirs, false)

/-- The table, and the two strings of the current process. -/
structure WorksIn (k : Kernel) (tarfs : List TarFile) (dirs : Dirs) :
    Prop where
  tarfs : k.tarfs = tarfs
  dirs : ∃ pcb, k.procs.pcb k.procs.currProcess = some pcb ∧
    dirsOf pcb = dirs

section Calls

variable {k : Kernel} {tarfs : List TarFile} {dirs : Dirs}

theorem WorksIn.unique {other : Dirs} (works : WorksIn k tarfs dirs)
    (otherWorks : WorksIn k tarfs other) : dirs = other := by
  obtain ⟨pcb, found, same⟩ := works.dirs
  obtain ⟨otherPcb, otherFound, otherSame⟩ := otherWorks.dirs
  rw [found] at otherFound
  cases otherFound
  exact same.symm.trans otherSame

theorem yields_setCurrDir (works : WorksIn k tarfs dirs)
    (path : List Byte) {post : Unit → Kernel → Prop}
    (holds : ∀ k, WorksIn k tarfs { dirs with curr := path } → post () k) :
    Yields AnyFault (setCurrDir path) k post := by
  unfold setCurrDir
  rw [yields_bind, yields_globals, yields_storePcb]
  intro pcb found
  obtain ⟨other, here, same⟩ := works.dirs
  rw [found] at here
  cases here
  apply holds
  refine ⟨works.tarfs, _, put_same, ?_⟩
  rw [← same]
  rfl

theorem yields_setTempCurrDir (works : WorksIn k tarfs dirs)
    (path : List Byte) {post : Unit → Kernel → Prop}
    (holds : ∀ k, WorksIn k tarfs { dirs with temp := path } → post () k) :
    Yields AnyFault (setTempCurrDir path) k post := by
  unfold setTempCurrDir
  rw [yields_bind, yields_globals, yields_storePcb]
  intro pcb found
  obtain ⟨other, here, same⟩ := works.dirs
  rw [found] at here
  cases here
  apply holds
  refine ⟨works.tarfs, _, put_same, ?_⟩
  rw [← same]
  rfl

theorem yields_strcatTo {size : Nat} {dest src : List Byte}
    {post : List Byte → Kernel → Prop} (holds : post (dest ++ src) k) :
    Yields AnyFault (strcatTo size dest src) k post := by
  unfold strcatTo
  rw [yields_ite]
  exact ⟨fun _ => holds, fun _ => yields_stop _ _⟩

theorem yields_behindRoot {path : List Byte}
    {post : List Byte → Kernel → Prop} (holds : post (path.drop 7) k) :
    Yields AnyFault (behindRoot path) k post := by
  unfold behindRoot
  rw [yields_ite]
  exact ⟨fun _ => holds, fun _ => yields_stop _ _⟩

theorem yields_currPcb (works : WorksIn k tarfs dirs)
    {post : Pcb → Kernel → Prop}
    (holds : ∀ pcb, dirsOf pcb = dirs → post pcb k) :
    Yields AnyFault (do derefPcb (← globals).currProcess) k post := by
  rw [yields_bind, yields_globals, yields_derefPcb]
  intro pcb found
  obtain ⟨other, here, same⟩ := works.dirs
  rw [found] at here
  cases here
  exact holds pcb same

/-- The loop finds what is in the rest of the table. -/
theorem yields_changedirLoop (filename : List Byte)
    (works : WorksIn k tarfs dirs) (rest : List TarFile) :
    Yields AnyFault (changedirLoop filename rest) k fun ret next =>
      WorksIn next tarfs (lookUp rest filename dirs).1 ∧
        (ret = 999 ↔ (lookUp rest filename dirs).2 = true) := by
  induction rest with
  | nil =>
      unfold changedirLoop
      rw [yields_bind, yields_get, yields_ite]
      refine ⟨fun _ => ?_, fun _ => yields_stop _ _⟩
      exact ⟨works, by simp [lookUp, Found]⟩
  | cons file rest inductionHypothesis =>
      have skip : ¬ (file.type = directory ∧ file.name = filename ∧
          Enters filename dirs) →
          lookUp (file :: rest) filename dirs = lookUp rest filename dirs := by
        intro notHere
        have same : Found (file :: rest) filename dirs ↔
            Found rest filename dirs := by
          unfold Found
          rw [List.exists_mem_cons_iff]
          exact or_iff_right notHere
        unfold lookUp
        simp only [same]
      unfold changedirLoop
      rw [yields_ite]
      constructor
      · intro named
        rw [yields_bind]
        apply yields_strcpyTo
        intro _
        rw [yields_bind]
        apply yields_strcatTo
        rw [← bind_assoc, yields_bind]
        apply yields_currPcb works
        intro pcb same
        rw [same, named.2, yields_ite]
        constructor
        · intro enters
          have found : lookUp (file :: rest) filename dirs =
              ({ curr := rootDir ++ filename, temp := rootDir ++ filename },
                false) := by
            unfold lookUp
            rw [if_pos ⟨file, List.mem_cons_self .., named.1, named.2,
              enters⟩]
          rw [found, yields_bind]
          apply yields_strcatTo
          rw [yields_bind]
          apply yields_setCurrDir works
          intro k works
          rw [yields_bind]
          apply yields_setTempCurrDir works
          intro k works
          exact ⟨works, by simp⟩
        · intro notEnters
          rw [skip fun here => notEnters here.2.2]
          exact inductionHypothesis
      · intro other
        rw [skip fun here => other ⟨here.1, here.2.1⟩]
        exact inductionHypothesis

theorem yields_changedir (filename : List Byte)
    (works : WorksIn k tarfs dirs) :
    Yields AnyFault (changedir filename) k fun ret next =>
      WorksIn next tarfs (lookUp tarfs filename dirs).1 ∧
        (ret = 999 ↔ (lookUp tarfs filename dirs).2 = true) := by
  unfold changedir
  rw [yields_bind, yields_get, works.tarfs]
  exact yields_changedirLoop filename works tarfs

theorem yields_chdirTarget (dir : List Byte)
    (works : WorksIn k tarfs dirs) :
    Yields AnyFault (chdirTarget dir) k fun target next =>
      WorksIn next tarfs (cdTarget dir dirs).1 ∧
        target = (cdTarget dir dirs).2 := by
  unfold chdirTarget cdTarget
  rw [← bind_assoc, yields_bind]
  apply yields_currPcb works
  rintro pcb rfl
  split
  · split
    · rw [yields_bind]
      apply yields_strcpyTo
      intro _
      rw [yields_bind]
      apply yields_setCurrDir works
      exact fun k works => ⟨works, rfl⟩
    · rw [yields_bind]
      apply yields_strcpyTo
      intro _
      rw [yields_bind]
      apply yields_setTempCurrDir works
      intro k works
      rw [yields_bind]
      apply yields_strcpyTo
      exact fun _ => ⟨works, rfl⟩
  · split
    · rw [yields_bind]
      apply yields_setTempCurrDir works
      intro k works
      split
      · rw [yields_bind]
        apply yields_strcpyTo
        intro _
        rw [yields_bind]
        apply yields_setCurrDir works
        exact fun k works => ⟨works, rfl⟩
      · rw [yields_bind]
        apply yields_behindRoot
        rw [yields_bind]
        apply yields_strcpyTo
        intro _
        rw [yields_bind]
        apply yields_strcatTo
        exact ⟨works, rfl⟩
    · rw [yields_bind]
      apply yields_behindRoot
      rw [yields_bind]
      apply yields_strcpyTo
      intro _
      split
      · rw [yields_bind]
        apply yields_strcatTo
        exact ⟨works, rfl⟩
      · rw [yields_bind]
        apply yields_strcatTo
        exact ⟨works, rfl⟩

/-- A call of `chdir` that returns does what `cd` says. -/
theorem yields_chdir (before : Byte) (dir : List Byte)
    (works : WorksIn k tarfs dirs) :
    Yields AnyFault (chdir before dir) k fun message next =>
      WorksIn next tarfs (cd tarfs before dir dirs).1 ∧
        message = if (cd tarfs before dir dirs).2 then some (noSuchFile dir)
          else none := by
  unfold chdir cd
  split
  · rw [yields_bind]
    apply (yields_chdirTarget dir works).mono
    rintro target k ⟨works, rfl⟩
    cases found : cdTarget dir dirs with
    | mk moved target =>
        rw [found] at works
        cases target with
        | none => exact ⟨works, rfl⟩
        | some dirname =>
            dsimp only
            rw [yields_bind]
            apply yields_strcatTo
            rw [List.append_nil]
            have looks : ∀ name, name = withSlash before dirname →
                Yields AnyFault
                  (do
                    let ret ← changedir name
                    if ret = 999 then
                      pure (some (noSuchFile dir))
                    else
                      pure none) k fun message next =>
                  WorksIn next tarfs
                      (lookUp tarfs (withSlash before dirname) moved).1 ∧
                    message =
                      if (lookUp tarfs (withSlash before dirname) moved).2
                      then some (noSuchFile dir) else none := by
              rintro name rfl
              rw [yields_bind]
              apply (yields_changedir _ works).mono
              rintro ret k ⟨works, failed⟩
              rw [yields_ite]
              refine ⟨fun missing => ⟨works, ?_⟩, fun other => ⟨works, ?_⟩⟩
              · rw [if_pos (failed.mp missing)]
              · rw [if_neg fun missing => other (failed.mpr missing)]
            rw [yields_ite]
            constructor
            · intro notSlash
              rw [yields_bind]
              apply yields_strcatTo
              exact looks _ (if_pos notSlash).symm
            · intro isSlash
              exact looks _ (if_neg isSlash).symm
  · exact ⟨works, rfl⟩

end Calls

/-! ## Paths -/

section Scan

variable {s : List Byte}

/-- Scanning back over other characters. -/
theorem substrLoop_skip {low seen : Nat} (few : seen < 2) :
    ∀ count, (∀ index, low ≤ index → index < low + count →
      s.getD index 0 ≠ slash) →
        substrLoop s slash (low + count) seen =
          substrLoop s slash low seen := by
  intro count
  induction count with
  | zero =>
      intro _
      rfl
  | succ count inductionHypothesis =>
      intro other
      rw [← Nat.add_assoc, substrLoop, if_pos few,
        if_neg (other (low + count) (by omega) (by omega))]
      exact inductionHypothesis fun index above below =>
        other index above (by omega)

theorem substrLoop_slash {index seen : Nat} (few : seen < 2)
    (here : s.getD index 0 = slash) :
    substrLoop s slash (index + 1) seen =
      substrLoop s slash index (seen + 1) := by
  rw [substrLoop, if_pos few, if_pos here]

theorem substrLoop_two (index : Nat) : substrLoop s slash index 2 = index := by
  cases index with
  | zero => rfl
  | succ index => exact if_neg (Nat.lt_irrefl 2)

/-- Scanning back over a part without slashes. -/
theorem substrLoop_over {front middle back : List Byte} (seen : Nat)
    (few : seen < 2) (noSlash : slash ∉ middle)
    (parts : s = front ++ middle ++ back) :
    substrLoop s slash (front.length + middle.length) seen =
      substrLoop s slash front.length seen := by
  apply substrLoop_skip few
  intro index above below same
  rw [parts, List.getD_append _ _ _ _
    (by rw [List.length_append]; exact below),
    List.getD_append_right _ _ _ _ above,
    List.getD_eq_getElem _ _ (by omega)] at same
  exact noSlash (same ▸ List.getElem_mem _)

/-- The scan starts at the NUL. -/
theorem substrLoop_start :
    substrLoop s slash (s.length + 1) 0 = substrLoop s slash s.length 0 := by
  have nul : s.getD s.length 0 ≠ slash := by
    rw [List.getD_eq_default _ _ (Nat.le_refl _)]
    decide
  rw [substrLoop, if_pos (by omega), if_neg nul]

/-- The scan passes the last slash. -/
theorem substrLoop_last {front back : List Byte} (noSlash : slash ∉ back)
    (parts : s = front ++ slash :: back) :
    substrLoop s slash (s.length + 1) 0 =
      substrLoop s slash front.length 1 := by
  have length : s.length = (front ++ [slash]).length + back.length := by
    rw [parts]
    simp
    omega
  have here : s.getD front.length 0 = slash := by
    rw [parts, List.getD_append_right _ _ _ _ (Nat.le_refl _)]
    simp
  rw [substrLoop_start, length, substrLoop_over 0 (by omega) noSlash
    (show s = front ++ [slash] ++ back ++ [] by simp [parts]),
    List.length_append, List.length_singleton,
    substrLoop_slash (by omega) here]

theorem substrTillchar_none (noSlash : slash ∉ s) :
    substrTillchar s slash = none := by
  have scan := substrLoop_over 0 (by omega) noSlash
    (show s = [] ++ s ++ [] by simp)
  rw [List.length_nil, Nat.zero_add] at scan
  unfold substrTillchar
  rw [substrLoop_start, scan]
  rfl

theorem substrTillchar_one {front back : List Byte}
    (noSlashFront : slash ∉ front) (noSlash : slash ∉ back) :
    substrTillchar (front ++ slash :: back) slash = none := by
  have scan := substrLoop_over 1 (by omega) noSlashFront
    (show front ++ slash :: back = [] ++ front ++ slash :: back by simp)
  rw [List.length_nil, Nat.zero_add] at scan
  unfold substrTillchar
  rw [substrLoop_last noSlash rfl, scan]
  rfl

theorem substrTillchar_two (front : List Byte) {middle back : List Byte}
    (noSlashMiddle : slash ∉ middle) (noSlash : slash ∉ back) :
    substrTillchar (front ++ slash :: (middle ++ slash :: back)) slash =
      if front = [] then none else some (front ++ [slash]) := by
  have parts : front ++ slash :: (middle ++ slash :: back) =
      (front ++ [slash] ++ middle) ++ slash :: back := by
    simp
  have here : (front ++ slash :: (middle ++ slash :: back)).getD
      front.length 0 = slash := by
    rw [List.getD_append_right _ _ _ _ (Nat.le_refl _)]
    simp
  have length : (front ++ [slash] ++ middle).length =
      (front ++ [slash]).length + middle.length := List.length_append
  have slashLength : (front ++ [slash]).length = front.length + 1 :=
    List.length_append
  unfold substrTillchar
  rw [substrLoop_last noSlash parts, length,
    substrLoop_over 1 (by omega) noSlashMiddle parts, slashLength,
    substrLoop_slash (by omega) here, substrLoop_two]
  have cut : (front ++ slash :: (middle ++ slash :: back)).take
      (front.length + 1) = front ++ [slash] := by
    rw [List.append_cons]
    exact List.take_left' slashLength
  cases front with
  | nil => rfl
  | cons char front =>
      rw [if_neg (List.cons_ne_nil _ _)]
      exact congrArg some cut

end Scan

/-- The part of a string behind its last slash. -/
theorem exists_lastSlash {s : List Byte} (member : slash ∈ s) :
    ∃ front back, s = front ++ slash :: back ∧ slash ∉ back := by
  obtain ⟨back, front, parts, noSlash⟩ :=
    List.eq_append_cons_of_mem (List.mem_reverse.mpr member)
  refine ⟨front.reverse, back.reverse, ?_, fun inBack =>
    noSlash (List.mem_reverse.mp inBack)⟩
  rw [← List.reverse_reverse s, parts]
  simp

/-- The parent's name, as `changedir` finds it. -/
def parentName (name : List Byte) : List Byte :=
  (substrTillchar name slash).getD []

/-- The name begins with a slash that is its last one but one. -/
def LeadingSlash (name : List Byte) : Prop :=
  ∃ middle back, slash ∉ middle ∧ slash ∉ back ∧
    name = slash :: (middle ++ slash :: back)

/-- The parent of a path and that of the name behind `ROOT`, which differ for
a name that begins with a slash. -/
theorem parentPath_rootDir (name : List Byte) :
    (parentPath (rootDir ++ name) = rootDir ++ parentName name ∧
        parentName name ≠ [slash]) ∨
      (LeadingSlash name ∧ parentName name = [] ∧
        parentPath (rootDir ++ name) = rootDir ++ [slash]) := by
  have root : rootDir = [0x72, 0x6F, 0x6F, 0x74, 0x66, 0x73] ++ [slash] := rfl
  have noSlashRoot : slash ∉ [(0x72 : Byte), 0x6F, 0x6F, 0x74, 0x66, 0x73] := by
    decide
  unfold parentPath parentName
  by_cases member : slash ∈ name
  · obtain ⟨front, back, rfl, noSlash⟩ := exists_lastSlash member
    by_cases deeper : slash ∈ front
    · obtain ⟨first, middle, rfl, noSlashMiddle⟩ := exists_lastSlash deeper
      have whole := substrTillchar_two (rootDir ++ first)
        noSlashMiddle noSlash
      have name := substrTillchar_two first noSlashMiddle noSlash
      rw [if_neg (by simp [root])] at whole
      rw [List.append_assoc, List.cons_append, ← List.append_assoc, whole,
        name]
      by_cases empty : first = []
      · right
        rw [if_pos empty, empty]
        exact ⟨⟨middle, back, noSlashMiddle, noSlash, rfl⟩, rfl, by simp⟩
      · left
        rw [if_neg empty]
        refine ⟨by simp, ?_⟩
        intro same
        exact empty (by simpa using same)
    · left
      have whole := substrTillchar_two
        [0x72, 0x6F, 0x6F, 0x74, 0x66, 0x73] deeper noSlash
      have parts : rootDir ++ (front ++ slash :: back) =
          [0x72, 0x6F, 0x6F, 0x74, 0x66, 0x73] ++
            slash :: (front ++ slash :: back) := rfl
      rw [substrTillchar_one deeper noSlash, parts, whole]
      exact ⟨rfl, by decide⟩
  · left
    have whole := substrTillchar_one noSlashRoot member
    have parts : rootDir ++ name =
        [0x72, 0x6F, 0x6F, 0x74, 0x66, 0x73] ++ slash :: name := rfl
    rw [substrTillchar_none member, parts, whole]
    exact ⟨rfl, by decide⟩

theorem parentPath_root : parentPath rootDir = rootDir := by
  decide

/-! ## Runs -/

/-- The directories that a process can be in: the root, and every directory of
the table whose parent is one. -/
inductive Visitable (tarfs : List TarFile) : List Byte → Prop
  | root : Visitable tarfs rootDir
  | entry {file : TarFile} (member : file ∈ tarfs)
      (type : file.type = directory)
      (parent : Visitable tarfs (rootDir ++ parentName file.name)) :
      Visitable tarfs (rootDir ++ file.name)

/-- The condition on a call in a directory `path`.  `cd /` and a failing
lookup of `/x` or `../x` happen only where `temp_curr_dir` is not changed by
them, and `cd ..` does not lead to a directory `/` that the table lacks. -/
def CdMeets (tarfs : List TarFile) (before : Byte) (dir path : List Byte) :
    Prop :=
  if dir.getD 0 0 = slash then
    if dir.length = 1 then
      path = rootDir
    else
      path = rootDir ∨
        Found tarfs (withSlash before (dir.drop 1))
          { curr := path, temp := rootDir }
  else if 2 ≤ dir.length ∧ dir.getD 0 0 = dot ∧ dir.getD 1 0 = dot then
    if dir.length = 2 then
      ∀ name, path = rootDir ++ name → LeadingSlash name →
        ∃ file ∈ tarfs, file.type = directory ∧ file.name = [slash]
    else
      path = rootDir ∨
        Found tarfs
          (withSlash before ((parentPath path).drop 7 ++ dir.drop 3))
          { curr := path, temp := parentPath path }
  else
    True

section Step

variable {tarfs : List TarFile} {path : List Byte}

theorem Visitable.parent (visitable : Visitable tarfs path) :
    Visitable tarfs (parentPath path) ∨
      (∃ name, path = rootDir ++ name ∧ LeadingSlash name ∧
        parentPath path = rootDir ++ [slash]) := by
  cases visitable with
  | root =>
      left
      rw [parentPath_root]
      exact .root
  | @entry file member type parent =>
      rcases parentPath_rootDir file.name with ⟨same, -⟩ | ⟨leads, -, same⟩
      · left
        rw [same]
        exact parent
      · exact .inr ⟨_, rfl, leads, same⟩

/-- A lookup that starts from directories leads to one, and one that fails
changes nothing. -/
theorem lookUp_keeps {filename temp : List Byte}
    (tempIs : Visitable tarfs temp ∨ temp = rootDir ++ [slash])
    (unmoved : temp = path ∨
      Found tarfs filename { curr := path, temp := temp })
    (visitable : Visitable tarfs path) :
    ∃ next, Visitable tarfs next ∧
      (lookUp tarfs filename { curr := path, temp := temp }).1 =
        { curr := next, temp := next } ∧
      ((lookUp tarfs filename { curr := path, temp := temp }).2 = true →
        next = path) := by
  unfold lookUp
  by_cases found : Found tarfs filename { curr := path, temp := temp }
  · rw [if_pos found]
    refine ⟨rootDir ++ filename, ?_, rfl, by simp⟩
    obtain ⟨file, member, type, rfl, enters⟩ := found
    apply Visitable.entry member type
    rcases enters with ⟨-, noParent⟩ | sameParent
    · unfold parentName
      rw [noParent]
      exact .root
    · change rootDir ++ parentName file.name = temp at sameParent
      rw [sameParent]
      rcases tempIs with visited | leads
      · exact visited
      · rw [leads] at sameParent
        have name := List.append_cancel_left sameParent
        rcases parentPath_rootDir file.name with ⟨-, other⟩ | ⟨-, empty, -⟩
        · exact absurd name other
        · rw [empty] at name
          cases name
  · rw [if_neg found]
    have same : temp = path := unmoved.resolve_right found
    exact ⟨path, visitable, by rw [same], fun _ => rfl⟩

/-- One call that meets the condition. -/
theorem cd_keeps {before : Byte} {dir : List Byte}
    (visitable : Visitable tarfs path)
    (meets : CdMeets tarfs before dir path) :
    ∃ next, Visitable tarfs next ∧
      (cd tarfs before dir { curr := path, temp := path }).1 =
        { curr := next, temp := next } ∧
      ((cd tarfs before dir { curr := path, temp := path }).2 = true →
        next = path) := by
  unfold CdMeets at meets
  unfold cd cdTarget
  by_cases some : 0 < dir.length
  · rw [if_pos some]
    split
    · next absolute =>
      rw [if_pos absolute] at meets
      split
      · next root =>
        rw [if_pos root] at meets
        exact ⟨rootDir, .root, by rw [meets]; rfl, fun _ => meets.symm⟩
      · next longer =>
        rw [if_neg longer] at meets
        exact lookUp_keeps (.inl .root) (meets.imp_left Eq.symm) visitable
    · next notAbsolute =>
      rw [if_neg notAbsolute] at meets
      split
      · next dots =>
        rw [if_pos dots] at meets
        split
        · next up =>
          rw [if_pos up] at meets
          refine ⟨parentPath path, ?_, rfl, fun failed => nomatch failed⟩
          rcases visitable.parent with visited | ⟨name, same, leads, parent⟩
          · exact visited
          · obtain ⟨file, member, type, named⟩ := meets name same leads
            rw [parent, ← named]
            apply Visitable.entry member type
            rw [named]
            exact .root
        · next longer =>
          rw [if_neg longer] at meets
          apply lookUp_keeps _ _ visitable
          · rcases visitable.parent with visited | ⟨_, -, -, parent⟩
            · exact .inl visited
            · exact .inr parent
          · rcases meets with root | found
            · left
              rw [root, parentPath_root]
            · exact .inr found
      · split
        · exact lookUp_keeps (.inl visitable) (.inl rfl) visitable
        · exact lookUp_keeps (.inl visitable) (.inl rfl) visitable
  · rw [if_neg some]
    exact ⟨path, visitable, rfl, by simp⟩

end Step

/-- A call of a run: the byte before `dirname`, and the argument. -/
def serveCd (call : Byte × List Byte) : KernelM Unit := do
  let _ ← chdir call.1 call.2

/-- The condition on a call in a state. -/
def CdCondition (tarfs : List TarFile) (call : Byte × List Byte)
    (k : Kernel) : Prop :=
  ∀ dirs, WorksIn k tarfs dirs → CdMeets tarfs call.1 call.2 dirs.curr

/-- Both strings are one directory that a process can be in. -/
def InStep (tarfs : List TarFile) (k : Kernel) : Prop :=
  ∃ path, WorksIn k tarfs { curr := path, temp := path } ∧
    Visitable tarfs path

theorem worksIn_serveCd {tarfs : List TarFile} {dirs : Dirs}
    {call : Byte × List Byte} {k next : Kernel}
    (works : WorksIn k tarfs dirs)
    (returned : serveCd call k = .ok ((), next)) :
    WorksIn next tarfs (cd tarfs call.1 call.2 dirs).1 := by
  have called : Yields AnyFault (serveCd call) k fun _ next =>
      WorksIn next tarfs (cd tarfs call.1 call.2 dirs).1 := by
    unfold serveCd
    rw [yields_bind]
    exact (yields_chdir call.1 call.2 works).mono fun _ _ holds => holds.1
  have moved := yields_of_ok called returned
  exact moved

theorem inStep_serveCd {tarfs : List TarFile} {call : Byte × List Byte}
    {k next : Kernel} (inStep : InStep tarfs k)
    (meets : CdCondition tarfs call k)
    (returned : serveCd call k = .ok ((), next)) : InStep tarfs next := by
  obtain ⟨path, works, visitable⟩ := inStep
  have worksNext := worksIn_serveCd works returned
  obtain ⟨moved, visited, same, -⟩ := cd_keeps visitable (meets _ works)
  rw [same] at worksNext
  exact ⟨moved, worksNext, visited⟩

theorem inStep_of_run {tarfs : List TarFile} {k next : Kernel}
    {calls : List (Byte × List Byte)} (inStep : InStep tarfs k)
    (meets : EachMeets serveCd (CdCondition tarfs) calls k)
    (returned : runAll serveCd calls k = .ok ((), next)) :
    InStep tarfs next :=
  runAll_keeps (fun _ _ _ holds condition => inStep_serveCd holds condition)
    calls k next inStep meets returned

/-- In every run of `chdir` calls from the root that meet the condition the
two strings stay the same and name a directory, the effect of the next call is
a function of that directory and the argument, and a call that reports an
error changes nothing. -/
theorem workingDirectory_of_run {k next : Kernel}
    {calls : List (Byte × List Byte)}
    (start : WorksIn k k.tarfs { curr := rootDir, temp := rootDir })
    (meets : EachMeets serveCd (CdCondition k.tarfs) calls k)
    (returned : runAll serveCd calls k = .ok ((), next)) :
    ∃ path, WorksIn next k.tarfs { curr := path, temp := path } ∧
      (path = rootDir ∨ ∃ file ∈ k.tarfs,
        file.type = directory ∧ path = rootDir ++ file.name) ∧
      ∀ before dir message last,
        chdir before dir next = .ok (message, last) →
          WorksIn last k.tarfs
              (cd k.tarfs before dir { curr := path, temp := path }).1 ∧
            (CdMeets k.tarfs before dir path → message = some (noSuchFile dir) →
              WorksIn last k.tarfs { curr := path, temp := path }) := by
  obtain ⟨path, works, visitable⟩ :=
    inStep_of_run ⟨rootDir, start, .root⟩ meets returned
  refine ⟨path, works, ?_, ?_⟩
  · cases visitable with
    | root => exact .inl rfl
    | entry member type _ => exact .inr ⟨_, member, type, rfl⟩
  · intro before dir message last called
    obtain ⟨worksLast, printed⟩ :=
      yields_of_ok (yields_chdir before dir works) called
    refine ⟨worksLast, ?_⟩
    rintro meetsLast rfl
    obtain ⟨moved, -, same, unchanged⟩ := cd_keeps visitable meetsLast
    rw [same] at worksLast
    by_cases failed : (cd k.tarfs before dir
        { curr := path, temp := path }).2 = true
    · rwa [unchanged failed] at worksLast
    · rw [if_neg failed] at printed
      cases printed

/-! ### A shell in an archive with one directory -/

/-- A process in `rootfs/`; the table has the directory `a/`. -/
def shellKernel : Kernel where
  paging := { mem := fun _ _ => 0, freeMap := fun _ => 0, cr3 := 0 }
  procs :=
    { pcb := fun p =>
        if p = 0xFFFFFFFF80400000 then
          some { pid := 2, currDir := rootDir, tempCurrDir := rootDir }
        else
          none
      currProcess := 0xFFFFFFFF80400000 }
  tarfs := [{ name := [0x61, 0x2F], inode := 4, type := directory }]

theorem worksIn_shellKernel :
    WorksIn shellKernel shellKernel.tarfs
      { curr := rootDir, temp := rootDir } :=
  ⟨rfl, _, rfl, rfl⟩

/-- `cd a` and `cd ..` meet the condition. -/
theorem workingDirectory_of_run_up :
    ∃ next path,
      runAll serveCd [(0, [0x61]), (0, [0x2E, 0x2E])] shellKernel =
        .ok ((), next) ∧
      WorksIn next shellKernel.tarfs { curr := path, temp := path } := by
  have ran : shown (fun _ _ => ()) (runAll serveCd
      [(0, [0x61]), (0, [0x2E, 0x2E])] shellKernel) = some () := by
    decide +kernel
  obtain ⟨_, next, returned, -⟩ := exists_of_shown ran
  have meets : EachMeets serveCd (CdCondition shellKernel.tarfs)
      [(0, [0x61]), (0, [0x2E, 0x2E])] shellKernel := by
    refine ⟨fun _ _ => trivial, fun between called =>
      ⟨fun dirs works => ?_, fun _ _ => trivial⟩⟩
    have moved := worksIn_serveCd worksIn_shellKernel called
    rw [works.unique moved]
    rintro name same ⟨middle, back, -, -, leads⟩
    have path : (cd shellKernel.tarfs 0 [0x61]
        { curr := rootDir, temp := rootDir }).1.curr =
          rootDir ++ [0x61, 0x2F] := by
      decide
    rw [leads] at same
    have front := List.append_cancel_left (path.symm.trans same)
    cases front
  obtain ⟨path, works, -⟩ :=
    workingDirectory_of_run worksIn_shellKernel meets returned
  exact ⟨next, path, returned, works⟩

/-- The strings of the current process. -/
def currentDirs (k : Kernel) : Option Dirs :=
  (k.procs.pcb k.procs.currProcess).map dirsOf

/-- After `cd a` and `cd /` the two strings differ; and after `cd a` the call
`cd /x` reports that there is no such directory and changes one of them. -/
theorem workingDirectory_differs :
    (∃ next, runAll serveCd [(0, [0x61]), (0, [0x2F])] shellKernel =
        .ok ((), next) ∧
      currentDirs next =
        some { curr := rootDir, temp := rootDir ++ [0x61, 0x2F] }) ∧
    ∃ next last, serveCd (0, [0x61]) shellKernel = .ok ((), next) ∧
      currentDirs next = some
        { curr := rootDir ++ [0x61, 0x2F], temp := rootDir ++ [0x61, 0x2F] } ∧
      chdir 0 [0x2F, 0x78] next =
        .ok (some (noSuchFile [0x2F, 0x78]), last) ∧
      currentDirs last =
        some { curr := rootDir ++ [0x61, 0x2F], temp := rootDir } := by
  constructor
  · have ran : shown (fun _ k => currentDirs k) (runAll serveCd
        [(0, [0x61]), (0, [0x2F])] shellKernel) =
          some (some { curr := rootDir, temp := rootDir ++ [0x61, 0x2F] }) := by
      decide +kernel
    obtain ⟨_, next, returned, dirs⟩ := exists_of_shown ran
    exact ⟨next, returned, dirs⟩
  · have first : shown (fun _ k => currentDirs k)
        (serveCd (0, [0x61]) shellKernel) = some (some
          { curr := rootDir ++ [0x61, 0x2F]
            temp := rootDir ++ [0x61, 0x2F] }) := by
      decide +kernel
    have both : shown (fun message k => (message, currentDirs k))
        ((do
          serveCd (0, [0x61])
          chdir 0 [0x2F, 0x78]) shellKernel) =
        some (some (noSuchFile [0x2F, 0x78]),
          some { curr := rootDir ++ [0x61, 0x2F], temp := rootDir }) := by
      decide +kernel
    obtain ⟨message, last, returned, seen⟩ := exists_of_shown both
    obtain ⟨_, next, moved, reported⟩ := bind_eq_ok_iff.mp returned
    have printed : message = some (noSuchFile [0x2F, 0x78]) :=
      congrArg Prod.fst seen
    have between := shown_of_ok first moved
    rw [printed] at reported
    exact ⟨next, last, moved, between, reported, congrArg Prod.snd seen⟩

end SbuUnix
