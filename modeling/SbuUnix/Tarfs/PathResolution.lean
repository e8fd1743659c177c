import SbuUnix.Tarfs.WorkingDirectory

/-!
# Path resolution of `cd`

The forms of an argument, the directory that each of them means, and when
`chdir` goes there.  A path is the list of the names between its slashes.
-/

namespace SbuUnix

open Outcome

/-! ## When `chdir` returns -/

/-- The table has a directory with a name. -/
def HasDirectory (tarfs : List TarFile) (name : List Byte) : Prop :=
  ∃ file ∈ tarfs, file.type = directory ∧ file.name = name

/-- The buffers hold what a lookup writes, and the table does not end before
it. -/
structure LookUpFits (tarfs rest : List TarFile) (name : List Byte)
    (dirs : Dirs) : Prop where
  parent : HasDirectory rest name → 7 + (parentName name).length + 2 ≤ 100
  found : Found rest name dirs → 7 + name.length + 2 ≤ 50
  notFound : ¬ Found rest name dirs → tarfs.length < 100

/-- The buffers hold what a call of `chdir` writes. -/
def CdFits (tarfs : List TarFile) (before : Byte) (dir : List Byte)
    (dirs : Dirs) : Prop :=
  ∀ dirname, (cdTarget dir dirs).2 = some dirname →
    (withSlash before dirname).length + 2 ≤ 100 ∧
      LookUpFits tarfs tarfs (withSlash before dirname) (cdTarget dir dirs).1

section Returns

variable {k : Kernel} {tarfs : List TarFile} {dirs : Dirs}

theorem strcpyTo_eq {size : Nat} {source : List Byte}
    (fits : source.length + 2 ≤ size) :
    strcpyTo size source k = .ok (source, k) := by
  unfold strcpyTo
  rw [if_pos fits]
  rfl

theorem strcatTo_eq {size : Nat} {dest src : List Byte}
    (fits : dest.length + src.length + 2 ≤ size) :
    strcatTo size dest src k = .ok (dest ++ src, k) := by
  unfold strcatTo
  rw [if_pos fits]
  rfl

theorem yields_strcatTo_fits {size : Nat} {dest src : List Byte}
    {post : List Byte → Kernel → Prop}
    (holds : dest.length + src.length + 2 ≤ size → post (dest ++ src) k) :
    Yields AnyFault (strcatTo size dest src) k post := by
  unfold strcatTo
  rw [yields_ite]
  exact ⟨holds, fun _ => yields_stop _ _⟩

theorem behindRoot_eq {path : List Byte} (long : 7 ≤ path.length) :
    behindRoot path k = .ok (path.drop 7, k) := by
  unfold behindRoot
  rw [if_pos long]
  rfl

theorem currPcb_eq (works : WorksIn k tarfs dirs) :
    ∃ pcb, (do derefPcb (← globals).currProcess : KernelM Pcb) k =
        .ok (pcb, k) ∧ dirsOf pcb = dirs := by
  obtain ⟨pcb, found, same⟩ := works.dirs
  refine ⟨pcb, ?_, same⟩
  rw [bind_of_ok (show globals k = .ok (k.procs, k) from rfl)]
  exact derefPcb_eq found

theorem setCurrDir_eq (works : WorksIn k tarfs dirs) (path : List Byte) :
    ∃ next, setCurrDir path k = .ok ((), next) ∧
      WorksIn next tarfs { dirs with curr := path } := by
  obtain ⟨pcb, found, same⟩ := works.dirs
  unfold setCurrDir
  rw [bind_of_ok (show globals k = .ok (k.procs, k) from rfl),
    storePcb_eq found]
  refine ⟨_, rfl, works.tarfs, _, put_same, ?_⟩
  rw [← same]
  rfl

theorem setTempCurrDir_eq (works : WorksIn k tarfs dirs) (path : List Byte) :
    ∃ next, setTempCurrDir path k = .ok ((), next) ∧
      WorksIn next tarfs { dirs with temp := path } := by
  obtain ⟨pcb, found, same⟩ := works.dirs
  unfold setTempCurrDir
  rw [bind_of_ok (show globals k = .ok (k.procs, k) from rfl),
    storePcb_eq found]
  refine ⟨_, rfl, works.tarfs, _, put_same, ?_⟩
  rw [← same]
  rfl

theorem hasDirectory_cons {file : TarFile} {rest : List TarFile}
    {name : List Byte} :
    HasDirectory (file :: rest) name ↔
      (file.type = directory ∧ file.name = name) ∨ HasDirectory rest name := by
  unfold HasDirectory
  rw [List.exists_mem_cons_iff]

theorem found_cons {file : TarFile} {rest : List TarFile}
    {name : List Byte} :
    Found (file :: rest) name dirs ↔
      (file.type = directory ∧ file.name = name ∧ Enters name dirs) ∨
        Found rest name dirs := by
  unfold Found
  rw [List.exists_mem_cons_iff]

theorem LookUpFits.tail {file : TarFile} {rest : List TarFile}
    {name : List Byte} (fits : LookUpFits tarfs (file :: rest) name dirs)
    (notHere : ¬ (file.type = directory ∧ file.name = name ∧
      Enters name dirs)) : LookUpFits tarfs rest name dirs where
  parent := fun has => fits.parent (hasDirectory_cons.mpr (.inr has))
  found := fun found => fits.found (found_cons.mpr (.inr found))
  notFound := by
    intro notFound
    apply fits.notFound
    rw [found_cons, not_or]
    exact ⟨notHere, notFound⟩

theorem LookUpFits.cons {file : TarFile} {rest : List TarFile}
    {name : List Byte} (fits : LookUpFits tarfs rest name dirs)
    (notHere : ¬ (file.type = directory ∧ file.name = name ∧
      Enters name dirs))
    (parent : file.type = directory ∧ file.name = name →
      7 + (parentName name).length + 2 ≤ 100) :
    LookUpFits tarfs (file :: rest) name dirs where
  parent := fun has => (hasDirectory_cons.mp has).elim parent fits.parent
  found := fun found =>
    fits.found ((found_cons.mp found).resolve_left notHere)
  notFound := by
    intro notFound
    rw [found_cons, not_or] at notFound
    exact fits.notFound notFound.2

theorem changedirLoop_returns {name : List Byte}
    (works : WorksIn k tarfs dirs) (short : name.length + 2 ≤ 100) :
    ∀ rest, LookUpFits tarfs rest name dirs →
      ∃ result, changedirLoop name rest k = .ok result := by
  intro rest
  induction rest with
  | nil =>
      intro fits
      have room : k.tarfs.length < 100 := by
        rw [works.tarfs]
        exact fits.notFound (by simp [Found])
      unfold changedirLoop
      rw [bind_of_ok (show (get : KernelM Kernel) k = .ok (k, k) from rfl),
        if_pos room]
      exact ⟨_, rfl⟩
  | cons file rest inductionHypothesis =>
      intro fits
      unfold changedirLoop
      by_cases named : file.type = directory ∧ file.name = name
      · have parent := fits.parent (hasDirectory_cons.mpr (.inl named))
        obtain ⟨pcb, loaded, same⟩ := currPcb_eq works
        rw [if_pos named, named.2, bind_of_ok (strcpyTo_eq short),
          bind_of_ok (strcatTo_eq parent), ← bind_assoc, bind_of_ok loaded,
          same]
        by_cases enters : Enters name dirs
        · have found := fits.found
            (found_cons.mpr (.inl ⟨named.1, named.2, enters⟩))
          obtain ⟨middle, stored, worksMiddle⟩ :=
            setCurrDir_eq works (rootDir ++ name)
          obtain ⟨last, storedToo, -⟩ :=
            setTempCurrDir_eq worksMiddle (rootDir ++ name)
          rw [if_pos enters, bind_of_ok (strcatTo_eq found),
            bind_of_ok stored, bind_of_ok storedToo]
          exact ⟨_, rfl⟩
        · rw [if_neg enters]
          exact inductionHypothesis
            (fits.tail fun here => enters here.2.2)
      · rw [if_neg named]
        exact inductionHypothesis
          (fits.tail fun here => named ⟨here.1, here.2.1⟩)

/-- A lookup that returns has fitted. -/
theorem yields_changedirLoop_fits {name : List Byte}
    (works : WorksIn k tarfs dirs) :
    ∀ rest, Yields AnyFault (changedirLoop name rest) k fun _ _ =>
      LookUpFits tarfs rest name dirs := by
  intro rest
  induction rest with
  | nil =>
      unfold changedirLoop
      rw [yields_bind, yields_get, yields_ite]
      refine ⟨fun room => ?_, fun _ => yields_stop _ _⟩
      rw [works.tarfs] at room
      constructor
      · exact fun has => absurd has (by simp [HasDirectory])
      · exact fun found => absurd found (by simp [Found])
      · exact fun _ => room
  | cons file rest inductionHypothesis =>
      unfold changedirLoop
      rw [yields_ite]
      constructor
      · intro named
        rw [named.2, yields_bind]
        apply yields_strcpyTo
        intro _
        rw [yields_bind]
        apply yields_strcatTo_fits
        intro parent
        rw [← bind_assoc, yields_bind]
        apply yields_currPcb works
        intro pcb same
        rw [same, yields_ite]
        constructor
        · intro enters
          rw [yields_bind]
          apply yields_strcatTo_fits
          intro room
          rw [yields_bind]
          apply yields_setCurrDir works
          intro middle worksMiddle
          rw [yields_bind]
          apply yields_setTempCurrDir worksMiddle
          intro last _
          constructor
          · exact fun _ => parent
          · exact fun _ => room
          · exact fun notFound => absurd (found_cons.mpr
              (.inl ⟨named.1, named.2, enters⟩)) notFound
        · intro notEnters
          apply inductionHypothesis.mono
          exact fun _ _ fits =>
            fits.cons (fun here => notEnters here.2.2) fun _ => parent
      · intro other
        apply inductionHypothesis.mono
        exact fun _ _ fits =>
          fits.cons (fun here => other ⟨here.1, here.2.1⟩)
            fun named => absurd named other

/-- The strings of a process whose directories fit their fields. -/
structure DirsFit (dirs : Dirs) : Prop where
  curr : 7 ≤ dirs.curr.length ∧ dirs.curr.length + 2 ≤ 50
  parent : 7 ≤ (parentPath dirs.temp).length ∧
    (parentPath dirs.temp).length + 2 ≤ 50

/-- The cases of `chdir` return when the name that they make fits. -/
theorem chdirTarget_returns (works : WorksIn k tarfs dirs)
    (dirsFit : DirsFit dirs) (dir : List Byte)
    (short : ∀ dirname, (cdTarget dir dirs).2 = some dirname →
      dirname.length + 2 ≤ 100) :
    ∃ result, chdirTarget dir k = .ok result := by
  obtain ⟨pcb, loaded, rfl⟩ := currPcb_eq works
  obtain ⟨⟨currLong, currShort⟩, ⟨parentLong, parentShort⟩⟩ := dirsFit
  have root : rootDir.length + 2 ≤ 50 := by decide
  unfold cdTarget at short
  dsimp only [dirsOf] at currLong currShort parentLong parentShort short
  unfold chdirTarget
  rw [← bind_assoc, bind_of_ok loaded]
  by_cases absolute : dir.getD 0 0 = slash
  · rw [if_pos absolute] at short ⊢
    by_cases one : dir.length = 1
    · obtain ⟨next, stored, -⟩ := setCurrDir_eq works rootDir
      rw [if_pos one, bind_of_ok (strcpyTo_eq root), bind_of_ok stored]
      exact ⟨_, rfl⟩
    · obtain ⟨next, stored, -⟩ := setTempCurrDir_eq works rootDir
      rw [if_neg one] at short ⊢
      rw [bind_of_ok (strcpyTo_eq root), bind_of_ok stored,
        bind_of_ok (strcpyTo_eq (short _ rfl))]
      exact ⟨_, rfl⟩
  · rw [if_neg absolute] at short ⊢
    by_cases dots : 2 ≤ dir.length ∧ dir.getD 0 0 = dot ∧ dir.getD 1 0 = dot
    · obtain ⟨middle, stored, worksMiddle⟩ :=
        setTempCurrDir_eq works (parentPath pcb.tempCurrDir)
      obtain ⟨last, storedToo, -⟩ :=
        setCurrDir_eq worksMiddle (parentPath pcb.tempCurrDir)
      rw [if_pos dots] at short ⊢
      change ∃ result, (do
        setTempCurrDir (parentPath pcb.tempCurrDir)
        if dir.length = 2 then
          setCurrDir (← strcpyTo 50 (parentPath pcb.tempCurrDir))
          pure none
        else
          let dirname ← strcpyTo 100
            (← behindRoot (parentPath pcb.tempCurrDir))
          let dirname ← strcatTo 100 dirname (dir.drop 3)
          pure (some dirname)) k = .ok result
      rw [bind_of_ok stored]
      by_cases up : dir.length = 2
      · rw [if_pos up, bind_of_ok (strcpyTo_eq parentShort),
          bind_of_ok storedToo]
        exact ⟨_, rfl⟩
      · rw [if_neg up] at short ⊢
        have room := short _ rfl
        rw [List.length_append, List.length_drop] at room
        have parentRoom :
            ((parentPath pcb.tempCurrDir).drop 7).length + 2 ≤ 100 := by
          rw [List.length_drop]
          omega
        have both : ((parentPath pcb.tempCurrDir).drop 7).length +
            (dir.drop 3).length + 2 ≤ 100 := by
          rw [List.length_drop]
          exact room
        rw [bind_of_ok (behindRoot_eq parentLong),
          bind_of_ok (strcpyTo_eq parentRoom), bind_of_ok (strcatTo_eq both)]
        exact ⟨_, rfl⟩
    · have currRoom : (pcb.currDir.drop 7).length + 2 ≤ 100 := by
        rw [List.length_drop]
        omega
      rw [if_neg dots] at short ⊢
      rw [bind_of_ok (behindRoot_eq currLong),
        bind_of_ok (strcpyTo_eq currRoom)]
      by_cases dotSlash : 2 < dir.length ∧ dir.getD 0 0 = dot ∧
          dir.getD 1 0 = slash
      · rw [if_pos dotSlash] at short ⊢
        have room := short _ rfl
        rw [List.length_append] at room
        rw [bind_of_ok (strcatTo_eq room)]
        exact ⟨_, rfl⟩
      · rw [if_neg dotSlash] at short ⊢
        have room := short _ rfl
        rw [List.length_append] at room
        rw [bind_of_ok (strcatTo_eq room)]
        exact ⟨_, rfl⟩

theorem length_le_withSlash (before : Byte) (dirname : List Byte) :
    dirname.length ≤ (withSlash before dirname).length := by
  unfold withSlash
  split
  · rw [List.length_append]
    exact Nat.le_add_right _ _
  · exact Nat.le_refl _

theorem changedir_returns {name : List Byte} (works : WorksIn k tarfs dirs)
    (short : name.length + 2 ≤ 100)
    (fits : LookUpFits tarfs tarfs name dirs) :
    ∃ result, changedir name k = .ok result := by
  unfold changedir
  rw [bind_of_ok (show (get : KernelM Kernel) k = .ok (k, k) from rfl),
    works.tarfs]
  exact changedirLoop_returns works short tarfs fits

theorem yields_changedir_fits {name : List Byte}
    (works : WorksIn k tarfs dirs) :
    Yields AnyFault (changedir name) k fun _ _ =>
      LookUpFits tarfs tarfs name dirs := by
  unfold changedir
  rw [yields_bind, yields_get, works.tarfs]
  exact yields_changedirLoop_fits works tarfs

/-- The end of `chdir`: the lookup and the message. -/
theorem yields_lookUp_fits {name dir : List Byte}
    (works : WorksIn k tarfs dirs) :
    Yields AnyFault
      (do
        let ret ← changedir name
        if ret = 999 then
          pure (some (noSuchFile dir))
        else
          pure none) k fun _ _ => LookUpFits tarfs tarfs name dirs := by
  rw [yields_bind]
  apply (yields_changedir_fits works).mono
  intro ret next fits
  rw [yields_ite]
  exact ⟨fun _ => fits, fun _ => fits⟩

/-- A call of `chdir` that returns has fitted. -/
theorem yields_chdir_fits (works : WorksIn k tarfs dirs) (before : Byte)
    {dir dirname : List Byte} (nonempty : 0 < dir.length)
    (isName : (cdTarget dir dirs).2 = some dirname) :
    Yields AnyFault (chdir before dir) k fun _ _ =>
      (withSlash before dirname).length + 2 ≤ 100 ∧
        LookUpFits tarfs tarfs (withSlash before dirname)
          (cdTarget dir dirs).1 := by
  unfold chdir
  rw [if_pos nonempty, yields_bind]
  apply (yields_chdirTarget dir works).mono
  rintro target middle ⟨worksMiddle, rfl⟩
  rw [isName]
  dsimp only
  rw [yields_bind]
  apply yields_strcatTo_fits
  intro room
  rw [List.length_nil, Nat.add_zero] at room
  rw [List.append_nil, yields_ite]
  constructor
  · intro notSlash
    rw [yields_bind]
    apply yields_strcatTo_fits
    intro more
    have name : withSlash before dirname = dirname ++ [slash] :=
      if_pos notSlash
    rw [name, List.length_append]
    apply (yields_lookUp_fits worksMiddle).mono
    exact fun _ _ fits => ⟨more, fits⟩
  · intro isSlash
    have name : withSlash before dirname = dirname := if_neg isSlash
    rw [name]
    apply (yields_lookUp_fits worksMiddle).mono
    exact fun _ _ fits => ⟨room, fits⟩

/-- What fits, returns. -/
theorem chdir_returns (works : WorksIn k tarfs dirs) (dirsFit : DirsFit dirs)
    {before : Byte} {dir : List Byte} (nonempty : 0 < dir.length)
    (fits : CdFits tarfs before dir dirs) :
    ∃ result, chdir before dir k = .ok result := by
  obtain ⟨⟨target, middle⟩, cases⟩ := chdirTarget_returns works dirsFit dir
    fun dirname isName => by
      have room := (fits dirname isName).1
      have length := length_le_withSlash before dirname
      omega
  obtain ⟨worksMiddle, rfl⟩ := yields_of_ok (yields_chdirTarget dir works) cases
  unfold chdir
  rw [if_pos nonempty, bind_of_ok cases]
  cases isName : (cdTarget dir dirs).2 with
  | none => exact ⟨_, rfl⟩
  | some dirname =>
      obtain ⟨room, lookUpFits⟩ := fits dirname isName
      have length := length_le_withSlash before dirname
      obtain ⟨⟨ret, last⟩, looked⟩ :=
        changedir_returns worksMiddle room lookUpFits
      have ends : ∀ name, name = withSlash before dirname →
          ∃ result, (do
            let ret ← changedir name
            if ret = 999 then
              pure (some (noSuchFile dir))
            else
              pure none : KernelM (Option (List Byte))) middle =
            .ok result := by
        rintro name rfl
        rw [bind_of_ok looked]
        split
        · exact ⟨_, rfl⟩
        · exact ⟨_, rfl⟩
      have first : dirname.length + ([] : List Byte).length + 2 ≤ 100 := by
        rw [List.length_nil]
        omega
      dsimp only
      rw [bind_of_ok (strcatTo_eq first), List.append_nil]
      by_cases notSlash : lastByte before dirname ≠ slash
      · have name : withSlash before dirname = dirname ++ [slash] :=
          if_pos notSlash
        rw [name, List.length_append] at room
        rw [if_pos notSlash, bind_of_ok (strcatTo_eq room)]
        exact ends _ name.symm
      · have name : withSlash before dirname = dirname := if_neg notSlash
        rw [if_neg notSlash]
        exact ends _ name.symm

end Returns

/-! ## Paths -/

/-- A name between slashes. -/
structure IsName (name : List Byte) : Prop where
  nonempty : name ≠ []
  noSlash : slash ∉ name
  notDot : name ≠ [dot]
  notDots : name ≠ [dot, dot]

/-- The archive name of a directory. -/
def dirName (names : List (List Byte)) : List Byte :=
  (names.map (· ++ [slash])).flatten

/-- The working directory for a directory of the archive. -/
def dirPath (names : List (List Byte)) : List Byte :=
  rootDir ++ dirName names

/-- Names separated by slashes, with or without one at the end. -/
structure CdPath where
  names : List (List Byte)
  closed : Bool

def CdPath.text (path : CdPath) : List Byte :=
  if path.closed then dirName path.names else (dirName path.names).dropLast

/-- The forms of an argument of `cd`. -/
inductive CdArgument where
  | absolute (path : CdPath)
  | plain (path : CdPath)
  | dotted (path : CdPath)
  | up
  | upInto (path : CdPath)

namespace CdArgument

def text : CdArgument → List Byte
  | absolute path => slash :: path.text
  | plain path => path.text
  | dotted path => dot :: slash :: path.text
  | up => [dot, dot]
  | upInto path => dot :: dot :: slash :: path.text

def names : CdArgument → List (List Byte)
  | absolute path | plain path | dotted path | upInto path => path.names
  | up => []

/-- Where the names start in the directory `cur`. -/
def base (cur : List (List Byte)) : CdArgument → List (List Byte)
  | absolute _ => []
  | plain _ | dotted _ => cur
  | up | upInto _ => cur.dropLast

/-- The directory that the argument means. -/
def target (cur : List (List Byte)) (argument : CdArgument) :
    List (List Byte) :=
  argument.base cur ++ argument.names

/-- The path is a sequence of one or more names. -/
def WellFormed : CdArgument → Prop
  | absolute path | plain path | dotted path | upInto path =>
      path.names ≠ [] ∧ ∀ name ∈ path.names, IsName name
  | up => True

/-- The part of the argument that is a path. -/
def pathText : CdArgument → List Byte
  | absolute path | plain path | dotted path | upInto path => path.text
  | up => []

/-- A path from the current directory whose first name begins with two dots,
which `chdir` takes for the parent. -/
def DotsFirst : CdArgument → Prop
  | plain path => [dot, dot] <+: path.text
  | _ => False

end CdArgument

/-- Both strings are a directory. -/
def here (cur : List (List Byte)) : Dirs where
  curr := dirPath cur
  temp := dirPath cur

/-- The directories of the table are closed under parents. -/
def ClosedTable (tarfs : List TarFile) : Prop :=
  ∀ names name, (∀ other ∈ names ++ [name], IsName other) →
    HasDirectory tarfs (dirName (names ++ [name])) →
      names = [] ∨ HasDirectory tarfs (dirName names)

/-- The process is in a directory of the table, whose path is in its
fields. -/
structure WorksInDirectory (k : Kernel) (tarfs : List TarFile)
    (cur : List (List Byte)) : Prop where
  works : WorksIn k tarfs (here cur)
  isName : ∀ name ∈ cur, IsName name
  short : (dirPath cur).length + 2 ≤ 50
  isDirectory : cur = [] ∨ HasDirectory tarfs (dirName cur)
  closed : ClosedTable tarfs

/-- The root, or a directory of the table. -/
def IsDirectory (tarfs : List TarFile) (names : List (List Byte)) : Prop :=
  names = [] ∨ HasDirectory tarfs (dirName names)

/-- `chdir` returns without a look at the byte before `dirname`; the working
directory is then the target when that is a directory, and neither string has
changed when it is not. -/
def CdResolves (k : Kernel) (tarfs : List TarFile) (cur : List (List Byte))
    (argument : CdArgument) : Prop :=
  ∀ before, ∃ message next,
    chdir before argument.text k = .ok (message, next) ∧
      (cdTarget argument.text (here cur)).2 ≠ some [] ∧
      (IsDirectory tarfs (argument.target cur) →
        ∃ temp, WorksIn next tarfs
          { curr := dirPath (argument.target cur), temp }) ∧
      (¬ IsDirectory tarfs (argument.target cur) →
        WorksIn next tarfs (here cur))

/-- When the lookup of a path is right: for a directory that is one name away
or the current one, and for a missing one where `temp_curr_dir` is not moved.
The last entry of a full table may not be passed. -/
def LookUpRight (tarfs : List TarFile) (cur : List (List Byte))
    (argument : CdArgument) : Prop :=
  (HasDirectory tarfs (dirName (argument.target cur)) ∧
    ((argument.names.length = 1 ∧
        (dirPath (argument.target cur)).length + 2 ≤ 50) ∨
      (argument.target cur = cur ∧ tarfs.length < 100))) ∨
  (¬ HasDirectory tarfs (dirName (argument.target cur)) ∧
    argument.base cur = cur ∧
      (dirName (argument.target cur)).length + 2 ≤ 100 ∧ tarfs.length < 100)

/-- What is looked up in place of a name with two dots in front. -/
def dotsName (cur : List (List Byte)) (argument : CdArgument) : List Byte :=
  dirName cur.dropLast ++ argument.text.drop 3

/-- When the wrong lookup does no harm: there is no such directory, and the
other one that is looked up is the current one, or is missing in the root. -/
def DotsRight (tarfs : List TarFile) (cur : List (List Byte))
    (argument : CdArgument) : Prop :=
  ¬ HasDirectory tarfs (dirName (argument.target cur)) ∧
    dotsName cur argument ≠ [] ∧ CdFits tarfs 0 argument.text (here cur) ∧
      ((Found tarfs (withSlash 0 (dotsName cur argument))
          { curr := dirPath cur, temp := dirPath cur.dropLast } ∧
          withSlash 0 (dotsName cur argument) = dirName cur) ∨
        (¬ Found tarfs (withSlash 0 (dotsName cur argument))
          { curr := dirPath cur, temp := dirPath cur.dropLast } ∧
          cur = []))

/-- The arguments that are resolved as they should. -/
def CdRight (tarfs : List TarFile) (cur : List (List Byte))
    (argument : CdArgument) : Prop :=
  argument = .up ∨
    (¬ argument.DotsFirst ∧ LookUpRight tarfs cur argument) ∨
      (argument.DotsFirst ∧ DotsRight tarfs cur argument)

section Names

variable {names : List (List Byte)} {name : List Byte}

theorem dirName_nil : dirName [] = [] := rfl

theorem dirName_append (first second : List (List Byte)) :
    dirName (first ++ second) = dirName first ++ dirName second := by
  rw [dirName, List.map_append, List.flatten_append]
  rfl

theorem dirName_singleton (name : List Byte) :
    dirName [name] = name ++ [slash] := by
  rw [dirName, List.map_singleton, List.flatten_singleton]

theorem dirName_concat (names : List (List Byte)) (name : List Byte) :
    dirName (names ++ [name]) = dirName names ++ name ++ [slash] := by
  rw [dirName_append, dirName_singleton, List.append_assoc]

theorem dirName_eq_nil : dirName names = [] ↔ names = [] := by
  cases names with
  | nil => exact iff_of_true rfl rfl
  | cons name names =>
      apply iff_of_false
      · rw [← List.singleton_append, dirName_append, dirName_singleton]
        simp
      · exact List.cons_ne_nil _ _

theorem dirPath_drop (names : List (List Byte)) :
    (dirPath names).drop 7 = dirName names :=
  List.drop_left' rfl

/-- The parent of a directory's name, as `changedir` finds it. -/
theorem parentName_dirName (isName : ∀ name ∈ names, IsName name) :
    parentName (dirName names) = dirName names.dropLast := by
  unfold parentName
  rcases List.eq_nil_or_concat' names with rfl | ⟨front, last, rfl⟩
  · rfl
  · have lastName := isName last (by simp)
    rw [List.dropLast_concat, dirName_concat]
    rcases List.eq_nil_or_concat' front with rfl | ⟨first, middle, rfl⟩
    · rw [dirName_nil, List.nil_append,
        substrTillchar_one lastName.noSlash List.not_mem_nil]
      rfl
    · have middleName := isName middle (by simp)
      have front : dirName first ++ middle ≠ [] := by
        intro empty
        exact middleName.nonempty (List.append_eq_nil_iff.mp empty).2
      have two := substrTillchar_two (dirName first ++ middle)
        lastName.noSlash (List.not_mem_nil (a := slash))
      rw [if_neg front] at two
      have parts : dirName (first ++ [middle]) ++ last ++ [slash] =
          (dirName first ++ middle) ++ slash :: (last ++ slash :: []) := by
        rw [dirName_concat]
        simp only [List.append_assoc, List.cons_append, List.nil_append]
      rw [parts, two, dirName_concat]
      rfl

theorem parentPath_dirPath (isName : ∀ name ∈ names, IsName name) :
    parentPath (dirPath names) = dirPath names.dropLast := by
  have root : rootDir = [0x72, 0x6F, 0x6F, 0x74, 0x66, 0x73] ++ [slash] := rfl
  rcases List.eq_nil_or_concat' names with rfl | ⟨front, last, rfl⟩
  · exact parentPath_root
  · have lastName := isName last (by simp)
    have two : ∀ whole, whole ≠ [] →
        substrTillchar (whole ++ slash :: (last ++ slash :: [])) slash =
          some (whole ++ [slash]) := by
      intro whole nonempty
      rw [substrTillchar_two whole lastName.noSlash List.not_mem_nil,
        if_neg nonempty]
    rw [List.dropLast_concat]
    unfold parentPath dirPath
    rw [dirName_concat]
    rcases List.eq_nil_or_concat' front with rfl | ⟨first, middle, rfl⟩
    · have parts : rootDir ++ (dirName [] ++ last ++ [slash]) =
          [0x72, 0x6F, 0x6F, 0x74, 0x66, 0x73] ++
            slash :: (last ++ slash :: []) := by
        rw [dirName_nil, List.nil_append, root, List.append_assoc]
        rfl
      rw [parts, two _ (by decide)]
      rfl
    · have parts : rootDir ++ (dirName (first ++ [middle]) ++ last ++
          [slash]) = (rootDir ++ (dirName first ++ middle)) ++
            slash :: (last ++ slash :: []) := by
        rw [dirName_concat]
        simp only [List.append_assoc, List.cons_append, List.nil_append]
      rw [parts, two _ (by simp [root]), dirName_concat]
      simp only [Option.getD_some, List.append_assoc]

theorem withSlash_slash (before : Byte) (front : List Byte) :
    withSlash before (front ++ [slash]) = front ++ [slash] := by
  apply if_neg
  rw [lastByte, List.getLastD_concat]
  exact not_not.mpr rfl

theorem withSlash_char (before : Byte) (front : List Byte) {char : Byte}
    (notSlash : char ≠ slash) :
    withSlash before (front ++ [char]) = front ++ [char] ++ [slash] := by
  apply if_pos
  rw [lastByte, List.getLastD_concat]
  exact notSlash

/-- The path of an argument ends with its last name, or with a slash. -/
theorem withSlash_text (before : Byte) (front : List Byte) {path : CdPath}
    (nonempty : path.names ≠ [])
    (isName : ∀ name ∈ path.names, IsName name) :
    withSlash before (front ++ path.text) = front ++ dirName path.names := by
  obtain ⟨names, closed⟩ := path
  dsimp only at nonempty isName
  obtain ⟨first, last, rfl⟩ :=
    (List.eq_nil_or_concat' names).resolve_left nonempty
  have lastName := isName last (by simp)
  unfold CdPath.text
  dsimp only
  rw [dirName_concat]
  cases closed with
  | true =>
      rw [if_pos rfl, ← List.append_assoc, withSlash_slash]
  | false =>
      obtain ⟨start, char, rfl⟩ :=
        (List.eq_nil_or_concat' last).resolve_left lastName.nonempty
      have notSlash : char ≠ slash := by
        rintro rfl
        exact lastName.noSlash (by simp)
      rw [if_neg Bool.false_ne_true, List.dropLast_concat,
        ← List.append_assoc, ← List.append_assoc, withSlash_char _ _ notSlash]
      simp only [List.append_assoc]

theorem dirName_cons (name : List Byte) (names : List (List Byte)) :
    dirName (name :: names) = name ++ slash :: dirName names := by
  rw [← List.singleton_append, dirName_append, dirName_singleton,
    List.append_assoc]
  rfl

/-- A name is told from what follows its slash. -/
theorem append_slash_inj {first second rest other : List Byte}
    (noSlashFirst : slash ∉ first) (noSlashSecond : slash ∉ second)
    (same : first ++ slash :: rest = second ++ slash :: other) :
    first = second ∧ rest = other := by
  induction first generalizing second with
  | nil =>
      cases second with
      | nil => exact ⟨rfl, (List.cons.inj same).2⟩
      | cons char second =>
          have isSlash := (List.cons.inj same).1
          exact absurd (isSlash ▸ List.mem_cons_self ..) noSlashSecond
  | cons char first inductionHypothesis =>
      cases second with
      | nil =>
          have isSlash := (List.cons.inj same).1
          exact absurd (isSlash ▸ List.mem_cons_self ..) noSlashFirst
      | cons otherChar second =>
          obtain ⟨sameChar, sameRest⟩ := List.cons.inj same
          obtain ⟨sameName, sameTail⟩ := inductionHypothesis
            (fun inFirst => noSlashFirst (List.mem_cons_of_mem _ inFirst))
            (fun inSecond => noSlashSecond (List.mem_cons_of_mem _ inSecond))
            sameRest
          exact ⟨by rw [sameChar, sameName], sameTail⟩

theorem dirName_injective :
    ∀ {names others : List (List Byte)}, (∀ name ∈ names, IsName name) →
      (∀ name ∈ others, IsName name) → dirName names = dirName others →
        names = others := by
  intro names
  induction names with
  | nil =>
      intro others _ _ same
      exact (dirName_eq_nil.mp same.symm).symm
  | cons name names inductionHypothesis =>
      intro others isName isOther same
      cases others with
      | nil => exact absurd (dirName_eq_nil.mp same) (List.cons_ne_nil _ _)
      | cons other others =>
          rw [dirName_cons, dirName_cons] at same
          obtain ⟨sameName, sameRest⟩ := append_slash_inj
            (isName name (List.mem_cons_self ..)).noSlash
            (isOther other (List.mem_cons_self ..)).noSlash same
          rw [sameName, inductionHypothesis
            (fun n isIn => isName n (List.mem_cons_of_mem _ isIn))
            (fun n isIn => isOther n (List.mem_cons_of_mem _ isIn)) sameRest]

theorem dirPath_injective {others : List (List Byte)}
    (isName : ∀ name ∈ names, IsName name)
    (isOther : ∀ name ∈ others, IsName name) :
    dirPath names = dirPath others ↔ names = others := by
  constructor
  · exact fun same => dirName_injective isName isOther
      (List.append_cancel_left same)
  · exact congrArg dirPath

theorem length_dirName_dropLast (names : List (List Byte)) :
    (dirName names.dropLast).length ≤ (dirName names).length := by
  rcases List.eq_nil_or_concat' names with rfl | ⟨front, last, rfl⟩
  · exact Nat.le_refl _
  · rw [List.dropLast_concat, dirName_append, List.length_append]
    exact Nat.le_add_right _ _

/-- The first name of a path, with a slash behind it or at the end. -/
theorem CdPath.text_first {path : CdPath} (nonempty : path.names ≠ [])
    (isName : ∀ name ∈ path.names, IsName name) :
    ∃ name rest, IsName name ∧ path.text = name ++ rest ∧
      (rest = [] ∨ ∃ tail, rest = slash :: tail) := by
  obtain ⟨names, closed⟩ := path
  dsimp only at nonempty isName
  cases names with
  | nil => exact absurd rfl nonempty
  | cons name names =>
      have firstName := isName name (List.mem_cons_self ..)
      unfold CdPath.text
      dsimp only
      rw [dirName_cons]
      cases closed with
      | true => exact ⟨name, _, firstName, rfl, .inr ⟨_, rfl⟩⟩
      | false =>
          rw [if_neg Bool.false_ne_true,
            List.dropLast_append_of_ne_nil (List.cons_ne_nil _ _)]
          refine ⟨name, _, firstName, rfl, ?_⟩
          cases rest : dirName names with
          | nil => exact .inl rfl
          | cons char chars => exact .inr ⟨_, rfl⟩

/-- The lookup from a directory enters what is one name away. -/
theorem enters_path_iff {cur base : List (List Byte)} (nonempty : names ≠ [])
    (isName : ∀ name ∈ base ++ names, IsName name) :
    Enters (dirName (base ++ names))
        { curr := dirPath cur, temp := dirPath base } ↔
      names.length = 1 := by
  have parent := parentName_dirName isName
  rw [List.dropLast_append_of_ne_nil nonempty] at parent
  have single : names.dropLast = [] ↔ names.length = 1 := by
    have long := List.length_pos_of_ne_nil nonempty
    rw [← List.length_eq_zero_iff, List.length_dropLast]
    omega
  unfold Enters
  constructor
  · rintro (⟨-, noParent⟩ | same)
    · rw [parentName, noParent] at parent
      have empty := dirName_eq_nil.mp parent.symm
      exact single.mp (List.append_eq_nil_iff.mp empty).2
    · have same : parentName (dirName (base ++ names)) = dirName base :=
        List.append_cancel_left same
      rw [parent, dirName_append, List.append_right_eq_self,
        dirName_eq_nil] at same
      exact single.mp same
  · intro one
    right
    rw [single.mpr one, List.append_nil] at parent
    exact congrArg (rootDir ++ ·) parent

theorem found_path_iff {tarfs : List TarFile} {cur base : List (List Byte)}
    (nonempty : names ≠ [])
    (isName : ∀ name ∈ base ++ names, IsName name) :
    Found tarfs (dirName (base ++ names))
        { curr := dirPath cur, temp := dirPath base } ↔
      HasDirectory tarfs (dirName (base ++ names)) ∧ names.length = 1 := by
  have enters : Enters (dirName (base ++ names))
      { curr := dirPath cur, temp := dirPath base } ↔ names.length = 1 :=
    enters_path_iff nonempty isName
  constructor
  · rintro ⟨file, member, type, named, entered⟩
    exact ⟨⟨file, member, type, named⟩, enters.mp entered⟩
  · rintro ⟨⟨file, member, type, named⟩, one⟩
    exact ⟨file, member, type, named, enters.mpr one⟩

end Names

/-! ## The forms of an argument -/

section Arguments

variable {k : Kernel} {tarfs : List TarFile} {cur : List (List Byte)}
  {argument : CdArgument}

/-- A path does not begin with a slash, nor with `./`. -/
theorem text_begins {path : CdPath} (nonempty : path.names ≠ [])
    (isName : ∀ name ∈ path.names, IsName name) :
    path.text ≠ [] ∧ path.text.getD 0 0 ≠ slash ∧
      ¬ (path.text.getD 0 0 = dot ∧ path.text.getD 1 0 = slash) := by
  obtain ⟨name, rest, firstName, text, ends⟩ :=
    CdPath.text_first nonempty isName
  rw [text]
  cases name with
  | nil => exact absurd rfl firstName.nonempty
  | cons char chars =>
      refine ⟨List.cons_ne_nil _ _, ?_, ?_⟩
      · rintro rfl
        exact firstName.noSlash (List.mem_cons_self ..)
      · rintro ⟨rfl, isSlash⟩
        cases chars with
        | nil => exact firstName.notDot rfl
        | cons second chars =>
            have same : second = slash := isSlash
            rw [same] at firstName
            exact firstName.noSlash (by simp)

/-- A path that begins with two dots has a name that goes on. -/
theorem text_dots {path : CdPath} (nonempty : path.names ≠ [])
    (isName : ∀ name ∈ path.names, IsName name)
    (dots : [dot, dot] <+: path.text) : 3 ≤ path.text.length := by
  obtain ⟨name, rest, firstName, text, ends⟩ :=
    CdPath.text_first nonempty isName
  rw [text] at dots ⊢
  obtain ⟨after, split⟩ := dots
  by_contra short
  have length : (name ++ rest).length = 2 + after.length := by
    rw [← split, List.length_append]
    rfl
  have whole : name ++ rest = [dot, dot] := by
    have none : after = [] := List.eq_nil_of_length_eq_zero (by omega)
    rw [← split, none]
    rfl
  rcases ends with rfl | ⟨tail, rfl⟩
  · rw [List.append_nil] at whole
    exact firstName.notDots whole
  · have isSlash : slash ∈ [dot, dot] := by
      rw [← whole]
      simp
    exact absurd isSlash (by decide)

theorem getD_two {s : List Byte} (long : 2 ≤ s.length) :
    [dot, dot] <+: s ↔ s.getD 0 0 = dot ∧ s.getD 1 0 = dot := by
  match s, long with
  | first :: second :: rest, _ =>
      constructor
      · rintro ⟨rest, same⟩
        rw [← same]
        exact ⟨rfl, rfl⟩
      · rintro ⟨isFirst, isSecond⟩
        have sameFirst : first = dot := isFirst
        have sameSecond : second = dot := isSecond
        exact ⟨rest, by rw [sameFirst, sameSecond]; rfl⟩

/-- What is looked up for a path. -/
theorem cdTarget_path (wellFormed : argument.WellFormed)
    (isName : ∀ name ∈ cur, IsName name) (notUp : argument ≠ .up)
    (notDots : ¬ argument.DotsFirst) :
    cdTarget argument.text (here cur) =
      ({ curr := dirPath cur, temp := dirPath (argument.base cur) },
        some (dirName (argument.base cur) ++ argument.pathText)) := by
  unfold cdTarget
  cases argument with
  | absolute path =>
      obtain ⟨nonempty, -⟩ := text_begins wellFormed.1 wellFormed.2
      have long := List.length_pos_of_ne_nil nonempty
      have notOne : ¬ (slash :: path.text).length = 1 := by
        rw [List.length_cons]
        omega
      have isSlash : (slash :: path.text).getD 0 0 = slash := rfl
      rw [CdArgument.text, if_pos isSlash, if_neg notOne]
      show _ = (({ curr := dirPath cur, temp := rootDir ++ dirName [] } : Dirs),
        some (dirName [] ++ path.text))
      rw [dirName_nil, List.append_nil]
      rfl
  | plain path =>
      obtain ⟨nonempty, notSlash, notDotSlash⟩ :=
        text_begins wellFormed.1 wellFormed.2
      have noDots : ¬ (2 ≤ path.text.length ∧ path.text.getD 0 0 = dot ∧
          path.text.getD 1 0 = dot) := by
        rintro ⟨long, both⟩
        exact notDots ((getD_two long).mpr both)
      rw [CdArgument.text, if_neg notSlash, if_neg noDots,
        if_neg fun both => notDotSlash both.2]
      show (here cur, some ((dirPath cur).drop 7 ++ path.text)) = _
      rw [dirPath_drop]
      rfl
  | dotted path =>
      obtain ⟨nonempty, -⟩ := text_begins wellFormed.1 wellFormed.2
      have long := List.length_pos_of_ne_nil nonempty
      have dotSlash : 2 < (dot :: slash :: path.text).length ∧
          (dot :: slash :: path.text).getD 0 0 = dot ∧
            (dot :: slash :: path.text).getD 1 0 = slash := by
        refine ⟨?_, rfl, rfl⟩
        rw [List.length_cons, List.length_cons]
        omega
      have noDots : ¬ (2 ≤ (dot :: slash :: path.text).length ∧
          (dot :: slash :: path.text).getD 0 0 = dot ∧
            (dot :: slash :: path.text).getD 1 0 = dot) := by
        rintro ⟨-, -, isDot⟩
        exact absurd (show slash = dot from isDot) (by decide)
      have notSlash : ¬ (dot :: slash :: path.text).getD 0 0 = slash := by
        show ¬ dot = slash
        decide
      rw [CdArgument.text, if_neg notSlash, if_neg noDots, if_pos dotSlash]
      show (here cur, some ((dirPath cur).drop 7 ++ path.text)) = _
      rw [dirPath_drop]
      rfl
  | up => exact absurd rfl notUp
  | upInto path =>
      have dots : 2 ≤ (dot :: dot :: slash :: path.text).length ∧
          (dot :: dot :: slash :: path.text).getD 0 0 = dot ∧
            (dot :: dot :: slash :: path.text).getD 1 0 = dot :=
        ⟨by simp, rfl, rfl⟩
      have notTwo : ¬ (dot :: dot :: slash :: path.text).length = 2 := by
        simp
      have notSlash : ¬ (dot :: dot :: slash :: path.text).getD 0 0 =
          slash := by
        show ¬ dot = slash
        decide
      rw [CdArgument.text, if_neg notSlash, if_pos dots, if_neg notTwo]
      show (({ curr := dirPath cur, temp := parentPath (dirPath cur) } : Dirs),
        some ((parentPath (dirPath cur)).drop 7 ++ path.text)) = _
      rw [parentPath_dirPath isName, dirPath_drop]
      rfl

/-- What is looked up for a name with two dots in front. -/
theorem cdTarget_dots (wellFormed : argument.WellFormed)
    (isName : ∀ name ∈ cur, IsName name) (dots : argument.DotsFirst) :
    cdTarget argument.text (here cur) =
      ({ curr := dirPath cur, temp := dirPath cur.dropLast },
        some (dotsName cur argument)) := by
  cases argument with
  | plain path =>
      obtain ⟨nonempty, notSlash, -⟩ :=
        text_begins wellFormed.1 wellFormed.2
      have long := text_dots wellFormed.1 wellFormed.2 dots
      have both : 2 ≤ path.text.length ∧ path.text.getD 0 0 = dot ∧
          path.text.getD 1 0 = dot :=
        ⟨by omega, (getD_two (by omega)).mp dots⟩
      have notTwo : ¬ path.text.length = 2 := by
        omega
      unfold cdTarget dotsName
      rw [CdArgument.text, if_neg notSlash, if_pos both, if_neg notTwo]
      show (({ curr := dirPath cur, temp := parentPath (dirPath cur) } : Dirs),
        some ((parentPath (dirPath cur)).drop 7 ++ path.text.drop 3)) = _
      rw [parentPath_dirPath isName, dirPath_drop]
  | absolute path => exact absurd dots id
  | dotted path => exact absurd dots id
  | up => exact absurd dots id
  | upInto path => exact absurd dots id

theorem cdTarget_up (isName : ∀ name ∈ cur, IsName name) :
    cdTarget CdArgument.up.text (here cur) = (here cur.dropLast, none) := by
  show (({ curr := parentPath (dirPath cur)
           temp := parentPath (dirPath cur) } : Dirs), none) = _
  rw [parentPath_dirPath isName]
  rfl

theorem dirsFit_here (isName : ∀ name ∈ cur, IsName name)
    (short : (dirPath cur).length + 2 ≤ 50) : DirsFit (here cur) := by
  have root : rootDir.length = 7 := rfl
  have parentShort := length_dirName_dropLast cur
  have length : (dirPath cur).length = 7 + (dirName cur).length := by
    rw [dirPath, List.length_append, root]
  have parentLength : (parentPath (dirPath cur)).length =
      7 + (dirName cur.dropLast).length := by
    rw [parentPath_dirPath isName, dirPath, List.length_append, root]
  constructor
  · exact ⟨by show 7 ≤ (dirPath cur).length; omega, short⟩
  · show 7 ≤ (parentPath (dirPath cur)).length ∧
      (parentPath (dirPath cur)).length + 2 ≤ 50
    omega

/-- What a call does is what `cd` says, when the buffers hold it. -/
theorem cdResolves_iff_cd (inDirectory : WorksInDirectory k tarfs cur)
    (nonempty : 0 < argument.text.length) :
    CdResolves k tarfs cur argument ↔
      ∀ before, CdFits tarfs before argument.text (here cur) ∧
        (cdTarget argument.text (here cur)).2 ≠ some [] ∧
        (IsDirectory tarfs (argument.target cur) →
          (cd tarfs before argument.text (here cur)).1.curr =
            dirPath (argument.target cur)) ∧
        (¬ IsDirectory tarfs (argument.target cur) →
          (cd tarfs before argument.text (here cur)).1 = here cur) := by
  have works := inDirectory.works
  have dirsFit := dirsFit_here inDirectory.isName inDirectory.short
  constructor
  · intro resolves before
    obtain ⟨message, next, returned, notBefore, goes, stays⟩ :=
      resolves before
    obtain ⟨worksNext, -⟩ :=
      yields_of_ok (yields_chdir before argument.text works) returned
    refine ⟨?_, notBefore, ?_, ?_⟩
    · intro dirname isName
      have fits := yields_of_ok
        (yields_chdir_fits works before nonempty isName) returned
      exact fits
    · intro isDirectory
      obtain ⟨temp, worksTarget⟩ := goes isDirectory
      rw [worksNext.unique worksTarget]
    · exact fun missing => worksNext.unique (stays missing)
  · intro holds before
    obtain ⟨fits, notBefore, goes, stays⟩ := holds before
    obtain ⟨⟨message, next⟩, returned⟩ :=
      chdir_returns works dirsFit nonempty fits
    obtain ⟨worksNext, -⟩ :=
      yields_of_ok (yields_chdir before argument.text works) returned
    refine ⟨message, next, returned, notBefore, ?_, ?_⟩
    · intro isDirectory
      refine ⟨(cd tarfs before argument.text (here cur)).1.temp, ?_⟩
      rw [← goes isDirectory]
      exact worksNext
    · intro missing
      rw [← stays missing]
      exact worksNext

/-- `cd ..` goes to the parent. -/
theorem cdResolves_up (inDirectory : WorksInDirectory k tarfs cur) :
    CdResolves k tarfs cur .up := by
  have isName := inDirectory.isName
  rw [cdResolves_iff_cd inDirectory (by decide)]
  intro before
  have target := cdTarget_up isName
  have result : cd tarfs before CdArgument.up.text (here cur) =
      (here cur.dropLast, false) := by
    rw [cd, if_pos (by decide), target]
    rfl
  have parent : CdArgument.up.target cur = cur.dropLast :=
    List.append_nil _
  have isDirectory : IsDirectory tarfs cur.dropLast := by
    rcases List.eq_nil_or_concat' cur with rfl | ⟨front, last, rfl⟩
    · exact .inl rfl
    · rw [List.dropLast_concat]
      rcases inDirectory.isDirectory with empty | has
      · exact absurd empty (by simp)
      · exact inDirectory.closed front last isName has
  rw [target, result, parent]
  refine ⟨fun dirname none => ?_, ?_, fun _ => rfl,
    fun missing => absurd isDirectory missing⟩
  · rw [target] at none
    cases none
  · exact fun none => nomatch none

theorem names_wellFormed (wellFormed : argument.WellFormed)
    (notUp : argument ≠ .up) : argument.names ≠ [] ∧
      ∀ name ∈ argument.names, IsName name := by
  cases argument with
  | up => exact absurd rfl notUp
  | _ => exact wellFormed

theorem base_isName (argument : CdArgument)
    (isName : ∀ name ∈ cur, IsName name) :
    ∀ name ∈ argument.base cur, IsName name := by
  cases argument with
  | absolute => exact fun name none => absurd none List.not_mem_nil
  | plain | dotted => exact isName
  | up | upInto =>
      exact fun name member => isName name (List.dropLast_subset _ member)

theorem target_isName (wellFormed : argument.WellFormed)
    (notUp : argument ≠ .up) (isName : ∀ name ∈ cur, IsName name) :
    ∀ name ∈ argument.target cur, IsName name := by
  intro name member
  rcases List.mem_append.mp member with inBase | inNames
  · exact base_isName argument isName name inBase
  · exact (names_wellFormed wellFormed notUp).2 name inNames

theorem text_nonempty (wellFormed : argument.WellFormed) :
    0 < argument.text.length := by
  cases argument with
  | plain path =>
      exact List.length_pos_of_ne_nil
        (text_begins wellFormed.1 wellFormed.2).1
  | _ => exact Nat.succ_pos _

/-- The name that is looked up is the target's. -/
theorem withSlash_pathText (before : Byte)
    (wellFormed : argument.WellFormed) (notUp : argument ≠ .up) :
    withSlash before (dirName (argument.base cur) ++ argument.pathText) =
      dirName (argument.target cur) := by
  rw [CdArgument.target, dirName_append]
  cases argument with
  | up => exact absurd rfl notUp
  | _ => exact withSlash_text before _ wellFormed.1 wellFormed.2

theorem target_ne_nil (wellFormed : argument.WellFormed)
    (notUp : argument ≠ .up) : argument.target cur ≠ [] := by
  intro empty
  exact (names_wellFormed wellFormed notUp).1
    (List.append_eq_nil_iff.mp empty).2

theorem dirName_target_ne_nil (wellFormed : argument.WellFormed)
    (notUp : argument ≠ .up) :
    dirName (argument.base cur) ++ argument.pathText ≠ [] := by
  intro empty
  have nonempty : argument.pathText ≠ [] := by
    cases argument with
    | up => exact absurd rfl notUp
    | _ => exact (text_begins wellFormed.1 wellFormed.2).1
  exact nonempty (List.append_eq_nil_iff.mp empty).2

/-- A lookup of a path is right exactly under the condition. -/
theorem cdResolves_lookUp (inDirectory : WorksInDirectory k tarfs cur)
    (wellFormed : argument.WellFormed) (notUp : argument ≠ .up)
    (notDots : ¬ argument.DotsFirst) :
    CdResolves k tarfs cur argument ↔ LookUpRight tarfs cur argument := by
  have isName := inDirectory.isName
  have targetName := target_isName wellFormed notUp isName
  have baseName := base_isName argument isName
  have nonempty := (names_wellFormed wellFormed notUp).1
  have isTarget := cdTarget_path wellFormed isName notUp notDots
  have found : Found tarfs (dirName (argument.target cur))
      { curr := dirPath cur, temp := dirPath (argument.base cur) } ↔
        HasDirectory tarfs (dirName (argument.target cur)) ∧
          argument.names.length = 1 :=
    found_path_iff nonempty targetName
  have isDirectory : IsDirectory tarfs (argument.target cur) ↔
      HasDirectory tarfs (dirName (argument.target cur)) :=
    or_iff_right (target_ne_nil wellFormed notUp)
  have result : ∀ before, cd tarfs before argument.text (here cur) =
      lookUp tarfs (dirName (argument.target cur))
        { curr := dirPath cur, temp := dirPath (argument.base cur) } := by
    intro before
    rw [cd, if_pos (text_nonempty wellFormed), isTarget, finishCd,
      withSlash_pathText before wellFormed notUp]
  have fits : ∀ before, CdFits tarfs before argument.text (here cur) ↔
      (dirName (argument.target cur)).length + 2 ≤ 100 ∧
        LookUpFits tarfs tarfs (dirName (argument.target cur))
          { curr := dirPath cur, temp := dirPath (argument.base cur) } := by
    intro before
    unfold CdFits
    rw [isTarget]
    constructor
    · intro all
      have one := all _ rfl
      rwa [withSlash_pathText before wellFormed notUp] at one
    · rintro one dirname isDirname
      cases isDirname
      rwa [withSlash_pathText before wellFormed notUp]
  have length : (dirPath (argument.target cur)).length =
      7 + (dirName (argument.target cur)).length := List.length_append
  rw [cdResolves_iff_cd inDirectory (text_nonempty wellFormed)]
  unfold LookUpRight
  constructor
  · intro holds
    obtain ⟨fit, -, goes, stays⟩ := holds 0
    obtain ⟨room, lookUpFits⟩ := (fits 0).mp fit
    rw [result, isDirectory] at goes stays
    by_cases has : HasDirectory tarfs (dirName (argument.target cur))
    · refine .inl ⟨has, ?_⟩
      by_cases one : argument.names.length = 1
      · have bound := lookUpFits.found (found.mpr ⟨has, one⟩)
        exact .inl ⟨one, by omega⟩
      · have notFound : ¬ Found tarfs (dirName (argument.target cur))
            { curr := dirPath cur, temp := dirPath (argument.base cur) } :=
          fun isFound => one (found.mp isFound).2
        have same := goes has
        rw [lookUp, if_neg notFound] at same
        have isCur := (dirPath_injective isName targetName).mp same
        exact .inr ⟨isCur.symm, lookUpFits.notFound notFound⟩
    · have notFound : ¬ Found tarfs (dirName (argument.target cur))
          { curr := dirPath cur, temp := dirPath (argument.base cur) } :=
        fun isFound => has (found.mp isFound).1
      have same := congrArg Dirs.temp (stays has)
      rw [lookUp, if_neg notFound] at same
      have isCur := (dirPath_injective baseName isName).mp same
      exact .inr ⟨has, isCur, room, lookUpFits.notFound notFound⟩
  · intro right before
    rw [fits, result, isDirectory, isTarget]
    rcases right with ⟨has, near⟩ | ⟨missing, isCur, room, notFull⟩
    · -- a directory: its path is short in both cases
      have short : 7 + (dirName (argument.target cur)).length + 2 ≤ 50 := by
        rcases near with ⟨-, bound⟩ | ⟨same, -⟩
        · omega
        · have bound := inDirectory.short
          rw [← same] at bound
          omega
      have notFull : ¬ Found tarfs (dirName (argument.target cur))
          { curr := dirPath cur, temp := dirPath (argument.base cur) } →
            tarfs.length < 100 := by
        intro notFound
        rcases near with ⟨one, -⟩ | ⟨-, notFull⟩
        · exact absurd (found.mpr ⟨has, one⟩) notFound
        · exact notFull
      have parent := length_dirName_dropLast (argument.target cur)
      rw [← parentName_dirName targetName] at parent
      refine ⟨⟨by omega, fun _ => by omega, fun _ => short, notFull⟩, ?_, ?_,
        fun missing => absurd has missing⟩
      · exact fun same =>
          dirName_target_ne_nil wellFormed notUp (Option.some.inj same)
      · intro _
        by_cases isFound : Found tarfs (dirName (argument.target cur))
            { curr := dirPath cur, temp := dirPath (argument.base cur) }
        · rw [lookUp, if_pos isFound]
          rfl
        · rw [lookUp, if_neg isFound]
          rcases near with ⟨one, -⟩ | ⟨same, -⟩
          · exact absurd (found.mpr ⟨has, one⟩) isFound
          · rw [same]
    · have notFound : ¬ Found tarfs (dirName (argument.target cur))
          { curr := dirPath cur, temp := dirPath (argument.base cur) } :=
        fun isFound => missing (found.mp isFound).1
      refine ⟨⟨room, fun has => absurd has missing,
        fun isFound => absurd isFound notFound, fun _ => notFull⟩, ?_,
        fun has => absurd has missing, ?_⟩
      · exact fun same =>
          dirName_target_ne_nil wellFormed notUp (Option.some.inj same)
      · intro _
        rw [lookUp, if_neg notFound, isCur]
        rfl

theorem withSlash_of_ne_nil {dirname : List Byte} (nonempty : dirname ≠ [])
    (before other : Byte) :
    withSlash before dirname = withSlash other dirname := by
  obtain ⟨front, char, rfl⟩ :=
    (List.eq_nil_or_concat' dirname).resolve_left nonempty
  unfold withSlash lastByte
  rw [List.getLastD_concat, List.getLastD_concat]

/-- The name that is looked up in the wrong directory is too short for the
target. -/
theorem length_dotsName (wellFormed : argument.WellFormed)
    (dots : argument.DotsFirst) (before : Byte) :
    (withSlash before (dotsName cur argument)).length <
      (dirName (argument.target cur)).length := by
  cases argument with
  | plain path =>
      have long := text_dots wellFormed.1 wellFormed.2 dots
      have parent := length_dirName_dropLast cur
      have whole : path.text.length ≤ (dirName path.names).length := by
        unfold CdPath.text
        split
        · exact Nat.le_refl _
        · rw [List.length_dropLast]
          exact Nat.sub_le _ _
      have ends : (withSlash before (dotsName cur (.plain path))).length ≤
          (dotsName cur (.plain path)).length + 1 := by
        unfold withSlash
        split
        · rw [List.length_append]
          exact Nat.le_refl _
        · exact Nat.le_succ _
      have name : (dotsName cur (.plain path)).length =
          (dirName cur.dropLast).length + (path.text.length - 3) := by
        rw [dotsName, List.length_append, List.length_drop]
        rfl
      have target : (dirName ((CdArgument.plain path).target cur)).length =
          (dirName cur).length + (dirName path.names).length := by
        rw [CdArgument.target, dirName_append, List.length_append]
        rfl
      omega
  | absolute path => exact absurd dots id
  | dotted path => exact absurd dots id
  | up => exact absurd dots id
  | upInto path => exact absurd dots id

/-- The wrong lookup of a name with two dots in front. -/
theorem cdResolves_dots (inDirectory : WorksInDirectory k tarfs cur)
    (wellFormed : argument.WellFormed) (dots : argument.DotsFirst) :
    CdResolves k tarfs cur argument ↔ DotsRight tarfs cur argument := by
  have isName := inDirectory.isName
  have notUp : argument ≠ .up := by
    rintro rfl
    exact dots
  have targetName := target_isName wellFormed notUp isName
  have isTarget := cdTarget_dots wellFormed isName dots
  have isDirectory : IsDirectory tarfs (argument.target cur) ↔
      HasDirectory tarfs (dirName (argument.target cur)) :=
    or_iff_right (target_ne_nil wellFormed notUp)
  have result : ∀ before, cd tarfs before argument.text (here cur) =
      lookUp tarfs (withSlash before (dotsName cur argument))
        { curr := dirPath cur, temp := dirPath cur.dropLast } := by
    intro before
    rw [cd, if_pos (text_nonempty wellFormed), isTarget, finishCd]
  have parentIsName : ∀ name ∈ cur.dropLast, IsName name :=
    fun name member => isName name (List.dropLast_subset _ member)
  have base : argument.base cur = cur := by
    cases argument with
    | plain path => rfl
    | _ => exact absurd dots id
  rw [cdResolves_iff_cd inDirectory (text_nonempty wellFormed)]
  unfold DotsRight
  constructor
  · intro holds
    obtain ⟨fits, notBefore, goes, stays⟩ := holds 0
    rw [result, isDirectory] at goes stays
    rw [isTarget] at notBefore
    have missing : ¬ HasDirectory tarfs (dirName (argument.target cur)) := by
      intro has
      have same := goes has
      by_cases isFound : Found tarfs (withSlash 0 (dotsName cur argument))
          { curr := dirPath cur, temp := dirPath cur.dropLast }
      · rw [lookUp, if_pos isFound] at same
        have short : (withSlash 0 (dotsName cur argument)).length <
            (dirName (argument.target cur)).length :=
          length_dotsName wellFormed dots 0
        rw [List.append_cancel_left same] at short
        exact Nat.lt_irrefl _ short
      · rw [lookUp, if_neg isFound] at same
        have isCur := (dirPath_injective isName targetName).mp same
        rw [CdArgument.target, base, List.self_eq_append_right] at isCur
        exact (names_wellFormed wellFormed notUp).1 isCur
    refine ⟨missing, fun empty => notBefore (congrArg some empty), fits, ?_⟩
    have unchanged := stays missing
    by_cases isFound : Found tarfs (withSlash 0 (dotsName cur argument))
        { curr := dirPath cur, temp := dirPath cur.dropLast }
    · rw [lookUp, if_pos isFound] at unchanged
      exact .inl ⟨isFound,
        List.append_cancel_left (congrArg Dirs.curr unchanged)⟩
    · rw [lookUp, if_neg isFound] at unchanged
      have isCur := (dirPath_injective parentIsName isName).mp
        (congrArg Dirs.temp unchanged)
      have length := congrArg List.length isCur
      rw [List.length_dropLast] at length
      refine .inr ⟨isFound, List.eq_nil_of_length_eq_zero ?_⟩
      by_contra some
      omega
  · rintro ⟨missing, nonempty, fits, harmless⟩ before
    have sameName := withSlash_of_ne_nil nonempty before 0
    rw [result, isDirectory, isTarget, sameName]
    refine ⟨?_, fun empty => nonempty (Option.some.inj empty),
      fun has => absurd has missing, fun _ => ?_⟩
    · intro dirname isDirname
      have all := fits dirname isDirname
      rw [isTarget] at isDirname
      cases isDirname
      rwa [← sameName] at all
    · rcases harmless with ⟨isFound, isCur⟩ | ⟨notFound, rfl⟩
      · rw [lookUp, if_pos isFound, isCur]
        rfl
      · rw [lookUp, if_neg notFound]
        rfl

/-- An argument of `cd` is resolved exactly under the condition. -/
theorem chdir_cdResolves_iff (inDirectory : WorksInDirectory k tarfs cur)
    (wellFormed : argument.WellFormed) :
    CdResolves k tarfs cur argument ↔ CdRight tarfs cur argument := by
  unfold CdRight
  by_cases up : argument = .up
  · subst up
    exact iff_of_true (cdResolves_up inDirectory) (.inl rfl)
  · by_cases dots : argument.DotsFirst
    · rw [cdResolves_dots inDirectory wellFormed dots]
      simp only [up, dots, not_true, false_and, true_and, false_or]
    · rw [cdResolves_lookUp inDirectory wellFormed up dots]
      simp only [up, dots, not_false_eq_true, true_and, false_and, or_false,
        false_or]

end Arguments

/-! ### An archive with `a/` and `a/b/` -/

/-- A process in `rootfs/`. -/
def nestedKernel : Kernel :=
  { shellKernel with
    tarfs :=
      [{ name := [0x61, 0x2F], inode := 4, type := directory },
        { name := [0x61, 0x2F, 0x62, 0x2F], inode := 5, pInode := 4,
          type := directory }] }

theorem isName_letter {char : Byte} (notSlash : char ≠ slash)
    (notDot : char ≠ dot) : IsName [char] where
  nonempty := List.cons_ne_nil _ _
  noSlash := fun member => notSlash (List.mem_singleton.mp member).symm
  notDot := fun same => notDot (List.cons.inj same).1
  notDots := fun same => nomatch (List.cons.inj same).2

theorem worksInDirectory_nested :
    WorksInDirectory nestedKernel nestedKernel.tarfs [] where
  works := ⟨rfl, _, rfl, rfl⟩
  isName := fun name none => absurd none List.not_mem_nil
  short := by decide
  isDirectory := .inl rfl
  closed := by
    have a : IsName [0x61] := isName_letter (by decide) (by decide)
    have b : IsName [0x62] := isName_letter (by decide) (by decide)
    rintro names name isName ⟨file, member, -, named⟩
    rcases List.mem_cons.mp member with rfl | later
    · have same : names ++ [name] = [] ++ [[0x61]] :=
        dirName_injective isName (by simpa using a) named.symm
      exact .inl (List.append_inj' same rfl).1
    · rw [List.mem_singleton.mp later] at named
      have same : names ++ [name] = [[0x61]] ++ [[0x62]] :=
        dirName_injective isName (by simpa using ⟨a, b⟩) named.symm
      rw [(List.append_inj' same rfl).1]
      exact .inr ⟨_, List.mem_cons_self .., rfl, rfl⟩

/-- `cd a` -/
theorem chdir_cdResolves_one :
    CdResolves nestedKernel nestedKernel.tarfs []
        (.plain ⟨[[0x61]], false⟩) ↔
      CdRight nestedKernel.tarfs [] (.plain ⟨[[0x61]], false⟩) :=
  chdir_cdResolves_iff worksInDirectory_nested
    ⟨List.cons_ne_nil _ _, by
      simpa using isName_letter (by decide) (by decide)⟩

/-- `cd a/b` does not go there. -/
theorem not_cdResolves_two :
    WorksInDirectory nestedKernel nestedKernel.tarfs [] ∧
      ¬ CdResolves nestedKernel nestedKernel.tarfs []
        (.plain ⟨[[0x61], [0x62]], false⟩) := by
  have a : IsName [0x61] := isName_letter (by decide) (by decide)
  have b : IsName [0x62] := isName_letter (by decide) (by decide)
  have wellFormed : (CdArgument.plain ⟨[[0x61], [0x62]], false⟩).WellFormed :=
    ⟨List.cons_ne_nil _ _, by simpa using ⟨a, b⟩⟩
  have notDots :
      ¬ (CdArgument.plain ⟨[[0x61], [0x62]], false⟩).DotsFirst := by
    show ¬ [dot, dot] <+: [0x61, 0x2F, 0x62]
    decide
  refine ⟨worksInDirectory_nested, ?_⟩
  rw [cdResolves_lookUp worksInDirectory_nested wellFormed
    (fun up => nomatch up) notDots]
  rintro (⟨-, ⟨one, -⟩ | ⟨same, -⟩⟩ | ⟨missing, -⟩)
  · exact absurd one (by decide)
  · exact absurd same (by decide)
  · exact missing ⟨_, List.mem_cons_of_mem _ (List.mem_cons_self ..), rfl,
      rfl⟩

end SbuUnix
