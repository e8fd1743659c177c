import SbuUnix.Paging.CopyOnWrite

/-!
# Runs of forking processes

`Access` lists what the processes do, `run` is the machine and `copyRun` the
reference in which every fork copies all pages at once.
-/

namespace SbuUnix

open TableForest Outcome

/-- The address-space part of `copy_parent_structure`. -/
def forkSpace (cr3Addr : Word) : PagingM Word := do
  setCR3 cr3Addr
  let child ← createUserAddressSpace
  copyParentTables child
  setCR3 cr3Addr
  pure child

/-- A fork adds an address space that reads as the parent's; every address
space reads as before. -/
structure Forked (kind : Nat → Kind) (s : Paging)
    (changed : Nat → Kind) (next : Paging) (parent child : Nat) : Prop where
  owned : Owned changed next
  reserved : changed 0 = .held
  zero : FreeZero next
  roots : ∀ frame, kind frame = .pml4 → changed frame = .pml4
  childRoot : changed child = .pml4
  fresh : kind child ≠ .pml4
  kept : ∀ root path, kind root = .pml4 → OwnedPath ownedIndex path →
    path.length = 4 → contents next root path = contents s root path
  copied : ∀ path, OwnedPath ownedIndex path → path.length = 4 →
    contents next child path = contents s parent path

section Fork

variable {kind : Nat → Kind} {s : Paging} {cr3Addr : Word}
variable {allowed : Fault → Prop}

theorem Owned.setCr3 (owned : Owned kind s) (cr3Addr : Word) :
    Owned kind { s with cr3 := cr3Addr } :=
  owned.congr (fun _ _ => rfl) fun _ free => free

theorem yields_forkSpace (exhausted : allowed .noFreeFrame)
    (owned : Owned kind s) (reserved : kind 0 = .held) (zero : FreeZero s)
    (rooted : kind (kernelFrame cr3Addr) = .pml4) :
    Yields allowed (forkSpace cr3Addr) s fun child next =>
      ∃ changed, Forked kind s changed next (kernelFrame cr3Addr)
        (kernelFrame child) := by
  rw [forkSpace, yields_bind, setCR3, yields_modify, yields_bind]
  have ownedNow := owned.setCr3 cr3Addr
  apply (yields_createUserAddressSpace exhausted ownedNow rooted).mono
  rintro child created ⟨createdKind, frame, extension, rfl, free, frameKind,
    empty⟩
  have small := lt_of_lt_frameCount (Paging.lt_of_isFree free)
  have sameCr3 : created.cr3 = cr3Addr := extension.cr3
  have parentRoot := extension.root ownedNow rooted
  have notRoot : kind frame ≠ .pml4 := by
    rw [owned.free frame free]
    exact Kind.noConfusion
  have different : kernelFrame cr3Addr ≠ frame := by
    intro same
    rw [same] at rooted
    exact notRoot rooted
  have zeroCreated : FreeZero created := extension.freeZero zero
  rw [yields_bind]
  refine (yields_copyParentTables exhausted extension.owned zeroCreated
    (by rw [sameCr3]; exact parentRoot)
    (by rw [kernelFrame_pageAddr small]; exact frameKind)
    (by rw [sameCr3, kernelFrame_pageAddr small]; exact different)
    (by rw [kernelFrame_pageAddr small]; exact empty)).mono ?_
  rintro _ copied ⟨copiedKind, shares⟩
  rw [sameCr3, kernelFrame_pageAddr small] at shares
  rw [yields_bind, yields_modify, yields_pure,
    kernelFrame_pageAddr small]
  have reservedCreated : createdKind 0 = .held := by
    rw [extension.kind_of_ne_free ownedNow
      (by rw [reserved]; exact Kind.noConfusion), reserved]
  exact ⟨copiedKind,
    { owned := shares.owned.setCr3 cr3Addr
      reserved := by
        rw [shares.kind_of_ne_page (extension.owned.used_of_kind
          (by rw [reservedCreated]; exact Kind.noConfusion))
          (by rw [reservedCreated]; exact fun _ _ => Kind.noConfusion),
          reservedCreated]
      zero := shares.freeZero zeroCreated
      roots := fun root known =>
        shares.root extension.owned (extension.root ownedNow known)
      childRoot := shares.root extension.owned frameKind
      fresh := notRoot
      kept := by
        intro root path known legal full
        have knownCreated := extension.root ownedNow known
        refine Eq.trans ?_
          (extension.contents_eq ownedNow known legal full)
        by_cases isParent : root = kernelFrame cr3Addr
        · rw [isParent]
          exact shares.contents_shared extension.owned parentRoot
            (Or.inl rfl) legal full trivial
        · refine shares.contents_eq extension.owned knownCreated legal full
            fun inside => inside.1.elim isParent fun isChild => ?_
          rw [isChild] at known
          exact notRoot known
      copied := by
        intro path legal full
        refine Eq.trans ?_
          (extension.contents_eq ownedNow rooted legal full)
        exact shares.contents_shared extension.owned parentRoot
          (Or.inr rfl) legal full trivial }⟩

end Fork

/-! ## Machine and reference -/

/-- The machine with `cr3` of every process, in order of creation. -/
structure Spaces where
  paging : Paging
  cr3s : List Word

abbrev SpacesM := StateT Spaces (Except Fault)

def onPaging {α : Type} : PagingM α → SpacesM α :=
  zoom Spaces.paging fun paging m => { m with paging := paging }

theorem yields_onPaging {α : Type} {allowed : Fault → Prop}
    (program : PagingM α) (m : Spaces) {post : α → Spaces → Prop} :
    Yields allowed (onPaging program) m post ↔
      Yields allowed program m.paging fun value paging =>
        post value { m with paging := paging } :=
  yields_zoom program m

inductive Access where
  | read (who : Nat) (vAddress : Word)
  | write (who : Nat) (vAddress : Word) (byte : Byte)
  | fork (who : Nat)

def cr3Of (who : Nat) : SpacesM Word := do
  match (← get).cr3s[who]? with
  | some cr3Addr => pure cr3Addr
  | none => throw .outOfBounds

section Runs

variable (fuel : Nat) (areas : Nat → List Vma)

/-- One access by a process, which runs with its own tables in CR3. -/
def access : Access → SpacesM (Option Byte)
  | .read who vAddress => do
      let cr3Addr ← cr3Of who
      onPaging (setCR3 cr3Addr)
      let byte ← onPaging (loadByte userLoad vAddress)
      pure (some byte)
  | .write who vAddress byte => do
      let cr3Addr ← cr3Of who
      onPaging (setCR3 cr3Addr)
      onPaging (writeByte fuel cr3Addr (areas who) vAddress byte)
      pure none
  | .fork who => do
      let cr3Addr ← cr3Of who
      let child ← onPaging (forkSpace cr3Addr)
      modify fun m => { m with cr3s := m.cr3s ++ [child] }
      pure none

/-- The bytes that the reads of a run return. -/
def run : List Access → SpacesM (List Byte)
  | [] => pure []
  | first :: rest => do
      let output ← access fuel areas first
      let later ← run rest
      pure (output.toList ++ later)

/-- In every fork of a run the free frames read as zero. -/
def CleanForks : List Access → Spaces → Prop
  | [], _ => True
  | first :: rest, m =>
      ((∃ who, first = .fork who) → FreeZero m.paging) ∧
        ∀ output next, access fuel areas first m = .ok (output, next) →
          CleanForks rest next

end Runs

/-- The pages of a process, as a copy of its own. -/
abbrev Copy := List (Fin 512) → Option Page

def Copy.write (copy : Copy) (vAddress : Word) (byte : Byte) : Copy :=
  fun path =>
    if path = pageOf vAddress then
      (copy path).map fun page => page.setByteAt vAddress byte
    else
      copy path

/-- One access in the reference. -/
def copyAccess : Access → List Copy → Option Byte × List Copy
  | .read who vAddress, copies =>
      (copies[who]?.bind fun copy =>
        (copy (pageOf vAddress)).map fun page => page.byteAt vAddress,
        copies)
  | .write who vAddress byte, copies =>
      (none, copies.modify who fun copy => copy.write vAddress byte)
  | .fork who, copies => (none, copies ++ copies[who]?.toList)

def copyRun : List Access → List Copy → List Byte
  | [], _ => []
  | first :: rest, copies =>
      (copyAccess first copies).1.toList ++
        copyRun rest (copyAccess first copies).2

/-- The process has the page of an address of the user half. -/
def HasPage (copies : List Copy) (who : Nat) (vAddress : Word) : Prop :=
  pml4Index vAddress ≠ 511 ∧
    ∃ copy page, copies[who]? = some copy ∧
      copy (pageOf vAddress) = some page

/-- Processes access pages they have, and only processes that exist act. -/
def Legal : Access → List Copy → Prop
  | .read who vAddress, copies => HasPage copies who vAddress
  | .write who vAddress _, copies => HasPage copies who vAddress
  | .fork who, copies => who < copies.length

def LegalRun : List Access → List Copy → Prop
  | [], _ => True
  | first :: rest, copies =>
      Legal first copies ∧ LegalRun rest (copyAccess first copies).2

/-- Well-formed address spaces, one PML4 page each. -/
structure WellFormed (kind : Nat → Kind) (m : Spaces) : Prop where
  owned : Owned kind m.paging
  reserved : kind 0 = .held
  roots : ∀ (who : Nat) (cr3Addr : Word), m.cr3s[who]? = some cr3Addr →
    kind (kernelFrame cr3Addr) = .pml4
  distinct : ∀ (who other : Nat) (cr3Addr otherCr3 : Word),
    m.cr3s[who]? = some cr3Addr → m.cr3s[other]? = some otherCr3 →
      kernelFrame cr3Addr = kernelFrame otherCr3 → who = other

/-- Every process reads what its copy holds. -/
structure Simulates (kind : Nat → Kind) (m : Spaces) (copies : List Copy) :
    Prop extends WellFormed kind m where
  length : copies.length = m.cr3s.length
  agree : ∀ (who : Nat) (cr3Addr : Word) (copy : Copy)
    (path : List (Fin 512)), m.cr3s[who]? = some cr3Addr →
      copies[who]? = some copy → OwnedPath ownedIndex path →
        path.length = 4 →
        copy path = contents m.paging (kernelFrame cr3Addr) path

/-- The copies that the processes of a machine hold. -/
def copiesOf (m : Spaces) : List Copy :=
  m.cr3s.map fun cr3Addr => contents m.paging (kernelFrame cr3Addr)

theorem WellFormed.simulates {kind : Nat → Kind} {m : Spaces}
    (wellFormed : WellFormed kind m) : Simulates kind m (copiesOf m) where
  toWellFormed := wellFormed
  length := List.length_map _
  agree := by
    intro who cr3Addr copy path known copied _ _
    rw [copiesOf, List.getElem?_map, known] at copied
    cases copied
    rfl

/-! ## The simulation -/

section Simulation

variable {kind : Nat → Kind} {m : Spaces} {copies : List Copy}
variable {fuel : Nat} {areas : Nat → List Vma} {allowed : Fault → Prop}
variable {who : Nat} {cr3Addr : Word}

theorem yields_cr3Of {post : Word → Spaces → Prop}
    (known : m.cr3s[who]? = some cr3Addr) (holds : post cr3Addr m) :
    Yields allowed (cr3Of who) m post := by
  rw [cr3Of, yields_bind, yields_get, known]
  exact holds

theorem Simulates.exists_cr3 (simulates : Simulates kind m copies)
    (exists_who : who < copies.length) :
    ∃ cr3Addr copy, m.cr3s[who]? = some cr3Addr ∧
      copies[who]? = some copy :=
  ⟨_, _, List.getElem?_eq_getElem (simulates.length ▸ exists_who),
    List.getElem?_eq_getElem exists_who⟩

/-- Loading other tables into CR3 changes no contents. -/
theorem Simulates.setCr3 (simulates : Simulates kind m copies)
    (cr3Addr : Word) :
    Simulates kind { m with paging := { m.paging with cr3 := cr3Addr } }
      copies where
  owned := simulates.owned.setCr3 cr3Addr
  reserved := simulates.reserved
  roots := simulates.roots
  distinct := simulates.distinct
  length := simulates.length
  agree := simulates.agree

/-- A page of the process, as the machine has it. -/
theorem Simulates.mapped (simulates : Simulates kind m copies)
    {vAddress : Word} {copy : Copy} {page : Page}
    (userHalf : pml4Index vAddress ≠ 511)
    (known : m.cr3s[who]? = some cr3Addr)
    (copied : copies[who]? = some copy)
    (holds : copy (pageOf vAddress) = some page) :
    contents m.paging (kernelFrame cr3Addr) (pageOf vAddress) =
      some page := by
  rw [← simulates.agree who cr3Addr copy (pageOf vAddress) known copied
    (ownedPath_pageOf userHalf) rfl]
  exact holds

/-- A process that runs on its own tables has its page there. -/
theorem Simulates.switch (simulates : Simulates kind m copies)
    {vAddress : Word} {copy : Copy} {page : Page}
    (userHalf : pml4Index vAddress ≠ 511)
    (copied : copies[who]? = some copy)
    (holds : copy (pageOf vAddress) = some page) :
    ∃ cr3Addr, m.cr3s[who]? = some cr3Addr ∧
      Simulates kind { m with paging := { m.paging with cr3 := cr3Addr } }
        copies ∧
      kind (kernelFrame cr3Addr) = .pml4 ∧
      contents { m.paging with cr3 := cr3Addr } (kernelFrame cr3Addr)
        (pageOf vAddress) = some page := by
  obtain ⟨cr3Addr, _, known, _⟩ :=
    simulates.exists_cr3 (List.getElem?_eq_some_iff.mp copied).1
  have now := simulates.setCr3 cr3Addr
  exact ⟨cr3Addr, known, now, now.roots who cr3Addr known,
    now.mapped userHalf known copied holds⟩

/-- A store of one process is a store to its copy only. -/
theorem Simulates.write (simulates : Simulates kind m copies)
    {vAddress : Word} {copy : Copy} {page : Page} {byte : Byte}
    {changed : Nat → Kind} {next : Paging}
    (known : m.cr3s[who]? = some cr3Addr)
    (copied : copies[who]? = some copy)
    (holds : copy (pageOf vAddress) = some page)
    (rewritten : Rewritten kind m.paging changed next
      (kernelFrame cr3Addr) (pageOf vAddress)
      (page.setByteAt vAddress byte)) :
    Simulates changed { m with paging := next }
      (copies.modify who fun copy => copy.write vAddress byte) where
  owned := rewritten.owned
  reserved := rewritten.reserved
  roots := fun other otherCr3 otherKnown =>
    rewritten.roots _ (simulates.roots other otherCr3 otherKnown)
  distinct := simulates.distinct
  length := by
    rw [List.length_modify]
    exact simulates.length
  agree := by
    intro other otherCr3 otherCopy path otherKnown otherCopied legal full
    rw [rewritten.reads _ path (simulates.roots other otherCr3 otherKnown)
      legal full]
    rw [List.getElem?_modify] at otherCopied
    by_cases same : who = other
    · subst same
      rw [known] at otherKnown
      cases otherKnown
      simp only [copied, if_pos] at otherCopied
      cases otherCopied
      show (if path = pageOf vAddress then _ else copy path) = _
      by_cases here : path = pageOf vAddress
      · rw [if_pos here, if_pos ⟨rfl, here⟩, here, holds]
        rfl
      · rw [if_neg here, if_neg fun both => here both.2]
        exact simulates.agree who cr3Addr copy path known copied legal full
    · simp only [if_neg same] at otherCopied
      have away : ¬ (kernelFrame otherCr3 = kernelFrame cr3Addr ∧
          path = pageOf vAddress) := fun both =>
        same (simulates.distinct other who otherCr3 cr3Addr otherKnown known
          both.1).symm
      rw [if_neg away]
      have unchanged : copies[other]? = some otherCopy := by
        simpa using otherCopied
      exact simulates.agree other otherCr3 otherCopy path otherKnown
        unchanged legal full

/-- A fork adds a copy of the parent's copy. -/
theorem Simulates.fork (simulates : Simulates kind m copies)
    {copy : Copy} {changed : Nat → Kind} {next : Paging} {child : Word}
    (known : m.cr3s[who]? = some cr3Addr)
    (copied : copies[who]? = some copy)
    (forked : Forked kind m.paging changed next (kernelFrame cr3Addr)
      (kernelFrame child)) :
    Simulates changed ⟨next, m.cr3s ++ [child]⟩ (copies ++ [copy]) := by
  -- A process of the new list is an old one or the child.
  have cases_cr3 : ∀ {other : Nat} {otherCr3 : Word},
      (m.cr3s ++ [child])[other]? = some otherCr3 →
        m.cr3s[other]? = some otherCr3 ∨
          other = m.cr3s.length ∧ otherCr3 = child := by
    intro other otherCr3 found
    rw [List.getElem?_append] at found
    split at found
    · exact Or.inl found
    · next beyond =>
        rcases Nat.lt_or_ge (other - m.cr3s.length) 1 with last | past
        · have same : other = m.cr3s.length := by omega
          rw [same, Nat.sub_self] at found
          cases found
          exact Or.inr ⟨same, rfl⟩
        · rw [List.getElem?_eq_none past] at found
          cases found
  have oldRoot : ∀ {other : Nat} {otherCr3 : Word},
      m.cr3s[other]? = some otherCr3 →
        kernelFrame otherCr3 ≠ kernelFrame child := by
    intro other otherCr3 found same
    apply forked.fresh
    rw [← same]
    exact simulates.roots other otherCr3 found
  exact
    { owned := forked.owned
      reserved := forked.reserved
      roots := by
        intro other otherCr3 found
        rcases cases_cr3 found with old | ⟨_, rfl⟩
        · exact forked.roots _ (simulates.roots other otherCr3 old)
        · exact forked.childRoot
      distinct := by
        intro first second firstCr3 secondCr3 firstFound secondFound same
        rcases cases_cr3 firstFound with old | ⟨rfl, rfl⟩
        · rcases cases_cr3 secondFound with alsoOld | ⟨rfl, rfl⟩
          · exact simulates.distinct first second firstCr3 secondCr3 old
              alsoOld same
          · exact absurd same (oldRoot old)
        · rcases cases_cr3 secondFound with alsoOld | ⟨rfl, rfl⟩
          · exact absurd same.symm (oldRoot alsoOld)
          · rfl
      length := by
        rw [List.length_append, List.length_append, simulates.length]
        rfl
      agree := by
        intro other otherCr3 otherCopy path found otherCopied legal full
        rcases cases_cr3 found with old | ⟨same, rfl⟩
        · have inside : other < copies.length := by
            rw [simulates.length]
            exact (List.getElem?_eq_some_iff.mp old).1
          rw [List.getElem?_append_left inside] at otherCopied
          rw [forked.kept _ path (simulates.roots other otherCr3 old) legal
            full]
          exact simulates.agree other otherCr3 otherCopy path old
            otherCopied legal full
        · rw [same, ← simulates.length,
            List.getElem?_append_right (Nat.le_refl _), Nat.sub_self]
            at otherCopied
          cases otherCopied
          rw [forked.copied path legal full]
          exact simulates.agree who cr3Addr copy path known copied legal
            full }

/-- One access gives what the reference gives and keeps the simulation. -/
theorem yields_access {first : Access} (exhausted : allowed .noFreeFrame)
    (simulates : Simulates kind m copies) (legal : Legal first copies)
    (clean : (∃ who, first = .fork who) → FreeZero m.paging) :
    Yields allowed (access fuel areas first) m fun output next =>
      output = (copyAccess first copies).1 ∧
        ∃ changed, Simulates changed next (copyAccess first copies).2 := by
  cases first with
  | read who vAddress =>
      obtain ⟨userHalf, copy, page, copied, holds⟩ := legal
      obtain ⟨cr3Addr, known, now, rooted, mapped⟩ :=
        simulates.switch userHalf copied holds
      rw [access, yields_bind]
      apply yields_cr3Of known
      rw [yields_bind, yields_onPaging, setCR3, yields_modify,
        yields_bind, yields_onPaging, yields_iff_of_ok
          (yields_loadByte now.owned rooted userHalf mapped), yields_pure]
      refine ⟨?_, kind, now⟩
      rw [copyAccess, copied]
      show _ = (copy (pageOf vAddress)).map _
      rw [holds]
      rfl
  | write who vAddress byte =>
      obtain ⟨userHalf, copy, page, copied, holds⟩ := legal
      obtain ⟨cr3Addr, known, now, rooted, mapped⟩ :=
        simulates.switch userHalf copied holds
      rw [access, yields_bind]
      apply yields_cr3Of known
      rw [yields_bind, yields_onPaging, setCR3, yields_modify,
        yields_bind, yields_onPaging]
      apply (yields_writeByte fuel (areas who) byte exhausted now.owned
        now.reserved rooted rfl userHalf mapped).mono
      rintro _ next ⟨changed, rewritten⟩
      rw [yields_pure]
      exact ⟨rfl, changed, now.write known copied holds rewritten⟩
  | fork who =>
      obtain ⟨cr3Addr, copy, known, copied⟩ := simulates.exists_cr3 legal
      rw [access, yields_bind]
      apply yields_cr3Of known
      rw [yields_bind, yields_onPaging]
      refine (yields_forkSpace exhausted simulates.owned simulates.reserved
        (clean ⟨who, rfl⟩) (simulates.roots who cr3Addr known)).mono ?_
      rintro child next ⟨changed, forked⟩
      rw [yields_bind, yields_modify, yields_pure]
      refine ⟨rfl, changed, ?_⟩
      rw [copyAccess, copied]
      exact simulates.fork known copied forked

/-- A whole run gives what the reference gives. -/
theorem yields_run (exhausted : allowed .noFreeFrame) :
    ∀ (accesses : List Access) {kind : Nat → Kind} {m : Spaces}
      {copies : List Copy}, Simulates kind m copies →
      LegalRun accesses copies → CleanForks fuel areas accesses m →
        Yields allowed (run fuel areas accesses) m fun reads _ =>
          reads = copyRun accesses copies
  | [], _, _, _, _, _, _ => rfl
  | first :: rest, kind, m, copies, simulates, legal, clean => by
      rw [run, yields_bind]
      apply (yields_access exhausted simulates legal.1
        clean.1).returned.mono
      rintro output next ⟨returned, same, changed, simulatesNext⟩
      rw [yields_bind]
      apply (yields_run exhausted rest simulatesNext legal.2
        (clean.2 output next returned)).mono
      intro later last laterSame
      rw [yields_pure, copyRun, same, laterSame]

/-- Reads and writes of forking processes return what they would return if
every fork had copied all pages, when the free frames read as zero at each
fork and never run out. -/
theorem run_eq_copyRun (accesses : List Access)
    (wellFormed : WellFormed kind m)
    (legal : LegalRun accesses (copiesOf m))
    (clean : CleanForks fuel areas accesses m)
    (available : run fuel areas accesses m ≠ .error .noFreeFrame) :
    ∃ next, run fuel areas accesses m =
      .ok (copyRun accesses (copiesOf m), next) := by
  have noFailure : ∀ failure, Exhausted failure →
      run fuel areas accesses m ≠ .error failure := by
    intro failure exhausted
    rw [exhausted]
    exact available
  obtain ⟨reads, next, returned, same⟩ :=
    (yields_run exhausted_noFreeFrame accesses wellFormed.simulates legal
      clean).returns noFailure
  rw [same] at returned
  exact ⟨next, returned⟩

end Simulation

/-! ## A process with one page -/

/-- The page at `0x1000` is mapped to frame 20. -/
def mapOnePage (s : Paging) : Paging :=
  (((s.writeWord 16 0 (entryOf 17 userFlags)).writeWord 17 0
    (entryOf 18 userFlags)).writeWord 18 0
      (entryOf 19 userFlags)).writeWord 19 1 (entryOf 20 userFlags)

def onePageKind (frame : Nat) : Kind :=
  if frame = 16 then
    .pml4
  else if frame = 17 then
    .table 1 16 0
  else if frame = 18 then
    .table 2 17 0
  else if frame = 19 then
    .table 3 18 0
  else if frame = 20 then
    .page 19 1
  else if frame < 64 then
    .held
  else
    .free

def onePageMachine : Spaces :=
  ⟨mapOnePage emptyPaging, [pageAddr 16]⟩

theorem onePageKind_of_le {frame : Nat} (above : 64 ≤ frame) :
    onePageKind frame = .free := by
  simp only [onePageKind]
  repeat rw [if_neg (by omega)]

theorem owned_onePage : Owned onePageKind (mapOnePage emptyPaging) := by
  have empty : Owned onePageKind emptyPaging :=
    { entries := fun _ _ => entryOk_zero
      free := fun frame free =>
        onePageKind_of_le (le_of_isFree_emptyPaging free) }
  have link : ∀ {level parent table : Nat}, table < frameCount →
      onePageKind table = .table level parent 0 →
        Below onePageKind (entryOf table userFlags) fun below =>
          UserTable (entryOf table userFlags) ∧
            below = .table level parent 0 :=
    fun small known =>
      below_entryOf small (by decide) ⟨userTable_entryOf _, known⟩
  have leaf :
      Below onePageKind (entryOf 20 userFlags) fun below =>
        PrivateLeaf (entryOf 20 userFlags) ∧ below = .page 19 1 ∨
          SharedLeaf (entryOf 20 userFlags) ∧ below = .shared :=
    below_entryOf (by decide) (by decide)
      (Or.inl ⟨privateLeaf_entryOf 20, rfl⟩)
  have root : EntryOk onePageKind 16 0 (entryOf 17 userFlags) :=
    link (by decide) rfl
  have middle : EntryOk onePageKind 17 0 (entryOf 18 userFlags) :=
    link (by decide) rfl
  have last : EntryOk onePageKind 18 0 (entryOf 19 userFlags) :=
    link (by decide) rfl
  have page : EntryOk onePageKind 19 1 (entryOf 20 userFlags) := leaf
  exact (((empty.writeWord root).writeWord middle).writeWord
    last).writeWord page

theorem freeZero_onePage : FreeZero (mapOnePage emptyPaging) := by
  intro frame free index
  have above : 64 ≤ frame := le_of_isFree_emptyPaging free
  rw [mapOnePage, Paging.writeWord_of_ne_frame (by omega),
    Paging.writeWord_of_ne_frame (by omega),
    Paging.writeWord_of_ne_frame (by omega),
    Paging.writeWord_of_ne_frame (by omega)]
  rfl

/-- A machine with the one process whose tables are in frame 16. -/
theorem wellFormed_single {s : Paging} (owned : Owned onePageKind s) :
    WellFormed onePageKind ⟨s, [pageAddr 16]⟩ where
  owned := owned
  reserved := by decide
  roots := by
    intro who cr3Addr known
    obtain ⟨inside, rfl⟩ := List.getElem?_eq_some_iff.mp known
    have first : who = 0 := Nat.lt_one_iff.mp inside
    subst first
    show onePageKind (kernelFrame (pageAddr 16)) = .pml4
    decide
  distinct := by
    intro who other _ _ known otherKnown _
    have first := (List.getElem?_eq_some_iff.mp known).1
    have second := (List.getElem?_eq_some_iff.mp otherKnown).1
    rw [Nat.lt_one_iff.mp first, Nat.lt_one_iff.mp second]

/-- What the reads of a run returned. -/
def readsOf : Except Fault (List Byte × Spaces) → Option (List Byte)
  | .ok (reads, _) => some reads
  | .error _ => none

theorem exists_of_readsOf {ending : Except Fault (List Byte × Spaces)}
    {reads : List Byte} (known : readsOf ending = some reads) :
    ∃ next, ending = .ok (reads, next) := by
  cases ending with
  | ok result =>
      cases known
      exact ⟨result.2, rfl⟩
  | error failure => cases known

/-- The child writes its copy of the page; the parent does not see it. -/
def onePageRun : List Access :=
  [.fork 0, .write 1 0x1000 7, .read 0 0x1000, .read 1 0x1000]

theorem run_eq_copyRun_onePage :
    ∃ next, run 1 (fun _ => []) onePageRun onePageMachine =
      .ok (copyRun onePageRun (copiesOf onePageMachine), next) := by
  refine run_eq_copyRun onePageRun (wellFormed_single owned_onePage)
    ?_ ?_ ?_
  · refine ⟨Nat.zero_lt_one, ?_, ?_, ?_, trivial⟩ <;>
    · exact ⟨by decide, _, _, rfl, rfl⟩
  · refine ⟨fun _ => freeZero_onePage, fun _ _ _ =>
      ⟨?_, fun _ _ _ => ⟨?_, fun _ _ _ => ⟨?_, fun _ _ _ => trivial⟩⟩⟩⟩ <;>
    · rintro ⟨who, same⟩
      cases same
  · intro exhausted
    have ending :
        readsOf (run 1 (fun _ => []) onePageRun onePageMachine) =
          some [0, 7] := by
      decide +kernel
    rw [exhausted] at ending
    cases ending

/-- Frame 68, the first to become a table of the child, is free but its entry
5 points to the parent's page, and that page starts with its own address. -/
def garbageMachine : Spaces :=
  ⟨((mapOnePage emptyPaging).writeWord 20 0 (entryOf 20 ptPR)).writeWord 68
    5 (entryOf 20 ptPR), [pageAddr 16]⟩

/-- The second fork takes the parent's page for two of the child's tables. -/
def garbageRun : List Access :=
  [.read 0 0x1001, .fork 0, .fork 1, .read 0 0x1001]

theorem run_ne_copyRun_garbage :
    WellFormed onePageKind garbageMachine ∧
      LegalRun garbageRun (copiesOf garbageMachine) ∧
      copyRun garbageRun (copiesOf garbageMachine) = [0x40, 0x40] ∧
      ∃ next, run 1 (fun _ => []) garbageRun garbageMachine =
        .ok ([0x40, 0x42], next) := by
  refine ⟨wellFormed_single ?_, ?_, by decide, exists_of_readsOf ?_⟩
  · have pageNoTable : ¬ (onePageKind 20).IsTable := fun isTable => isTable
    have freeNoTable : ¬ (onePageKind 68).IsTable := fun isTable => isTable
    exact (owned_onePage.writeWord
      (entryOk_of_not_isTable pageNoTable)).writeWord
        (entryOk_of_not_isTable freeNoTable)
  · refine ⟨?_, Nat.zero_lt_one, Nat.one_lt_two, ?_, trivial⟩ <;>
    · exact ⟨by decide, _, _, rfl, rfl⟩
  · decide +kernel

end SbuUnix
