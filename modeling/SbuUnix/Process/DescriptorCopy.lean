import SbuUnix.Paging.Blocks
import SbuUnix.Process.Table
import SbuUnix.Process.VmaRecords

/-!
# The copy of a memory descriptor

`copy_parent_structure` of `sys/process.c` with the records of `sys/vma.c` at
their addresses.  The `mm_struct` of the child starts as a copy of the bytes of
its parent's, with the parent's list and count; the list is replaced at the
first node, the count is not.
-/

namespace SbuUnix

open Outcome Links Records

/-! ## The source -/

/-- The kernel with the records of its VMA lists; `mmOf` is the field `mm` of
each process control block. -/
structure RecordHeap where
  kernel : Kernel
  records : Records
  mmOf : Word → Word

abbrev HeapM := StateT RecordHeap (Except Fault)

def inKernel {α : Type} (program : KernelM α) : HeapM α :=
  zoom RecordHeap.kernel (fun kernel h => { h with kernel := kernel }) program

def inRecords {α : Type} (program : RecordM α) : HeapM α :=
  zoom RecordHeap.records (fun records h => { h with records := records })
    program

/-- `memset(page, 0, PAGE_SIZE)`, whatever the page is read as. -/
def Records.clear (r : Records) (p : Word) : Records where
  vma := fun other => if other = p then {} else r.vma other
  mm := fun other => if other = p then {} else r.mm other
  file := fun other => if other = p then {} else r.file other

/-- `kmalloc(PAGE_SIZE)` -/
def kmallocPage : HeapM Word := do
  let (addr, _) ← inKernel (kmallocRecord 4096)
  inRecords (modify fun r => r.clear addr)
  pure addr

/-- `memcpy(source, destination, sizeof(tarfile_t))` -/
def memcpyFile (source destination : Word) : RecordM Unit := do
  if source = 0 ∨ destination = 0 then
    throw .nullPointer
  else
    modify fun r =>
      { r with file := fun other =>
          if other = destination then r.file source else r.file other }

/-- `child_pcb->mm = kmalloc(PAGE_SIZE)`, with the bytes of the parent's. -/
def copyMm (parentMm : Word) : HeapM Word := do
  let childMm ← kmallocPage
  let bytes ← inRecords (mmAt parentMm)
  inRecords (storeMmAt childMm fun _ => bytes)
  pure childMm

/-- The copy of one node, not yet linked. -/
def copyNode (childMm parentVma : Word) : HeapM Word := do
  let childVma ← kmallocPage
  let bytes ← inRecords (vmaAt parentVma)
  inRecords (storeVma childVma fun _ => bytes)
  inRecords (storeVma childVma fun record => { record with vmNext := 0 })
  inRecords (storeVma childVma fun record => { record with vmMm := childMm })
  let parentFile := (← inRecords (vmaAt parentVma)).file
  if parentFile ≠ 0 then
    let file ← kmallocPage
    inRecords (storeVma childVma fun record => { record with file := file })
    inRecords (memcpyFile parentFile file)
    pure childVma
  else
    pure childVma

/-- The loop over the parent's list; `count` is the local variable of the
source, `fuel` bounds the passes of both loops. -/
def copyNodes (childMm : Word) : Nat → Word → Word → Word → HeapM Unit
  | 0, _, _, _ => throw .outOfFuel
  | fuel + 1, parentVma, childVma, count => do
      if parentVma ≠ 0 then
        let count := if childVma = 0 then 1 else count
        let childVma ← copyNode childMm parentVma
        if count = 1 then
          inRecords (storeMmAt childMm fun record =>
            { record with vma := childVma })
          let next := (← inRecords (vmaAt parentVma)).vmNext
          copyNodes childMm fuel next childVma 0
        else
          let _ ← inRecords (addMmstructAt fuel childMm childVma)
          let next := (← inRecords (vmaAt parentVma)).vmNext
          copyNodes childMm fuel next childVma count
      else
        pure ()

/-- What `copy_parent_structure` does before it takes the `mm_struct`; the
current process and the new one. -/
def beginChild : KernelM (Word × Word) := do
  let childPcb ← newPcb
  let pid ← getNextProcessID
  let currProcess := (← globals).currProcess
  let curr ← derefPcb currProcess
  storePcb childPcb fun pcb =>
    { pcb with
      pid := pid
      ppid := curr.pid
      pName := curr.pName
      currDir := curr.currDir
      tempCurrDir := curr.tempCurrDir
      echoCount := curr.echoCount
      echoVar := curr.echoVar
      echoVarKey := curr.echoVarKey
      nextProc := 0
      mm := none
      nChild := 0 }
  storePcb currProcess fun pcb => { pcb with nChild := pcb.nChild + 1 }
  let cr3Addr ← runPaging createUserAddressSpace
  storePcb childPcb fun pcb => { pcb with cr3 := cr3Addr }
  let loaded := (← get).paging.cr3
  storePcb currProcess fun pcb => { pcb with cr3 := loaded }
  runPaging (copyParentTables cr3Addr)
  storePcb childPcb fun pcb =>
    { pcb with initKernel := kernelStackTop childPcb }
  pure (currProcess, childPcb)

/-- What it does after the list is copied. -/
def endChild (currProcess parentProc childPcb : Word) : KernelM Unit := do
  let parent ← derefPcb parentProc
  let child ← derefPcb childPcb
  copyKernelStack (parent.initKernel + 8 - 4096) (child.initKernel + 8 - 4096)
  let rspPointer := (← globals).rspPointer
  storePcb childPcb fun pcb =>
    { pcb with
      userStack := parent.userStack
      rsp := pcb.initKernel - (parent.initKernel - rspPointer) }
  let curr ← derefPcb currProcess
  runPaging (setCR3 curr.cr3)

/-- `copy_parent_structure` -/
def copyParentStructureAt (fuel : Nat) (parentProc : Word) : HeapM Word := do
  let (currProcess, childPcb) ← inKernel beginChild
  modify fun h =>
    { h with mmOf := fun p => if p = childPcb then 0 else h.mmOf p }
  let _ ← inKernel (derefPcb parentProc)
  let parentMm := (← get).mmOf parentProc
  let childMm ← copyMm parentMm
  modify fun h =>
    { h with mmOf := fun p => if p = childPcb then childMm else h.mmOf p }
  let first := (← inRecords (mmAt parentMm)).vma
  copyNodes childMm fuel first 0 0
  inKernel (endChild currProcess parentProc childPcb)
  pure childPcb

/-- The version of `Create`, which has no records, does the same around the
list. -/
theorem copyParentStructure_eq (parentProc : Word) :
    copyParentStructure parentProc = (do
      let (currProcess, childPcb) ← beginChild
      let _ ← kmallocRecord 4096
      let mm ← derefMm parentProc
      storePcb childPcb fun pcb => { pcb with mm := some mm }
      copyVmas childPcb true mm.vma
      endChild currProcess parentProc childPcb
      pure childPcb) := by
  simp only [copyParentStructure, beginChild, endChild, bind_assoc, pure_bind]

/-! ## Pages -/

/-- A page that `kmalloc` handed out for a record. -/
def RecordHeap.Holds (h : RecordHeap) (p : Word) : Prop :=
  ∃ frame < frameCount, frame ∈ h.kernel.objects ∧ p = linearAddr frame

theorem RecordHeap.Holds.ne_zero {h : RecordHeap} {p : Word}
    (held : h.Holds p) : p ≠ 0 := by
  obtain ⟨frame, below, _, rfl⟩ := held
  intro zero
  have high := congrArg (fun word : Word => word.getLsbD 63) zero
  simp [linearAddr, kernelAddr] at high

/-- The pages of records stay, with what they hold. -/
structure RecordHeap.Grows (h next : RecordHeap) : Prop where
  holds : ∀ p, h.Holds p → next.Holds p
  vma : ∀ p, h.Holds p → next.records.vma p = h.records.vma p
  mm : ∀ p, h.Holds p → next.records.mm p = h.records.mm p
  file : ∀ p, h.Holds p → next.records.file p = h.records.file p
  procs : next.kernel.procs = h.kernel.procs
  mmOf : next.mmOf = h.mmOf

namespace RecordHeap.Grows

variable {h next last : RecordHeap}

theorem refl (h : RecordHeap) : h.Grows h where
  holds := fun _ held => held
  vma := fun _ _ => rfl
  mm := fun _ _ => rfl
  file := fun _ _ => rfl
  procs := rfl
  mmOf := rfl

theorem trans (first : h.Grows next) (second : next.Grows last) :
    h.Grows last where
  holds := fun p held => second.holds p (first.holds p held)
  vma := fun p held =>
    (second.vma p (first.holds p held)).trans (first.vma p held)
  mm := fun p held =>
    (second.mm p (first.holds p held)).trans (first.mm p held)
  file := fun p held =>
    (second.file p (first.holds p held)).trans (first.file p held)
  procs := second.procs.trans first.procs
  mmOf := second.mmOf.trans first.mmOf

/-- A store to a page that was not there before. -/
theorem store (grows : h.Grows next) {records : Records}
    (vma : ∀ p, h.Holds p → records.vma p = next.records.vma p)
    (mm : ∀ p, h.Holds p → records.mm p = next.records.mm p)
    (file : ∀ p, h.Holds p → records.file p = next.records.file p) :
    h.Grows { next with records := records } where
  holds := grows.holds
  vma := fun p held => (vma p held).trans (grows.vma p held)
  mm := fun p held => (mm p held).trans (grows.mm p held)
  file := fun p held => (file p held).trans (grows.file p held)
  procs := grows.procs
  mmOf := grows.mmOf

theorem withMmOf (grows : h.Grows next) (mmOf : Word → Word) :
    RecordHeap.Grows { h with mmOf := mmOf } { next with mmOf := mmOf } where
  holds := grows.holds
  vma := grows.vma
  mm := grows.mm
  file := grows.file
  procs := grows.procs
  mmOf := rfl

end RecordHeap.Grows

section Runs

variable {h : RecordHeap}

theorem inRecords_eq {α : Type} {program : RecordM α} {value : α}
    {records : Records} (ran : program h.records = .ok (value, records)) :
    inRecords program h = .ok (value, { h with records := records }) := by
  unfold inRecords zoom
  rw [ran]

theorem yields_inKernel {allowed : Fault → Prop} {α : Type}
    {program : KernelM α} {post : α → RecordHeap → Prop} :
    Yields allowed (inKernel program) h post ↔
      Yields allowed program h.kernel fun value kernel =>
        post value { h with kernel := kernel } :=
  yields_zoom program h

theorem yields_kmallocPage {post : Word → RecordHeap → Prop}
    (holds : ∀ p next, ¬ h.Holds p → next.Holds p → h.Grows next →
      next.records = h.records.clear p → post p next) :
    Yields NoRoom kmallocPage h post := by
  unfold kmallocPage
  rw [yields_bind, yields_inKernel]
  apply yields_kmallocRecord_page
  intro frame paging below new
  have fresh : ¬ h.Holds (linearAddr frame) := by
    rintro ⟨other, otherBelow, member, same⟩
    have isOther : frame = other :=
      linearAddr_injective below otherBelow same
    exact new (isOther ▸ member)
  have away : ∀ p, h.Holds p → p ≠ linearAddr frame :=
    fun p held same => fresh (same ▸ held)
  apply holds
  · exact fresh
  · exact ⟨frame, below, by simp, rfl⟩
  · constructor
    · rintro p ⟨other, otherBelow, member, rfl⟩
      exact ⟨other, otherBelow, List.mem_append_left _ member, rfl⟩
    · exact fun p held => if_neg (away p held)
    · exact fun p held => if_neg (away p held)
    · exact fun p held => if_neg (away p held)
    · rfl
    · rfl
  · rfl

theorem yields_inRecords {allowed : Fault → Prop} {α : Type}
    {program : RecordM α} {post : α → RecordHeap → Prop} {value : α}
    {records : Records} (ran : program h.records = .ok (value, records)) :
    Yields allowed (inRecords program) h post ↔
      post value { h with records := records } := by
  rw [Yields, inRecords_eq ran]

end Runs

/-! ## One node -/

/-- The pages that the copy of a node takes. -/
structure VmaCopy where
  node : Word
  file : Option Word

def VmaCopy.pages (copy : VmaCopy) : List Word :=
  copy.node :: copy.file.toList

/-- A node of the child and the node of the parent that it stands for. -/
structure CopyOf (r next : Records) (mm p : Word) (copy : VmaCopy) :
    Prop where
  view : next.view copy.node =
    { r.view p with addr := copy.node, file := copy.file.getD 0 }
  owner : (next.vma copy.node).vmMm = mm
  file : (r.vma p).file = 0 ∧ copy.file = none ∨
    (r.vma p).file ≠ 0 ∧ ∃ page, copy.file = some page ∧
      next.file page = r.file (r.vma p).file

/-- Nothing but links of the copy may change after it is made. -/
theorem CopyOf.congr {r next last : Records} {mm p : Word} {copy : VmaCopy}
    (copied : CopyOf r next mm p copy)
    (view : last.view copy.node = next.view copy.node)
    (owner : (last.vma copy.node).vmMm = (next.vma copy.node).vmMm)
    (file : ∀ page ∈ copy.file, last.file page = next.file page) :
    CopyOf r last mm p copy where
  view := view.trans copied.view
  owner := owner.trans copied.owner
  file := by
    rcases copied.file with none | ⟨some, page, isPage, same⟩
    · exact Or.inl none
    · exact Or.inr ⟨some, page, isPage, (file page isPage).trans same⟩

/-- What a copy consists of is new, and its pages are distinct. -/
structure RecordHeap.Fresh (h next : RecordHeap) (pages : List Word) :
    Prop where
  distinct : pages.Nodup
  before : ∀ p ∈ pages, ¬ h.Holds p
  after : ∀ p ∈ pages, next.Holds p

/-- What the copy of a node leaves. -/
structure NodeMade (h next : RecordHeap) (childMm p : Word)
    (copy : VmaCopy) : Prop where
  grows : h.Grows next
  fresh : h.Fresh next copy.pages
  unlinked : next.records.next copy.node = 0
  copied : CopyOf h.records next.records childMm p copy

section Nodes

variable {h : RecordHeap} {childMm parentVma : Word}

theorem yields_copyNode (held : h.Holds parentVma)
    (fileHeld : (h.records.vma parentVma).file ≠ 0 →
      h.Holds (h.records.vma parentVma).file) :
    Yields NoRoom (copyNode childMm parentVma) h fun childVma next =>
      ∃ copy : VmaCopy, copy.node = childVma ∧
        NodeMade h next childMm parentVma copy := by
  unfold copyNode
  rw [yields_bind]
  apply yields_kmallocPage
  intro childVma cleared fresh taken grows _
  have some := taken.ne_zero
  have parentSome := held.ne_zero
  have away : ∀ p, h.Holds p → p ≠ childVma :=
    fun p held same => fresh (same ▸ held)
  rw [yields_bind, yields_inRecords (vmaAt_eq parentSome),
    grows.vma parentVma held]
  rw [yields_bind, yields_inRecords (storeVma_eq some)]
  rw [yields_bind, yields_inRecords (storeVma_eq some)]
  rw [yields_bind, yields_inRecords (storeVma_eq some)]
  rw [yields_bind, yields_inRecords (vmaAt_eq parentSome)]
  simp only [setVma_setVma, setVma_same]
  rw [setVma_of_ne (away parentVma held), grows.vma parentVma held]
  let record := { h.records.vma parentVma with vmNext := 0, vmMm := childMm }
  change Yields NoRoom (if (h.records.vma parentVma).file ≠ 0 then _ else _)
    { cleared with records := cleared.records.setVma childVma record } _
  have storing : h.Grows
      { cleared with records := cleared.records.setVma childVma record } :=
    grows.store (fun p held => setVma_of_ne (away p held))
      (fun _ _ => rfl) (fun _ _ => rfl)
  rw [yields_ite]
  constructor
  · intro hasFile
    rw [yields_bind]
    apply yields_kmallocPage
    intro file last fileFresh fileTaken later cleared'
    have inside : childVma ≠ file := fun same =>
      fileFresh (same ▸ taken)
    have fileAway : ∀ p, h.Holds p → p ≠ file :=
      fun p held same => fileFresh (same ▸ storing.holds p held)
    have some' := (later.holds childVma taken).ne_zero
    rw [yields_bind, yields_inRecords (storeVma_eq some'),
      later.vma childVma taken]
    have copies : memcpyFile (h.records.vma parentVma).file file
        (last.records.setVma childVma { record with file := file }) =
          .ok ((), { last.records.setVma childVma
              { record with file := file } with
            file := fun other =>
              if other = file then
                last.records.file (h.records.vma parentVma).file
              else
                last.records.file other }) := by
      unfold memcpyFile
      rw [if_neg]
      · rfl
      · rintro (null | null)
        · exact hasFile null
        · exact fileTaken.ne_zero null
    simp only [setVma_same]
    rw [yields_bind, yields_inRecords copies, yields_pure]
    refine ⟨⟨childVma, .some file⟩, rfl, ?_, ?_, ?_, ?_⟩
    · apply (storing.trans later).store
      · exact fun p held => setVma_of_ne (away p held)
      · exact fun _ _ => rfl
      · exact fun p held => if_neg (fileAway p held)
    · refine ⟨by simpa [VmaCopy.pages] using inside, ?_, ?_⟩
      · intro p member
        rcases List.mem_pair.mp member with rfl | rfl
        · exact fresh
        · exact fun held => fileAway p held rfl
      · intro p member
        rcases List.mem_pair.mp member with rfl | rfl
        · exact later.holds p taken
        · exact fileTaken
    · simp [Records.next, record]
    · refine ⟨?_, ?_, Or.inr ⟨hasFile, file, rfl, ?_⟩⟩
      · simp [Records.view, record]
      · simp [record]
      · dsimp only
        rw [if_pos rfl]
        exact (storing.trans later).file _ (fileHeld hasFile)
  · intro none
    have isNone : (h.records.vma parentVma).file = 0 := not_not.mp none
    rw [yields_pure]
    refine ⟨⟨childVma, .none⟩, rfl, storing, ?_, ?_, ?_⟩
    · refine ⟨List.nodup_singleton childVma, ?_, ?_⟩
      · intro p member
        rw [List.mem_singleton.mp member]
        exact fresh
      · intro p member
        rw [List.mem_singleton.mp member]
        exact taken
    · simp [Records.next, record]
    · refine ⟨?_, ?_, Or.inl ⟨isNone, rfl⟩⟩
      · simp [Records.view, record, isNone]
      · simp [record]

end Nodes

/-! ## The list -/

/-- The child's descriptor when the nodes `done` are copied. -/
structure Copied (h next : RecordHeap) (parentMm childMm : Word)
    (done : List Word) (copies : List VmaCopy) : Prop where
  grows : h.Grows next
  matched : List.Forall₂ (CopyOf h.records next.records childMm) done copies
  fresh : h.Fresh next (childMm :: copies.flatMap VmaCopy.pages)
  list : next.records.ListAt childMm (copies.map VmaCopy.node)
  descriptor : next.records.mm childMm =
    { h.records.mm parentMm with
      vma := (next.records.mm childMm).vma
      vmaCount := (h.records.mm parentMm).vmaCount +
        BitVec.ofNat 64 (copies.length - 1) }

section Lists

variable {start h next : RecordHeap} {parentMm childMm p : Word}
  {done : List Word} {copies : List VmaCopy} {copy : VmaCopy}

/-- The parent's node is still what it was at the start. -/
theorem CopyOf.since {r : Records} (copied : CopyOf h.records r childMm p copy)
    (grows : start.Grows h) (held : start.Holds p)
    (fileHeld : (start.records.vma p).file ≠ 0 →
      start.Holds (start.records.vma p).file) :
    CopyOf start.records r childMm p copy where
  view := by
    rw [copied.view]
    simp only [Records.view, grows.vma p held]
  owner := copied.owner
  file := by
    have files := copied.file
    rw [grows.vma p held] at files
    rcases files with none | ⟨some, page, isPage, same⟩
    · exact Or.inl none
    · exact Or.inr ⟨some, page, isPage,
        same.trans (grows.file _ (fileHeld some))⟩

theorem Copied.node_fresh (copied : Copied start h parentMm childMm done copies)
    {node : Word} (member : node ∈ copies.map VmaCopy.node) :
    ¬ start.Holds node ∧ h.Holds node := by
  obtain ⟨other, inside, rfl⟩ := List.mem_map.mp member
  have page : other.node ∈ childMm :: copies.flatMap VmaCopy.pages :=
    List.mem_cons_of_mem _
      (List.mem_flatMap.mpr ⟨other, inside, List.mem_cons_self⟩)
  exact ⟨copied.fresh.before _ page, copied.fresh.after _ page⟩

/-- The link of a new node keeps what the others are copies of. -/
theorem Copied.kept_copy
    (copied : Copied start h parentMm childMm done copies)
    (made : NodeMade h next childMm p copy) {r : Records} {all : List Word}
    (inserts : Inserts next.records r childMm copy.node all) {q : Word}
    {other : VmaCopy} (member : other ∈ copies)
    (matched : CopyOf start.records h.records childMm q other) :
    CopyOf start.records r childMm q other := by
  have pages : ∀ page ∈ other.pages, h.Holds page := fun page inside =>
    copied.fresh.after page (List.mem_cons_of_mem _
      (List.mem_flatMap.mpr ⟨other, member, inside⟩))
  have node : h.Holds other.node := pages _ List.mem_cons_self
  have same := made.grows.vma other.node node
  apply matched.congr
  · rw [inserts.view]
    simp only [Records.view, same]
  · rw [inserts.owners, same]
    intro isCopy
    exact made.fresh.before _ List.mem_cons_self (isCopy ▸ node)
  · intro page isFile
    rw [inserts.files]
    apply made.grows.file
    apply pages
    exact List.mem_cons_of_mem _ (Option.mem_toList.mpr isFile)

/-- One more copy at the end of the list. -/
theorem Copied.append (copied : Copied start h parentMm childMm done copies)
    (some : copies ≠ []) (held : start.Holds p)
    (fileHeld : (start.records.vma p).file ≠ 0 →
      start.Holds (start.records.vma p).file)
    (made : NodeMade h next childMm p copy) {r : Records}
    (inserts : Inserts next.records r childMm copy.node
      (copies.map VmaCopy.node ++ [copy.node])) :
    Copied start { next with records := r } parentMm childMm (done ++ [p])
      (copies ++ [copy]) where
  grows := by
    apply (copied.grows.trans made.grows).store
    · intro q old
      apply inserts.others
      intro member
      rcases List.mem_append.mp member with before | last
      · exact (copied.node_fresh before).1 old
      · rw [List.mem_singleton.mp last] at old
        exact made.fresh.before _ List.mem_cons_self
          (copied.grows.holds _ old)
    · intro q old
      apply inserts.descriptors
      rintro rfl
      exact copied.fresh.before _ List.mem_cons_self old
    · intro q _
      rw [inserts.files]
  matched := by
    apply List.rel_append
    · obtain ⟨length, pairs⟩ := List.forall₂_iff_zip.mp copied.matched
      refine List.forall₂_iff_zip.mpr ⟨length, fun {q other} paired => ?_⟩
      exact copied.kept_copy made inserts (List.of_mem_zip paired).2
        (pairs paired)
    · refine List.Forall₂.cons ?_ List.Forall₂.nil
      apply (made.copied.since copied.grows held fileHeld).congr
      · exact inserts.view copy.node
      · exact inserts.owner.trans made.copied.owner.symm
      · intro page _
        rw [inserts.files]
  fresh := by
    have apart : ∀ page ∈ childMm :: copies.flatMap VmaCopy.pages,
        ∀ other ∈ copy.pages, page ≠ other := by
      rintro page old _ new rfl
      exact made.fresh.before page new (copied.fresh.after page old)
    rw [List.flatMap_append, List.flatMap_singleton, ← List.cons_append]
    refine ⟨List.nodup_append.mpr
      ⟨copied.fresh.distinct, made.fresh.distinct, apart⟩, ?_, ?_⟩
    · intro page member
      rcases List.mem_append.mp member with old | new
      · exact copied.fresh.before page old
      · exact fun held =>
          made.fresh.before page new (copied.grows.holds page held)
    · intro page member
      rcases List.mem_append.mp member with old | new
      · exact made.grows.holds page (copied.fresh.after page old)
      · exact made.fresh.after page new
  list := by
    rw [List.map_append]
    exact inserts.list
  descriptor := by
    have same : next.records.mm childMm = h.records.mm childMm :=
      made.grows.mm childMm (copied.fresh.after _ List.mem_cons_self)
    have length : (copies ++ [copy]).length - 1 = copies.length - 1 + 1 := by
      have positive := List.length_pos_iff.mpr some
      rw [List.length_append, List.length_singleton]
      omega
    have descriptor := inserts.descriptor
    rw [same, copied.descriptor] at descriptor
    rw [descriptor, length, BitVec.ofNat_add, ← BitVec.add_assoc]
    rfl

end Lists

/-! ## The loop -/

/-- A descriptor of a process: its list is in order and counted, and all its
records are in pages of `kmalloc`. -/
structure RecordHeap.ParentAt (h : RecordHeap) (mm : Word)
    (nodes : List Word) : Prop where
  list : h.records.ListAt mm nodes
  tidy : Tidy (nodes.map h.records.view)
  count : (h.records.mm mm).vmaCount = BitVec.ofNat 64 nodes.length
  mmHeld : h.Holds mm
  nodesHeld : ∀ p ∈ nodes, h.Holds p
  filesHeld : ∀ p ∈ nodes, (h.records.vma p).file ≠ 0 →
    h.Holds (h.records.vma p).file

section Loop

variable {start h next : RecordHeap} {parentMm childMm p : Word}
  {nodes done rest : List Word} {copies : List VmaCopy} {copy : VmaCopy}

theorem exists_matched {α β : Type} {relation : α → β → Prop} {left : List α}
    {right : List β} (matched : List.Forall₂ relation left right) {b : β}
    (member : b ∈ right) : ∃ a ∈ left, relation a b := by
  induction matched with
  | nil => cases member
  | cons related _ inductionHypothesis =>
      rcases List.mem_cons.mp member with rfl | later
      · exact ⟨_, List.mem_cons_self, related⟩
      · obtain ⟨a, inside, holds⟩ := inductionHypothesis later
        exact ⟨a, List.mem_cons_of_mem _ inside, holds⟩

/-- A later node of the parent lies behind all copies. -/
theorem Copied.behind (copied : Copied start h parentMm childMm done copies)
    (parent : start.ParentAt parentMm (done ++ p :: rest))
    (made : NodeMade h next childMm p copy) :
    ∀ node ∈ copies.map VmaCopy.node,
      (next.records.view node).vmStart < (next.records.view node).vmEnd ∧
        (next.records.view node).vmEnd ≤
          (start.records.view p).vmStart := by
  obtain ⟨ranges, ordered⟩ := tidy_iff.mp parent.tidy
  rw [List.map_append, List.pairwise_append] at ordered
  intro node member
  obtain ⟨other, inside, rfl⟩ := List.mem_map.mp member
  have same := made.grows.vma other.node (copied.node_fresh member).2
  obtain ⟨q, earlier, matched⟩ := exists_matched copied.matched inside
  have range := ranges (start.records.view q)
    (List.mem_map_of_mem (List.mem_append_left _ earlier))
  have before := ordered.2.2 _ (List.mem_map_of_mem earlier)
    (start.records.view p) (List.mem_map_of_mem List.mem_cons_self)
  have view : next.records.view other.node = h.records.view other.node := by
    simp only [Records.view, same]
  rw [view, matched.view]
  exact ⟨range, before⟩

/-- `add_mmstruct` links the copy of the next node at the end. -/
theorem Copied.link (copied : Copied start h parentMm childMm done copies)
    (parent : start.ParentAt parentMm (done ++ p :: rest))
    (made : NodeMade h next childMm p copy) (some : copies ≠ []) {fuel : Nat}
    (enough : copies.length ≤ fuel) :
    ∃ r, addMmstructAt fuel childMm copy.node next.records = .ok (0, r) ∧
      Copied start { next with records := r } parentMm childMm (done ++ [p])
        (copies ++ [copy]) := by
  have member : p ∈ done ++ p :: rest := by simp
  have held := parent.nodesHeld p member
  have childHeld := copied.fresh.after childMm List.mem_cons_self
  have list : next.records.ListAt childMm (copies.map VmaCopy.node) := by
    unfold Records.ListAt
    rw [made.grows.mm childMm childHeld]
    apply copied.list.congr
    intro node inside
    unfold Records.next
    rw [made.grows.vma node (copied.node_fresh inside).2]
  have new : copy.node ∉ copies.map VmaCopy.node := fun inside =>
    made.fresh.before _ List.mem_cons_self (copied.node_fresh inside).2
  have view : (next.records.view copy.node).vmStart =
        (start.records.view p).vmStart ∧
      (next.records.view copy.node).vmEnd = (start.records.view p).vmEnd := by
    rw [made.copied.view]
    simp only [Records.view, copied.grows.vma p held, and_self]
  have range : (start.records.view p).vmStart <
      (start.records.view p).vmEnd :=
    parent.tidy.nonempty _ (List.mem_map_of_mem member)
  have short : (copies.map VmaCopy.node).length ≤ fuel := by
    rw [List.length_map]
    exact enough
  obtain ⟨r, ran, inserts⟩ := addMmstructAt_append list childHeld.ne_zero
    (made.fresh.after _ List.mem_cons_self).ne_zero new made.unlinked
    short (by simpa using some)
    (by rw [view.1, view.2]; exact range)
    (by rw [view.1]; exact copied.behind parent made)
  exact ⟨r, ran, copied.append some held (parent.filesHeld p member) made
    inserts⟩

/-- The first pass replaces the list that was the parent's. -/
theorem copied_first (grows : start.Grows h)
    (childFresh : ¬ start.Holds childMm) (childHeld : h.Holds childMm)
    (bytes : h.records.mm childMm = start.records.mm parentMm)
    (held : start.Holds p)
    (fileHeld : (start.records.vma p).file ≠ 0 →
      start.Holds (start.records.vma p).file)
    (made : NodeMade h next childMm p copy) :
    Copied start
      { next with
        records := next.records.setMm childMm
          { next.records.mm childMm with vma := copy.node } }
      parentMm childMm [p] [copy] where
  grows := by
    apply (grows.trans made.grows).store
    · exact fun _ _ => rfl
    · intro q old
      apply setMm_of_ne
      rintro rfl
      exact childFresh old
    · exact fun _ _ => rfl
  matched := by
    refine List.Forall₂.cons ?_ List.Forall₂.nil
    exact (made.copied.since grows held fileHeld).congr rfl rfl
      fun _ _ => rfl
  fresh := by
    have apart : childMm ∉ copy.pages := fun member =>
      made.fresh.before childMm member childHeld
    rw [List.flatMap_singleton]
    refine ⟨List.nodup_cons.mpr ⟨apart, made.fresh.distinct⟩, ?_, ?_⟩
    · intro page member
      rcases List.mem_cons.mp member with rfl | new
      · exact childFresh
      · exact fun old => made.fresh.before page new (grows.holds page old)
    · intro page member
      rcases List.mem_cons.mp member with rfl | new
      · exact made.grows.holds page childHeld
      · exact made.fresh.after page new
  list := by
    unfold Records.ListAt
    rw [setMm_same]
    apply (Line.nil 0).cons List.not_mem_nil _ made.unlinked
    exact (made.fresh.after _ List.mem_cons_self).ne_zero
  descriptor := by
    rw [setMm_same, made.grows.mm childMm childHeld, bytes]
    simp

/-- The passes behind the first one. -/
theorem yields_copyNodes_rest :
    ∀ {rest done : List Word} {copies : List VmaCopy} {h : RecordHeap}
      {parentVma childVma : Word} {fuel : Nat},
      start.ParentAt parentMm nodes → nodes = done ++ rest →
        Line start.records.next 0 parentVma rest →
          Copied start h parentMm childMm done copies → copies ≠ [] →
            childVma ≠ 0 → nodes.length + rest.length < fuel →
              Yields NoRoom (copyNodes childMm fuel parentVma childVma 0) h
                fun _ next => ∃ all,
                  Copied start next parentMm childMm nodes all := by
  intro rest
  induction rest with
  | nil =>
      intro done copies h parentVma childVma fuel _ parts line copied _ _ enough
      obtain ⟨fuel, rfl⟩ : ∃ less, fuel = less + 1 := ⟨fuel - 1, by omega⟩
      have ends : ¬ parentVma ≠ 0 := not_not.mpr line.chain
      rw [List.append_nil] at parts
      subst parts
      rw [copyNodes, if_neg ends, yields_pure]
      exact ⟨copies, copied⟩
  | cons p rest inductionHypothesis =>
      intro done copies h parentVma childVma fuel parent parts line copied some
        childSome enough
      obtain ⟨fuel, rfl⟩ : ∃ less, fuel = less + 1 := ⟨fuel - 1, by omega⟩
      have parentSome := line.ne_null (List.cons_ne_nil p rest)
      obtain ⟨tail, same, restLine⟩ := line.exists_cons parentSome
      injection same with isNode isTail
      subst isNode
      subst isTail
      subst parts
      have member : p ∈ done ++ p :: rest := by simp
      have held := parent.nodesHeld p member
      have fileHeld := parent.filesHeld p member
      have unchanged := copied.grows.vma p held
      rw [copyNodes, if_pos parentSome]
      dsimp only
      rw [if_neg childSome, yields_bind]
      apply (yields_copyNode (copied.grows.holds p held) ?_).mono
      · rintro _ next ⟨copy, rfl, made⟩
        have short : copies.length ≤ fuel := by
          have length := copied.matched.length_eq
          rw [List.length_append] at enough
          omega
        obtain ⟨r, ran, linked⟩ := copied.link parent made some short
        rw [if_neg (by decide), yields_bind, yields_inRecords ran,
          yields_bind, yields_inRecords (vmaAt_eq held.ne_zero)]
        dsimp only
        rw [linked.grows.vma p held]
        apply inductionHypothesis parent (List.append_cons ..) restLine linked
          (by simp) (made.fresh.after _ List.mem_cons_self).ne_zero
        rw [List.length_cons] at enough
        omega
      · rw [unchanged]
        exact fun hasFile => copied.grows.holds _ (fileHeld hasFile)

theorem yields_copyMm (held : h.Holds parentMm) :
    Yields NoRoom (copyMm parentMm) h fun childMm next =>
      h.Grows next ∧ ¬ h.Holds childMm ∧ next.Holds childMm ∧
        next.records.mm childMm = h.records.mm parentMm := by
  unfold copyMm
  rw [yields_bind]
  apply yields_kmallocPage
  intro childMm next fresh taken grows _
  rw [yields_bind, yields_inRecords (mmAt_eq held.ne_zero), yields_bind,
    yields_inRecords (storeMmAt_eq taken.ne_zero), yields_pure]
  refine ⟨?_, fresh, taken, ?_⟩
  · apply grows.store
    · exact fun _ _ => rfl
    · intro p old
      apply setMm_of_ne
      rintro rfl
      exact fresh old
    · exact fun _ _ => rfl
  · simp only [setMm_same]
    exact grows.mm parentMm held

/-- The whole loop, from the child's copy of the parent's bytes on. -/
theorem yields_copyNodes {fuel : Nat} (parent : start.ParentAt parentMm nodes)
    (grows : start.Grows h) (childFresh : ¬ start.Holds childMm)
    (childHeld : h.Holds childMm)
    (bytes : h.records.mm childMm = start.records.mm parentMm)
    (enough : 2 * nodes.length < fuel) :
    Yields NoRoom
      (copyNodes childMm fuel (start.records.mm parentMm).vma 0 0) h
      fun _ next => ∃ copies,
        Copied start next parentMm childMm nodes copies := by
  obtain ⟨fuel, rfl⟩ : ∃ less, fuel = less + 1 := ⟨fuel - 1, by omega⟩
  rw [copyNodes]
  by_cases none : (start.records.mm parentMm).vma = 0
  · have line : Line start.records.next 0 (start.records.mm parentMm).vma
        nodes := parent.list
    rw [none] at line
    have empty := line.eq_nil
    subst empty
    rw [if_neg (not_not.mpr none), yields_pure]
    refine ⟨[], grows, List.Forall₂.nil, ?_, ?_, ?_⟩
    · refine ⟨List.nodup_singleton childMm, ?_, ?_⟩
      · intro p member
        rw [List.mem_singleton.mp member]
        exact childFresh
      · intro p member
        rw [List.mem_singleton.mp member]
        exact childHeld
    · unfold Records.ListAt
      rw [bytes, none]
      exact Line.nil 0
    · rw [bytes]
      simp
  · obtain ⟨rest, isNodes, restLine⟩ := Line.exists_cons parent.list none
    have member : (start.records.mm parentMm).vma ∈ nodes := by simp [isNodes]
    have held := parent.nodesHeld _ member
    have fileHeld := parent.filesHeld _ member
    rw [if_pos none]
    dsimp only
    rw [if_pos rfl, yields_bind]
    apply (yields_copyNode (grows.holds _ held) ?_).mono
    · rintro _ next ⟨copy, rfl, made⟩
      have some := (made.grows.holds childMm childHeld).ne_zero
      have first := copied_first grows childFresh childHeld bytes held
        fileHeld made
      rw [if_pos rfl, yields_bind, yields_inRecords (storeMmAt_eq some),
        yields_bind, yields_inRecords (vmaAt_eq held.ne_zero)]
      dsimp only
      rw [first.grows.vma _ held]
      apply yields_copyNodes_rest parent isNodes restLine first (by simp)
        (made.fresh.after _ List.mem_cons_self).ne_zero
      rw [isNodes, List.length_cons] at enough ⊢
      omega
    · rw [grows.vma _ held]
      exact fun hasFile => grows.holds _ (fileHeld hasFile)

end Loop

/-! ## The whole function -/

/-- Control blocks and pages of records stay. -/
structure Kernel.Keeps (k next : Kernel) : Prop where
  objects : ∀ frame ∈ k.objects, frame ∈ next.objects
  pcbs : ∀ p, (k.procs.pcb p).isSome → (next.procs.pcb p).isSome

theorem Kernel.Keeps.trans {k next last : Kernel} (first : k.Keeps next)
    (second : next.Keeps last) : k.Keeps last where
  objects := fun frame member =>
    second.objects frame (first.objects frame member)
  pcbs := fun p found => second.pcbs p (first.pcbs p found)

section Kernels

variable {allowed : Fault → Prop} {k : Kernel} {p : Word}

theorem keeps_paging (paging : Paging) : k.Keeps { k with paging := paging } :=
  ⟨fun _ member => member, fun _ found => found⟩

theorem keeps_put (pcb : Pcb) :
    k.Keeps { k with procs := k.procs.put p pcb } := by
  refine ⟨fun _ member => member, fun other found => ?_⟩
  by_cases here : other = p
  · simp [here]
  · simpa [put_of_ne here] using found

theorem yields_storePcb_some {update : Pcb → Pcb}
    {post : Unit → Kernel → Prop} (found : (k.procs.pcb p).isSome)
    (holds : ∀ next, k.Keeps next →
      next.procs.currProcess = k.procs.currProcess → post () next) :
    Yields allowed (storePcb p update) k post := by
  obtain ⟨pcb, isPcb⟩ := Option.isSome_iff_exists.mp found
  rw [Yields, storePcb_eq isPcb]
  exact holds _ (keeps_put (update pcb)) rfl

theorem yields_derefPcb_some {post : Pcb → Kernel → Prop}
    (found : (k.procs.pcb p).isSome) (holds : ∀ pcb, post pcb k) :
    Yields allowed (derefPcb p) k post := by
  obtain ⟨pcb, isPcb⟩ := Option.isSome_iff_exists.mp found
  rw [Yields, derefPcb_eq isPcb]
  exact holds pcb

theorem stopsOnly_newPcb : StopsOnly NoRoom newPcb := by
  apply stopsOnly_bind (stopsOnly_kmallocRecord 6000)
  rintro ⟨addr, frames⟩
  apply stopsOnly_bind (stopsOnly_bind stopsOnly_get fun _ =>
    stopsOnly_pure _)
  intro t
  cases t.pcb addr with
  | some pcb => exact stopsOnly_throw (Or.inr rfl)
  | none => exact stopsOnly_bind stopsOnly_modify fun _ => stopsOnly_pure _

theorem yields_newPcb_keeps :
    Yields NoRoom newPcb k fun childPcb next =>
      k.Keeps next ∧ next.procs.currProcess = k.procs.currProcess ∧
        k.procs.pcb childPcb = none ∧ (next.procs.pcb childPcb).isSome := by
  apply stopsOnly_newPcb.strengthen
  apply yields_newPcb
  intro addr frames paging _ fresh
  refine ⟨⟨?_, ?_⟩, rfl, fresh, by simp⟩
  · exact fun frame member => List.mem_append_left _ member
  · exact (keeps_put { frames := frames }).pcbs

theorem yields_getNextProcessID_keeps :
    Yields allowed getNextProcessID k fun _ next =>
      k.Keeps next ∧ next.procs.currProcess = k.procs.currProcess := by
  unfold getNextProcessID
  rw [yields_bind, yields_globals]
  dsimp only
  split
  · rw [yields_bind, yields_setGlobals, yields_pure]
    exact ⟨⟨fun _ member => member, fun _ found => found⟩, rfl⟩
  · rw [yields_pure]
    exact ⟨⟨fun _ member => member, fun _ found => found⟩, rfl⟩

theorem yields_beginChild
    (current : (k.procs.pcb k.procs.currProcess).isSome) :
    Yields NoRoom beginChild k fun procs next =>
      k.Keeps next ∧ k.procs.pcb procs.2 = none ∧
        (next.procs.pcb procs.1).isSome ∧ (next.procs.pcb procs.2).isSome := by
  unfold beginChild
  rw [yields_bind]
  apply yields_newPcb_keeps.mono
  rintro childPcb k1 ⟨keeps, same, fresh, child⟩
  rw [yields_bind]
  apply yields_getNextProcessID_keeps.mono
  rintro pid k2 ⟨keeps2, same2⟩
  replace keeps := keeps.trans keeps2
  replace child := keeps2.pcbs _ child
  rw [yields_bind, yields_globals, same2, same]
  replace current := keeps.pcbs _ current
  rw [yields_bind]
  apply yields_derefPcb_some current
  intro curr
  rw [yields_bind]
  refine yields_storePcb_some child fun k3 keeps3 _ => ?_
  rw [yields_bind]
  refine yields_storePcb_some (keeps3.pcbs _ current) fun k4 keeps4 _ => ?_
  replace keeps := (keeps.trans keeps3).trans keeps4
  replace child := keeps4.pcbs _ (keeps3.pcbs _ child)
  replace current := keeps4.pcbs _ (keeps3.pcbs _ current)
  rw [yields_bind, yields_runPaging]
  refine (stopsOnly_createUserAddressSpace (Or.inl rfl)).yields
    fun cr3Addr paging _ => ?_
  rw [yields_bind]
  refine yields_storePcb_some child fun k5 keeps5 _ => ?_
  rw [yields_bind, yields_get, yields_bind]
  refine yields_storePcb_some (keeps5.pcbs _ current) fun k6 keeps6 _ => ?_
  replace keeps := ((keeps.trans (keeps_paging paging)).trans keeps5).trans
    keeps6
  replace child := keeps6.pcbs _ (keeps5.pcbs _ child)
  replace current := keeps6.pcbs _ (keeps5.pcbs _ current)
  rw [yields_bind, yields_runPaging]
  refine (stopsOnly_copyParentTables (Or.inl rfl) cr3Addr).yields
    fun _ tables _ => ?_
  rw [yields_bind]
  refine yields_storePcb_some child fun k7 keeps7 _ => ?_
  rw [yields_pure]
  exact ⟨(keeps.trans (keeps_paging tables)).trans keeps7, fresh,
    keeps7.pcbs _ current, keeps7.pcbs _ child⟩

theorem yields_endChild {currProcess parentProc childPcb : Word}
    (current : (k.procs.pcb currProcess).isSome)
    (parent : (k.procs.pcb parentProc).isSome)
    (child : (k.procs.pcb childPcb).isSome) :
    Yields NoRoom (endChild currProcess parentProc childPcb) k
      fun _ next => k.Keeps next := by
  unfold endChild
  rw [yields_bind]
  apply yields_derefPcb_some parent
  intro parentPcb
  rw [yields_bind]
  apply yields_derefPcb_some child
  intro pcb
  rw [yields_bind, copyKernelStack, yields_bind, yields_get, yields_ite]
  constructor
  · exact fun _ => Or.inr rfl
  · intro _
    rw [yields_runPaging, memcpyKernel, yields_modify, yields_bind,
      yields_globals, yields_bind]
    refine yields_storePcb_some child fun k1 keeps1 _ => ?_
    rw [yields_bind]
    apply yields_derefPcb_some (keeps1.pcbs _ current)
    intro curr
    rw [yields_runPaging, setCR3, yields_modify]
    exact ((keeps_paging _).trans keeps1).trans (keeps_paging _)

end Kernels

/-! ## Fork -/

/-- The child's list is a copy of the parent's, in new records, and the parent
has what it had. -/
structure DescriptorCopied (h next : RecordHeap) (parentMm childMm : Word)
    (nodes : List Word) (copies : List VmaCopy) : Prop where
  list : next.records.ListAt childMm (copies.map VmaCopy.node)
  matched : List.Forall₂ (CopyOf h.records next.records childMm) nodes copies
  fresh : h.Fresh next (childMm :: copies.flatMap VmaCopy.pages)
  mmapAllocAddr : (next.records.mm childMm).mmapAllocAddr =
    (h.records.mm parentMm).mmapAllocAddr
  parentList : next.records.ListAt parentMm nodes
  parentMm : next.records.mm parentMm = h.records.mm parentMm
  parentNodes : ∀ p ∈ nodes, next.records.vma p = h.records.vma p
  parentFiles : ∀ p ∈ nodes, (h.records.vma p).file ≠ 0 →
    next.records.file (h.records.vma p).file =
      h.records.file (h.records.vma p).file

/-- A copy of the descriptor whose count is that of its list. -/
def CopiesDescriptor (h next : RecordHeap) (parentMm childMm : Word)
    (nodes : List Word) : Prop :=
  ∃ copies, DescriptorCopied h next parentMm childMm nodes copies ∧
    (next.records.mm childMm).vmaCount = BitVec.ofNat 64 copies.length

section Fork

variable {h next : RecordHeap} {mm childMm : Word} {nodes : List Word}
  {copies : List VmaCopy}

theorem holds_of_keeps {k : Kernel} {records : Records} {mmOf : Word → Word}
    (keeps : h.kernel.Keeps k) {p : Word} (held : h.Holds p) :
    RecordHeap.Holds { kernel := k, records := records, mmOf := mmOf } p := by
  obtain ⟨frame, below, member, isPage⟩ := held
  exact ⟨frame, below, keeps.objects frame member, isPage⟩

/-- There are no more nodes than frames. -/
theorem RecordHeap.ParentAt.length_le (parent : h.ParentAt mm nodes) :
    nodes.length ≤ frameCount := by
  have pages : nodes ⊆ (List.range frameCount).map linearAddr := by
    intro p member
    obtain ⟨frame, below, _, rfl⟩ := parent.nodesHeld p member
    exact List.mem_map_of_mem (List.mem_range.mpr below)
  have fewer := (parent.list.nodup.subperm pages).length_le
  rwa [List.length_map, List.length_range] at fewer

/-- The nodes behind the first are counted once more. -/
theorem count_eq_iff {n : Nat} (few : n ≤ frameCount) :
    BitVec.ofNat 64 n + BitVec.ofNat 64 (n - 1) = BitVec.ofNat 64 n ↔
      n ≤ 1 := by
  unfold frameCount at few
  constructor
  · intro same
    have values := congrArg BitVec.toNat same
    simp only [BitVec.toNat_add, BitVec.toNat_ofNat] at values
    omega
  · intro short
    rw [show n - 1 = 0 by omega]
    exact BitVec.add_zero _

theorem Copied.descriptorCopied {start : RecordHeap}
    (copied : Copied start next mm childMm nodes copies)
    (parent : start.ParentAt mm nodes) :
    DescriptorCopied start next mm childMm nodes copies where
  list := copied.list
  matched := copied.matched
  fresh := copied.fresh
  mmapAllocAddr := by rw [copied.descriptor]
  parentList := by
    unfold Records.ListAt
    rw [copied.grows.mm mm parent.mmHeld]
    apply parent.list.congr
    intro p member
    unfold Records.next
    rw [copied.grows.vma p (parent.nodesHeld p member)]
  parentMm := copied.grows.mm mm parent.mmHeld
  parentNodes := fun p member =>
    copied.grows.vma p (parent.nodesHeld p member)
  parentFiles := fun p member some =>
    copied.grows.file _ (parent.filesHeld p member some)

theorem Copied.count {start : RecordHeap}
    (copied : Copied start next mm childMm nodes copies)
    (parent : start.ParentAt mm nodes) :
    (next.records.mm childMm).vmaCount =
      BitVec.ofNat 64 nodes.length + BitVec.ofNat 64 (nodes.length - 1) := by
  rw [copied.descriptor, parent.count, copied.matched.length_eq]

/-- What the rest of the function does leaves the copy as it is. -/
theorem DescriptorCopied.around {start last : RecordHeap}
    (copied : DescriptorCopied start next mm childMm nodes copies)
    (records : start.records = h.records) (same : last.records = next.records)
    (before : ∀ p, h.Holds p → start.Holds p)
    (after : ∀ p, next.Holds p → last.Holds p) :
    DescriptorCopied h last mm childMm nodes copies := by
  obtain ⟨_, _, _⟩ := start
  obtain ⟨_, _, _⟩ := last
  subst records
  subst same
  exact
    { list := copied.list
      matched := copied.matched
      fresh :=
        { distinct := copied.fresh.distinct
          before := fun p member held =>
            copied.fresh.before p member (before p held)
          after := fun p member => after p (copied.fresh.after p member) }
      mmapAllocAddr := copied.mmapAllocAddr
      parentList := copied.parentList
      parentMm := copied.parentMm
      parentNodes := copied.parentNodes
      parentFiles := copied.parentFiles }

theorem DescriptorCopied.copiesDescriptor_iff
    (copied : DescriptorCopied h next mm childMm nodes copies)
    (count : (next.records.mm childMm).vmaCount =
      BitVec.ofNat 64 nodes.length + BitVec.ofNat 64 (nodes.length - 1))
    (few : nodes.length ≤ frameCount) :
    CopiesDescriptor h next mm childMm nodes ↔ nodes.length ≤ 1 := by
  constructor
  · rintro ⟨others, same, counted⟩
    rw [count, ← same.matched.length_eq] at counted
    exact (count_eq_iff few).mp counted
  · intro short
    refine ⟨copies, copied, ?_⟩
    rw [count, ← copied.matched.length_eq]
    exact (count_eq_iff few).mpr short

/-- The descriptor of a parent that has one, before and after the child's
control block is made. -/
theorem RecordHeap.ParentAt.keeps (parent : h.ParentAt mm nodes) {k : Kernel}
    {mmOf : Word → Word} (keeps : h.kernel.Keeps k) :
    RecordHeap.ParentAt { kernel := k, records := h.records, mmOf := mmOf } mm
      nodes where
  list := parent.list
  tidy := parent.tidy
  count := parent.count
  mmHeld := holds_of_keeps keeps parent.mmHeld
  nodesHeld := fun p member => holds_of_keeps keeps (parent.nodesHeld p member)
  filesHeld := fun p member some =>
    holds_of_keeps keeps (parent.filesHeld p member some)

/-- The run of the whole function, and the count it leaves. -/
theorem yields_copyParentStructureAt {fuel : Nat} {parentProc : Word}
    (parent : h.ParentAt (h.mmOf parentProc) nodes)
    (found : (h.kernel.procs.pcb parentProc).isSome)
    (current : (h.kernel.procs.pcb h.kernel.procs.currProcess).isSome)
    (enough : 2 * nodes.length < fuel) :
    Yields NoRoom (copyParentStructureAt fuel parentProc) h
      fun childPcb next =>
        (∃ copies, DescriptorCopied h next (h.mmOf parentProc)
          (next.mmOf childPcb) nodes copies) ∧
        (next.records.mm (next.mmOf childPcb)).vmaCount =
          BitVec.ofNat 64 nodes.length +
            BitVec.ofNat 64 (nodes.length - 1) := by
  unfold copyParentStructureAt
  rw [yields_bind, yields_inKernel]
  apply (yields_beginChild current).mono
  rintro ⟨currProcess, childPcb⟩ k ⟨keeps, new, currentFound, childFound⟩
  have different : parentProc ≠ childPcb := by
    rintro rfl
    rw [new] at found
    cases found
  dsimp only
  rw [yields_bind, yields_modify, yields_bind, yields_inKernel]
  apply yields_derefPcb_some (keeps.pcbs _ found)
  intro pcb
  rw [yields_bind, yields_get]
  dsimp only
  rw [if_neg different, yields_bind]
  let start : RecordHeap :=
    { kernel := k
      records := h.records
      mmOf := fun p => if p = childPcb then 0 else h.mmOf p }
  have parentStart : start.ParentAt (h.mmOf parentProc) nodes :=
    parent.keeps keeps
  apply (yields_copyMm (h := start) parentStart.mmHeld).mono
  rintro childMm made ⟨grows, childFresh, childHeld, bytes⟩
  have parentSome := parent.mmHeld.ne_zero
  rw [yields_bind, yields_modify, yields_bind,
    yields_inRecords (mmAt_eq parentSome)]
  dsimp only
  rw [grows.mm _ parentStart.mmHeld, yields_bind]
  let mmOf : Word → Word := fun p =>
    if p = childPcb then childMm else made.mmOf p
  have parentNow : RecordHeap.ParentAt { start with mmOf := mmOf }
      (h.mmOf parentProc) nodes :=
    parent.keeps keeps
  apply (yields_copyNodes parentNow (grows.withMmOf mmOf) childFresh
    childHeld bytes enough).mono
  rintro _ next ⟨copies, copied⟩
  have procs : next.kernel.procs = k.procs := copied.grows.procs
  have mmNow : next.mmOf childPcb = childMm := by
    rw [copied.grows.mmOf]
    exact if_pos rfl
  rw [yields_bind, yields_inKernel]
  refine (yields_endChild (by rw [procs]; exact currentFound)
    (by rw [procs]; exact keeps.pcbs _ found)
    (by rw [procs]; exact childFound)).mono ?_
  intro _ last lastKeeps
  rw [yields_pure]
  dsimp only
  rw [mmNow]
  refine ⟨⟨copies, ?_⟩, copied.count parentNow⟩
  exact (copied.descriptorCopied parentNow).around rfl rfl
    (fun p held => holds_of_keeps keeps held)
    (fun p held => holds_of_keeps lastKeeps held)

/-- A process with a text area that comes from a file, and behind it the node
`second` or no other one. -/
def forkHeap (second : Word) : RecordHeap where
  kernel :=
    { paging := linearPaging (BitVec.allOnes 64)
      procs :=
        { pcb := fun p =>
            if p = linearAddr 32 then some { pid := 1, frames := [32, 33] }
            else none
          firstProcess := linearAddr 32
          currProcess := linearAddr 32 }
      objects := [32, 33, 34, 35, 36, 37] }
  records :=
    { vma := fun p =>
        if p = linearAddr 35 then
          { vmMm := linearAddr 34, vmNext := second, vmStart := 0x400000,
            vmEnd := 0x401000, file := linearAddr 37 }
        else if p = linearAddr 36 then
          { vmMm := linearAddr 34, vmStart := 0x600000, vmEnd := 0x601000,
            type := .heap }
        else
          {}
      mm := fun p =>
        if p = linearAddr 34 then
          { vma := linearAddr 35, vmaCount := if second = 0 then 1 else 2 }
        else
          {}
      file := fun _ => {} }
  mmOf := fun p => if p = linearAddr 32 then linearAddr 34 else 0

theorem holds_forkHeap {second : Word} {frame : Nat} (first : 32 ≤ frame)
    (last : frame ≤ 37) : (forkHeap second).Holds (linearAddr frame) := by
  refine ⟨frame, by unfold frameCount; omega, ?_, rfl⟩
  simp only [forkHeap, List.mem_cons, List.not_mem_nil]
  omega

theorem parentAt_forkHeap_one :
    (forkHeap 0).ParentAt (linearAddr 34) [linearAddr 35] where
  list := ⟨⟨by decide, by decide⟩, List.nodup_singleton _, by decide⟩
  tidy := tidy_iff.mpr ⟨by decide, List.pairwise_singleton ..⟩
  count := by decide
  mmHeld := holds_forkHeap (by decide) (by decide)
  nodesHeld := by
    intro p member
    rw [List.mem_singleton.mp member]
    exact holds_forkHeap (by decide) (by decide)
  filesHeld := by
    intro p member _
    rw [List.mem_singleton.mp member]
    have file : (forkHeap 0).Holds (linearAddr 37) :=
      holds_forkHeap (by decide) (by decide)
    exact file

theorem parentAt_forkHeap_two :
    (forkHeap (linearAddr 36)).ParentAt (linearAddr 34)
      [linearAddr 35, linearAddr 36] where
  list := ⟨⟨by decide, by decide, by decide⟩, by decide, by decide⟩
  tidy := tidy_iff.mpr ⟨by decide, by decide⟩
  count := by decide
  mmHeld := holds_forkHeap (by decide) (by decide)
  nodesHeld := by
    intro p member
    rcases List.mem_pair.mp member with rfl | rfl
    · exact holds_forkHeap (by decide) (by decide)
    · exact holds_forkHeap (by decide) (by decide)
  filesHeld := by
    intro p member some
    rcases List.mem_pair.mp member with rfl | rfl
    · have file : (forkHeap (linearAddr 36)).Holds (linearAddr 37) :=
        holds_forkHeap (by decide) (by decide)
      exact file
    · exact absurd (by decide) some

end Fork

end SbuUnix
