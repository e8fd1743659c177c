import SbuUnix.Paging.Exhaustion
import SbuUnix.Paging.LinearMap
import SbuUnix.Process.Vma

/-!
# Process control blocks and the state of the kernel

The records that the kernel keeps in `kmalloc`'ed memory (process control
blocks, `mm_struct`s and their VMAs) are Lean structures beside the memory of
`Paging`; `objects` are the frames they occupy.  A process control block is
named by its address, and the null pointer names none.  What the source writes
over such a frame by mistake stops with `overwritesRecord`: from there on the
records are not what the model says they are.

A C string is the list of its bytes up to the NUL.
-/

namespace SbuUnix

open Outcome

/-- An entry of `global_tarfs`, and of the descriptor table of a process. -/
structure TarFile where
  name : List Byte := []
  size : Word := 0
  addr : Word := 0
  readAddr : Word := 0
  inode : Word := 0
  pInode : Word := 0
  type : Word := 0
  deriving DecidableEq, Repr

/-- `TASK_NEW` to `TASK_ZOMBIE`; cleared memory reads as `unset`. -/
inductive TaskState where
  | unset
  | new
  | ready
  | running
  | waiting
  | stopped
  | zombie
  deriving DecidableEq, Repr

/-- A process has descriptors, so that `Fin 5` has its literals. -/
instance instNeZeroDescriptors : NeZero 5 := ⟨by decide⟩

/-- `process_ctrl_blk`, without the saved registers, which nothing reads.
`frames` is not in the source: the frames `kmalloc` took for the block. -/
structure Pcb where
  pid : BitVec 32 := 0
  ppid : BitVec 32 := 0
  pName : List Byte := []
  initKernel : Word := 0
  userStack : Word := 0
  rsp : Word := 0
  kernRsp : Word := 0
  fd : Fin 5 → TarFile := fun _ => {}
  fileCount : Word := 0
  rip : Word := 0
  cr3 : Word := 0
  state : TaskState := .unset
  nChild : BitVec 32 := 0
  currDir : List Byte := []
  tempCurrDir : List Byte := []
  echoVarKey : Fin 5 → List Byte := fun _ => []
  echoVar : Fin 5 → List Byte := fun _ => []
  echoCount : BitVec 32 := 0
  nextProc : Word := 0
  mm : Option MmStruct := none
  frames : List Nat := []

/-- The process table and the globals of `sys/process.c`. -/
structure Procs where
  pcb : Word → Option Pcb
  firstProcess : Word := 0
  currProcess : Word := 0
  nextProcess : Word := 0
  stoppedProcess : Word := 0
  forkedProcess : Word := 0
  processID : Word := 0
  rspPointer : Word := 0

structure Kernel where
  paging : Paging
  procs : Procs
  /-- `global_tarfs` up to `file_count`. -/
  tarfs : List TarFile := []
  /-- The tar archive, at its addresses in the kernel image. -/
  archive : Word → Byte := fun _ => 0
  tssRsp : Word := 0
  rsp : Word := 0
  objects : List Nat := []

abbrev KernelM := StateT Kernel (Except Fault)

/-- `sizeof(pcb_t)`, with the packed layout of the source. -/
def pcbSize : Nat := 5706

/-! ## Access -/

def Procs.put (t : Procs) (p : Word) (pcb : Pcb) : Procs :=
  { t with pcb := fun other => if other = p then some pcb else t.pcb other }

def runPaging {α : Type} (program : PagingM α) : KernelM α :=
  zoom Kernel.paging (fun paging k => { k with paging := paging }) program

def globals : KernelM Procs := do
  pure (← get).procs

def setGlobals (update : Procs → Procs) : KernelM Unit :=
  modify fun k => { k with procs := update k.procs }

/-- A load through a pointer to a process control block. -/
def derefPcb (p : Word) : KernelM Pcb := do
  match (← globals).pcb p with
  | some pcb => pure pcb
  | none => throw .nullPointer

/-- A store through a pointer to a process control block. -/
def storePcb (p : Word) (update : Pcb → Pcb) : KernelM Unit := do
  let pcb ← derefPcb p
  setGlobals fun t => t.put p (update pcb)

/-- A load of `proc->mm->…`. -/
def derefMm (p : Word) : KernelM MmStruct := do
  match (← derefPcb p).mm with
  | some mm => pure mm
  | none => throw .nullPointer

/-- A store to `proc->mm->…`. -/
def storeMm (p : Word) (mm : MmStruct) : KernelM Unit := do
  let _ ← derefMm p
  storePcb p fun pcb => { pcb with mm := some mm }

/-- `kmalloc` for a kernel record. -/
def kmallocRecord (size : Int) : KernelM (Word × List Nat) := do
  let (addr, frames) ← runPaging (kmalloc size)
  let k ← get
  if frames.any fun frame => k.objects.contains frame then
    throw .overwritesRecord
  else
    set { k with objects := k.objects ++ frames }
    pure (addr, frames)

/-- `(pcb_t *)kmalloc((int)6000)` -/
def newPcb : KernelM Word := do
  let (addr, frames) ← kmallocRecord 6000
  match (← globals).pcb addr with
  | some _ => throw .overwritesRecord
  | none =>
      setGlobals fun t => t.put addr { frames := frames }
      pure addr

/-- `strcpy(source, field)` for a field of `size` bytes.  The routine ends the
copy with two NULs. -/
def strcpyTo (size : Nat) (source : List Byte) : KernelM (List Byte) :=
  if source.length + 2 ≤ size then
    pure source
  else
    throw .outOfBounds

/-! ## What programs over the kernel yield -/

section Rules

variable {allowed : Fault → Prop} {k : Kernel} {p other : Word} {pcb : Pcb}

@[simp]
theorem put_same {t : Procs} : (t.put p pcb).pcb p = some pcb := by
  simp [Procs.put]

@[simp]
theorem Procs.put_currProcess {t : Procs} :
    (t.put p pcb).currProcess = t.currProcess :=
  rfl

theorem put_of_ne {t : Procs} (different : other ≠ p) :
    (t.put p pcb).pcb other = t.pcb other := by
  simp [Procs.put, different]

theorem derefPcb_eq (found : k.procs.pcb p = some pcb) :
    derefPcb p k = .ok (pcb, k) := by
  unfold derefPcb
  rw [bind_of_ok (show globals k = .ok (k.procs, k) from rfl), found]
  rfl

theorem storePcb_eq {update : Pcb → Pcb}
    (found : k.procs.pcb p = some pcb) :
    storePcb p update k =
      .ok ((), { k with procs := k.procs.put p (update pcb) }) := by
  unfold storePcb
  rw [bind_of_ok (derefPcb_eq found)]
  rfl

theorem yields_runPaging {α : Type} {program : PagingM α}
    {post : α → Kernel → Prop} :
    Yields allowed (runPaging program) k post ↔
      Yields allowed program k.paging fun value paging =>
        post value { k with paging := paging } :=
  yields_zoom program k

theorem yields_globals {post : Procs → Kernel → Prop} :
    Yields allowed globals k post ↔ post k.procs k :=
  Iff.rfl

theorem yields_setGlobals {update : Procs → Procs}
    {post : Unit → Kernel → Prop} :
    Yields allowed (setGlobals update) k post ↔
      post () { k with procs := update k.procs } :=
  Iff.rfl

theorem yields_derefPcb {post : Pcb → Kernel → Prop} :
    Yields AnyFault (derefPcb p) k post ↔
      ∀ pcb, k.procs.pcb p = some pcb → post pcb k := by
  unfold derefPcb
  rw [yields_bind, yields_globals]
  cases k.procs.pcb p with
  | none => simp [yields_stop]
  | some pcb => simp [yields_pure]

theorem yields_storePcb {update : Pcb → Pcb} {post : Unit → Kernel → Prop} :
    Yields AnyFault (storePcb p update) k post ↔
      ∀ pcb, k.procs.pcb p = some pcb →
        post () { k with procs := k.procs.put p (update pcb) } := by
  unfold storePcb
  rw [yields_bind, yields_derefPcb]
  rfl

theorem yields_derefMm {post : MmStruct → Kernel → Prop} :
    Yields AnyFault (derefMm p) k post ↔
      ∀ pcb mm, k.procs.pcb p = some pcb → pcb.mm = some mm →
        post mm k := by
  unfold derefMm
  rw [yields_bind, yields_derefPcb]
  constructor
  · intro yields pcb mm found here
    have rest := yields pcb found
    simp only [here] at rest
    exact rest
  · intro holds pcb found
    cases here : pcb.mm with
    | none => exact yields_stop _ _
    | some mm => exact holds pcb mm found here

theorem yields_kmallocRecord {size : Int}
    {post : Word × List Nat → Kernel → Prop}
    (holds : ∀ addr frames paging,
      kmalloc size k.paging = .ok ((addr, frames), paging) →
        post (addr, frames)
          { k with paging := paging, objects := k.objects ++ frames }) :
    Yields AnyFault (kmallocRecord size) k post := by
  unfold kmallocRecord
  rw [yields_bind, yields_runPaging, yields_anyFault]
  intro block paging returned
  rw [yields_bind, yields_get, yields_ite]
  constructor
  · intro _
    exact yields_stop _ _
  · intro _
    exact holds block.1 block.2 paging returned

/-- A new block is not the block of another process. -/
theorem yields_newPcb {post : Word → Kernel → Prop}
    (holds : ∀ addr frames paging,
      kmalloc 6000 k.paging = .ok ((addr, frames), paging) →
        k.procs.pcb addr = none →
          post addr
            { k with
              paging := paging
              objects := k.objects ++ frames
              procs := k.procs.put addr { frames := frames } }) :
    Yields AnyFault newPcb k post := by
  unfold newPcb
  rw [yields_bind]
  apply yields_kmallocRecord
  intro addr frames paging returned
  rw [yields_bind, yields_globals]
  cases fresh : k.procs.pcb addr with
  | some pcb => exact yields_stop _ _
  | none => exact holds addr frames paging returned fresh

theorem yields_strcpyTo {size : Nat} {source : List Byte}
    {post : List Byte → Kernel → Prop}
    (holds : source.length + 2 ≤ size → post source k) :
    Yields AnyFault (strcpyTo size source) k post := by
  unfold strcpyTo
  rw [yields_ite]
  exact ⟨holds, fun _ => yields_stop _ _⟩

end Rules

/-! ## Allocations -/

/-- The loop of `kmalloc` takes one frame of the bitmap in each pass. -/
theorem kmallocPages_eq_ok {count : Nat} {s next : Paging}
    {frames : List Nat}
    (returned : kmallocPages (count + 1) s = .ok (frames, next)) :
    ∃ frame, frame < frameCount ∧ ∃ later between,
      kmallocPages count between = .ok (later, next) ∧
        frames = frame :: later := by
  rw [kmallocPages] at returned
  obtain ⟨page, taken, allocated, rest⟩ := bind_eq_ok_iff.mp returned
  obtain ⟨frame, free, rfl, -⟩ := allocateVirtPage_eq_ok allocated
  obtain ⟨_, _, -, rest⟩ := bind_eq_ok_iff.mp rest
  obtain ⟨_, between, -, rest⟩ := bind_eq_ok_iff.mp rest
  obtain ⟨later, last, more, rest⟩ := bind_eq_ok_iff.mp rest
  cases rest
  have below := Paging.lt_of_isFree free
  have same : kernelFrame (pageAddr frame) = frame := by
    apply kernelFrame_pageAddr
    simp only [frameCount] at below
    omega
  exact ⟨frame, below, later, between, more, by rw [same]⟩

/-- What stops an allocation. -/
def NoRoom (failure : Fault) : Prop :=
  failure = .noFreeFrame ∨ failure = .overwritesRecord

theorem stopsOnly_kmallocRecord (size : Int) :
    StopsOnly NoRoom (kmallocRecord size) := by
  apply stopsOnly_bind (stopsOnly_zoom (stopsOnly_kmalloc (Or.inl rfl) size))
  rintro ⟨addr, frames⟩
  apply stopsOnly_bind stopsOnly_get
  intro k
  apply stopsOnly_ite
  · exact stopsOnly_throw (Or.inr rfl)
  · exact stopsOnly_bind stopsOnly_modify fun _ => stopsOnly_pure _

/-- `kmalloc` for one page takes a frame that holds no record. -/
theorem yields_kmallocRecord_page {k : Kernel}
    {post : Word × List Nat → Kernel → Prop}
    (holds : ∀ frame paging, frame < frameCount → frame ∉ k.objects →
      post (linearAddr frame, [frame])
        { k with paging := paging, objects := k.objects ++ [frame] }) :
    Yields NoRoom (kmallocRecord 4096) k post := by
  unfold kmallocRecord
  rw [yields_bind, yields_runPaging]
  apply (stopsOnly_kmalloc (Or.inl rfl) 4096).yields
  rintro ⟨addr, frames⟩ paging returned
  unfold kmalloc at returned
  obtain ⟨taken, after, allocated, rest⟩ := bind_eq_ok_iff.mp returned
  cases rest
  rw [show numPage 4096 = 0 + 1 from by decide] at allocated
  obtain ⟨frame, below, later, _, none, rfl⟩ := kmallocPages_eq_ok allocated
  cases none
  rw [yields_bind, yields_get, yields_ite]
  constructor
  · exact fun _ => Or.inr rfl
  · intro new
    apply holds frame paging below
    simpa using new

end SbuUnix
