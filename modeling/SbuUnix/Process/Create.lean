import SbuUnix.Process.Loader

/-!
# Creating processes

`get_next_processID`, `create_kernel_thread`, `create_user_process`,
`switch_to_ring3`, `schedule_sbush` and `fork_child` of `sys/process.c`.

The words that the source puts on kernel stacks (return addresses) are left
out: they lie in the frames of process control blocks.
-/

namespace SbuUnix

open Outcome

/-! ## Names and identities -/

/-- `"kernel"` -/
def kernelName : List Byte := [0x6B, 0x65, 0x72, 0x6E, 0x65, 0x6C]

/-- `ROOT`, `"rootfs/"` -/
def rootDir : List Byte := [0x72, 0x6F, 0x6F, 0x74, 0x66, 0x73, 0x2F]

/-- `"PATH"` -/
def pathKey : List Byte := [0x50, 0x41, 0x54, 0x48]

/-- `"rootfs/bin/"` -/
def pathValue : List Byte := rootDir ++ [0x62, 0x69, 0x6E, 0x2F]

/-- `"bin/init"` -/
def initName : List Byte := [0x62, 0x69, 0x6E, 0x2F, 0x69, 0x6E, 0x69, 0x74]

/-- `MAX_PROCESS_COUNT` -/
def maxProcessCount : Nat := 64

/-- `id << i` for `int id = 1`, widened to the 64 bits of `processID`.  The
processor takes the count of a 32-bit shift modulo 32. -/
def idBit (i : Nat) : Word :=
  ((1 : BitVec 32) <<< (i % 32)).signExtend 64

def getNextProcessID : KernelM (BitVec 32) := do
  let processID := (← globals).processID
  match (List.range maxProcessCount).find? fun i =>
      (processID >>> i) &&& 1 = 0 with
  | some i =>
      setGlobals fun t => { t with processID := processID ||| idBit i }
      pure (BitVec.ofNat 32 (i + 1))
  | none => pure (-1)

/-- `(uint64_t)(pcb + PAGE_SIZE - 8)`: the sum counts in `pcb_t`s. -/
def kernelStackTop (pcb : Word) : Word :=
  pcb + BitVec.ofNat 64 ((4096 - 8) * pcbSize)

/-! ## The kernel thread and the first user process -/

/-- `create_kernel_thread` up to the call of `initial_ret_function`. -/
def createKernelThread : KernelM Unit := do
  let kPcb ← newPcb
  let pid ← getNextProcessID
  let cr3 := (← get).paging.cr3
  storePcb kPcb fun pcb =>
    { pcb with
      pName := kernelName
      pid := pid
      ppid := 1
      cr3 := cr3
      state := .running
      nextProc := 0
      mm := none
      initKernel := kPcb + 4096
      rsp := kPcb + 4096 - 8 }
  setGlobals fun t =>
    { t with
      firstProcess := kPcb
      currProcess := kPcb }

/-- `STACK_END - PAGE_SIZE` -/
def userVirt : Word := stackEnd - 4096

/-- The stack page of a new process, as `create_user_process` and `execve`
set it up: the page is mapped in the tables of CR3 too, a copy of it in the
tables of the process, and the copy is cleared. -/
def mapUserStack (cr3Addr : Word) : PagingM Unit := do
  let userStack ← allocateVirtPage
  mapPhysToVirtAddr userVirt userStack
  mapPhysToUserVirtAddr userVirt userStack cr3Addr
  setCR3 cr3Addr
  let frame ← kernelPage userVirt
  memsetPage frame

/-- The next statements of both: the stack, an empty `mm_struct`, and CR3 left
at the tables of the new process. -/
def makeUserSpace (userPcb cr3Addr : Word) : KernelM Unit := do
  runPaging (mapUserStack cr3Addr)
  let first ← derefPcb (← globals).firstProcess
  runPaging (setCR3 first.cr3)
  let _ ← kmallocRecord 4096
  storePcb userPcb fun pcb => { pcb with mm := some {} }
  runPaging (setCR3 cr3Addr)

/-- `create_user_process`; the null pointer when the image does not load. -/
def createUserProcess (fuel : Nat) (filename : List Byte) :
    KernelM Word := do
  let userPcb ← newPcb
  let pid ← getNextProcessID
  let cr3Addr ← runPaging createUserAddressSpace
  let name ← strcpyTo 30 filename
  storePcb userPcb fun pcb =>
    { pcb with
      pid := pid
      ppid := 1
      cr3 := cr3Addr
      pName := name
      currDir := rootDir
      tempCurrDir := rootDir
      echoVarKey := fun i => if i = 0 then pathKey else pcb.echoVarKey i
      echoVar := fun i => if i = 0 then pathValue else pcb.echoVar i
      echoCount := 1 }
  makeUserSpace userPcb cr3Addr
  let filePt := isFileExist (← get).tarfs filename
  if ← loadBinaries fuel userPcb filePt then
    let t ← globals
    let first ← derefPcb t.firstProcess
    runPaging (setCR3 first.cr3)
    storePcb userPcb fun pcb =>
      { pcb with
        state := .ready
        nextProc := t.firstProcess
        userStack := userVirt + 4096 - 8
        rsp := userVirt + 4096 - 8
        initKernel := kernelStackTop userPcb }
    storePcb t.currProcess fun pcb => { pcb with nextProc := userPcb }
    storePcb userPcb fun pcb => { pcb with nextProc := t.currProcess }
    setGlobals fun t => { t with currProcess := userPcb }
    pure userPcb
  else
    pure 0

/-- `switch_to_ring3` -/
def switchToRing3 (proc : Word) : KernelM Unit := do
  let curr ← derefPcb (← globals).currProcess
  setGlobals fun t => { t with currProcess := curr.nextProc }
  let next ← derefPcb curr.nextProc
  setGlobals fun t => { t with nextProcess := next.nextProc }
  storePcb proc fun pcb => { pcb with state := .running }
  let first := (← globals).firstProcess
  let rsp := (← get).rsp
  storePcb first fun pcb => { pcb with state := .ready }
  setGlobals fun t => { t with currProcess := proc }
  storePcb first fun pcb => { pcb with kernRsp := rsp }
  let pcb ← derefPcb proc
  runPaging (setCR3 pcb.cr3)
  modify fun k => { k with tssRsp := pcb.initKernel, rsp := pcb.rsp }

/-- `schedule_sbush`; `initial_ret_function` ends with the same two calls. -/
def scheduleSbush (fuel : Nat) : KernelM Unit := do
  let userProcess ← createUserProcess fuel initName
  switchToRing3 userProcess

/-! ## Fork -/

/-- The copy of one VMA, not yet linked. -/
def copyVma (parentVma : Vma) : KernelM Vma := do
  let (addr, _) ← kmallocRecord 4096
  if parentVma.file ≠ 0 then
    let (file, _) ← kmallocRecord 4096
    pure { parentVma with addr := addr, file := file }
  else
    pure { parentVma with addr := addr }

/-- The VMA loop of `copy_parent_structure`: the first copy becomes the head
of the child's list, the others go through `add_mmstruct`, whose result is
ignored. -/
def copyVmas (childPcb : Word) : Bool → List Vma → KernelM Unit
  | _, [] => pure ()
  | isFirst, parentVma :: rest => do
      let childVma ← copyVma parentVma
      let mm ← derefMm childPcb
      if isFirst then
        storeMm childPcb { mm with vma := [childVma] }
      else
        storeMm childPcb ((addMmstruct mm childVma).getD mm)
      copyVmas childPcb false rest

/-- `memcpy(source, destination, PAGE_SIZE)` between addresses of the linear
map that need not be page addresses; both are multiples of 8. -/
def memcpyKernel (source destination : Word) : PagingM Unit :=
  let first := (source - kernelAddr).toNat / 8
  let target := (destination - kernelAddr).toNat / 8
  modify fun s =>
    { s with
      mem := fun frame index =>
        let word := frame * 512 + index.val
        if target ≤ word ∧ word < target + 512 then
          let moved := first + (word - target)
          s.mem (moved / 512) (Fin.ofNat 512 moved)
        else
          s.mem frame index }

/-- The copy of the kernel stack page.  Its target is not the memory of the
child's control block, so it may be that of another record. -/
def copyKernelStack (source destination : Word) : KernelM Unit := do
  let objects := (← get).objects
  if objects.contains ((destination - kernelAddr).toNat / pageSize) ||
      objects.contains ((destination + 4095 - kernelAddr).toNat / pageSize)
    then
    throw .overwritesRecord
  else
    runPaging (memcpyKernel source destination)

def copyParentStructure (parentProc : Word) : KernelM Word := do
  let childPcb ← newPcb
  let pid ← getNextProcessID
  let currProcess := (← globals).currProcess
  let curr ← derefPcb currProcess
  storePcb childPcb fun pcb =>
    { pcb with
      pid := pid
      ppid := curr.pid
      pName := curr.pName
      currDir := curr.currDir
      tempCurrDir := curr.tempCurrDir
      echoCount := curr.echoCount
      echoVar := curr.echoVar
      echoVarKey := curr.echoVarKey
      nextProc := 0
      mm := none
      nChild := 0 }
  storePcb currProcess fun pcb => { pcb with nChild := pcb.nChild + 1 }
  let cr3Addr ← runPaging createUserAddressSpace
  storePcb childPcb fun pcb => { pcb with cr3 := cr3Addr }
  let loaded := (← get).paging.cr3
  storePcb currProcess fun pcb => { pcb with cr3 := loaded }
  runPaging (copyParentTables cr3Addr)
  storePcb childPcb fun pcb =>
    { pcb with initKernel := kernelStackTop childPcb }
  let _ ← kmallocRecord 4096
  let mm ← derefMm parentProc
  storePcb childPcb fun pcb => { pcb with mm := some mm }
  copyVmas childPcb true mm.vma
  let parent ← derefPcb parentProc
  let child ← derefPcb childPcb
  copyKernelStack (parent.initKernel + 8 - 4096) (child.initKernel + 8 - 4096)
  let rspPointer := (← globals).rspPointer
  storePcb childPcb fun pcb =>
    { pcb with
      userStack := parent.userStack
      rsp := pcb.initKernel - (parent.initKernel - rspPointer) }
  let curr ← derefPcb currProcess
  runPaging (setCR3 curr.cr3)
  pure childPcb

/-- `fork_child`: the child is linked behind its parent. -/
def forkChild : KernelM (BitVec 32) := do
  let cPcb ← copyParentStructure (← globals).currProcess
  let currProcess := (← globals).currProcess
  let curr ← derefPcb currProcess
  storePcb cPcb fun pcb => { pcb with nextProc := curr.nextProc }
  storePcb currProcess fun pcb => { pcb with nextProc := cPcb }
  let child ← derefPcb cPcb
  pure child.pid

end SbuUnix
