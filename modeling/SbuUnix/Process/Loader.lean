import SbuUnix.Process.State

/-!
# Loading an executable

`sys/elf64.c`, with `is_file_exist` of `sys/tarfs.c` and `init_mmap` of
`sys/paging.c`.  An image is read where the tar archive holds it, in kernel
memory; its headers are little-endian.
-/

namespace SbuUnix

open Outcome

/-! ## Headers -/

/-- `count` bytes from an address, the least significant one first. -/
def readField (bytes : Word → Byte) (addr : Word) : Nat → Word
  | 0 => 0
  | count + 1 =>
      (readField bytes (addr + 1) count <<< 8) |||
        (bytes addr).setWidth 64

structure ElfPhdr where
  pType : BitVec 32
  pFlags : BitVec 32
  pOffset : Word
  pVaddr : Word
  pFilesz : Word
  pMemsz : Word
  deriving DecidableEq, Repr

def ptLoad : BitVec 32 := 1

def pfX : BitVec 32 := 0x1
def pfW : BitVec 32 := 0x2
def pfR : BitVec 32 := 0x4

/-- `elf_check_header`: the four magic bytes, and no null pointer. -/
def elfCheckHeader (bytes : Word → Byte) (elfHdr : Word) : Bool :=
  elfHdr != 0 && bytes elfHdr == 0x7F && bytes (elfHdr + 1) == 0x45 &&
    bytes (elfHdr + 2) == 0x4C && bytes (elfHdr + 3) == 0x46

def elfEntry (bytes : Word → Byte) (elfHdr : Word) : Word :=
  readField bytes (elfHdr + 24) 8

def elfPhoff (bytes : Word → Byte) (elfHdr : Word) : Word :=
  readField bytes (elfHdr + 32) 8

def elfPhnum (bytes : Word → Byte) (elfHdr : Word) : Nat :=
  (readField bytes (elfHdr + 56) 2).toNat

/-- The program header at an address. -/
def elfPhdrAt (bytes : Word → Byte) (addr : Word) : ElfPhdr where
  pType := (readField bytes addr 4).setWidth 32
  pFlags := (readField bytes (addr + 4) 4).setWidth 32
  pOffset := readField bytes (addr + 8) 8
  pVaddr := readField bytes (addr + 16) 8
  pFilesz := readField bytes (addr + 32) 8
  pMemsz := readField bytes (addr + 40) 8

/-- The program headers in the order of the loop of `load_binaries`. -/
def elfPhdrs (bytes : Word → Byte) (elfHdr : Word) : List ElfPhdr :=
  (List.range (elfPhnum bytes elfHdr)).map fun i =>
    elfPhdrAt bytes
      (elfHdr + elfPhoff bytes elfHdr + BitVec.ofNat 64 (56 * i))

/-! ## Segments -/

/-- `memcpy` from kernel memory to addresses of the process in CR3, whose
pages the kernel may write whatever their `PT_WR`. -/
def memcpyOut (source : Nat → Byte) (dest : Word) (count : Nat) :
    PagingM Unit :=
  forUpto count fun i =>
    storeByte ptPR (dest + BitVec.ofNat 64 i) (source i)

/-- The page loop of a segment.  It runs up to and including `phdrEnd`, and
maps a fresh zero page also where one is mapped already. -/
def mapSegment : Nat → Word → Word → Word → PagingM Word
  | 0, _, _, _ => throw .outOfFuel
  | fuel + 1, cr3Addr, phdrStart, phdrEnd =>
      if phdrStart ≤ phdrEnd then do
        let page ← allocateVirtPage
        memsetPage (kernelFrame page)
        mapPhysToUserVirtAddr phdrStart page cr3Addr
        mapSegment fuel cr3Addr (phdrStart + 4096) phdrEnd
      else
        pure phdrStart

/-- `(p_vaddr / PAGE_SIZE) * PAGE_SIZE` -/
def ElfPhdr.start (phdr : ElfPhdr) : Word :=
  removeFlag phdr.pVaddr

def ElfPhdr.stop (phdr : ElfPhdr) : Word :=
  phdr.pVaddr + phdr.pMemsz

/-- The two flag combinations whose contents are copied. -/
def ElfPhdr.copied (phdr : ElfPhdr) : Bool :=
  phdr.pFlags == (pfR ||| pfX) || phdr.pFlags == (pfR ||| pfW)

/-- The body of the loop of `load_binaries` for a `PT_LOAD` header; `false`
for its `return -1`. -/
def loadSegment (fuel : Nat) (proc elfHdr : Word) (phdr : ElfPhdr) :
    KernelM Bool := do
  let (addr, _) ← kmallocRecord 4096
  let vma : Vma :=
    { addr := addr
      vmStart := phdr.pVaddr
      vmEnd := phdr.stop }
  match addMmstruct (← derefMm proc) vma with
  | none => pure false
  | some mm =>
      storeMm proc mm
      let cr3 := (← derefPcb proc).cr3
      let phdrStart ←
        runPaging (mapSegment fuel cr3 phdr.start phdr.stop)
      let mm ← derefMm proc
      storeMm proc
        { mm with
          vma := cutAfter addr
            (updateVma addr
              (fun vma => { vma with flags := phdr.pFlags.setWidth 64 })
              mm.vma) }
      if phdr.copied then
        let (file, _) ← kmallocRecord 4096
        let bytes := (← get).archive
        runPaging
          (memcpyOut
            (fun i => bytes (elfHdr + phdr.pOffset + BitVec.ofNat 64 i))
            phdr.pVaddr (phdr.pFilesz.setWidth 32).toNat)
        let mm ← derefMm proc
        storeMm proc
          { mm with
            codeStart := phdrStart
            codeEnd := phdr.stop
            vma := updateVma addr
              (fun vma =>
                { vma with
                  file := file
                  fileStart := phdr.pOffset
                  fileSize := phdr.pFilesz
                  type :=
                    if phdr.pFlags = (pfR ||| pfX) then .text else .data })
              mm.vma }
      pure true

/-- The loop of `load_binaries`. -/
def loadSegments (fuel : Nat) (proc elfHdr : Word) :
    List ElfPhdr → KernelM Bool
  | [] => pure true
  | phdr :: rest => do
      if phdr.pType = ptLoad then
        if ← loadSegment fuel proc elfHdr phdr then
          loadSegments fuel proc elfHdr rest
        else
          pure false
      else
        loadSegments fuel proc elfHdr rest

/-! ## Heap, stack and the whole loader -/

/-- `init_mmap`: one page at the start of the heap, and the first `HEAP` node
of the list becomes the whole heap. -/
def initMmap (proc : Word) : KernelM Unit := do
  let phyAddr ← runPaging allocateVirtPage
  let cr3 := (← derefPcb proc).cr3
  runPaging (mapPhysToUserVirtAddr heapAddr phyAddr cr3)
  let mm ← derefMm proc
  match mm.vma.find? fun vma => vma.type = .heap with
  | none => throw .nullPointer
  | some heap =>
      storeMm proc
        { mm with
          vma := updateVma heap.addr
            (fun vma => { vma with vmStart := heapAddr, vmEnd := heapEnd })
            mm.vma
          mmapStartAddr := heapAddr
          mmapEndAddr := heapEnd
          mmapAllocAddr := heapAddr }

def userVmaFlags : Word := (pfR ||| pfW).setWidth 64

/-- The heap and stack part of `load_binaries`; `false` for its
`return -1`. -/
def loadHeapAndStack (proc : Word) : KernelM Bool := do
  let (heap, _) ← kmallocRecord 4096
  let heapVma : Vma :=
    { addr := heap
      vmStart := heapAddr
      vmEnd := heapAddr + 4096 }
  match addMmstruct (← derefMm proc) heapVma with
  | none => pure false
  | some mm =>
      storeMm proc
        { mm with
          vma := cutAfter heap
            (updateVma heap
              (fun vma =>
                { vma with
                  flags := userVmaFlags
                  type := .heap
                  file := 0 })
              mm.vma) }
      let (stack, _) ← kmallocRecord 4096
      let stackVma : Vma :=
        { addr := stack
          vmStart := stackAddr
          vmEnd := stackEnd
          flags := userVmaFlags
          type := .stack }
      match addMmstruct (← derefMm proc) stackVma with
      | none => pure false
      | some mm =>
          storeMm proc mm
          initMmap proc
          pure true

/-- `load_binaries`; `false` for `-1`. -/
def loadBinaries (fuel : Nat) (proc elfStart : Word) : KernelM Bool := do
  let bytes := (← get).archive
  if elfCheckHeader bytes elfStart then
    storePcb proc fun pcb => { pcb with rip := elfEntry bytes elfStart }
    if ← loadSegments fuel proc elfStart (elfPhdrs bytes elfStart) then
      loadHeapAndStack proc
    else
      pure false
  else
    pure false

/-- `is_file_exist`: the address of a file's contents, `0` when there is no
such file. -/
def isFileExist (tarfs : List TarFile) (filename : List Byte) : Word :=
  match tarfs.find? fun file => file.name = filename with
  | some file => file.addr
  | none => 0

end SbuUnix
