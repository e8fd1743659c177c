import SbuUnix.Paging.Machine

/-!
# The page-table code

Translations of `sys/paging.c` on the state `Paging`.  The kernel reaches
tables and frames through the linear map at `KERNEL_ADDR`; the globals
`pml4`, `pdpt`, `pd`, `pt` and `virt_addr` are scratch and do not appear.
-/

namespace SbuUnix

open Outcome

/-! ## Mapping -/

/-- One level of a mapping: the table below an entry, allocated, cleared and
linked with `flags` when the entry is absent.  The mappers below repeat this
text for each level. -/
def nextTable (flags : Word) (table : Nat) (index : Fin 512) :
    PagingM Nat := do
  let entry := (← get).mem table index
  if hasFlag entry ptPR then
    pure (frameOf entry)
  else
    let page ← allocateVirtPage
    memsetPage (kernelFrame page)
    writeEntry table index (page ||| flags)
    pure (kernelFrame page)

/-- `map_phys_to_virt_addr`: maps a page in the tables of CR3 for the
kernel. -/
def mapPhysToVirtAddr (vAddress phys : Word) : PagingM Unit := do
  let pml4 := kernelFrame (← get).cr3
  let pdpt ← nextTable (ptPR ||| ptWR) pml4 (pml4Index vAddress)
  let pd ← nextTable (ptPR ||| ptWR) pdpt (pdptIndex vAddress)
  let pt ← nextTable (ptPR ||| ptWR) pd (pdIndex vAddress)
  writeEntry pt (ptIndex vAddress) (phys ||| (ptPR ||| ptWR))

def userFlags : Word := ptPR ||| ptWR ||| ptU

/-- `map_phys_to_user_virt_addr`: maps a fresh page with a copy of the frame
at `phys` in the tables at `cr3Addr`. -/
def mapPhysToUserVirtAddr (vAddress phys cr3Addr : Word) : PagingM Unit := do
  let pdpt ← nextTable userFlags (kernelFrame cr3Addr) (pml4Index vAddress)
  let pd ← nextTable userFlags pdpt (pdptIndex vAddress)
  let pt ← nextTable userFlags pd (pdIndex vAddress)
  let page ← allocateVirtPage
  memsetPage (kernelFrame page)
  memcpyPage (kernelFrame phys) (kernelFrame page)
  writeEntry pt (ptIndex vAddress) (page ||| userFlags)

/-! ## Kernel memory -/

/-- The loop of `kmalloc`: one page after the other is taken, mapped at its
linear address and cleared.  Returns the frames taken. -/
def kmallocPages : Nat → PagingM (List Nat)
  | 0 => pure []
  | count + 1 => do
      let page ← allocateVirtPage
      mapPhysToVirtAddr (kernelAddr ||| page) page
      memsetPage (kernelFrame page)
      let later ← kmallocPages count
      pure (kernelFrame page :: later)

/-- The number of pages `kmalloc` takes for a size, with C's truncating
division; a size that is not positive takes none. -/
def numPage (size : Int) : Nat :=
  if Int.tmod size 4096 = 0 then
    (Int.tdiv size 4096).toNat
  else
    (Int.tdiv size 4096 + 1).toNat

/-- `kmalloc`: the address of the first page, and the frames of the block,
which the C function does not return. -/
def kmalloc (size : Int) : PagingM (Word × List Nat) := do
  let frames ← kmallocPages (numPage size)
  pure ((frames.head?.map fun frame => kernelAddr ||| pageAddr frame).getD 0,
    frames)

def createUserAddressSpace : PagingM Word := do
  let pml4Addr ← allocateVirtPage
  mapPhysToVirtAddr (kernelAddr ||| pml4Addr) pml4Addr
  memsetPage (kernelFrame pml4Addr)
  let s ← get
  writeEntry (kernelFrame pml4Addr) 511 (s.mem (kernelFrame s.cr3) 511)
  pure pml4Addr

/-! ## Fork -/

/-- A leaf entry as both processes hold it after a fork. -/
def cowEntry (entry : Word) : Word :=
  removeFlag entry ||| (ptPR ||| ptU ||| ptCow)

/-- The innermost loop of `copy_parent_tables`, over a page table. -/
def copyPt (pt cPt : Nat) : PagingM Unit :=
  forUpto 512 fun i => do
    let index := Fin.ofNat 512 i
    let entry := (← get).mem pt index
    if hasFlag entry ptPR then
      writeEntry pt index 0
      writeEntry pt index (cowEntry entry)
      writeEntry cPt index (cowEntry entry)

/-- One of the three outer loops of `copy_parent_tables`: a table of the
child is taken for each table of the parent, as it is, and filled by the next
loop. -/
def copyLevel (count : Nat) (below : Nat → Nat → PagingM Unit)
    (table cTable : Nat) : PagingM Unit :=
  forUpto count fun i => do
    let index := Fin.ofNat 512 i
    let entry := (← get).mem table index
    if hasFlag entry ptPR then
      let child ← allocateVirtPage
      writeEntry cTable index (child ||| userFlags)
      below (frameOf entry) (kernelFrame child)

def copyPd : Nat → Nat → PagingM Unit := copyLevel 512 copyPt

def copyPdpt : Nat → Nat → PagingM Unit := copyLevel 512 copyPd

def copyPml4 : Nat → Nat → PagingM Unit := copyLevel 511 copyPdpt

def copyParentTables (cr3Addr : Word) : PagingM Unit := do
  let pml4 := kernelFrame (← get).cr3
  copyPml4 pml4 (kernelFrame cr3Addr)
  let s ← get
  writeEntry (kernelFrame cr3Addr) 511 (s.mem pml4 511)

/-! ## Looking up and freeing -/

/-- `virt_to_phys`: the frame of a copy-on-write page, `999` for another
present page and `0` for an absent one. -/
def virtToPhys (s : Paging) (vAddress : Word) : Word :=
  let entry4 := s.mem (kernelFrame s.cr3) (pml4Index vAddress)
  if hasFlag entry4 ptPR then
    let entry3 := s.mem (frameOf entry4) (pdptIndex vAddress)
    if hasFlag entry3 ptPR then
      let entry2 := s.mem (frameOf entry3) (pdIndex vAddress)
      if hasFlag entry2 ptPR then
        let entry1 := s.mem (frameOf entry2) (ptIndex vAddress)
        if hasFlag entry1 ptCow && hasFlag entry1 ptPR then
          removeFlag entry1
        else if hasFlag entry1 ptPR then
          999
        else
          0
      else
        0
    else
      0
  else
    0

/-- `table_entry < 0x989680`: `free_page` keeps frames above this physical
address. -/
def freeLimit : Word := 0x989680

def freePage (vAddress cr3Addr : Word) : PagingM Unit := do
  let page := removeFlag vAddress
  let s ← get
  let entry4 := s.mem (kernelFrame cr3Addr) (pml4Index page)
  if hasFlag entry4 ptPR && !hasFlag entry4 ptCow then
    let entry3 := s.mem (frameOf entry4) (pdptIndex page)
    if hasFlag entry3 ptPR && !hasFlag entry3 ptCow then
      let entry2 := s.mem (frameOf entry3) (pdIndex page)
      if hasFlag entry2 ptPR && !hasFlag entry2 ptCow then
        let pt := frameOf entry2
        let entry1 := s.mem pt (ptIndex page)
        if !hasFlag entry1 ptCow && hasFlag entry1 ptPR &&
            decide (entry1 < freeLimit) then
          setBit ((removeFlag entry1).toNat / pageSize)
          writeEntry pt (ptIndex page) 0
          memsetPage (frameOf entry1)

end SbuUnix
