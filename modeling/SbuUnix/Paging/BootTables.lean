import Mathlib.Order.Interval.Finset.Nat
import SbuUnix.Paging.FrameMap
import SbuUnix.Paging.LinearMap

/-!
# The first page tables

`setup_page_tables` builds the tables the kernel starts with, and
`set_identity_paging` maps every page of physical memory at `KERNEL_ADDR` in
them.  A table pointer is a physical address here: the processor still runs on
the tables of the boot loader.

Every entry above the leaves is empty or leads to a table that was taken from
`free_map` for this entry.  The table that `setup_page_tables` fills with 512
pages at most may be filled twice and may be replaced; all that counts is that
the loop of `set_identity_paging` comes last.
-/

namespace SbuUnix

open TableForest Outcome

/-- `PT_PR | PT_WR` -/
def kernelFlags : Word :=
  ptPR ||| ptWR

/-- `VIDEO_PHYS_ADDR` -/
def videoPhysAddr : Word :=
  0xB8000

/-- The frame behind a physical address. -/
def physicalFrame (p : Word) : Nat :=
  p.toNat / pageSize

/-- The global pointers to the tables of the last walk. -/
inductive TablePointer where
  | pdpt
  | pd
  | pt
  deriving DecidableEq

namespace Boot

def pointer (k : Boot) : TablePointer → Word
  | .pdpt => k.pdpt
  | .pd => k.pd
  | .pt => k.pt

def point (k : Boot) : TablePointer → Word → Boot
  | .pdpt, page => { k with pdpt := page }
  | .pd, page => { k with pd := page }
  | .pt, page => { k with pt := page }

end Boot

/-- `allocate_page` -/
def allocatePage : PagingM Word := do
  let page ← allocateVirtPage
  memsetPage (physicalFrame page)
  pure page

/-- A new table for an entry; its address goes to one of the pointers. -/
def linkTable (below : TablePointer) (table : Word) (index : Fin 512) :
    BootM Unit := do
  let page ← onFrames allocatePage
  modify fun k => k.point below page
  onFrames (writeEntry (physicalFrame table) index (page ||| kernelFlags))

/-- `pdpt_allocate` -/
def pdptAllocate : Word → Fin 512 → BootM Unit :=
  linkTable .pdpt

/-- `pd_allocate` -/
def pdAllocate : Word → Fin 512 → BootM Unit :=
  linkTable .pd

/-- `pt_allocate` -/
def ptAllocate : Word → Fin 512 → BootM Unit :=
  linkTable .pt

/-- One level of `map_virt_to_phys_addr`. -/
def enterTable (below : TablePointer) (table : Word) (index : Fin 512) :
    BootM Unit := do
  let entry := (← get).paging.mem (physicalFrame table) index
  if hasFlag entry ptPR then
    modify fun k => k.point below (removeFlag entry)
  else
    linkTable below table index

/-- `map_virt_to_phys_addr` -/
def mapVirtToPhysAddr (vAddress phys : Word) : BootM Unit := do
  enterTable .pdpt (← get).pml4 (pml4Index vAddress)
  enterTable .pd (← get).pdpt (pdptIndex vAddress)
  enterTable .pt (← get).pd (pdIndex vAddress)
  onFrames
    (writeEntry (physicalFrame (← get).pt) (ptIndex vAddress)
      (phys ||| kernelFlags))

/-- The loop over the kernel image: `pt` is one table, whatever the address. -/
def mapKernelImage : Nat → Word → Word → BootM Unit
  | 0, _, _ => throw .outOfFuel
  | fuel + 1, physBase, vAddress => do
      if physBase < (← get).physfreeStart then
        onFrames
          (writeEntry (physicalFrame (← get).pt) (ptIndex vAddress)
            (physBase ||| kernelFlags))
        mapKernelImage fuel (physBase + 0x1000) (vAddress + 0x1000)
      else
        pure ()

/-- `setup_page_tables`; `kernmem` is the address the kernel is linked at. -/
def setupPageTables (fuel : Nat) (kernmem physBase _physFree : Word) :
    BootM Unit := do
  let page ← onFrames allocatePage
  modify fun k => { k with pml4 := page }
  modify fun k => { k with cr3 := page }
  pdptAllocate (← get).pml4 (pml4Index kernmem)
  pdAllocate (← get).pdpt (pdptIndex kernmem)
  ptAllocate (← get).pd (pdIndex kernmem)
  mapKernelImage fuel physBase kernmem
  let vAddress := (kernmem &&& 0xFFFFF000000) ||| videoPhysAddr
  ptAllocate (← get).pd (pdIndex vAddress)
  onFrames
    (writeEntry (physicalFrame (← get).pt) (ptIndex vAddress)
      (videoPhysAddr ||| kernelFlags))
  mapVirtToPhysAddr (kernelAddr ||| (← get).pml4) (← get).pml4
  mapVirtToPhysAddr (kernelAddr ||| (← get).pdpt) (← get).pdpt
  mapVirtToPhysAddr (kernelAddr ||| (← get).pd) (← get).pd
  mapVirtToPhysAddr (kernelAddr ||| (← get).pt) (← get).pt

/-- The loop of `set_identity_paging`. -/
def mapMemory : Nat → Word → Word → BootM Unit
  | 0, _, _ => throw .outOfFuel
  | fuel + 1, vAddr, pAddr => do
      if pAddr < (← get).physfreeEnd then
        mapVirtToPhysAddr vAddr pAddr
        mapMemory fuel (vAddr + 0x1000) (pAddr + 0x1000)
      else
        pure ()

/-- `set_identity_paging`; that `free_map` is read at its address in the
linear map from now on is not visible here. -/
def setIdentityPaging (fuel : Nat) : BootM Unit :=
  mapMemory fuel kernelAddr 0

/-! ## The pointers -/

namespace Boot

variable {k : Boot} {below : TablePointer} {page : Word}

@[simp]
theorem pointer_point : (k.point below page).pointer below = page := by
  cases below <;> rfl

theorem pointer_point_of_ne {other : TablePointer} (different : other ≠ below) :
    (k.point below page).pointer other = k.pointer other := by
  cases below <;> cases other <;> first | rfl | exact absurd rfl different

@[simp]
theorem paging_point : (k.point below page).paging = k.paging := by
  cases below <;> rfl

@[simp]
theorem pml4_point : (k.point below page).pml4 = k.pml4 := by
  cases below <;> rfl

@[simp]
theorem cr3_point : (k.point below page).cr3 = k.cr3 := by
  cases below <;> rfl

@[simp]
theorem physfreeStart_point :
    (k.point below page).physfreeStart = k.physfreeStart := by
  cases below <;> rfl

@[simp]
theorem physfreeEnd_point :
    (k.point below page).physfreeEnd = k.physfreeEnd := by
  cases below <;> rfl

end Boot

theorem physicalFrame_pageAddr {frame : Nat} (small : frame < 524288) :
    physicalFrame (pageAddr frame) = frame := by
  unfold physicalFrame
  rw [pageAddr_toNat small]
  exact Nat.mul_div_cancel frame (by decide)

theorem removeFlag_kernelFlags : removeFlag kernelFlags = 0 := by
  decide

theorem childOf_kernelEntry {frame : Nat} (small : frame < frameCount) :
    childOf (entryOf frame kernelFlags) = some frame :=
  childOf_entryOf small (by decide) (by decide)

/-! ## The tables -/

/-- The tables that were built below `root` in frames taken from the map of
`start`, `used` frames at most: `depth` is the level of each table and `slot`
the entry that leads to it. -/
structure BuiltTables (start : Paging) (root used : Nat)
    (depth : Nat → Option Nat) (slot : Nat → Nat × Fin 512) (s : Paging) :
    Prop where
  rooted : depth root = some 0
  taken : ∀ table level, depth table = some level →
    start.isFree table = true ∧ s.isFree table = false
  entries : ∀ table level index, depth table = some level → level < 3 →
    s.mem table index = 0 ∨
      ∃ target, s.mem table index = entryOf target kernelFlags ∧
        depth target = some (level + 1) ∧ slot target = (table, index)
  fewer : ∀ frame, s.isFree frame = true → start.isFree frame = true
  spent : start.freeCount ≤ s.freeCount + used

/-- Every index may be used at every level. -/
def anyIndex (_ : Nat) (_ : Fin 512) : Prop :=
  True

theorem ownedPath_anyIndex (path : List (Fin 512)) :
    OwnedPath anyIndex path := by
  induction path with
  | nil => trivial
  | cons index path inductionHypothesis => exact ⟨inductionHypothesis, trivial⟩

/-- `s` after a free frame was cleared and linked to an entry. -/
def linked (s : Paging) (table : Nat) (index : Fin 512) (frame : Nat) :
    Paging :=
  ((s.unsetFree frame).writePage frame fun _ => 0).writeWord table index
    (entryOf frame kernelFlags)

/-- No walk to a table is lost, and no walk to a page is changed. -/
structure KeepsWalks (root : Nat) (s next : Paging) : Prop where
  tables : ∀ path table, path.length ≤ 3 →
    tableAt childOf s.mem root path = some table →
      tableAt childOf next.mem root path = some table
  pages : ∀ path, path.length = 4 →
    lookup childOf next.mem root path = lookup childOf s.mem root path

theorem KeepsWalks.refl (root : Nat) (s : Paging) : KeepsWalks root s s where
  tables := fun _ _ _ reached => reached
  pages := fun _ _ => rfl

theorem KeepsWalks.trans {root : Nat} {s between next : Paging}
    (first : KeepsWalks root s between)
    (second : KeepsWalks root between next) :
    KeepsWalks root s next where
  tables := fun path table short reached =>
    second.tables path table short (first.tables path table short reached)
  pages := fun path full =>
    (second.pages path full).trans (first.pages path full)

namespace BuiltTables

variable {start s : Paging} {root used table level frame : Nat}
variable {depth : Nat → Option Nat} {slot : Nat → Nat × Fin 512}
variable {index : Fin 512} {path : List (Fin 512)} {word : Word}

theorem ne_of_free (tables : BuiltTables start root used depth slot s)
    (tableDepth : depth table = some level) (free : s.isFree frame = true) :
    table ≠ frame := by
  intro same
  have inUse := (tables.taken table level tableDepth).2
  rw [same, free] at inUse
  cases inUse

theorem small (tables : BuiltTables start root used depth slot s)
    (tableDepth : depth table = some level) : table < frameCount :=
  Paging.lt_of_isFree (tables.taken table level tableDepth).1

/-- An entry that is present leads to the table that was linked to it. -/
theorem entry_of_childOf (tables : BuiltTables start root used depth slot s)
    (tableDepth : depth table = some level) (inner : level < 3) {target : Nat}
    (points : childOf (s.mem table index) = some target) :
    s.mem table index = entryOf target kernelFlags ∧
      depth target = some (level + 1) ∧ slot target = (table, index) := by
  rcases tables.entries table level index tableDepth inner with
    empty | ⟨found, word, foundDepth, foundSlot⟩
  · rw [empty] at points
    cases points
  · rw [word, childOf_kernelEntry (tables.small foundDepth)] at points
    cases points
    exact ⟨word, foundDepth, foundSlot⟩

theorem hung (tables : BuiltTables start root used depth slot s) :
    Hung childOf anyIndex 3 s.mem depth slot where
  below := by
    intro table level index target tableDepth inner _ points
    exact (tables.entry_of_childOf tableDepth inner points).2

theorem depth_tableAt (tables : BuiltTables start root used depth slot s)
    (short : path.length ≤ 3)
    (reached : tableAt childOf s.mem root path = some table) :
    depth table = some path.length :=
  tables.hung.depth_tableAt tables.rooted (ownedPath_anyIndex path) short
    reached

/-- A leaf entry may be anything. -/
theorem writeLeaf (tables : BuiltTables start root used depth slot s)
    (tableDepth : depth table = some 3) :
    BuiltTables start root used depth slot (s.writeWord table index word) where
  rooted := tables.rooted
  taken := tables.taken
  entries := by
    intro other level position otherDepth inner
    have different : other ≠ table := by
      intro same
      rw [same, tableDepth] at otherDepth
      have level := Option.some.inj otherDepth
      omega
    rw [Paging.writeWord_of_ne_frame different]
    exact tables.entries other level position otherDepth inner
  fewer := tables.fewer
  spent := by
    have same : (s.writeWord table index word).freeCount = s.freeCount :=
      freeCount_congr rfl
    rw [same]
    exact tables.spent

theorem linked_mem_frame (different : frame ≠ table) :
    (linked s table index frame).mem frame = fun _ => 0 := by
  unfold linked
  rw [Paging.writeWord_of_ne_frame different, Paging.writePage_same]

theorem linked_mem_of_ne {other : Nat} {position : Fin 512}
    (notSlot : ¬ (other = table ∧ position = index))
    (notFrame : other ≠ frame) :
    (linked s table index frame).mem other position =
      s.mem other position := by
  have cleared : ((s.unsetFree frame).writePage frame fun _ => 0).mem other =
      s.mem other := Paging.writePage_of_ne notFrame
  exact (if_neg notSlot).trans (congrFun cleared position)

/-- A frame of the map is linked to an entry, whether the entry is empty or
not. -/
theorem link (tables : BuiltTables start root used depth slot s)
    (tableDepth : depth table = some level) (free : s.isFree frame = true)
    (index : Fin 512) :
    BuiltTables start root (used + 1)
      (Function.update depth frame (some (level + 1)))
      (Function.update slot frame (table, index))
      (linked s table index frame) where
  rooted := by
    rw [Function.update_of_ne (tables.ne_of_free tables.rooted free)]
    exact tables.rooted
  taken := by
    intro other otherLevel otherDepth
    have free' : (linked s table index frame).isFree other =
        (s.isFree other && decide (other ≠ frame)) :=
      Paging.isFree_unsetFree
    rw [free']
    by_cases new : other = frame
    · rw [new]
      exact ⟨tables.fewer frame free, by simp⟩
    · rw [Function.update_of_ne new] at otherDepth
      have known := tables.taken other otherLevel otherDepth
      exact ⟨known.1, by rw [known.2]; rfl⟩
  entries := by
    intro other otherLevel position otherDepth inner
    have different := tables.ne_of_free tableDepth free
    by_cases new : other = frame
    · left
      rw [new, linked_mem_frame different.symm]
    · rw [Function.update_of_ne new] at otherDepth
      by_cases here : other = table ∧ position = index
      · right
        obtain ⟨isTable, isIndex⟩ := here
        rw [isTable, tableDepth] at otherDepth
        cases otherDepth
        refine ⟨frame, ?_, ?_, ?_⟩
        · rw [isTable, isIndex]
          exact Paging.writeWord_same
        · exact Function.update_self ..
        · rw [isTable, isIndex]
          exact Function.update_self ..
      · rw [linked_mem_of_ne here new]
        have before := tables.entries other otherLevel position otherDepth inner
        apply before.imp_right
        intro leads
        obtain ⟨target, word, targetDepth, targetSlot⟩ := leads
        have old := tables.ne_of_free targetDepth free
        exact ⟨target, word, by rw [Function.update_of_ne old, targetDepth],
          by rw [Function.update_of_ne old, targetSlot]⟩
  fewer := by
    intro other isFree
    have free' : (linked s table index frame).isFree other =
        (s.isFree other && decide (other ≠ frame)) :=
      Paging.isFree_unsetFree
    rw [free', Bool.and_eq_true] at isFree
    exact tables.fewer other isFree.1
  spent := by
    have same : (linked s table index frame).freeCount =
        (s.unsetFree frame).freeCount := freeCount_congr rfl
    have counted := freeCount_unsetFree free
    have before := tables.spent
    rw [same, counted]
    omega

/-- A cleared frame of the map is no table. -/
theorem hung_clear (tables : BuiltTables start root used depth slot s)
    (free : s.isFree frame = true) :
    Hung childOf anyIndex 3
      ((s.unsetFree frame).writePage frame fun _ => 0).mem depth slot where
  below := by
    intro other level position target otherDepth inner permitted points
    rw [Paging.writePage_of_ne (tables.ne_of_free otherDepth free)] at points
    exact tables.hung.below otherDepth inner permitted points

/-- A table linked to an empty entry lengthens one walk. -/
theorem keepsWalks_link (tables : BuiltTables start root used depth slot s)
    (tableDepth : depth table = some level) (inner : level < 3)
    (free : s.isFree frame = true)
    (absent : childOf (s.mem table index) = none) :
    KeepsWalks root s (linked s table index frame) := by
  have different := tables.ne_of_free tableDepth free
  have small := Paging.lt_of_isFree free
  let cleared := (s.unsetFree frame).writePage frame fun _ => 0
  have agree : ∀ other level index, depth other = some level →
      cleared.mem other index = s.mem other index := by
    intro other level index otherDepth
    exact congrFun
      (Paging.writePage_of_ne (tables.ne_of_free otherDepth free)) index
  have absentNow : childOf (cleared.mem table index) = none := by
    rw [agree table level index tableDepth]
    exact absent
  have empty : ∀ position, childOf (cleared.mem frame position) = none := by
    intro position
    have zero : cleared.mem frame = fun _ => 0 := Paging.writePage_same
    rw [zero]
    exact childOf_zero
  constructor
  · intro path found short reached
    have before : tableAt childOf cleared.mem root path = some found := by
      rw [← reached]
      apply tables.hung.tableAt_congr tables.rooted (ownedPath_anyIndex path)
        (by omega)
      intro other level index otherDepth _ _
      rw [agree other level index otherDepth]
    exact tableAt_hang_of_eq_some absentNow (childOf_kernelEntry small)
      different.symm empty before
  · intro path full
    have before : lookup childOf cleared.mem root path =
        lookup childOf s.mem root path := by
      apply tables.hung.lookup_congr tables.rooted (ownedPath_anyIndex path)
        (by omega)
      intro other level index otherDepth _ _
      exact agree other level index otherDepth
    rw [← before]
    exact (tables.hung_clear free).lookup_hang tables.rooted tableDepth inner
      absentNow (childOf_kernelEntry small) different.symm empty
      (ownedPath_anyIndex path) full

end BuiltTables

/-! ## One level -/

/-- The run lacked a frame, and there were less than `bound` at the start. -/
def LacksFrames (start : Paging) (bound : Nat) (failure : Fault) : Prop :=
  failure = .noFreeFrame ∧ start.freeCount < bound

/-- The tables below `root` are built in at most `used` frames. -/
def HasTables (start : Paging) (root used : Nat) (s : Paging) : Prop :=
  ∃ depth slot, BuiltTables start root used depth slot s

theorem HasTables.mono {start s : Paging} {root used more : Nat}
    (has : HasTables start root used s) (grows : used ≤ more) :
    HasTables start root more s := by
  obtain ⟨depth, slot, tables⟩ := has
  have spent := tables.spent
  exact ⟨depth, slot, tables.rooted, tables.taken, tables.entries,
    tables.fewer, by omega⟩

/-- No frame is left only when too few were there. -/
theorem BuiltTables.lacksFrames {start s : Paging} {root used bound : Nat}
    {depth : Nat → Option Nat} {slot : Nat → Nat × Fin 512}
    (tables : BuiltTables start root used depth slot s)
    (within : used < bound) (none : s.freeCount = 0) :
    LacksFrames start bound .noFreeFrame := by
  have spent := tables.spent
  exact ⟨rfl, by omega⟩

theorem yields_allocatePage {allowed : Fault → Prop} {s : Paging}
    {post : Word → Paging → Prop}
    (exhausted : s.freeCount = 0 → allowed .noFreeFrame)
    (allocated : ∀ frame, s.isFree frame = true →
      post (pageAddr frame) ((s.unsetFree frame).writePage frame fun _ => 0)) :
    Yields allowed allocatePage s post := by
  unfold allocatePage
  rw [yields_bind]
  cases found : getFirstpage s.freeMap with
  | none =>
      have failed := allocateVirtPage_eq_error found
      simp only [Yields, failed]
      exact exhausted (getFirstpage_eq_none_iff.mp found)
  | some frame =>
      have free := isFree_of_getFirstpage found
      have small := lt_of_lt_frameCount (Paging.lt_of_isFree free)
      rw [yields_iff_of_ok (allocateVirtPage_eq_found found), yields_bind,
        physicalFrame_pageAddr small]
      exact allocated frame free

theorem yields_linkTable {allowed : Fault → Prop} {k : Boot}
    {below : TablePointer} {table : Nat} {index : Fin 512}
    {post : Unit → Boot → Prop} (small : table < frameCount)
    (exhausted : k.paging.freeCount = 0 → allowed .noFreeFrame)
    (taken : ∀ frame, k.paging.isFree frame = true →
      post () (({ k with paging := linked k.paging table index frame } :
        Boot).point below (pageAddr frame))) :
    Yields allowed (linkTable below (pageAddr table) index) k post := by
  unfold linkTable onFrames
  rw [yields_bind, yields_zoom]
  apply yields_allocatePage exhausted
  intro frame free
  rw [yields_bind, yields_modify, yields_zoom,
    physicalFrame_pageAddr (lt_of_lt_frameCount small)]
  have here := taken frame free
  cases below <;> exact here

/-- `next` is `k` with the tables along `path` in place, and `table` is the
last one of them; `used` frames were taken at most, and none when the tables
were there. -/
structure Entered (start : Paging) (root used : Nat) (k : Boot)
    (path : List (Fin 512)) (next : Boot) (table : Nat) : Prop where
  built : HasTables start root used next.paging
  reached : tableAt childOf next.paging.mem root path = some table
  walks : KeepsWalks root k.paging next.paging
  stays : (tableAt childOf k.paging.mem root path).isSome = true →
    next.paging = k.paging
  pml4 : next.pml4 = k.pml4
  cr3 : next.cr3 = k.cr3
  physfreeStart : next.physfreeStart = k.physfreeStart
  physfreeEnd : next.physfreeEnd = k.physfreeEnd

theorem Entered.start {start : Paging} {root used : Nat} {k : Boot}
    (built : HasTables start root used k.paging) :
    Entered start root used k [] k root where
  built := built
  reached := rfl
  walks := KeepsWalks.refl root k.paging
  stays := fun _ => rfl
  pml4 := rfl
  cr3 := rfl
  physfreeStart := rfl
  physfreeEnd := rfl

section Levels

variable {start : Paging} {root used bound table : Nat} {k cur : Boot}
variable {path : List (Fin 512)}

theorem Entered.small (entered : Entered start root used k path cur table)
    (short : path.length ≤ 3) : table < frameCount := by
  obtain ⟨depth, slot, tables⟩ := entered.built
  exact tables.small (tables.depth_tableAt short entered.reached)

/-- Where the table below was there at the start, everything on the way to it
was, and its entry is present. -/
theorem Entered.stays_above
    (entered : Entered start root used k path cur table) {index : Fin 512}
    (there : (tableAt childOf k.paging.mem root (index :: path)).isSome =
      true) :
    cur.paging = k.paging ∧
      (childOf (cur.paging.mem table index)).isSome = true := by
  rw [tableAt_cons] at there
  cases above : tableAt childOf k.paging.mem root path with
  | none =>
      rw [above] at there
      cases there
  | some found =>
      have same := entered.stays (by rw [above]; rfl)
      have reached := entered.reached
      rw [same, above] at reached
      cases reached
      rw [above] at there
      rw [same]
      exact ⟨rfl, there⟩

/-- One level of the mapper. -/
theorem Entered.enter (entered : Entered start root used k path cur table)
    (short : path.length ≤ 2) (within : used < bound) (below : TablePointer)
    (index : Fin 512) :
    Yields (LacksFrames start bound) (enterTable below (pageAddr table) index)
      cur fun _ next => ∃ target, next.pointer below = pageAddr target ∧
        Entered start root (used + 1) k (index :: path) next target := by
  obtain ⟨depth, slot, tables⟩ := entered.built
  have tableDepth := tables.depth_tableAt (by omega) entered.reached
  have small := tables.small tableDepth
  unfold enterTable
  rw [yields_bind, yields_get,
    physicalFrame_pageAddr (lt_of_lt_frameCount small), yields_ite]
  constructor
  · intro present
    rw [yields_modify]
    have points : childOf (cur.paging.mem table index) =
        some (frameOf (cur.paging.mem table index)) :=
      childOf_eq_some_iff.mpr ⟨present, rfl⟩
    obtain ⟨word, targetDepth, -⟩ :=
      tables.entry_of_childOf tableDepth (by omega) points
    refine ⟨frameOf (cur.paging.mem table index), ?_, ?_⟩
    · rw [Boot.pointer_point]
      nth_rewrite 1 [word]
      exact removeFlag_entryOf _ removeFlag_kernelFlags
    · exact
        { built := by
            rw [Boot.paging_point]
            exact entered.built.mono (Nat.le_succ used)
          reached := by
            rw [Boot.paging_point, tableAt_cons_of_eq_some entered.reached]
            exact points
          walks := by
            rw [Boot.paging_point]
            exact entered.walks
          stays := by
            intro there
            rw [Boot.paging_point]
            exact (entered.stays_above there).1
          pml4 := by rw [Boot.pml4_point, entered.pml4]
          cr3 := by rw [Boot.cr3_point, entered.cr3]
          physfreeStart := by
            rw [Boot.physfreeStart_point, entered.physfreeStart]
          physfreeEnd := by
            rw [Boot.physfreeEnd_point, entered.physfreeEnd] }
  · intro missing
    have absent : childOf (cur.paging.mem table index) = none := by
      apply childOf_eq_none_iff.mpr
      simpa using missing
    apply yields_linkTable small (tables.lacksFrames within)
    intro frame free
    have keeps := tables.keepsWalks_link tableDepth (by omega) free absent
    have entry : (linked cur.paging table index frame).mem table index =
        entryOf frame kernelFlags := Paging.writeWord_same
    refine ⟨frame, Boot.pointer_point, ?_⟩
    exact
      { built := by
          rw [Boot.paging_point]
          exact ⟨_, _, tables.link tableDepth free index⟩
        reached := by
          rw [Boot.paging_point, tableAt_cons_of_eq_some
            (keeps.tables path table (by omega) entered.reached), entry]
          exact childOf_kernelEntry (Paging.lt_of_isFree free)
        walks := by
          rw [Boot.paging_point]
          exact entered.walks.trans keeps
        stays := by
          intro there
          have isSome := (entered.stays_above there).2
          rw [absent] at isSome
          cases isSome
        pml4 := by rw [Boot.pml4_point, ← entered.pml4]
        cr3 := by rw [Boot.cr3_point, ← entered.cr3]
        physfreeStart := by
          rw [Boot.physfreeStart_point, ← entered.physfreeStart]
        physfreeEnd := by
          rw [Boot.physfreeEnd_point, ← entered.physfreeEnd] }

end Levels

/-! ## One page -/

/-- `next` is `k` with the page of `v` mapped to `phys`.  The tables of `k`
took `used` frames at most. -/
structure MapsPage (start : Paging) (root used : Nat) (k next : Boot)
    (v phys : Word) : Prop where
  built : HasTables start root (used + 3) next.paging
  kept : (tableAt childOf k.paging.mem root (tablesOf v)).isSome = true →
    HasTables start root used next.paging
  tables : ∀ path table, path.length ≤ 3 →
    tableAt childOf k.paging.mem root path = some table →
      tableAt childOf next.paging.mem root path = some table
  reached : (tableAt childOf next.paging.mem root (tablesOf v)).isSome = true
  pages : ∀ path, path.length = 4 →
    lookup childOf next.paging.mem root path =
      if path = pageOf v then
        some (phys ||| kernelFlags)
      else
        lookup childOf k.paging.mem root path
  pml4 : next.pml4 = k.pml4
  cr3 : next.cr3 = k.cr3
  physfreeStart : next.physfreeStart = k.physfreeStart
  physfreeEnd : next.physfreeEnd = k.physfreeEnd

section Pages

variable {start s : Paging} {root used bound table : Nat} {k cur : Boot}
variable {path : List (Fin 512)} {v phys : Word}

theorem HasTables.writeLeaf (has : HasTables start root used s)
    (full : path.length = 3)
    (reached : tableAt childOf s.mem root path = some table)
    (index : Fin 512) (word : Word) :
    HasTables start root used (s.writeWord table index word) := by
  obtain ⟨depth, slot, tables⟩ := has
  have tableDepth := tables.depth_tableAt (by omega) reached
  rw [full] at tableDepth
  exact ⟨depth, slot, tables.writeLeaf tableDepth⟩

/-- A leaf entry is on no walk to a table. -/
theorem HasTables.tableAt_writeLeaf (has : HasTables start root used s)
    (full : path.length = 3)
    (reached : tableAt childOf s.mem root path = some table)
    (index : Fin 512) (word : Word) {other : List (Fin 512)}
    (short : other.length ≤ 3) :
    tableAt childOf (s.writeWord table index word).mem root other =
      tableAt childOf s.mem root other := by
  obtain ⟨depth, slot, tables⟩ := has
  have tableDepth := tables.depth_tableAt (by omega) reached
  rw [full] at tableDepth
  exact tables.hung.tableAt_setEntry tables.rooted tableDepth
    (ownedPath_anyIndex other) (by omega) short

/-- A leaf entry is on the walk to one page. -/
theorem HasTables.lookup_writeLeaf (has : HasTables start root used s)
    (full : path.length = 3)
    (reached : tableAt childOf s.mem root path = some table)
    (index : Fin 512) {word : Word} (present : hasFlag word ptPR = true)
    {other : List (Fin 512)} (whole : other.length = 4) :
    lookup childOf (s.writeWord table index word).mem root other =
      if other = index :: path then
        some word
      else
        lookup childOf s.mem root other := by
  obtain ⟨depth, slot, tables⟩ := has
  have written : lookup childOf (setEntry s.mem table index word) root other =
      _ :=
    tables.hung.lookup_setEntry_reached tables.rooted
      (ownedPath_anyIndex path) full reached tables.rooted
      (ownedPath_anyIndex other) whole
  rw [childOf_isSome, if_pos present] at written
  simp only [true_and] at written
  exact written

/-- The last line of the mapper. -/
theorem Entered.mapsPage
    (entered : Entered start root (used + 3) k (tablesOf v) cur table)
    (before : HasTables start root used k.paging) :
    MapsPage start root used k
      { cur with
        paging := cur.paging.writeWord table (ptIndex v)
          (phys ||| kernelFlags) } v phys where
  built := entered.built.writeLeaf rfl entered.reached _ _
  kept := by
    intro there
    have same := entered.stays there
    have reached := entered.reached
    rw [same] at reached ⊢
    exact before.writeLeaf rfl reached _ _
  tables := by
    intro other found short reached
    rw [entered.built.tableAt_writeLeaf rfl entered.reached _ _ short]
    exact entered.walks.tables other found short reached
  reached := by
    have same : tableAt childOf (cur.paging.writeWord table (ptIndex v)
        (phys ||| kernelFlags)).mem root (tablesOf v) =
          tableAt childOf cur.paging.mem root (tablesOf v) :=
      entered.built.tableAt_writeLeaf rfl entered.reached _ _
        (Nat.le_refl 3)
    rw [same, entered.reached]
    rfl
  pages := by
    intro other whole
    have present : hasFlag (phys ||| kernelFlags) ptPR = true := by
      rw [hasFlag_or]
      simp [kernelFlags, hasFlag, ptPR, ptWR]
    rw [entered.built.lookup_writeLeaf rfl entered.reached _ present whole,
      entered.walks.pages other whole, pageOf_eq_cons]
  pml4 := entered.pml4
  cr3 := entered.cr3
  physfreeStart := entered.physfreeStart
  physfreeEnd := entered.physfreeEnd

/-- `map_virt_to_phys_addr` maps the page, with three frames at most. -/
theorem yields_mapVirtToPhysAddr (has : HasTables start root used k.paging)
    (isRoot : k.pml4 = pageAddr root) (within : used + 3 ≤ bound)
    (v phys : Word) :
    Yields (LacksFrames start bound) (mapVirtToPhysAddr v phys) k
      fun _ next => MapsPage start root used k next v phys := by
  unfold mapVirtToPhysAddr
  rw [yields_bind, yields_get, isRoot, yields_bind]
  apply ((Entered.start has).enter (by simp) (by omega) .pdpt
    (pml4Index v)).mono
  intro _ atPdpt entered
  obtain ⟨pdpt, isPdpt, toPdpt⟩ := entered
  rw [yields_bind, yields_get, yields_bind]
  change atPdpt.pdpt = _ at isPdpt
  rw [isPdpt]
  apply (toPdpt.enter (by simp) (by omega) .pd (pdptIndex v)).mono
  intro _ atPd entered
  obtain ⟨pd, isPd, toPd⟩ := entered
  rw [yields_bind, yields_get, yields_bind]
  change atPd.pd = _ at isPd
  rw [isPd]
  apply (toPd.enter (by simp) (by omega) .pt (pdIndex v)).mono
  intro _ atPt entered
  obtain ⟨pt, isPt, toPt⟩ := entered
  rw [yields_bind, yields_get]
  change atPt.pt = _ at isPt
  have small := lt_of_lt_frameCount (toPt.small (Nat.le_refl 3))
  unfold onFrames
  rw [isPt, physicalFrame_pageAddr small, yields_zoom]
  unfold writeEntry
  rw [yields_modify]
  exact toPt.mapsPage has

end Pages

/-! ## The setup -/

/-- The frames that are enough: three for each 2 MiB that are mapped, and
twenty more. -/
def bootFrames (physfreeEnd : Word) : Nat :=
  20 + 3 * ((physfreeEnd.toNat + 2097151) / 2097152)

/-- `cur` is a state of the boot that began in `k`: the tables below `root`
took `used` frames at most. -/
structure Booting (k : Boot) (root used : Nat) (cur : Boot) : Prop where
  built : HasTables k.paging root used cur.paging
  pml4 : cur.pml4 = pageAddr root
  cr3 : cur.cr3 = pageAddr root
  physfreeStart : cur.physfreeStart = k.physfreeStart
  physfreeEnd : cur.physfreeEnd = k.physfreeEnd

section Setup

variable {k cur : Boot} {root used bound table : Nat}
variable {path : List (Fin 512)}

theorem builtTables_root {s : Paging} {frame : Nat}
    (free : s.isFree frame = true) :
    BuiltTables s frame 1
      (Function.update (fun _ => none) frame (some 0)) (fun _ => (0, 0))
      ((s.unsetFree frame).writePage frame fun _ => 0) where
  rooted := Function.update_self ..
  taken := by
    intro table level tableDepth
    by_cases isRoot : table = frame
    · rw [isRoot, Paging.isFree_writePage, Paging.isFree_unsetFree]
      exact ⟨free, by simp⟩
    · rw [Function.update_of_ne isRoot] at tableDepth
      cases tableDepth
  entries := by
    intro table level index tableDepth _
    by_cases isRoot : table = frame
    · left
      rw [isRoot, Paging.writePage_same]
    · rw [Function.update_of_ne isRoot] at tableDepth
      cases tableDepth
  fewer := by
    intro other isFree
    rw [Paging.isFree_writePage, Paging.isFree_unsetFree, Bool.and_eq_true]
      at isFree
    exact isFree.1
  spent := by
    have same : ((s.unsetFree frame).writePage frame fun _ => 0).freeCount =
        (s.unsetFree frame).freeCount := freeCount_congr rfl
    have counted := freeCount_unsetFree free
    rw [same, counted]
    omega

/-- A new table for an entry of a table, in place of the old one if there was
one, is on no walk that does not pass the entry. -/
theorem Booting.link (booting : Booting k root used cur)
    (reached : tableAt childOf cur.paging.mem root path = some table)
    (short : path.length ≤ 2) (within : used < bound) (below : TablePointer)
    (index : Fin 512) :
    Yields (LacksFrames k.paging bound) (linkTable below (pageAddr table) index)
      cur fun _ next => ∃ frame, Booting k root (used + 1) next ∧
        next.pointer below = pageAddr frame ∧
        (∀ other, other ≠ below → next.pointer other = cur.pointer other) ∧
        tableAt childOf next.paging.mem root (index :: path) = some frame ∧
        ∀ other, other.length ≤ path.length →
          tableAt childOf next.paging.mem root other =
            tableAt childOf cur.paging.mem root other := by
  obtain ⟨depth, slot, tables⟩ := booting.built
  have tableDepth := tables.depth_tableAt (by omega) reached
  have small := tables.small tableDepth
  apply yields_linkTable small (tables.lacksFrames within)
  intro frame free
  have shorter : ∀ other : List (Fin 512), other.length ≤ path.length →
      tableAt childOf (linked cur.paging table index frame).mem root other =
        tableAt childOf cur.paging.mem root other := by
    intro other shallow
    apply tables.hung.tableAt_congr tables.rooted (ownedPath_anyIndex other)
      (by omega)
    intro otherTable level position otherDepth above _
    rw [BuiltTables.linked_mem_of_ne]
    · intro here
      rw [here.1, tableDepth] at otherDepth
      have level := Option.some.inj otherDepth
      omega
    · exact tables.ne_of_free otherDepth free
  refine ⟨frame, ?_, Boot.pointer_point, ?_, ?_, ?_⟩
  · exact
      { built := by
          rw [Boot.paging_point]
          exact ⟨_, _, tables.link tableDepth free index⟩
        pml4 := by rw [Boot.pml4_point, ← booting.pml4]
        cr3 := by rw [Boot.cr3_point, ← booting.cr3]
        physfreeStart := by
          rw [Boot.physfreeStart_point, ← booting.physfreeStart]
        physfreeEnd := by
          rw [Boot.physfreeEnd_point, ← booting.physfreeEnd] }
  · intro other different
    rw [Boot.pointer_point_of_ne different]
    cases other <;> rfl
  · have entry : (linked cur.paging table index frame).mem table index =
        entryOf frame kernelFlags := Paging.writeWord_same
    rw [Boot.paging_point, tableAt_cons_of_eq_some
      ((shorter path (Nat.le_refl _)).trans reached), entry]
    exact childOf_kernelEntry (Paging.lt_of_isFree free)
  · intro other shallow
    rw [Boot.paging_point]
    exact shorter other shallow

/-- A leaf entry of the table behind `pt`. -/
theorem Booting.writeLeaf (booting : Booting k root used cur)
    (full : path.length = 3)
    (reached : tableAt childOf cur.paging.mem root path = some table)
    (isPt : cur.pt = pageAddr table) (index : Fin 512) (word : Word) :
    Yields (LacksFrames k.paging bound)
      (onFrames (writeEntry (physicalFrame cur.pt) index word)) cur
      fun _ next => Booting k root used next ∧ next.pd = cur.pd ∧
        next.pt = cur.pt ∧
        ∀ other, other.length ≤ 3 →
          tableAt childOf next.paging.mem root other =
            tableAt childOf cur.paging.mem root other := by
  obtain ⟨depth, slot, tables⟩ := booting.built
  have small := tables.small (tables.depth_tableAt (by omega) reached)
  unfold onFrames writeEntry
  rw [isPt, physicalFrame_pageAddr (lt_of_lt_frameCount small), yields_zoom,
    yields_modify]
  refine ⟨?_, rfl, isPt, ?_⟩
  · exact
      { built := booting.built.writeLeaf full reached _ _
        pml4 := booting.pml4
        cr3 := booting.cr3
        physfreeStart := booting.physfreeStart
        physfreeEnd := booting.physfreeEnd }
  · intro other short
    exact booting.built.tableAt_writeLeaf full reached _ _ short

/-- The loop over the kernel image ends, and writes leaf entries only. -/
theorem Booting.mapKernelImage {fuel : Nat}
    (low : k.physfreeStart.toNat ≤ 2 ^ 63) :
    ∀ {cur : Boot} {physBase v : Word}, Booting k root used cur →
      path.length = 3 →
      tableAt childOf cur.paging.mem root path = some table →
      cur.pt = pageAddr table →
      k.physfreeStart.toNat ≤ physBase.toNat + fuel * 4096 →
        Yields (LacksFrames k.paging bound)
          (mapKernelImage (fuel + 1) physBase v) cur fun _ next =>
            Booting k root used next ∧ next.pd = cur.pd ∧
            ∀ other, other.length ≤ 3 →
              tableAt childOf next.paging.mem root other =
                tableAt childOf cur.paging.mem root other := by
  induction fuel with
  | zero =>
      intro cur physBase v booting full reached isPt fits
      unfold SbuUnix.mapKernelImage
      rw [yields_bind, yields_get, booting.physfreeStart, yields_ite]
      constructor
      · intro below
        have order := BitVec.lt_def.mp below
        omega
      · intro _
        rw [yields_pure]
        exact ⟨booting, rfl, fun _ _ => rfl⟩
  | succ fuel inductionHypothesis =>
      intro cur physBase v booting full reached isPt fits
      unfold SbuUnix.mapKernelImage
      rw [yields_bind, yields_get, booting.physfreeStart, yields_ite]
      constructor
      · intro below
        rw [yields_bind, yields_get, yields_bind]
        apply (booting.writeLeaf full reached isPt _ _).mono
        intro _ written after
        obtain ⟨bootingNow, samePd, samePt, same⟩ := after
        have step : (physBase + 0x1000).toNat = physBase.toNat + 4096 := by
          have order := BitVec.lt_def.mp below
          have page : (0x1000 : Word).toNat = 4096 := by decide
          rw [BitVec.toNat_add, page]
          omega
        apply (inductionHypothesis bootingNow full
          ((same path (by omega)).trans reached) (samePt.trans isPt)
          (by omega)).mono
        intro _ next rest
        obtain ⟨bootingNext, nextPd, sameNext⟩ := rest
        exact ⟨bootingNext, nextPd.trans samePd, fun other short =>
          (sameNext other short).trans (same other short)⟩
      · intro _
        rw [yields_pure]
        exact ⟨booting, rfl, fun _ _ => rfl⟩

/-- A page more that is mapped while the tables are built. -/
theorem Booting.mapVirtToPhysAddr (booting : Booting k root used cur)
    (within : used + 3 ≤ bound) (v phys : Word) :
    Yields (LacksFrames k.paging bound) (mapVirtToPhysAddr v phys) cur
      fun _ next => Booting k root (used + 3) next := by
  apply (yields_mapVirtToPhysAddr booting.built booting.pml4 within v
    phys).mono
  intro _ next maps
  exact
    { built := maps.built
      pml4 := maps.pml4.trans booting.pml4
      cr3 := maps.cr3.trans booting.cr3
      physfreeStart := maps.physfreeStart.trans booting.physfreeStart
      physfreeEnd := maps.physfreeEnd.trans booting.physfreeEnd }

/-- `setup_page_tables` takes seventeen frames at most, wherever the kernel
lies and however large it is. -/
theorem yields_setupPageTables {fuel : Nat} {physBase : Word}
    (low : k.physfreeStart.toNat ≤ 2 ^ 63)
    (enough : k.physfreeStart.toNat ≤ physBase.toNat + fuel * 4096)
    (within : 17 ≤ bound) (kernmem physFree : Word) :
    Yields (LacksFrames k.paging bound)
      (setupPageTables (fuel + 1) kernmem physBase physFree) k fun _ next =>
        ∃ root, Booting k root 17 next := by
  unfold setupPageTables
  rw [yields_bind, onFrames, yields_zoom]
  apply yields_allocatePage
  · intro none
    exact ⟨rfl, by omega⟩
  intro root free
  rw [yields_bind, yields_modify, yields_bind, yields_modify, yields_bind,
    yields_get, yields_bind]
  have booting : Booting k root 1
      { k with
        paging := (k.paging.unsetFree root).writePage root fun _ => 0
        pml4 := pageAddr root
        cr3 := pageAddr root } :=
    { built := ⟨_, _, builtTables_root free⟩
      pml4 := rfl
      cr3 := rfl
      physfreeStart := rfl
      physfreeEnd := rfl }
  apply (booting.link (tableAt_nil childOf _ root) (Nat.zero_le 2) (by omega)
    .pdpt _).mono
  intro _ atPdpt linkedPdpt
  obtain ⟨pdpt, booting, isPdpt, -, toPdpt, -⟩ := linkedPdpt
  rw [yields_bind, yields_get, yields_bind]
  change atPdpt.pdpt = _ at isPdpt
  rw [isPdpt]
  apply (booting.link toPdpt (by simp) (by omega) .pd _).mono
  intro _ atPd linkedPd
  obtain ⟨pd, booting, isPd, -, toPd, -⟩ := linkedPd
  rw [yields_bind, yields_get, yields_bind]
  change atPd.pd = _ at isPd
  rw [isPd]
  apply (booting.link toPd (by simp) (by omega) .pt _).mono
  intro _ atPt linkedPt
  obtain ⟨pt, booting, isPt, samePd, toPt, sameWalks⟩ := linkedPt
  have stillPd : atPt.pd = pageAddr pd := (samePd .pd (by decide)).trans isPd
  have stillToPd := (sameWalks _ (Nat.le_refl _)).trans toPd
  rw [yields_bind]
  apply (booting.mapKernelImage low rfl toPt isPt enough).mono
  intro _ image imaged
  obtain ⟨booting, imagePd, imageWalks⟩ := imaged
  have imageToPd := (imageWalks _ (by simp)).trans stillToPd
  rw [yields_bind, yields_get, yields_bind, imagePd, stillPd]
  apply (booting.link imageToPd (by simp) (by omega) .pt _).mono
  intro _ video linkedVideo
  obtain ⟨videoPt, booting, isVideo, -, toVideo, -⟩ := linkedVideo
  rw [yields_bind, yields_get, yields_bind]
  apply (booting.writeLeaf rfl toVideo isVideo _ _).mono
  intro _ written after
  rw [yields_bind, yields_get, yields_bind, yields_get, yields_bind]
  apply (after.1.mapVirtToPhysAddr (by omega) _ _).mono
  intro _ first booting
  rw [yields_bind, yields_get, yields_bind, yields_get, yields_bind]
  apply (booting.mapVirtToPhysAddr (by omega) _ _).mono
  intro _ second booting
  rw [yields_bind, yields_get, yields_bind, yields_get, yields_bind]
  apply (booting.mapVirtToPhysAddr (by omega) _ _).mono
  intro _ third booting
  rw [yields_bind, yields_get, yields_bind, yields_get]
  apply (booting.mapVirtToPhysAddr within _ _).mono
  intro _ last booting
  exact ⟨root, booting⟩

end Setup

/-! ## The loop over physical memory -/

/-- The frames that the tables for the first `count` pages took at most: a new
table is needed where 512 pages begin. -/
def framesFor (count : Nat) : Nat :=
  17 + 3 * ((count + 511) / 512)

/-- The pages below `count` are mapped, and the tables for the next one are
there unless it begins a new 2 MiB. -/
structure MapsBelow (k : Boot) (root count : Nat) (cur : Boot) : Prop where
  booting : Booting k root (framesFor count) cur
  mapped : ∀ frame < count,
    lookup childOf cur.paging.mem root (pageOf (linearAddr frame)) =
      some (entryOf frame kernelFlags)
  inside : count % 512 ≠ 0 →
    (tableAt childOf cur.paging.mem root
      (tablesOf (linearAddr count))).isSome = true

theorem tablesOf_linearAddr (frame : Nat) :
    tablesOf (linearAddr frame) = linearPath frame ++ [511] := by
  have top : pml4Index (linearAddr frame) = 511 := pml4Index_kernelAddr _
  rw [tablesOf, top]
  rfl

section Memory

variable {k cur next : Boot} {root count bound : Nat}

/-- One pass of the loop. -/
theorem MapsBelow.step (below : MapsBelow k root count cur)
    (small : count < 524288)
    (maps : MapsPage k.paging root (framesFor count) cur next
      (linearAddr count) (pageAddr count)) :
    MapsBelow k root (count + 1) next where
  booting :=
    { built := by
        by_cases begins : count % 512 = 0
        · apply maps.built.mono
          unfold framesFor
          omega
        · apply (maps.kept (below.inside begins)).mono
          unfold framesFor
          omega
      pml4 := maps.pml4.trans below.booting.pml4
      cr3 := maps.cr3.trans below.booting.cr3
      physfreeStart := maps.physfreeStart.trans below.booting.physfreeStart
      physfreeEnd := maps.physfreeEnd.trans below.booting.physfreeEnd }
  mapped := by
    intro frame earlier
    rw [maps.pages _ rfl]
    by_cases here : frame = count
    · rw [if_pos (by rw [here]), here]
      rfl
    · have different :
          pageOf (linearAddr frame) ≠ pageOf (linearAddr count) := by
        intro same
        exact here (pageOf_linearAddr_injective (by omega) small same)
      rw [if_neg different]
      exact below.mapped frame (by omega)
  inside := by
    intro within
    have samePath : linearPath (count + 1) = linearPath count :=
      linearPath_congr (by omega) small (by omega)
    rw [tablesOf_linearAddr, samePath, ← tablesOf_linearAddr]
    exact maps.reached

theorem pageAddr_toNat_of_le {count : Nat} (small : count ≤ 524288) :
    (pageAddr count).toNat = count * 4096 := by
  unfold pageAddr pageSize
  rw [BitVec.toNat_ofNat]
  omega

theorem pageAddr_succ (count : Nat) :
    pageAddr (count + 1) = pageAddr count + 0x1000 := by
  unfold pageAddr pageSize
  apply BitVec.eq_of_toNat_eq
  have page : (0x1000 : Word).toNat = 4096 := by decide
  rw [BitVec.toNat_add, BitVec.toNat_ofNat, BitVec.toNat_ofNat, page]
  omega

/-- The loop of `set_identity_paging` maps every page below the end. -/
theorem MapsBelow.mapMemory {fuel : Nat}
    (low : k.physfreeEnd.toNat ≤ 2 ^ 31) :
    ∀ {count : Nat} {cur : Boot}, MapsBelow k root count cur →
      524288 ≤ count + fuel → count ≤ 524288 →
        Yields (LacksFrames k.paging (bootFrames k.physfreeEnd))
          (mapMemory (fuel + 1) (kernelAddr + pageAddr count)
            (pageAddr count)) cur fun _ next =>
              ∃ total, k.physfreeEnd.toNat ≤ total * 4096 ∧
                total ≤ 524288 ∧ MapsBelow k root total next := by
  induction fuel with
  | zero =>
      intro count cur below enough small
      unfold SbuUnix.mapMemory
      rw [yields_bind, yields_get, below.booting.physfreeEnd, yields_ite]
      constructor
      · intro more
        have order := BitVec.lt_def.mp more
        rw [pageAddr_toNat_of_le small] at order
        omega
      · intro _
        rw [yields_pure]
        exact ⟨count, by omega, small, below⟩
  | succ fuel inductionHypothesis =>
      intro count cur below enough small
      unfold SbuUnix.mapMemory
      rw [yields_bind, yields_get, below.booting.physfreeEnd, yields_ite]
      constructor
      · intro more
        have order := BitVec.lt_def.mp more
        rw [pageAddr_toNat_of_le small] at order
        have inside : count < 524288 := by omega
        have within : framesFor count + 3 ≤ bootFrames k.physfreeEnd := by
          unfold framesFor bootFrames
          omega
        have address : kernelAddr + pageAddr count = linearAddr count :=
          (linear_eq_add inside).symm
        rw [yields_bind, address]
        apply (yields_mapVirtToPhysAddr below.booting.built
          below.booting.pml4 within _ _).mono
        intro _ mapped maps
        rw [← address, BitVec.add_assoc, ← pageAddr_succ]
        exact inductionHypothesis (below.step inside maps) (by omega)
          (by omega)
      · intro stop
        rw [yields_pure]
        have order : ¬ (pageAddr count).toNat < k.physfreeEnd.toNat :=
          fun more => stop (BitVec.lt_def.mpr more)
        rw [pageAddr_toNat_of_le small] at order
        exact ⟨count, by omega, small, below⟩

end Memory

/-! ## The linear map after the boot -/

/-- Every entry on the way to a page is present and writable. -/
theorem HasTables.mmuWalk_eq {start s : Paging} {root used : Nat}
    (has : HasTables start root used s) {v entry : Word}
    (found : lookup childOf s.mem root (pageOf v) = some entry)
    (flags : entry &&& kernelFlags = kernelFlags) :
    mmuWalk s.mem kernelFlags root (pageOf v).reverse = some entry := by
  obtain ⟨depth, slot, tables⟩ := has
  obtain ⟨pt, toPt, leaf, -⟩ := lookup_eq_some_iff.mp found
  have leads : ∀ {path : List (Fin 512)} {table target : Nat}
      {index : Fin 512}, path.length ≤ 2 →
      tableAt childOf s.mem root path = some table →
        childOf (s.mem table index) = some target →
          s.mem table index &&& kernelFlags = kernelFlags ∧
            frameOf (s.mem table index) = target := by
    intro path table target index short reached points
    have tableDepth := tables.depth_tableAt (by omega) reached
    obtain ⟨word, -, -⟩ :=
      tables.entry_of_childOf tableDepth (by omega) points
    refine ⟨?_, (childOf_eq_some_iff.mp points).2⟩
    rw [word, entryOf]
    apply BitVec.eq_of_getLsbD_eq
    intro bit _
    simp only [BitVec.getLsbD_and, BitVec.getLsbD_or]
    cases kernelFlags.getLsbD bit <;> simp
  rw [tableAt_cons] at toPt
  obtain ⟨pd, toPd, ptPoints⟩ := Option.bind_eq_some_iff.mp toPt
  have third := leads (by simp) toPd ptPoints
  rw [tableAt_cons] at toPd
  obtain ⟨pdpt, toPdpt, pdPoints⟩ := Option.bind_eq_some_iff.mp toPd
  have second := leads (by simp) toPdpt pdPoints
  rw [tableAt_cons_of_eq_some rfl] at toPdpt
  have first := leads (show ([] : List (Fin 512)).length ≤ 2 by simp)
    (tableAt_nil childOf s.mem root) toPdpt
  simp only [pageOf, List.reverse_cons, List.reverse_nil, List.nil_append,
    List.cons_append, mmuWalk]
  rw [if_pos first.1, first.2, if_pos second.1, second.2, if_pos third.1,
    third.2, leaf, if_pos flags]

/-- All of physical memory is mapped at `KERNEL_ADDR`, present and writable,
in tables that were frames of the map of `k` and are used once each. -/
structure BootMap (k booted : Boot) : Prop where
  cr3 : booted.cr3 = booted.pml4
  walk : ∀ a : Word, a.toNat % pageSize = 0 → a < k.physfreeEnd →
    mmuWalk booted.paging.mem (ptPR ||| ptWR) (physicalFrame booted.pml4)
      (pageOf (kernelAddr + a)).reverse = some (a ||| (ptPR ||| ptWR))
  taken : ∀ path table, path.length ≤ 3 →
    tableAt childOf booted.paging.mem (physicalFrame booted.pml4) path =
      some table →
        k.paging.isFree table = true ∧ booted.paging.isFree table = false
  distinct : ∀ path other table, path.length ≤ 3 → other.length ≤ 3 →
    tableAt childOf booted.paging.mem (physicalFrame booted.pml4) path =
      some table →
    tableAt childOf booted.paging.mem (physicalFrame booted.pml4) other =
      some table →
        path = other

theorem MapsBelow.bootMap {k booted : Boot} {root total : Nat}
    (below : MapsBelow k root total booted)
    (all : k.physfreeEnd.toNat ≤ total * 4096) (small : total ≤ 524288) :
    BootMap k booted := by
  obtain ⟨depth, slot, tables⟩ := below.booting.built
  have isRoot : physicalFrame booted.pml4 = root := by
    rw [below.booting.pml4]
    exact physicalFrame_pageAddr
      (lt_of_lt_frameCount (tables.small tables.rooted))
  constructor
  · rw [below.booting.cr3, below.booting.pml4]
  · intro a aligned inside
    have order := BitVec.lt_def.mp inside
    have frameSmall : a.toNat / 4096 < total := by omega
    have address : a = pageAddr (a.toNat / 4096) := by
      apply BitVec.eq_of_toNat_eq
      rw [pageAddr_toNat_of_le (by omega)]
      unfold pageSize at aligned
      omega
    have found := below.mapped (a.toNat / 4096) frameSmall
    rw [linearAddr, linear_eq_add (by omega), entryOf, ← address] at found
    rw [isRoot]
    apply below.booting.built.mmuWalk_eq found
    apply BitVec.eq_of_getLsbD_eq
    intro bit _
    simp only [BitVec.getLsbD_and, BitVec.getLsbD_or]
    cases kernelFlags.getLsbD bit <;> simp
  · intro path table short reached
    rw [isRoot] at reached
    exact tables.taken table _ (tables.depth_tableAt short reached)
  · intro path other table short otherShort reached otherReached
    rw [isRoot] at reached otherReached
    exact (tables.hung.tableAt_injective tables.rooted tables.rooted
      (ownedPath_anyIndex path) short (ownedPath_anyIndex other) otherShort
      reached otherReached).2

/-- The boot maps all of physical memory, for an image of any size below
2 GiB; it fails only when less than `bootFrames` frames are free. -/
theorem setIdentityPaging_bootMap (fuel : Nat)
    (kernmem physbase physfree : Word) (k : Boot)
    (imageLow : physfree.toNat ≤ 2 ^ 31)
    (bitmap : k.physfreeStart = physfree + 2048)
    (memoryLow : k.physfreeEnd.toNat ≤ 2 ^ 31) (enough : 524290 ≤ fuel) :
    Yields
      (fun failure => failure = .noFreeFrame ∧
        k.paging.freeCount < bootFrames k.physfreeEnd)
      (do
        setupPageTables fuel kernmem physbase physfree
        setIdentityPaging fuel) k
      fun _ booted => BootMap k booted := by
  have imageEnd : k.physfreeStart.toNat ≤ 2 ^ 31 + 2048 := by
    have size : (2048 : Word).toNat = 2048 := by decide
    rw [bitmap, BitVec.toNat_add, size]
    omega
  obtain ⟨passes, rfl⟩ : ∃ passes, fuel = passes + 1 := ⟨fuel - 1, by omega⟩
  rw [yields_bind]
  apply (yields_setupPageTables (by omega) (by omega)
    (show 17 ≤ bootFrames k.physfreeEnd by unfold bootFrames; omega) kernmem
    physfree).mono
  intro _ ready setup
  obtain ⟨root, booting⟩ := setup
  have nothing : MapsBelow k root 0 ready :=
    { booting := booting
      mapped := by
        intro frame below
        omega
      inside := fun inside => absurd rfl inside }
  apply (nothing.mapMemory memoryLow (by omega) (by omega)).mono
  intro _ booted mapped
  obtain ⟨total, all, small, below⟩ := mapped
  exact below.bootMap all small

/-- A machine of 32 MiB with an image of 768 pages; some frames behind the
image are free. -/
def largeImage : Boot where
  paging :=
    { mem := fun _ _ => 0xFFFFFFFFFFFFFFFF
      freeMap := fun index => if index < 24 then 0 else 0xFFFFFFFFFFFFFFFF
      cr3 := 0 }
  physfreeStart := 0x500800
  physfreeEnd := 0x2000000
  cr3 := 0
  pml4 := 0
  pdpt := 0
  pd := 0
  pt := 0

theorem setIdentityPaging_largeImage :
    ∃ booted, (do
      setupPageTables 524290 0xFFFFFFFF80200000 0x200000 0x500000
      setIdentityPaging 524290) largeImage = .ok ((), booted) ∧
        BootMap largeImage booted := by
  -- With the number of passes open, nothing is evaluated.
  have boots : ∀ fuel, 524290 ≤ fuel → ∃ booted, (do
      setupPageTables fuel 0xFFFFFFFF80200000 0x200000 0x500000
      setIdentityPaging fuel) largeImage = .ok ((), booted) ∧
        BootMap largeImage booted := by
    intro fuel passes
    have maps := setIdentityPaging_bootMap fuel 0xFFFFFFFF80200000 0x200000
      0x500000 largeImage (by decide) (by decide) (by decide) passes
    have enough : (Finset.Ico 1536 1664).card ≤ largeImage.paging.freeCount :=
      card_le_freeCount _ (by decide +kernel)
    have frames : bootFrames largeImage.physfreeEnd = 68 := by decide
    rw [Nat.card_Ico] at enough
    obtain ⟨_, booted, returned, bootMap⟩ := maps.returns (by
      intro failure lacks
      have few := lacks.2
      omega)
    exact ⟨booted, returned, bootMap⟩
  exact boots 524290 (Nat.le_refl _)

end SbuUnix
