import Mathlib.Algebra.Order.BigOperators.Group.List
import SbuUnix.Paging.PageFault
import SbuUnix.Process.Loader

/-!
# The heap of a process

`mmap` of `sys/paging.c`, the system call behind `malloc`.  It moves
`mmap_alloc_addr` towards `mmap_end_addr` and returns the old value, also
where there is no room.
-/

namespace SbuUnix

open Outcome

/-! ## The allocator -/

/-- A store of the kernel to a page of the current process, which has the
tables `cr3Addr` and the areas `vmas`.  After a page fault it is repeated. -/
def storeFaulting (fuel : Nat) (cr3Addr : Word) (vmas : List Vma)
    (v : Word) (byte : Byte) : PagingM Unit := do
  match (← get).translate ptPR v with
  | some _ => storeByte ptPR v byte
  | none =>
      let _ ← pagefaultHandler fuel cr3Addr vmas v
      storeByte ptPR v byte

/-- `memset(ptr, 0, count)` -/
def clearUser (fuel : Nat) (cr3Addr : Word) (vmas : List Vma) (ptr : Word)
    (count : Nat) : PagingM Unit :=
  forUpto count fun i =>
    storeFaulting fuel cr3Addr vmas (ptr + BitVec.ofNat 64 i) 0

/-- `mmap`.  The `int` is widened for the comparison with the unsigned
difference, and cut to 32 bits for `memset`. -/
def mmap (fuel : Nat) (size : BitVec 32) : KernelM Word := do
  let curr := (← globals).currProcess
  let mm ← derefMm curr
  let startingAddr := mm.mmapAllocAddr
  if size.signExtend 64 ≤ mm.mmapEndAddr - startingAddr then
    let pcb ← derefPcb curr
    runPaging (clearUser fuel pcb.cr3 mm.vma startingAddr size.toNat)
    let mm ← derefMm curr
    storeMm curr
      { mm with mmapAllocAddr := mm.mmapAllocAddr + size.signExtend 64 }
    pure startingAddr
  else
    pure startingAddr

/-- A call of `mmap`: `mmap_alloc_addr` before and after it, and what it
returned. -/
structure HeapCall where
  size : BitVec 32
  before : Word
  after : Word
  result : Word

/-- One call after the other. -/
def runMmap (fuel : Nat) : List (BitVec 32) → KernelM (List HeapCall)
  | [] => pure []
  | size :: rest => do
      let curr := (← globals).currProcess
      let before ← derefMm curr
      let result ← mmap fuel size
      let after ← derefMm curr
      let later ← runMmap fuel rest
      pure
        ({ size := size
           before := before.mmapAllocAddr
           after := after.mmapAllocAddr
           result := result } :: later)

/-! ## What the allocator is for -/

namespace HeapCall

/-- The number of bytes asked for; a negative size asks for more than there
are. -/
def count (call : HeapCall) : Nat :=
  (call.size.signExtend 64).toNat

/-- The bytes `[result, result + size)` lie in the heap. -/
def InHeap (call : HeapCall) : Prop :=
  ∀ i < call.count, heapAddr.toNat ≤ call.result.toNat + i ∧
    call.result.toNat + i < heapEnd.toNat

/-- A call fails without an effect or returns a part of the heap. -/
def Proper (call : HeapCall) : Prop :=
  call.result = 0 ∧ call.after = call.before ∨ call.InHeap

/-- Two calls that succeed return different bytes. -/
def Apart (call other : HeapCall) : Prop :=
  call.result ≠ 0 → other.result ≠ 0 →
    ∀ i < call.count, ∀ j < other.count,
      call.result.toNat + i ≠ other.result.toNat + j

end HeapCall

/-- All calls are proper, and any two return disjoint ranges. -/
def HeapDisjoint (calls : List HeapCall) : Prop :=
  (∀ call ∈ calls, call.Proper) ∧ calls.Pairwise HeapCall.Apart

/-- No size is negative, and together they fit in what is left. -/
def FitsFrom (alloc : Word) (sizes : List (BitVec 32)) : Prop :=
  (∀ size ∈ sizes, 0 ≤ size.toInt) ∧
    (alloc.toNat : Int) + (sizes.map BitVec.toInt).sum ≤ heapEnd.toNat

/-- The calls as arithmetic on `mmap_alloc_addr`. -/
def bump (alloc : Word) : List (BitVec 32) → List HeapCall
  | [] => []
  | size :: rest =>
      let after :=
        if size.signExtend 64 ≤ heapEnd - alloc then
          alloc + size.signExtend 64
        else
          alloc
      { size := size
        before := alloc
        after := after
        result := alloc } :: bump after rest

/-! ## The calls of a process -/

/-- The current process has a heap with its first free byte at an address. -/
def HeapAt (k : Kernel) (alloc : Word) : Prop :=
  ∃ pcb mm, k.procs.pcb k.procs.currProcess = some pcb ∧ pcb.mm = some mm ∧
    mm.mmapAllocAddr = alloc ∧ mm.mmapEndAddr = heapEnd

section Calls

variable {k : Kernel} {alloc : Word} {fuel : Nat}

/-- A new process starts with an empty heap. -/
theorem yields_initMmap_heap {proc : Word} :
    Yields AnyFault (initMmap proc) k fun _ next =>
      ∃ pcb mm, next.procs.pcb proc = some pcb ∧ pcb.mm = some mm ∧
        mm.mmapAllocAddr = heapAddr ∧ mm.mmapEndAddr = heapEnd := by
  unfold initMmap
  rw [yields_bind, yields_runPaging, yields_anyFault]
  intro phyAddr s _
  rw [yields_bind, yields_derefPcb]
  intro pcb _
  rw [yields_bind, yields_runPaging, yields_anyFault]
  intro _ mapped _
  rw [yields_bind, yields_derefMm]
  intro owner mm _ _
  cases mm.vma.find? fun vma => vma.type = .heap with
  | none => exact yields_stop _ _
  | some heap =>
      dsimp only
      rw [storeMm, yields_bind, yields_derefMm]
      intro _ _ _ _
      rw [yields_storePcb]
      intro stored found
      exact ⟨_, _, put_same, rfl, rfl, rfl⟩

theorem yields_derefMm_heap {post : MmStruct → Kernel → Prop}
    (heap : HeapAt k alloc)
    (continues : ∀ mm, mm.mmapAllocAddr = alloc → mm.mmapEndAddr = heapEnd →
      post mm k) :
    Yields AnyFault (derefMm k.procs.currProcess) k post := by
  rw [yields_derefMm]
  intro pcb mm found here
  obtain ⟨owner, known, ownerFound, isKnown, isAlloc, isEnd⟩ := heap
  rw [found] at ownerFound
  cases ownerFound
  rw [here] at isKnown
  cases isKnown
  exact continues mm isAlloc isEnd

/-- A call returns the old value and moves it when there is room. -/
theorem yields_mmap (size : BitVec 32) (heap : HeapAt k alloc) :
    Yields AnyFault (mmap fuel size) k fun result next =>
      result = alloc ∧ next.procs.currProcess = k.procs.currProcess ∧
        HeapAt next
          (if size.signExtend 64 ≤ heapEnd - alloc then
            alloc + size.signExtend 64
          else
            alloc) := by
  unfold mmap
  rw [yields_bind, yields_globals, yields_bind]
  apply yields_derefMm_heap heap
  intro mm isAlloc isEnd
  dsimp only
  rw [isAlloc, isEnd, yields_ite]
  constructor
  · intro room
    rw [yields_bind, yields_derefPcb]
    intro pcb _
    rw [yields_bind, yields_runPaging, yields_anyFault]
    intro _ cleared _
    have heapThen : HeapAt { k with paging := cleared } alloc := heap
    rw [yields_bind]
    apply yields_derefMm_heap heapThen
    intro mm isAlloc isEnd
    rw [storeMm, yields_bind, yields_bind, yields_derefMm]
    intro _ _ _ _
    rw [yields_storePcb]
    intro stored _
    refine ⟨rfl, rfl, ?_⟩
    rw [if_pos room]
    refine ⟨_, _, put_same, rfl, ?_, isEnd⟩
    dsimp only
    rw [isAlloc]
  · intro full
    refine ⟨rfl, rfl, ?_⟩
    rw [if_neg full]
    exact heap

/-- A run of calls is arithmetic on `mmap_alloc_addr`. -/
theorem yields_runMmap (fuel : Nat) (sizes : List (BitVec 32)) :
    ∀ {k : Kernel} {alloc : Word}, HeapAt k alloc →
      Yields AnyFault (runMmap fuel sizes) k fun calls _ =>
        calls = bump alloc sizes := by
  induction sizes with
  | nil => exact fun _ => rfl
  | cons size rest inductionHypothesis =>
      intro k alloc heap
      rw [runMmap, yields_bind, yields_globals, yields_bind]
      apply yields_derefMm_heap heap
      intro mm isAlloc _
      rw [yields_bind]
      apply (yields_mmap size heap).mono
      rintro result next ⟨isResult, sameCurrent, heapNow⟩
      rw [yields_bind, ← sameCurrent]
      apply yields_derefMm_heap heapNow
      intro after isAfter _
      rw [yields_bind]
      apply (inductionHypothesis heapNow).mono
      intro later _ isLater
      rw [yields_pure, bump, isLater, isAlloc, isAfter, isResult]

end Calls

/-! ## Disjoint ranges -/

section Ranges

variable {alloc : Word} {size : BitVec 32} {sizes : List (BitVec 32)}

/-- The address is in the heap or right behind it. -/
def HeapBound (alloc : Word) : Prop :=
  heapAddr.toNat ≤ alloc.toNat ∧ alloc.toNat ≤ heapEnd.toNat

theorem toNat_signExtend_of_nonneg (positive : 0 ≤ size.toInt) :
    ((size.signExtend 64).toNat : Int) = size.toInt := by
  have same : (size.signExtend 64).toInt = size.toInt :=
    BitVec.toInt_signExtend_of_le (by decide)
  rw [BitVec.toInt_eq_toNat_cond] at same
  split at same
  · exact same
  · have small := (size.signExtend 64).isLt
    omega

theorem toNat_signExtend_of_neg (negative : size.toInt < 0) :
    heapEnd.toNat < (size.signExtend 64).toNat := by
  have same : (size.signExtend 64).toInt = size.toInt :=
    BitVec.toInt_signExtend_of_le (by decide)
  have least := size.le_toInt
  rw [BitVec.toInt_eq_toNat_cond] at same
  have known : heapEnd.toNat = 0x400ee010000 := rfl
  split at same
  · omega
  · norm_num at least
    omega

/-- The test of the code, for an address of the heap. -/
theorem room_iff (bound : HeapBound alloc) :
    size.signExtend 64 ≤ heapEnd - alloc ↔
      0 ≤ size.toInt ∧
        (alloc.toNat : Int) + size.toInt ≤ heapEnd.toNat := by
  have left : (heapEnd - alloc).toNat = heapEnd.toNat - alloc.toNat :=
    BitVec.toNat_sub_of_le bound.2
  have high := bound.2
  rw [BitVec.le_def, left]
  rcases Int.lt_or_le size.toInt 0 with negative | positive
  · have huge := toNat_signExtend_of_neg negative
    omega
  · have same := toNat_signExtend_of_nonneg positive
    omega

theorem toNat_add_signExtend (bound : HeapBound alloc)
    (room : size.signExtend 64 ≤ heapEnd - alloc) :
    ((alloc + size.signExtend 64).toNat : Int) =
      alloc.toNat + size.toInt := by
  obtain ⟨positive, fits⟩ := (room_iff bound).mp room
  have same := toNat_signExtend_of_nonneg positive
  have known : heapEnd.toNat = 0x400ee010000 := rfl
  rw [BitVec.toNat_add, Nat.mod_eq_of_lt (by omega)]
  omega

theorem HeapBound.bump (bound : HeapBound alloc)
    (room : size.signExtend 64 ≤ heapEnd - alloc) :
    HeapBound (alloc + size.signExtend 64) := by
  obtain ⟨positive, fits⟩ := (room_iff bound).mp room
  have sum := toNat_add_signExtend bound room
  obtain ⟨low, high⟩ := bound
  constructor <;> omega

/-- A proper first call had room, since it returned an address. -/
theorem room_of_proper {after : Word} (bound : HeapBound alloc)
    (proper : HeapCall.Proper
      { size := size
        before := alloc
        after := after
        result := alloc }) :
    size.signExtend 64 ≤ heapEnd - alloc := by
  have left : (heapEnd - alloc).toNat = heapEnd.toNat - alloc.toNat :=
    BitVec.toNat_sub_of_le bound.2
  rw [BitVec.le_def, left]
  rcases proper with ⟨zero, -⟩ | inHeap
  · obtain ⟨low, -⟩ := bound
    dsimp only at zero
    rw [zero] at low
    exact absurd low (by decide)
  · by_contra more
    have below : (size.signExtend 64).toNat - 1 <
        (size.signExtend 64).toNat := by
      omega
    have last := (inHeap _ below).2
    have high := bound.2
    dsimp only at last
    omega

theorem fitsFrom_cons (bound : HeapBound alloc)
    (room : size.signExtend 64 ≤ heapEnd - alloc) :
    FitsFrom alloc (size :: sizes) ↔
      FitsFrom (alloc + size.signExtend 64) sizes := by
  have positive := ((room_iff bound).mp room).1
  have sum := toNat_add_signExtend bound room
  unfold FitsFrom
  rw [List.forall_mem_cons, List.map_cons, List.sum_cons, sum]
  constructor
  · rintro ⟨⟨-, later⟩, fits⟩
    exact ⟨later, by omega⟩
  · rintro ⟨later, fits⟩
    exact ⟨⟨positive, later⟩, by omega⟩

theorem sum_nonneg {sizes : List (BitVec 32)}
    (positive : ∀ size ∈ sizes, 0 ≤ size.toInt) :
    0 ≤ (sizes.map BitVec.toInt).sum := by
  apply List.sum_nonneg
  intro value member
  obtain ⟨size, isSize, rfl⟩ := List.mem_map.mp member
  exact positive size isSize

theorem FitsFrom.room (bound : HeapBound alloc)
    (fits : FitsFrom alloc (size :: sizes)) :
    size.signExtend 64 ≤ heapEnd - alloc := by
  obtain ⟨positive, total⟩ := fits
  obtain ⟨here, later⟩ := List.forall_mem_cons.mp positive
  have rest := sum_nonneg later
  rw [List.map_cons, List.sum_cons] at total
  exact (room_iff bound).mpr ⟨here, by omega⟩

/-- Later calls return later addresses. -/
theorem le_result_of_mem_bump :
    ∀ {sizes : List (BitVec 32)} {alloc : Word}, HeapBound alloc →
      ∀ call ∈ bump alloc sizes, alloc.toNat ≤ call.result.toNat := by
  intro sizes
  induction sizes with
  | nil => exact fun _ _ member => absurd member List.not_mem_nil
  | cons size rest inductionHypothesis =>
      intro alloc bound call member
      rw [bump] at member
      rcases List.mem_cons.mp member with rfl | later
      · exact Nat.le_refl _
      · by_cases room : size.signExtend 64 ≤ heapEnd - alloc
        · rw [if_pos room] at later
          have behind := inductionHypothesis (bound.bump room) call later
          have sum := toNat_add_signExtend bound room
          have positive := ((room_iff bound).mp room).1
          omega
        · rw [if_neg room] at later
          exact inductionHypothesis bound call later

/-- The ranges are proper and disjoint exactly when all sizes fit. -/
theorem heapDisjoint_bump_iff :
    ∀ {sizes : List (BitVec 32)} {alloc : Word}, HeapBound alloc →
      (HeapDisjoint (bump alloc sizes) ↔ FitsFrom alloc sizes) := by
  intro sizes
  induction sizes with
  | nil =>
      intro alloc bound
      have within : (alloc.toNat : Int) ≤ heapEnd.toNat := by
        have high := bound.2
        omega
      constructor
      · intro _
        exact ⟨fun _ member => absurd member List.not_mem_nil,
          by simpa using within⟩
      · intro _
        exact ⟨fun _ member => absurd member List.not_mem_nil,
          List.Pairwise.nil⟩
  | cons size rest inductionHypothesis =>
      intro alloc bound
      unfold HeapDisjoint
      rw [bump, List.forall_mem_cons, List.pairwise_cons]
      constructor
      · rintro ⟨⟨proper, later⟩, -, apart⟩
        have room := room_of_proper bound proper
        rw [fitsFrom_cons bound room]
        rw [if_pos room] at later apart
        exact (inductionHypothesis (bound.bump room)).mp ⟨later, apart⟩
      · intro fits
        have room := fits.room bound
        obtain ⟨positive, within⟩ := (room_iff bound).mp room
        have same := toNat_signExtend_of_nonneg positive
        rw [fitsFrom_cons bound room] at fits
        rw [if_pos room]
        obtain ⟨later, apart⟩ :=
          (inductionHypothesis (bound.bump room)).mpr fits
        refine ⟨⟨Or.inr ?_, later⟩, ?_, apart⟩
        · intro i below
          have low := bound.1
          change i < (size.signExtend 64).toNat at below
          dsimp only
          omega
        · intro other member _ _ i below j _
          have behind :=
            le_result_of_mem_bump (bound.bump room) other member
          have sum := toNat_add_signExtend bound room
          change i < (size.signExtend 64).toNat at below
          dsimp only
          omega

/-- After `init_mmap`, a run of calls returns disjoint parts of the heap
exactly when no size is negative and their sum is at most the heap. -/
theorem heapDisjoint_runMmap_iff {fuel : Nat} {k next : Kernel}
    {calls : List HeapCall} (fresh : HeapAt k heapAddr)
    (returned : runMmap fuel sizes k = .ok (calls, next)) :
    HeapDisjoint calls ↔
      (∀ size ∈ sizes, 0 ≤ size.toInt) ∧
        (sizes.map BitVec.toInt).sum ≤ 0x10000 := by
  have isBump := yields_anyFault.mp (yields_runMmap fuel sizes fresh)
    calls next returned
  have bound : HeapBound heapAddr := ⟨by decide, by decide⟩
  rw [isBump, heapDisjoint_bump_iff bound]
  have first : heapAddr.toNat = 0x400ee000000 := rfl
  have last : heapEnd.toNat = 0x400ee010000 := rfl
  unfold FitsFrom
  rw [first, last]
  constructor
  · rintro ⟨positive, total⟩
    exact ⟨positive, by omega⟩
  · rintro ⟨positive, total⟩
    exact ⟨positive, by omega⟩

end Ranges

/-! ### A process with an empty heap -/

/-- The block of the process. -/
def heapProc : Word := 0xFFFFFFFF80400000

/-- A kernel where every page of the process is the frame 20. -/
def heapKernel : Kernel where
  paging :=
    { mem := fun frame =>
        if frame = 20 then fun _ => 0
        else fun _ => entryOf (frame + 1) userFlags
      freeMap := fun _ => 0
      cr3 := pageAddr 16 }
  procs :=
    { pcb := fun p =>
        if p = heapProc then
          some
            { cr3 := pageAddr 16
              mm := some
                { mmapStartAddr := heapAddr
                  mmapEndAddr := heapEnd
                  mmapAllocAddr := heapAddr } }
        else none
      currProcess := heapProc }

theorem heapAt_heapKernel : HeapAt heapKernel heapAddr :=
  ⟨_, _, rfl, rfl, rfl, rfl⟩

theorem heapDisjoint_small :
    ∃ calls next, runMmap 1 [2, 3] heapKernel = .ok (calls, next) ∧
      HeapDisjoint calls := by
  have run : shown (fun _ _ => true) (runMmap 1 [2, 3] heapKernel) =
      some true := by
    decide +kernel
  obtain ⟨calls, next, returned, -⟩ := exists_of_shown run
  have positive : ∀ size ∈ ([2, 3] : List (BitVec 32)),
      0 ≤ size.toInt := by
    intro size member
    rcases List.mem_cons.mp member with rfl | later
    · decide
    · rw [List.mem_singleton.mp later]
      decide
  have total :
      (([2, 3] : List (BitVec 32)).map BitVec.toInt).sum ≤ 0x10000 := by
    decide
  exact ⟨calls, next, returned,
    (heapDisjoint_runMmap_iff heapAt_heapKernel returned).mpr
      ⟨positive, total⟩⟩

/-- Both calls return the start of the heap: the first one for lack of room,
the second one for its two bytes. -/
theorem not_heapDisjoint_large :
    ∃ calls next, runMmap 1 [0x10001, 2] heapKernel = .ok (calls, next) ∧
      ¬ HeapDisjoint calls := by
  have run : shown (fun _ _ => true)
      (runMmap 1 [0x10001, 2] heapKernel) = some true := by
    decide +kernel
  obtain ⟨calls, next, returned, -⟩ := exists_of_shown run
  refine ⟨calls, next, returned, ?_⟩
  have isBump := yields_anyFault.mp
    (yields_runMmap 1 [0x10001, 2] heapAt_heapKernel) calls next returned
  have bound : HeapBound heapAddr := ⟨by decide, by decide⟩
  rw [isBump, heapDisjoint_bump_iff bound]
  exact fun fits => absurd fits.2 (by decide)

end SbuUnix
