import SbuUnix.Library.Metered
import SbuUnix.Paging.Tables

/-!
# Running out of frames

How many frames a request takes, and what happens when `free_map` has fewer.
-/

namespace SbuUnix

open Outcome

/-! ## The frames of the map, one after the other -/

/-- The number of set bits in the 256 words. -/
def Paging.freeCount (s : Paging) : Nat :=
  ((Finset.range frameCount).filter fun frame => s.isFree frame).card

/-- The map without its first set bit. -/
def Paging.clearFirst (s : Paging) : Paging :=
  match getFirstpage s.freeMap with
  | some frame => s.unsetFree frame
  | none => s

/-- The map without its first `count` set bits. -/
def Paging.clearBits (s : Paging) : Nat → Paging
  | 0 => s
  | count + 1 => (s.clearBits count).clearFirst

/-- The frame that is taken when `count` have been; behind the last one of
the map, a frame that does not exist. -/
def Paging.supply (s : Paging) (count : Nat) : Nat :=
  (getFirstpage (s.clearBits count).freeMap).getD (frameCount + count)

theorem getFirstpage_eq_none_iff {s : Paging} :
    getFirstpage s.freeMap = none ↔ s.freeCount = 0 := by
  constructor
  · intro none
    apply Finset.card_eq_zero.mpr
    apply Finset.filter_eq_empty_iff.mpr
    intro frame _
    rw [isFree_eq_false_of_getFirstpage none frame]
    exact Bool.false_ne_true
  · intro empty
    cases found : getFirstpage s.freeMap with
    | none => rfl
    | some frame =>
        have free := isFree_of_getFirstpage found
        have unset := Finset.filter_eq_empty_iff.mp
          (Finset.card_eq_zero.mp empty)
          (Finset.mem_range.mpr (Paging.lt_of_isFree free))
        exact absurd free unset

theorem freeCount_unsetFree {s : Paging} {frame : Nat}
    (free : s.isFree frame = true) :
    (s.unsetFree frame).freeCount = s.freeCount - 1 := by
  have member : frame ∈
      (Finset.range frameCount).filter fun other => s.isFree other :=
    Finset.mem_filter.mpr
      ⟨Finset.mem_range.mpr (Paging.lt_of_isFree free), free⟩
  have erased : ((Finset.range frameCount).filter fun other =>
      (s.unsetFree frame).isFree other) =
        ((Finset.range frameCount).filter fun other =>
          s.isFree other).erase frame := by
    ext other
    rw [Finset.mem_erase, Finset.mem_filter, Finset.mem_filter,
      Paging.isFree_unsetFree, Bool.and_eq_true, decide_eq_true_eq]
    constructor
    · rintro ⟨inside, isFree, other⟩
      exact ⟨other, inside, isFree⟩
    · rintro ⟨other, inside, isFree⟩
      exact ⟨inside, isFree, other⟩
  exact (congrArg Finset.card erased).trans (Finset.card_erase_of_mem member)

theorem freeCount_congr {s other : Paging} (same : s.freeMap = other.freeMap) :
    s.freeCount = other.freeCount := by
  unfold Paging.freeCount Paging.isFree
  rw [same]

/-- There are at least as many free frames as one can name. -/
theorem card_le_freeCount {s : Paging} (frames : Finset Nat)
    (free : ∀ frame ∈ frames, s.isFree frame = true) :
    frames.card ≤ s.freeCount := by
  apply Finset.card_le_card
  intro frame member
  have isFree := free frame member
  exact Finset.mem_filter.mpr
    ⟨Finset.mem_range.mpr (Paging.lt_of_isFree isFree), isFree⟩

-- The 16384 frames are not to be listed while statements are checked.
attribute [irreducible] Paging.freeCount

theorem freeCount_clearFirst (s : Paging) :
    s.clearFirst.freeCount = s.freeCount - 1 := by
  unfold Paging.clearFirst
  cases found : getFirstpage s.freeMap with
  | none =>
      have empty := getFirstpage_eq_none_iff.mp found
      dsimp only
      omega
  | some frame =>
      have counted := freeCount_unsetFree (isFree_of_getFirstpage found)
      dsimp only
      rw [counted]

theorem freeCount_clearBits (s : Paging) (count : Nat) :
    (s.clearBits count).freeCount = s.freeCount - count := by
  induction count with
  | zero => rw [Paging.clearBits, Nat.sub_zero]
  | succ count inductionHypothesis =>
      rw [Paging.clearBits, freeCount_clearFirst, inductionHypothesis]
      omega

theorem allocateVirtPage_eq_error {s : Paging}
    (none : getFirstpage s.freeMap = none) :
    allocateVirtPage s = .error .noFreeFrame := by
  unfold allocateVirtPage
  rw [bind_of_ok (show (get : PagingM Paging) s = .ok (s, s) from rfl), none]
  rfl

theorem allocateVirtPage_eq_found {s : Paging} {frame : Nat}
    (found : getFirstpage s.freeMap = some frame) :
    allocateVirtPage s = .ok (pageAddr frame, s.unsetFree frame) := by
  have below := Paging.lt_of_isFree (isFree_of_getFirstpage found)
  have inside : frame / 64 < 256 := by
    unfold frameCount at below
    omega
  unfold allocateVirtPage unsetBit
  rw [bind_of_ok (show (get : PagingM Paging) s = .ok (s, s) from rfl), found]
  dsimp only
  rw [if_pos inside]
  rfl

/-! ## What stops an operation -/

section Stops

variable {allowed : Fault → Prop} (exhausted : allowed .noFreeFrame)
include exhausted

theorem stopsOnly_allocateVirtPage : StopsOnly allowed allocateVirtPage :=
  fun _ => yields_allocateVirtPage exhausted fun _ _ => trivial

theorem stopsOnly_nextTable (flags : Word) (table : Nat)
    (index : Fin 512) : StopsOnly allowed (nextTable flags table index) := by
  apply stopsOnly_bind stopsOnly_get
  intro s
  apply stopsOnly_ite
  · exact stopsOnly_pure _
  · apply stopsOnly_bind (stopsOnly_allocateVirtPage exhausted)
    intro page
    apply stopsOnly_bind stopsOnly_modify
    intro _
    apply stopsOnly_bind stopsOnly_modify
    exact fun _ => stopsOnly_pure _

theorem stopsOnly_mapPhysToVirtAddr (vAddress phys : Word) :
    StopsOnly allowed (mapPhysToVirtAddr vAddress phys) := by
  apply stopsOnly_bind stopsOnly_get
  intro s
  apply stopsOnly_bind (stopsOnly_nextTable exhausted _ _ _)
  intro pdpt
  apply stopsOnly_bind (stopsOnly_nextTable exhausted _ _ _)
  intro pd
  apply stopsOnly_bind (stopsOnly_nextTable exhausted _ _ _)
  exact fun pt => stopsOnly_modify

theorem stopsOnly_kmallocPages (count : Nat) :
    StopsOnly allowed (kmallocPages count) := by
  induction count with
  | zero => exact stopsOnly_pure _
  | succ count inductionHypothesis =>
      apply stopsOnly_bind (stopsOnly_allocateVirtPage exhausted)
      intro page
      apply stopsOnly_bind (stopsOnly_mapPhysToVirtAddr exhausted _ _)
      intro _
      apply stopsOnly_bind stopsOnly_modify
      intro _
      apply stopsOnly_bind inductionHypothesis
      exact fun _ => stopsOnly_pure _

theorem stopsOnly_kmalloc (size : Int) :
    StopsOnly allowed (kmalloc size) := by
  apply stopsOnly_bind (stopsOnly_kmallocPages exhausted _)
  exact fun _ => stopsOnly_pure _

theorem stopsOnly_createUserAddressSpace :
    StopsOnly allowed createUserAddressSpace := by
  apply stopsOnly_bind (stopsOnly_allocateVirtPage exhausted)
  intro page
  apply stopsOnly_bind (stopsOnly_mapPhysToVirtAddr exhausted _ _)
  intro _
  apply stopsOnly_bind stopsOnly_modify
  intro _
  apply stopsOnly_bind stopsOnly_get
  intro s
  apply stopsOnly_bind stopsOnly_modify
  exact fun _ => stopsOnly_pure _

theorem stopsOnly_copyLevel {below : Nat → Nat → PagingM Unit}
    (stops : ∀ table cTable, StopsOnly allowed (below table cTable))
    (count table cTable : Nat) :
    StopsOnly allowed (copyLevel count below table cTable) := by
  apply stopsOnly_forUpto
  intro i
  apply stopsOnly_bind stopsOnly_get
  intro s
  apply stopsOnly_ite
  · apply stopsOnly_bind (stopsOnly_allocateVirtPage exhausted)
    intro child
    apply stopsOnly_bind stopsOnly_modify
    exact fun _ => stops _ _
  · exact stopsOnly_pure _

theorem stopsOnly_copyParentTables (cr3Addr : Word) :
    StopsOnly allowed (copyParentTables cr3Addr) := by
  have leaves : ∀ pt cPt, StopsOnly allowed (copyPt pt cPt) := by
    intro pt cPt
    apply stopsOnly_forUpto
    intro i
    apply stopsOnly_bind stopsOnly_get
    intro s
    apply stopsOnly_ite
    · apply stopsOnly_bind stopsOnly_modify
      intro _
      apply stopsOnly_bind stopsOnly_modify
      exact fun _ => stopsOnly_modify
    · exact stopsOnly_pure _
  have tables : ∀ pd cPd, StopsOnly allowed (copyPd pd cPd) :=
    stopsOnly_copyLevel exhausted leaves 512
  have directories : ∀ pdpt cPdpt, StopsOnly allowed (copyPdpt pdpt cPdpt) :=
    stopsOnly_copyLevel exhausted tables 512
  apply stopsOnly_bind stopsOnly_get
  intro s
  apply stopsOnly_bind (stopsOnly_copyLevel exhausted directories 511 _ _)
  intro _
  apply stopsOnly_bind stopsOnly_get
  exact fun _ => stopsOnly_modify

end Stops

/-! ## Requests on frames that never run out -/

/-- Memory and CR3, and the number of frames taken. -/
structure Ledger where
  paging : Paging
  taken : Nat := 0

abbrev LedgerM := StateM Ledger

namespace Ledger

-- `s` is the state at the start of a request, whose map is used up.
variable (s : Paging)

/-- The state that a ledger stands for. -/
def current (l : Ledger) : Paging :=
  { l.paging with freeMap := (s.clearBits l.taken).freeMap }

def update (change : Paging → Paging) : LedgerM PUnit :=
  modify fun l => { l with paging := change l.paging }

/-- `allocate_virt_page` -/
def allocate : LedgerM Word :=
  fun l => (pageAddr (s.supply l.taken), { l with taken := l.taken + 1 })

def nextTable (flags : Word) (table : Nat) (index : Fin 512) :
    LedgerM Nat := do
  let l ← get
  let entry := l.paging.mem table index
  if hasFlag entry ptPR then
    pure (frameOf entry)
  else
    let page ← allocate s
    update fun s => s.writePage (kernelFrame page) fun _ => 0
    update fun s => s.writeWord table index (page ||| flags)
    pure (kernelFrame page)

/-- `map_phys_to_virt_addr` -/
def mapKernel (vAddress phys : Word) : LedgerM PUnit := do
  let l ← get
  let pml4 := kernelFrame l.paging.cr3
  let pdpt ← nextTable s (ptPR ||| ptWR) pml4 (pml4Index vAddress)
  let pd ← nextTable s (ptPR ||| ptWR) pdpt (pdptIndex vAddress)
  let pt ← nextTable s (ptPR ||| ptWR) pd (pdIndex vAddress)
  update fun s =>
    s.writeWord pt (ptIndex vAddress) (phys ||| (ptPR ||| ptWR))

/-- `map_phys_to_user_virt_addr` -/
def mapUser (vAddress phys cr3Addr : Word) : LedgerM PUnit := do
  let pdpt ← nextTable s userFlags (kernelFrame cr3Addr) (pml4Index vAddress)
  let pd ← nextTable s userFlags pdpt (pdptIndex vAddress)
  let pt ← nextTable s userFlags pd (pdIndex vAddress)
  let page ← allocate s
  update fun s => s.writePage (kernelFrame page) fun _ => 0
  update fun s => s.writePage (kernelFrame page) (s.mem (kernelFrame phys))
  update fun s => s.writeWord pt (ptIndex vAddress) (page ||| userFlags)

/-- The loop of `kmalloc`. -/
def kmallocPages : Nat → LedgerM (List Nat)
  | 0 => pure []
  | count + 1 => do
      let page ← allocate s
      mapKernel s (kernelAddr ||| page) page
      update fun s => s.writePage (kernelFrame page) fun _ => 0
      let later ← kmallocPages count
      pure (kernelFrame page :: later)

def kmalloc (size : Int) : LedgerM (Word × List Nat) := do
  let frames ← kmallocPages s (numPage size)
  pure ((frames.head?.map fun frame => kernelAddr ||| pageAddr frame).getD 0,
    frames)

/-- The frames that are free at the start are all there are. -/
def meter : Meter Paging Ledger Fault where
  budget := s.freeCount
  taken := taken
  state := current s
  failure := .noFreeFrame

theorem meters_update {change : Paging → Paging}
    (onMemory : ∀ (s : Paging) (freeMap : Nat → Word),
      change { s with freeMap := freeMap } =
        { change s with freeMap := freeMap }) :
    Meters (meter s) (modify change : PagingM PUnit) (update change) :=
  meters_modify (fun _ => rfl) fun _ => (onMemory _ _).symm

theorem meters_writePage (frame : Nat) (page : Page) :
    Meters (meter s) (modify fun s => s.writePage frame page : PagingM PUnit)
      (update fun s => s.writePage frame page) :=
  meters_update s fun _ _ => rfl

theorem meters_writeEntry (table : Nat) (index : Fin 512) (entry : Word) :
    Meters (meter s) (writeEntry table index entry)
      (update fun s => s.writeWord table index entry) :=
  meters_update s fun _ _ => rfl

theorem current_allocate {l : Ledger} {frame : Nat}
    (found : getFirstpage (current s l).freeMap = some frame) :
    current s { l with taken := l.taken + 1 } =
      (current s l).unsetFree frame := by
  change getFirstpage (s.clearBits l.taken).freeMap = some frame at found
  unfold current
  rw [Paging.clearBits, Paging.clearFirst, found]
  rfl

theorem freeCount_current (l : Ledger) :
    (current s l).freeCount = s.freeCount - l.taken := by
  have same : (current s l).freeCount = (s.clearBits l.taken).freeCount :=
    freeCount_congr rfl
  rw [same, freeCount_clearBits]

/-- A frame is taken as long as the map has one. -/
theorem meters_allocate : Meters (meter s) allocateVirtPage (allocate s) := by
  apply meters_of
  · exact fun l => Nat.le_succ l.taken
  · intro l covered
    have more : l.taken + 1 ≤ s.freeCount := covered
    have count := freeCount_current s l
    have nonempty : (current s l).freeCount ≠ 0 := by omega
    obtain ⟨frame, found⟩ := Option.ne_none_iff_exists'.mp fun none =>
      nonempty (getFirstpage_eq_none_iff.mp none)
    have taken : s.supply l.taken = frame := by
      unfold Paging.supply
      rw [show getFirstpage (s.clearBits l.taken).freeMap = some frame
        from found]
      rfl
    have allocated := allocateVirtPage_eq_found found
    rw [← current_allocate s found, ← taken] at allocated
    exact allocated
  · intro l within short
    have all : s.freeCount < l.taken + 1 := short
    have count := freeCount_current s l
    have empty : (current s l).freeCount = 0 := by omega
    exact allocateVirtPage_eq_error (getFirstpage_eq_none_iff.mpr empty)

theorem meters_nextTable (flags : Word) (table : Nat) (index : Fin 512) :
    Meters (meter s) (SbuUnix.nextTable flags table index)
      (nextTable s flags table index) := by
  apply meters_get
  intro l
  apply meters_ite
  · exact meters_pure _
  · apply meters_bind (meters_allocate s)
    intro page
    apply meters_bind (meters_writePage s _ _)
    intro _
    apply meters_bind (meters_writeEntry s _ _ _)
    intro _
    exact meters_pure _

theorem meters_mapKernel (vAddress phys : Word) :
    Meters (meter s) (mapPhysToVirtAddr vAddress phys)
      (mapKernel s vAddress phys) := by
  apply meters_get
  intro l
  apply meters_bind (meters_nextTable s _ _ _)
  intro pdpt
  apply meters_bind (meters_nextTable s _ _ _)
  intro pd
  apply meters_bind (meters_nextTable s _ _ _)
  intro pt
  exact meters_writeEntry s _ _ _

theorem meters_mapUser (vAddress phys cr3Addr : Word) :
    Meters (meter s) (mapPhysToUserVirtAddr vAddress phys cr3Addr)
      (mapUser s vAddress phys cr3Addr) := by
  apply meters_bind (meters_nextTable s _ _ _)
  intro pdpt
  apply meters_bind (meters_nextTable s _ _ _)
  intro pd
  apply meters_bind (meters_nextTable s _ _ _)
  intro pt
  apply meters_bind (meters_allocate s)
  intro page
  apply meters_bind (meters_writePage s _ _)
  intro _
  apply meters_bind (meters_update s fun _ _ => rfl)
  intro _
  exact meters_writeEntry s _ _ _

theorem meters_kmallocPages (count : Nat) :
    Meters (meter s) (SbuUnix.kmallocPages count) (kmallocPages s count) := by
  induction count with
  | zero => exact meters_pure _
  | succ count inductionHypothesis =>
      apply meters_bind (meters_allocate s)
      intro page
      apply meters_bind (meters_mapKernel s _ _)
      intro _
      apply meters_bind (meters_writePage s _ _)
      intro _
      apply meters_bind inductionHypothesis
      intro later
      exact meters_pure _

theorem taken_kmallocPages (count : Nat) :
    ∀ l : Ledger, l.taken + count ≤ (kmallocPages s count l).2.taken := by
  induction count with
  | zero => exact fun l => Nat.le_refl _
  | succ count inductionHypothesis =>
      intro l
      let page := pageAddr (s.supply l.taken)
      let mapped := (mapKernel s (kernelAddr ||| page) page
        { l with taken := l.taken + 1 }).2
      have more : l.taken + 1 ≤ mapped.taken :=
        (meters_mapKernel s (kernelAddr ||| page) page
          { l with taken := l.taken + 1 }).1
      have rest := inductionHypothesis
        { mapped with
          paging := mapped.paging.writePage (kernelFrame page) fun _ => 0 }
      refine Nat.le_trans ?_ rest
      change l.taken + (count + 1) ≤ mapped.taken + count
      omega

theorem meters_kmalloc (size : Int) :
    Meters (meter s) (SbuUnix.kmalloc size) (kmalloc s size) := by
  apply meters_bind (meters_kmallocPages s (numPage size))
  intro frames
  exact meters_pure _

end Ledger

/-! ## Requests -/

/-- The operations that take frames on behalf of a caller. -/
inductive FrameRequest where
  | kmalloc (size : Int)
  | mapKernel (vAddress phys : Word)
  | mapUser (vAddress phys cr3Addr : Word)

namespace FrameRequest

def serve : FrameRequest → PagingM PUnit
  | kmalloc size => do
      let _ ← SbuUnix.kmalloc size
      pure ⟨⟩
  | mapKernel vAddress phys => mapPhysToVirtAddr vAddress phys
  | mapUser vAddress phys cr3Addr => mapPhysToUserVirtAddr vAddress phys cr3Addr

/-- A request on frames that never run out. -/
def book (s : Paging) : FrameRequest → LedgerM PUnit
  | kmalloc size => do
      let _ ← Ledger.kmalloc s size
      pure ⟨⟩
  | mapKernel vAddress phys => Ledger.mapKernel s vAddress phys
  | mapUser vAddress phys cr3Addr => Ledger.mapUser s vAddress phys cr3Addr

/-- The number of data and page-table frames that a request needs. -/
def needed (s : Paging) (request : FrameRequest) : Nat :=
  (request.book s { paging := s }).2.taken

theorem meters_serve (s : Paging) (request : FrameRequest) :
    Meters (Ledger.meter s) request.serve (request.book s) := by
  cases request with
  | kmalloc size =>
      apply meters_bind (Ledger.meters_kmalloc s size)
      exact fun _ => meters_pure _
  | mapKernel vAddress phys => exact Ledger.meters_mapKernel s vAddress phys
  | mapUser vAddress phys cr3Addr =>
      exact Ledger.meters_mapUser s vAddress phys cr3Addr

/-- A block takes at least its pages. -/
theorem numPage_le_needed (s : Paging) (size : Int) :
    numPage size ≤ needed s (kmalloc size) := by
  have pages := Ledger.taken_kmallocPages s (numPage size) { paging := s }
  rwa [Nat.zero_add] at pages

/-- A request that the map has frames for succeeds, and takes as many bits
as it needs. -/
theorem serve_of_enough {s : Paging} {request : FrameRequest}
    (enough : request.needed s ≤ s.freeCount) :
    ∃ next, request.serve s = .ok (⟨⟩, next) ∧
      next.freeCount = s.freeCount - request.needed s := by
  have runs := @Meters.returns _ _ _ _ _ _ _ (meters_serve s request)
    { paging := s } enough
  exact ⟨_, runs, Ledger.freeCount_current s _⟩

/-- Otherwise it goes on with the page index `-1`. -/
theorem serve_of_short {s : Paging} {request : FrameRequest}
    (short : s.freeCount < request.needed s) :
    request.serve s = .error .noFreeFrame :=
  @Meters.fails _ _ _ _ _ _ _ (meters_serve s request) { paging := s }
    (Nat.zero_le _) short

end FrameRequest

/-- A request with too few frames comes back and leaves the state as it was,
however it reports that; with enough it succeeds. -/
def AtomicWhenExhausted (request : FrameRequest) (s : Paging) : Prop :=
  (s.freeCount < request.needed s → request.serve s = .ok (⟨⟩, s)) ∧
    (request.needed s ≤ s.freeCount →
      ∃ next, request.serve s = .ok (⟨⟩, next))

/-- No request checks what the scan of the map returns. -/
theorem atomicWhenExhausted_iff (request : FrameRequest) (s : Paging) :
    AtomicWhenExhausted request s ↔ request.needed s ≤ s.freeCount := by
  constructor
  · intro atomic
    by_contra short
    have comesBack := atomic.1 (Nat.not_le.mp short)
    rw [FrameRequest.serve_of_short (Nat.not_le.mp short)] at comesBack
    cases comesBack
  · intro enough
    refine ⟨fun short => absurd enough (Nat.not_le.mpr short), fun _ => ?_⟩
    obtain ⟨next, served, -⟩ := FrameRequest.serve_of_enough enough
    exact ⟨next, served⟩

/-- A machine without a free frame. -/
def fullPaging : Paging where
  mem := fun _ _ => 0
  freeMap := fun _ => 0
  cr3 := pageAddr 16

theorem freeCount_fullPaging : fullPaging.freeCount = 0 := by
  unfold Paging.freeCount
  apply Finset.card_eq_zero.mpr
  apply Finset.filter_eq_empty_iff.mpr
  intro frame _
  simp [Paging.isFree, fullPaging]

/-- `kmalloc(1)` when no bit is set. -/
theorem not_atomicWhenExhausted :
    ¬ AtomicWhenExhausted (.kmalloc 1) fullPaging := by
  intro atomic
  have needs : 1 ≤ FrameRequest.needed fullPaging (.kmalloc 1) :=
    FrameRequest.numPage_le_needed fullPaging 1
  have short : fullPaging.freeCount <
      FrameRequest.needed fullPaging (.kmalloc 1) := by
    rw [freeCount_fullPaging]
    exact needs
  have comesBack := atomic.1 short
  rw [FrameRequest.serve_of_short short] at comesBack
  cases comesBack

end SbuUnix
