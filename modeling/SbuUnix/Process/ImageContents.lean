import SbuUnix.Paging.ForkRefinement
import SbuUnix.Paging.FrameLeak
import SbuUnix.Process.ImageAreas
import SbuUnix.Process.ImageConfinement
import SbuUnix.Process.UserMemory

/-!
# What a loaded image reads as

`load_binaries` maps a fresh zero page at every page of a segment, also where
an earlier segment has its bytes, and copies the file part of a segment for
two flag combinations only.  `loadedMemory` is the memory that results, as a
function of the headers and the file; it is compared with what the image asks
for.
-/

namespace SbuUnix

open TableForest Outcome

/-! ## Pages of the lower half -/

/-- One past the last address of the lower, canonical half. -/
def userEnd : Nat := 2 ^ 47

theorem pml4Index_ne_of_le {v : Word} (low : v.toNat ≤ userEnd) :
    pml4Index v ≠ 511 := by
  intro last
  have index := congrArg Fin.val last
  rw [pml4Index, val_tableIndex] at index
  change v.toNat / 2 ^ 39 % 512 = 511 at index
  unfold userEnd at low
  omega

/-- Two addresses with the same walk lie in the same page. -/
theorem removeFlag_eq_of_pageOf {v other : Word} (low : v.toNat ≤ userEnd)
    (otherLow : other.toNat ≤ userEnd) (same : pageOf v = pageOf other) :
    removeFlag v = removeFlag other := by
  simp only [pageOf, List.cons.injEq, and_true] at same
  obtain ⟨pt, pd, pdpt, pml4⟩ := same
  have ptSame := congrArg Fin.val pt
  have pdSame := congrArg Fin.val pd
  have pdptSame := congrArg Fin.val pdpt
  have pml4Same := congrArg Fin.val pml4
  simp only [ptIndex, pdIndex, pdptIndex, pml4Index, val_tableIndex] at *
  apply BitVec.eq_of_toNat_eq
  rw [toNat_removeFlag, toNat_removeFlag]
  unfold userEnd pageSize at *
  omega

/-! ## The memory that results -/

/-- The page loop of the segment maps the page of an address. -/
def ElfPhdr.Maps (phdr : ElfPhdr) (v : Word) : Prop :=
  phdr.start ≤ removeFlag v ∧ removeFlag v ≤ phdr.stop

instance (phdr : ElfPhdr) (v : Word) : Decidable (phdr.Maps v) :=
  inferInstanceAs (Decidable (_ ∧ _))

/-- The byte of the file at an offset of the segment. -/
def ElfPhdr.fileByte (bytes : Word → Byte) (elfHdr : Word) (phdr : ElfPhdr)
    (i : Nat) : Byte :=
  bytes (elfHdr + phdr.pOffset + BitVec.ofNat 64 i)

/-- The memory after a page loop from `start` to `stop`. -/
def clearedPages (start stop : Word) (m : Word → Byte) : Word → Byte :=
  fun v => if start ≤ removeFlag v ∧ removeFlag v ≤ stop then 0 else m v

/-- The memory after one more segment. -/
def segmentMemory (bytes : Word → Byte) (elfHdr : Word) (m : Word → Byte)
    (phdr : ElfPhdr) : Word → Byte :=
  let cleared := clearedPages phdr.start phdr.stop m
  if phdr.copied then
    copiedTo cleared (phdr.fileByte bytes elfHdr) phdr.pVaddr phdr.copyCount
  else
    cleared

/-- The headers that the loop of `load_binaries` acts on. -/
def loadHeaders (phdrs : List ElfPhdr) : List ElfPhdr :=
  phdrs.filter fun phdr => phdr.pType = ptLoad

/-- The memory after all segments. -/
def loadedMemory (bytes : Word → Byte) (elfHdr : Word)
    (loads : List ElfPhdr) : Word → Byte :=
  loads.foldl (segmentMemory bytes elfHdr) fun _ => 0

/-! ## What the image asks for -/

/-- The byte that the image asks for at an offset of the segment. -/
def ElfPhdr.imageByte (bytes : Word → Byte) (elfHdr : Word) (phdr : ElfPhdr)
    (i : Nat) : Byte :=
  if i < phdr.pFilesz.toNat then phdr.fileByte bytes elfHdr i else 0

def ElfPhdr.byteAddr (phdr : ElfPhdr) (i : Nat) : Word :=
  phdr.pVaddr + BitVec.ofNat 64 i

/-- A segment that has bytes, all of them in the user half and none in the
heap or the stack, and enough of them for its part of the file. -/
structure ElfPhdr.Loadable (phdr : ElfPhdr) : Prop where
  nonempty : 0 < phdr.pMemsz.toNat
  userHalf : phdr.pVaddr.toNat + phdr.pMemsz.toNat ≤ userEnd
  heapApart : RangeApart phdr.range (heapAddr, heapEnd)
  stackApart : RangeApart phdr.range (stackAddr, stackEnd)
  fits : phdr.pFilesz.toNat ≤ phdr.pMemsz.toNat

/-- Any number of segments that have no byte in common. -/
structure LoadableImage (loads : List ElfPhdr) : Prop where
  loadable : ∀ phdr ∈ loads, phdr.Loadable
  disjoint : loads.Pairwise fun phdr other =>
    RangeApart phdr.range other.range

/-- A byte of a segment is copied from the file, and no later segment maps
its page. -/
structure ElfPhdr.Kept (phdr : ElfPhdr) (later : List ElfPhdr) (i : Nat) :
    Prop where
  copied : phdr.copied = true
  counted : i < phdr.copyCount
  last : ∀ other ∈ later, ¬ other.Maps (phdr.byteAddr i)

instance (phdr : ElfPhdr) (later : List ElfPhdr) (i : Nat) :
    Decidable (phdr.Kept later i) :=
  decidable_of_iff (phdr.copied = true ∧ i < phdr.copyCount ∧
      ∀ other ∈ later, ¬ other.Maps (phdr.byteAddr i))
    ⟨fun ⟨copied, counted, last⟩ => ⟨copied, counted, last⟩,
      fun kept => ⟨kept.copied, kept.counted, kept.last⟩⟩

instance (range other : Word × Word) : Decidable (RangeApart range other) :=
  inferInstanceAs (Decidable (_ ∨ _))

instance (phdr : ElfPhdr) : Decidable phdr.Loadable :=
  decidable_of_iff (0 < phdr.pMemsz.toNat ∧
      phdr.pVaddr.toNat + phdr.pMemsz.toNat ≤ userEnd ∧
      RangeApart phdr.range (heapAddr, heapEnd) ∧
      RangeApart phdr.range (stackAddr, stackEnd) ∧
      phdr.pFilesz.toNat ≤ phdr.pMemsz.toNat)
    ⟨fun ⟨nonempty, userHalf, heapApart, stackApart, fits⟩ =>
        ⟨nonempty, userHalf, heapApart, stackApart, fits⟩,
      fun loadable => ⟨loadable.nonempty, loadable.userHalf,
        loadable.heapApart, loadable.stackApart, loadable.fits⟩⟩

instance (loads : List ElfPhdr) : Decidable (LoadableImage loads) :=
  decidable_of_iff ((∀ phdr ∈ loads, phdr.Loadable) ∧
      loads.Pairwise fun phdr other => RangeApart phdr.range other.range)
    ⟨fun ⟨loadable, disjoint⟩ => ⟨loadable, disjoint⟩,
      fun image => ⟨image.loadable, image.disjoint⟩⟩

section Memory

variable {bytes : Word → Byte} {elfHdr : Word} {m : Word → Byte}
variable {phdr other : ElfPhdr} {i : Nat} {v : Word}
variable {before later loads : List ElfPhdr}

theorem ElfPhdr.copyCount_le (phdr : ElfPhdr) :
    phdr.copyCount ≤ phdr.pFilesz.toNat := by
  unfold ElfPhdr.copyCount
  rw [BitVec.toNat_setWidth]
  exact Nat.mod_le _ _

theorem ElfPhdr.Loadable.toNat_stop (loadable : phdr.Loadable) :
    phdr.stop.toNat = phdr.pVaddr.toNat + phdr.pMemsz.toNat := by
  have below := loadable.userHalf
  unfold userEnd at below
  unfold ElfPhdr.stop
  rw [BitVec.toNat_add, Nat.mod_eq_of_lt (by omega)]

theorem ElfPhdr.Loadable.toNat_byteAddr (loadable : phdr.Loadable)
    (inside : i < phdr.pMemsz.toNat) :
    (phdr.byteAddr i).toNat = phdr.pVaddr.toNat + i := by
  have below := loadable.userHalf
  unfold userEnd at below
  unfold ElfPhdr.byteAddr
  rw [BitVec.toNat_add, BitVec.toNat_ofNat, Nat.mod_eq_of_lt (by omega),
    Nat.mod_eq_of_lt (by omega)]

theorem ElfPhdr.Loadable.byteAddr_lt (loadable : phdr.Loadable)
    (inside : i < phdr.pMemsz.toNat) :
    (phdr.byteAddr i).toNat < userEnd := by
  have below := loadable.userHalf
  rw [loadable.toNat_byteAddr inside]
  omega

/-- The page loop reaches every byte of its own segment. -/
theorem ElfPhdr.Loadable.maps (loadable : phdr.Loadable)
    (inside : i < phdr.pMemsz.toNat) : phdr.Maps (phdr.byteAddr i) := by
  unfold ElfPhdr.Maps ElfPhdr.start
  rw [BitVec.le_def, BitVec.le_def, toNat_removeFlag, toNat_removeFlag,
    loadable.toNat_stop, loadable.toNat_byteAddr inside]
  unfold pageSize
  constructor <;> omega

/-- The copy of one segment misses the bytes of another. -/
theorem ElfPhdr.Loadable.byteAddr_ne (loadable : phdr.Loadable)
    (otherLoadable : other.Loadable)
    (apart : RangeApart phdr.range other.range)
    (inside : i < phdr.pMemsz.toNat) :
    ∀ index < other.copyCount, phdr.byteAddr i ≠ other.byteAddr index := by
  intro index below same
  have counted := other.copyCount_le
  have fits := otherLoadable.fits
  have addr := congrArg BitVec.toNat same
  rw [loadable.toNat_byteAddr inside,
    otherLoadable.toNat_byteAddr (by omega)] at addr
  simp only [RangeApart, Before, ElfPhdr.range, BitVec.le_def,
    loadable.toNat_stop, otherLoadable.toNat_stop] at apart
  omega

theorem segmentMemory_own (loadable : phdr.Loadable)
    (inside : i < phdr.pMemsz.toNat) :
    segmentMemory bytes elfHdr m phdr (phdr.byteAddr i) =
      if phdr.copied = true ∧ i < phdr.copyCount then
        phdr.fileByte bytes elfHdr i
      else
        0 := by
  have cleared :
      clearedPages phdr.start phdr.stop m (phdr.byteAddr i) = 0 :=
    if_pos (loadable.maps inside)
  have small : phdr.copyCount ≤ 2 ^ 64 := by
    unfold ElfPhdr.copyCount
    omega
  unfold segmentMemory
  by_cases copied : phdr.copied = true
  · rw [if_pos copied]
    by_cases counted : i < phdr.copyCount
    · rw [if_pos ⟨copied, counted⟩]
      exact copiedTo_same small counted
    · rw [if_neg fun both => counted both.2, ← cleared]
      apply copiedTo_of_ne
      intro index below same
      have below64 := (phdr.byteAddr i).isLt
      have within := loadable.userHalf
      unfold userEnd at within
      have equal : i = index :=
        addr_add_inj (by omega) (by omega) same
      exact counted (equal ▸ below)
  · rw [if_neg copied, if_neg fun both => copied both.1]
    exact cleared

theorem segmentMemory_other
    (missed : ∀ index < other.copyCount, v ≠ other.byteAddr index) :
    segmentMemory bytes elfHdr m other v =
      if other.Maps v then 0 else m v := by
  unfold segmentMemory
  split
  · exact copiedTo_of_ne missed
  · rfl

/-- Later segments clear the bytes of the pages they map. -/
theorem foldl_segmentMemory
    (missed : ∀ other ∈ later, ∀ index < other.copyCount,
      v ≠ other.byteAddr index) :
    ∀ m : Word → Byte, later.foldl (segmentMemory bytes elfHdr) m v =
      if ∀ other ∈ later, ¬ other.Maps v then m v else 0 := by
  induction later with
  | nil => exact fun m => (if_pos fun _ none => absurd none
      List.not_mem_nil).symm
  | cons first rest inductionHypothesis =>
      intro m
      rw [List.foldl_cons, inductionHypothesis fun other member =>
        missed other (List.mem_cons_of_mem _ member),
        segmentMemory_other (missed first List.mem_cons_self)]
      by_cases maps : first.Maps v <;> simp [maps]

/-- What a byte of a segment reads as after all segments. -/
theorem loadedMemory_byteAddr
    (image : LoadableImage (before ++ phdr :: later))
    (inside : i < phdr.pMemsz.toNat) :
    loadedMemory bytes elfHdr (before ++ phdr :: later) (phdr.byteAddr i) =
      if phdr.Kept later i then phdr.fileByte bytes elfHdr i else 0 := by
  have loadable := image.loadable phdr (by simp)
  have apart := (List.pairwise_cons.mp
    (List.pairwise_append.mp image.disjoint).2.1).1
  have missed : ∀ other ∈ later, ∀ index < other.copyCount,
      phdr.byteAddr i ≠ other.byteAddr index := fun other member =>
    loadable.byteAddr_ne (image.loadable other (by simp [member]))
      (apart other member) inside
  unfold loadedMemory
  rw [List.foldl_append, List.foldl_cons, foldl_segmentMemory missed,
    segmentMemory_own loadable inside]
  by_cases last : ∀ other ∈ later, ¬ other.Maps (phdr.byteAddr i)
  · rw [if_pos last]
    by_cases copied : phdr.copied = true ∧ i < phdr.copyCount
    · rw [if_pos copied, if_pos ⟨copied.1, copied.2, last⟩]
    · rw [if_neg copied,
        if_neg fun kept => copied ⟨kept.copied, kept.counted⟩]
  · rw [if_neg last, if_neg fun kept => last kept.last]

/-- The byte is the one that the image asks for unless the file has something
there that is not kept. -/
theorem loadedMemory_eq_imageByte_iff
    (image : LoadableImage (before ++ phdr :: later))
    (inside : i < phdr.pMemsz.toNat) :
    loadedMemory bytes elfHdr (before ++ phdr :: later) (phdr.byteAddr i) =
        phdr.imageByte bytes elfHdr i ↔
      (i < phdr.pFilesz.toNat → phdr.fileByte bytes elfHdr i ≠ 0 →
        phdr.Kept later i) := by
  rw [loadedMemory_byteAddr image inside]
  unfold ElfPhdr.imageByte
  by_cases kept : phdr.Kept later i
  · have inFile := Nat.lt_of_lt_of_le kept.counted phdr.copyCount_le
    simp [kept, inFile]
  · by_cases inFile : i < phdr.pFilesz.toNat
    · simp [kept, inFile, eq_comm]
    · simp [kept, inFile]

end Memory

/-! ## The address space -/

/-- The pages of a region are mapped in the address space of CR3, at `root`,
each to a frame of its own, and the bytes there are `m`. -/
structure Populated (kind : Nat → Kind) (root : Nat) (s : Paging)
    (region : Word → Prop) (m : Word → Byte) : Prop where
  owned : Owned kind s
  rooted : kind root = .pml4
  current : kernelFrame s.cr3 = root
  mapped : ∀ v, v.toNat < userEnd → region v → ∃ entry,
    lookup childOf s.mem root (pageOf v) = some entry ∧
      hasFlag entry ptWR = true ∧
      (s.mem (frameOf entry)).byteAt v = m v

namespace Populated

variable {kind changed : Nat → Kind} {root fresh : Nat} {s next : Paging}
variable {region smaller : Word → Prop} {m same : Word → Byte}
variable {v page : Word} {content : Page}

theorem mono (populated : Populated kind root s region m)
    (within : ∀ v, v.toNat < userEnd → smaller v → region v ∧ m v = same v) :
    Populated kind root s smaller same where
  owned := populated.owned
  rooted := populated.rooted
  current := populated.current
  mapped := by
    intro v low inside
    obtain ⟨inRegion, byte⟩ := within v low inside
    rw [← byte]
    exact populated.mapped v low inRegion

theorem legal (low : v.toNat < userEnd) :
    OwnedPath ownedIndex (pageOf v) :=
  ownedPath_pageOf (pml4Index_ne_of_le (Nat.le_of_lt low))

/-- Taking frames and adding tables changes nothing that is mapped. -/
theorem extend (populated : Populated kind root s region m)
    (extension : Extends kind s changed next) :
    Populated changed root next region m where
  owned := extension.owned
  rooted := extension.root populated.owned populated.rooted
  current := by rw [extension.cr3, populated.current]
  mapped := by
    intro v low inside
    obtain ⟨entry, found, writable, byte⟩ := populated.mapped v low inside
    have used := populated.owned.used_of_lookup populated.rooted (legal low)
      rfl found
    refine ⟨entry, ?_, writable, ?_⟩
    · rw [extension.lookups root _ populated.rooted (legal low) rfl, found]
    · rw [extension.pages _ used.1 used.2, byte]

/-- A page is mapped to a frame that holds `content`. -/
theorem remap (populated : Populated kind root s region m)
    (low : page.toNat ≤ userEnd)
    (remapped : Remapped kind s changed next root (pageOf page) fresh)
    (filled : next.mem fresh = content) :
    Populated changed root next
      (fun v => removeFlag v = removeFlag page ∨ region v)
      (fun v => if removeFlag v = removeFlag page then
        content.byteAt v else m v) where
  owned := remapped.owned
  rooted := remapped.root_kind populated.owned populated.rooted
  current := by rw [remapped.cr3, populated.current]
  mapped := by
    intro v vLow inside
    have lookups := remapped.lookups root (pageOf v) populated.rooted
      (legal vLow) rfl
    by_cases here : removeFlag v = removeFlag page
    · have walk : pageOf v = pageOf page := by
        rw [← pageOf_removeFlag v, here, pageOf_removeFlag]
      have frame : frameOf (entryOf fresh userFlags) = fresh :=
        Owned.eq_frameOf (Paging.lt_of_isFree remapped.free)
          (removeFlag_entryOf fresh (by decide))
      refine ⟨entryOf fresh userFlags, ?_,
        (privateLeaf_entryOf fresh).writable, ?_⟩
      · rw [lookups, if_pos ⟨rfl, walk⟩]
      · rw [frame, filled, if_pos here]
    · have away : ¬ (root = root ∧ pageOf v = pageOf page) :=
        fun both => here (removeFlag_eq_of_pageOf (Nat.le_of_lt vLow) low
          both.2)
      obtain ⟨entry, found, writable, byte⟩ :=
        populated.mapped v vLow (inside.resolve_left here)
      have used := populated.owned.used_of_lookup populated.rooted
        (legal vLow) rfl found
      refine ⟨entry, ?_, writable, ?_⟩
      · rw [lookups, if_neg away, found]
      · rw [if_neg here, remapped.pages _ used.1 used.2, byte]

/-- A store to a byte of the region changes this byte only. -/
theorem writeByte (populated : Populated kind root s region m)
    (low : v.toNat < userEnd) {entry : Word} (byte : Byte)
    (found : lookup childOf s.mem root (pageOf v) = some entry)
    (writable : hasFlag entry ptWR = true) :
    Populated kind root
      (s.writePage (frameOf entry) ((s.mem (frameOf entry)).setByteAt v byte))
      region (withByte m v byte) where
  owned := populated.owned.writePage
    (populated.owned.used_of_lookup populated.rooted (legal low) rfl found).2
  rooted := populated.rooted
  current := populated.current
  mapped := by
    intro other otherLow inside
    obtain ⟨otherEntry, otherFound, otherWritable, otherByte⟩ :=
      populated.mapped other otherLow inside
    have noTable := (populated.owned.used_of_lookup populated.rooted
      (legal low) rfl found).2
    have kept : lookup childOf (s.writePage (frameOf entry)
        ((s.mem (frameOf entry)).setByteAt v byte)).mem root (pageOf other) =
          lookup childOf s.mem root (pageOf other) := by
      apply populated.owned.hung.lookup_congr (by rw [populated.rooted]; rfl)
        (legal otherLow) (show (pageOf other).length ≤ 4 from Nat.le_refl 4)
      intro table level index depth _ _
      rw [Paging.writePage_of_ne]
      intro isPage
      rw [isPage] at depth
      exact noTable (Kind.isTable_of_depth depth)
    refine ⟨otherEntry, kept.trans otherFound, otherWritable, ?_⟩
    unfold withByte
    by_cases isHere : other = v
    · subst isHere
      rw [found] at otherFound
      cases otherFound
      rw [if_pos rfl, Paging.writePage_same, Page.byteAt_setByteAt_same]
    · rw [if_neg isHere, ← otherByte]
      by_cases sameFrame : frameOf otherEntry = frameOf entry
      · have samePage := (populated.owned.eq_of_private populated.rooted
          populated.rooted (legal low) rfl (legal otherLow) rfl found
          otherFound writable sameFrame).2
        have pages := congrArg BitVec.toNat (removeFlag_eq_of_pageOf
          (Nat.le_of_lt otherLow) (Nat.le_of_lt low) samePage)
        rw [toNat_removeFlag, toNat_removeFlag] at pages
        rw [sameFrame, Paging.writePage_same]
        apply Page.byteAt_setByteAt_of_ne
        intro offsets
        apply isHere
        apply BitVec.eq_of_toNat_eq
        unfold pageSize at pages offsets
        omega
      · rw [Paging.writePage_of_ne sameFrame]

end Populated

section Programs

variable {kind : Nat → Kind} {root : Nat} {s : Paging} {cr3Addr : Word}
variable {region : Word → Prop} {m : Word → Byte} {v start stop : Word}

/-- A fresh zero page in the place of what was mapped there. -/
theorem Populated.loadPage
    (populated : Populated kind (kernelFrame cr3Addr) s region m)
    (low : start.toNat ≤ userEnd) :
    Yields AnyFault (loadPage cr3Addr start) s fun _ next => ∃ changed,
      Populated changed (kernelFrame cr3Addr) next
        (fun v => removeFlag v = removeFlag start ∨ region v)
        (fun v => if removeFlag v = removeFlag start then 0 else m v) := by
  unfold SbuUnix.loadPage
  rw [yields_bind]
  apply yields_allocateVirtPage (anyFault _)
  intro frame free
  have small := lt_of_lt_frameCount (Paging.lt_of_isFree free)
  have used : (s.unsetFree frame).isFree frame = false := by
    simp [Paging.isFree_unsetFree]
  have noTable : ¬ (setKind kind frame .held frame).IsTable := by
    rw [setKind_same]
    exact fun isTable => isTable
  have taken : Extends kind s (setKind kind frame .held)
      ((s.unsetFree frame).writePage frame fun _ => 0) :=
    (Extends.allocate populated.owned free).writeFresh populated.owned free
      used noTable
  have extended := populated.extend taken
  rw [kernelFrame_pageAddr small, yields_bind, memsetPage, yields_modify]
  apply (yields_mapPhysToUserVirtAddr (anyFault _) extended.owned
    extended.rooted (pml4Index_ne_of_le low)).mono
  rintro _ next ⟨changed, fresh, remapped, copied⟩
  rw [kernelFrame_pageAddr small] at copied
  have filled := copied used noTable
  rw [Paging.writePage_same] at filled
  refine ⟨changed, (extended.remap low remapped filled).mono ?_⟩
  intro v _ inside
  exact ⟨inside, by simp only [Page.byteAt_zero]⟩

/-- The start of the next page. -/
theorem removeFlag_next (aligned : removeFlag start = start)
    (next : (start + 4096).toNat = start.toNat + 4096) :
    removeFlag (start + 4096) = start + 4096 := by
  have multiple := congrArg BitVec.toNat aligned
  apply BitVec.eq_of_toNat_eq
  rw [toNat_removeFlag] at multiple ⊢
  rw [next, show (4096 : Nat) = pageSize from rfl,
    Nat.add_div_right _ (by decide), Nat.succ_mul, multiple]

/-- The pages from a start on are the one at the start and those after it. -/
theorem le_removeFlag_iff (aligned : removeFlag start = start)
    (next : (start + 4096).toNat = start.toNat + 4096) :
    start ≤ removeFlag v ↔
      removeFlag v = removeFlag start ∨ start + 4096 ≤ removeFlag v := by
  have multiple := congrArg BitVec.toNat aligned
  have page := toNat_removeFlag v
  rw [toNat_removeFlag] at multiple
  unfold pageSize at multiple page
  rw [aligned, BitVec.le_def, BitVec.le_def, next, ← BitVec.toNat_inj]
  omega

/-- The page loop of a segment. -/
theorem Populated.mapSegment (fuel : Nat) (stopLow : stop.toNat ≤ userEnd) :
    ∀ {kind : Nat → Kind} {s : Paging} {region : Word → Prop}
      {m : Word → Byte} {start : Word},
      Populated kind (kernelFrame cr3Addr) s region m →
        removeFlag start = start →
          Yields AnyFault (mapSegment fuel cr3Addr start stop) s
            fun _ next => ∃ changed,
              Populated changed (kernelFrame cr3Addr) next
                (fun v => start ≤ removeFlag v ∧ removeFlag v ≤ stop ∨
                  region v)
                (clearedPages start stop m) := by
  induction fuel with
  | zero => exact fun _ _ => yields_stop _ _
  | succ fuel inductionHypothesis =>
      intro kind s region m start populated aligned
      rw [mapSegment_succ]
      by_cases below : start ≤ stop
      · rw [if_pos below, yields_bind]
        have startLow : start.toNat ≤ userEnd :=
          Nat.le_trans (BitVec.le_def.mp below) stopLow
        have after : (start + 4096).toNat = start.toNat + 4096 := by
          unfold userEnd at startLow
          rw [BitVec.toNat_add, Nat.mod_eq_of_lt]
          · rfl
          · show start.toNat + 4096 < 2 ^ 64
            omega
        apply (populated.loadPage startLow).mono
        rintro _ next ⟨changed, mapped⟩
        apply (inductionHypothesis mapped
          (removeFlag_next aligned after)).mono
        rintro _ last ⟨final, all⟩
        refine ⟨final, all.mono fun v _ inside => ?_⟩
        unfold clearedPages
        simp only [le_removeFlag_iff aligned after] at inside ⊢
        by_cases isStart : removeFlag v = removeFlag start
        · simp [isStart, aligned, below]
        · simp only [isStart, false_or, if_false] at inside ⊢
          exact ⟨inside, trivial⟩
      · rw [if_neg below, yields_pure]
        refine ⟨kind, populated.mono fun v _ inside => ?_⟩
        have outside : ¬ (start ≤ removeFlag v ∧ removeFlag v ≤ stop) :=
          fun both => below (BitVec.le_trans both.1 both.2)
        exact ⟨inside.resolve_left outside, (if_neg outside).symm⟩

/-- `memcpy` into the region. -/
theorem Populated.memcpyOut (populated : Populated kind root s region m)
    (source : Nat → Byte) {dest : Word} {count : Nat}
    (inside : ∀ index < count,
      (dest + BitVec.ofNat 64 index).toNat < userEnd ∧
        region (dest + BitVec.ofNat 64 index)) :
    Yields AnyFault (memcpyOut source dest count) s fun _ next =>
      Populated kind root next region (copiedTo m source dest count) := by
  unfold SbuUnix.memcpyOut
  apply yields_forUpto (fun index current =>
    Populated kind root current region (copiedTo m source dest index)) count
    populated
  intro index below current holds
  obtain ⟨low, inRegion⟩ := inside index below
  obtain ⟨entry, found, writable, _⟩ := holds.mapped _ low inRegion
  have present := (holds.owned.leaf_of_lookup holds.rooted
    (Populated.legal low) rfl found).1
  have walk : current.translate ptPR (dest + BitVec.ofNat 64 index) =
      some entry := by
    rw [Paging.translate, holds.current,
      holds.owned.mmuWalk_eq holds.rooted
        (pml4Index_ne_of_le (Nat.le_of_lt low))
        (fun entry => (hasFlag_ptPR_iff entry).mpr)
        (fun entry _ => (hasFlag_ptPR_iff entry).mp), found]
    simp [(hasFlag_ptPR_iff entry).mp present]
  unfold storeByte
  rw [yields_bind, yields_get, walk]
  exact holds.writeByte low (source index) found writable

end Programs

/-! ## The loader -/

/-- A refusal promises nothing. -/
theorem yields_refused (k : Kernel) {post : Kernel → Prop} :
    Yields AnyFault (pure false : KernelM Bool) k
      fun loaded next => loaded = true → post next := by
  rw [yields_pure]
  exact fun loaded => Bool.noConfusion loaded

/-- The state while `proc` is loaded from an archive. -/
structure Loading (proc entry cr3Addr : Word) (bytes : Word → Byte)
    (k : Kernel) (kind : Nat → Kind) (region : Word → Prop)
    (m : Word → Byte) : Prop where
  archive : k.archive = bytes
  block : ∃ pcb, k.procs.pcb proc = some pcb ∧ pcb.cr3 = cr3Addr ∧
    pcb.rip = entry
  populated : Populated kind (kernelFrame cr3Addr) k.paging region m

namespace Loading

variable {proc entry cr3Addr elfHdr : Word} {bytes : Word → Byte}
variable {k : Kernel} {kind : Nat → Kind} {region smaller : Word → Prop}
variable {m : Word → Byte} {phdr : ElfPhdr}

theorem mono (loading : Loading proc entry cr3Addr bytes k kind region m)
    (within : ∀ v, v.toNat < userEnd → smaller v → region v) :
    Loading proc entry cr3Addr bytes k kind smaller m where
  archive := loading.archive
  block := loading.block
  populated := loading.populated.mono fun v low inside =>
    ⟨within v low inside, rfl⟩

theorem setPaging {next : Paging} {changed : Nat → Kind}
    {later : Word → Prop} {after : Word → Byte}
    (loading : Loading proc entry cr3Addr bytes k kind region m)
    (populated :
      Populated changed (kernelFrame cr3Addr) next later after) :
    Loading proc entry cr3Addr bytes { k with paging := next } changed later
      after where
  archive := loading.archive
  block := loading.block
  populated := populated

theorem kmallocRecord
    (loading : Loading proc entry cr3Addr bytes k kind region m)
    (size : Int) :
    Yields AnyFault (kmallocRecord size) k fun _ next => ∃ changed,
      Loading proc entry cr3Addr bytes next changed region m := by
  apply yields_kmallocRecord
  intro addr frames paging returned
  obtain ⟨taken, after, allocated, rest⟩ := bind_eq_ok_iff.mp returned
  cases rest
  obtain ⟨changed, extension, _⟩ := yields_of_ok
    (yields_kmallocPages (anyFault _) (numPage size) loading.populated.owned
      (by rw [loading.populated.current]; exact loading.populated.rooted))
    allocated
  exact ⟨changed, loading.archive, loading.block,
    loading.populated.extend extension⟩

theorem derefPcb {post : Pcb → Kernel → Prop}
    (loading : Loading proc entry cr3Addr bytes k kind region m)
    (holds : ∀ pcb, pcb.cr3 = cr3Addr → post pcb k) :
    Yields AnyFault (derefPcb proc) k post := by
  obtain ⟨pcb, found, sameCr3, _⟩ := loading.block
  rw [yields_iff_of_ok (derefPcb_eq found)]
  exact holds pcb sameCr3

theorem storeMm (loading : Loading proc entry cr3Addr bytes k kind region m)
    (mm : MmStruct) :
    Yields AnyFault (storeMm proc mm) k fun _ next =>
      Loading proc entry cr3Addr bytes next kind region m := by
  obtain ⟨pcb, found, sameCr3, sameRip⟩ := loading.block
  unfold SbuUnix.storeMm
  rw [yields_bind]
  apply yields_derefMm.mpr
  intro _ _ _ _
  rw [yields_iff_of_ok (storePcb_eq found)]
  exact
    { archive := loading.archive
      block := ⟨{ pcb with mm := some mm }, put_same, sameCr3, sameRip⟩
      populated := loading.populated }

theorem loadSegment (fuel : Nat)
    (loading : Loading proc entry cr3Addr bytes k kind region m)
    (loadable : phdr.Loadable) :
    Yields AnyFault (loadSegment fuel proc elfHdr phdr) k fun loaded next =>
      loaded = true → ∃ changed,
        Loading proc entry cr3Addr bytes next changed
          (fun v => phdr.Maps v ∨ region v)
          (segmentMemory bytes elfHdr m phdr) := by
  unfold SbuUnix.loadSegment
  rw [yields_bind]
  apply (loading.kmallocRecord 4096).mono
  rintro ⟨addr, frames⟩ first ⟨firstKind, firstLoading⟩
  rw [yields_bind]
  apply yields_derefMm.mpr
  intro _ mm _ _
  cases addMmstruct mm _ with
  | none => exact yields_refused first
  | some added =>
      rw [yields_bind]
      apply (firstLoading.storeMm added).mono
      intro _ second secondLoading
      rw [yields_bind]
      apply secondLoading.derefPcb
      intro pcb sameCr3
      have stopLow : phdr.stop.toNat ≤ userEnd := by
        rw [loadable.toNat_stop]
        exact loadable.userHalf
      rw [sameCr3, yields_bind, yields_runPaging]
      apply (secondLoading.populated.mapSegment fuel stopLow
        (removeFlag_removeFlag _)).mono
      rintro phdrStart paging ⟨mappedKind, mapped⟩
      have mappedLoading := secondLoading.setPaging mapped
      rw [yields_bind]
      apply yields_derefMm.mpr
      intro _ mm _ _
      rw [yields_bind]
      apply (mappedLoading.storeMm _).mono
      intro _ third thirdLoading
      have reached : ∀ index < phdr.copyCount,
          (phdr.byteAddr index).toNat < userEnd ∧
            (phdr.Maps (phdr.byteAddr index) ∨
              region (phdr.byteAddr index)) := by
        intro index below
        have inside : index < phdr.pMemsz.toNat :=
          Nat.lt_of_lt_of_le below
            (Nat.le_trans phdr.copyCount_le loadable.fits)
        exact ⟨loadable.byteAddr_lt inside, Or.inl (loadable.maps inside)⟩
      unfold segmentMemory
      rw [yields_ite]
      constructor
      · intro copied
        rw [if_pos copied, yields_bind]
        apply (thirdLoading.kmallocRecord 4096).mono
        rintro ⟨file, _⟩ fourth ⟨fourthKind, fourthLoading⟩
        rw [yields_bind, yields_get, fourthLoading.archive, yields_bind,
          yields_runPaging]
        apply (fourthLoading.populated.memcpyOut _ reached).mono
        intro _ copiedPaging copiedPopulated
        have copiedLoading := fourthLoading.setPaging copiedPopulated
        rw [yields_bind]
        apply yields_derefMm.mpr
        intro _ mm _ _
        rw [yields_bind]
        apply (copiedLoading.storeMm _).mono
        intro _ last lastLoading
        rw [yields_pure]
        exact fun _ => ⟨fourthKind, lastLoading⟩
      · intro notCopied
        rw [if_neg notCopied, yields_pure]
        exact fun _ => ⟨mappedKind, thirdLoading⟩

/-- The loop over the headers. -/
theorem loadSegments (fuel : Nat) (phdrs : List ElfPhdr) :
    ∀ {k : Kernel} {kind : Nat → Kind} {region : Word → Prop}
      {m : Word → Byte},
      Loading proc entry cr3Addr bytes k kind region m →
        (∀ phdr ∈ loadHeaders phdrs, phdr.Loadable) →
          Yields AnyFault (loadSegments fuel proc elfHdr phdrs) k
            fun loaded next => loaded = true → ∃ changed,
              Loading proc entry cr3Addr bytes next changed
                (fun v => (∃ phdr ∈ loadHeaders phdrs, phdr.Maps v) ∨
                  region v)
                ((loadHeaders phdrs).foldl (segmentMemory bytes elfHdr)
                  m) := by
  induction phdrs with
  | nil =>
      intro k kind region m loading _
      rw [SbuUnix.loadSegments, yields_pure]
      refine fun _ => ⟨kind, loading.mono fun v _ inside => ?_⟩
      simpa [loadHeaders] using inside
  | cons phdr rest inductionHypothesis =>
      intro k kind region m loading loadable
      rw [SbuUnix.loadSegments, yields_ite]
      constructor
      · intro isLoad
        have headers : loadHeaders (phdr :: rest) =
            phdr :: loadHeaders rest := by
          simp [loadHeaders, isLoad]
        rw [headers] at loadable ⊢
        rw [yields_bind]
        apply (loading.loadSegment fuel
          (loadable phdr List.mem_cons_self)).mono
        intro loaded next segment
        rw [yields_ite]
        constructor
        · intro isLoaded
          obtain ⟨changed, nextLoading⟩ := segment isLoaded
          apply (inductionHypothesis nextLoading fun other member =>
            loadable other (List.mem_cons_of_mem _ member)).mono
          intro whole last others isWhole
          obtain ⟨final, lastLoading⟩ := others isWhole
          refine ⟨final, lastLoading.mono fun v _ inside => ?_⟩
          rw [List.exists_mem_cons_iff] at inside
          rcases inside with (here | further) | old
          · exact Or.inr (Or.inl here)
          · exact Or.inl further
          · exact Or.inr (Or.inr old)
        · exact fun _ => yields_refused next
      · intro other
        have headers : loadHeaders (phdr :: rest) = loadHeaders rest := by
          simp [loadHeaders, other]
        rw [headers] at loadable ⊢
        exact inductionHypothesis loading loadable

/-- The heap page takes the place of what was mapped there. -/
theorem initMmap (loading : Loading proc entry cr3Addr bytes k kind region m) :
    Yields AnyFault (initMmap proc) k fun _ next => ∃ changed,
      Loading proc entry cr3Addr bytes next changed
        (fun v => region v ∧ removeFlag v ≠ heapAddr) m := by
  unfold SbuUnix.initMmap
  rw [yields_bind, yields_runPaging]
  apply yields_allocateVirtPage (anyFault _)
  intro frame free
  have taken := loading.setPaging (loading.populated.extend
    (Extends.allocate loading.populated.owned free))
  rw [yields_bind]
  apply taken.derefPcb
  intro pcb sameCr3
  have low : heapAddr.toNat ≤ userEnd := by decide
  rw [sameCr3, yields_bind, yields_runPaging]
  apply (yields_mapPhysToUserVirtAddr (anyFault _) taken.populated.owned
    taken.populated.rooted (pml4Index_ne_of_le low)).mono
  rintro _ paging ⟨changed, fresh, remapped, _⟩
  have aligned : removeFlag heapAddr = heapAddr := by decide
  have mapped : Populated changed (kernelFrame cr3Addr) paging
      (fun v => region v ∧ removeFlag v ≠ heapAddr) m := by
    apply (taken.populated.remap low remapped rfl).mono
    rintro v _ ⟨inside, away⟩
    exact ⟨Or.inr inside, if_neg (by rw [aligned]; exact away)⟩
  have mappedLoading := taken.setPaging mapped
  rw [yields_bind]
  apply yields_derefMm.mpr
  intro _ mm _ _
  cases mm.vma.find? _ with
  | none => exact yields_stop _ _
  | some heap =>
      apply (mappedLoading.storeMm _).mono
      exact fun _ last lastLoading => ⟨changed, lastLoading⟩

theorem loadHeapAndStack
    (loading : Loading proc entry cr3Addr bytes k kind region m) :
    Yields AnyFault (loadHeapAndStack proc) k fun loaded next =>
      loaded = true → ∃ changed,
        Loading proc entry cr3Addr bytes next changed
          (fun v => region v ∧ removeFlag v ≠ heapAddr) m := by
  unfold SbuUnix.loadHeapAndStack
  rw [yields_bind]
  apply (loading.kmallocRecord 4096).mono
  rintro ⟨heap, _⟩ first ⟨firstKind, firstLoading⟩
  rw [yields_bind]
  apply yields_derefMm.mpr
  intro _ mm _ _
  cases addMmstruct mm _ with
  | none => exact yields_refused first
  | some added =>
      rw [yields_bind]
      apply (firstLoading.storeMm _).mono
      intro _ second secondLoading
      rw [yields_bind]
      apply (secondLoading.kmallocRecord 4096).mono
      rintro ⟨stack, _⟩ third ⟨thirdKind, thirdLoading⟩
      rw [yields_bind]
      apply yields_derefMm.mpr
      intro _ mm _ _
      cases addMmstruct mm _ with
      | none => exact yields_refused third
      | some whole =>
          rw [yields_bind]
          apply (thirdLoading.storeMm whole).mono
          intro _ fourth fourthLoading
          rw [yields_bind]
          apply fourthLoading.initMmap.mono
          intro _ last finished
          rw [yields_pure]
          exact fun _ => finished

end Loading

/-! ## Faithful loading -/

/-- The byte that a process with these tables reads, where it may read. -/
def processByte (s : Paging) (cr3Addr v : Word) : Option Byte :=
  shown (fun byte _ => byte) (loadByte userLoad v { s with cr3 := cr3Addr })

/-- The process starts at the entry point, and every byte of every segment
reads as the image asks, whatever the flags of the segment. -/
def LoadedFaithfully (bytes : Word → Byte) (elfStart proc : Word)
    (next : Kernel) : Prop :=
  ∃ pcb, next.procs.pcb proc = some pcb ∧
    pcb.rip = elfEntry bytes elfStart ∧
    ∀ phdr ∈ loadHeaders (elfPhdrs bytes elfStart),
      ∀ i < phdr.pMemsz.toNat,
        processByte next.paging pcb.cr3 (phdr.byteAddr i) =
          some (phdr.imageByte bytes elfStart i)

/-- Every byte of the file parts that is not zero is kept. -/
def FilePartsKept (bytes : Word → Byte) (elfStart : Word) : Prop :=
  ∀ before phdr later,
    loadHeaders (elfPhdrs bytes elfStart) = before ++ phdr :: later →
      ∀ i < phdr.pFilesz.toNat, phdr.fileByte bytes elfStart i ≠ 0 →
        phdr.Kept later i

section Faithful

variable {kind : Nat → Kind} {fuel : Nat} {proc elfStart : Word}
variable {k next : Kernel} {pcb : Pcb} {region : Word → Prop}
variable {m : Word → Byte} {v cr3Addr : Word} {s : Paging}

/-- A mapped byte is what the process reads. -/
theorem Populated.processByte
    (populated : Populated kind (kernelFrame cr3Addr) s region m)
    (low : v.toNat < userEnd) (inside : region v) :
    processByte s cr3Addr v = some (m v) := by
  obtain ⟨entry, found, _, byte⟩ := populated.mapped v low inside
  unfold SbuUnix.processByte
  rw [yields_loadByte (populated.owned.setCr3 cr3Addr) populated.rooted
    (pml4Index_ne_of_le (Nat.le_of_lt low))
    (contents_eq_some_iff.mpr ⟨entry, found, rfl⟩)]
  exact congrArg some byte

/-- No segment has a byte in the page of the heap. -/
theorem ElfPhdr.Loadable.page_ne_heapAddr {phdr : ElfPhdr} {i : Nat}
    (loadable : phdr.Loadable) (inside : i < phdr.pMemsz.toNat) :
    removeFlag (phdr.byteAddr i) ≠ heapAddr := by
  intro same
  have page := congrArg BitVec.toNat same
  have apart := loadable.heapApart
  have start : heapAddr.toNat = 4402039488512 := by decide
  have stop : heapEnd.toNat = 4402039554048 := by decide
  rw [toNat_removeFlag, loadable.toNat_byteAddr inside, start] at page
  simp only [RangeApart, Before, ElfPhdr.range, BitVec.le_def,
    loadable.toNat_stop, start, stop] at apart
  unfold pageSize at page
  omega

/-- What the loader leaves in the address space. -/
theorem loadBinaries_loading (found : k.procs.pcb proc = some pcb)
    (owned : Owned kind k.paging)
    (rooted : kind (kernelFrame pcb.cr3) = .pml4)
    (current : k.paging.cr3 = pcb.cr3)
    (image : LoadableImage (loadHeaders (elfPhdrs k.archive elfStart)))
    (returned : loadBinaries fuel proc elfStart k = .ok (true, next)) :
    ∃ changed, Loading proc (elfEntry k.archive elfStart) pcb.cr3 k.archive
      next changed
      (fun v => (∃ phdr ∈ loadHeaders (elfPhdrs k.archive elfStart),
        phdr.Maps v) ∧ removeFlag v ≠ heapAddr)
      (loadedMemory k.archive elfStart
        (loadHeaders (elfPhdrs k.archive elfStart))) := by
  have loads : Yields AnyFault (loadBinaries fuel proc elfStart) k
      fun loaded next => loaded = true → ∃ changed,
        Loading proc (elfEntry k.archive elfStart) pcb.cr3 k.archive next
          changed
          (fun v => (∃ phdr ∈ loadHeaders (elfPhdrs k.archive elfStart),
            phdr.Maps v) ∧ removeFlag v ≠ heapAddr)
          (loadedMemory k.archive elfStart
            (loadHeaders (elfPhdrs k.archive elfStart))) := by
    unfold loadBinaries
    rw [yields_bind, yields_get, yields_ite]
    constructor
    · intro _
      rw [yields_bind, yields_iff_of_ok (storePcb_eq found)]
      let started : Pcb := { pcb with rip := elfEntry k.archive elfStart }
      have start : Loading proc (elfEntry k.archive elfStart) pcb.cr3
          k.archive { k with procs := k.procs.put proc started } kind
          (fun _ => False) fun _ => 0 :=
        { archive := rfl
          block := ⟨_, put_same, rfl, rfl⟩
          populated :=
            { owned := owned
              rooted := rooted
              current := congrArg kernelFrame current
              mapped := fun _ _ none => none.elim } }
      rw [yields_bind]
      apply (start.loadSegments fuel _ image.loadable).mono
      intro loaded mapped segments
      rw [yields_ite]
      constructor
      · intro isLoaded
        obtain ⟨changed, loading⟩ := segments isLoaded
        apply loading.loadHeapAndStack.mono
        intro whole last finished isWhole
        obtain ⟨final, ready⟩ := finished isWhole
        exact ⟨final, ready.mono fun v _ inside =>
          ⟨Or.inl inside.1, inside.2⟩⟩
      · exact fun _ => yields_refused mapped
    · exact fun _ => yields_refused k
  exact yields_of_ok loads returned rfl

/-- An image is loaded faithfully exactly when every byte of a file part that
is not zero belongs to a segment whose flags are `R|X` or `R|W` and no later
segment maps its page. -/
theorem loadBinaries_loadedFaithfully_iff (found : k.procs.pcb proc = some pcb)
    (owned : Owned kind k.paging)
    (rooted : kind (kernelFrame pcb.cr3) = .pml4)
    (current : k.paging.cr3 = pcb.cr3)
    (image : LoadableImage (loadHeaders (elfPhdrs k.archive elfStart)))
    (returned : loadBinaries fuel proc elfStart k = .ok (true, next)) :
    LoadedFaithfully k.archive elfStart proc next ↔
      FilePartsKept k.archive elfStart := by
  obtain ⟨changed, loading⟩ :=
    loadBinaries_loading found owned rooted current image returned
  obtain ⟨after, afterFound, sameCr3, sameRip⟩ := loading.block
  have reads : ∀ phdr ∈ loadHeaders (elfPhdrs k.archive elfStart),
      ∀ i < phdr.pMemsz.toNat,
        processByte next.paging pcb.cr3 (phdr.byteAddr i) =
          some (loadedMemory k.archive elfStart
            (loadHeaders (elfPhdrs k.archive elfStart))
            (phdr.byteAddr i)) := by
    intro phdr member i inside
    have loadable := image.loadable phdr member
    exact loading.populated.processByte (loadable.byteAddr_lt inside)
      ⟨⟨phdr, member, loadable.maps inside⟩,
        loadable.page_ne_heapAddr inside⟩
  constructor
  · rintro ⟨faithful, faithfulFound, _, asked⟩
    rw [afterFound] at faithfulFound
    cases faithfulFound
    rw [sameCr3] at asked
    intro before phdr later split i inFile
    have member : phdr ∈ loadHeaders (elfPhdrs k.archive elfStart) := by
      rw [split]
      exact List.mem_append_right _ List.mem_cons_self
    have inside := Nat.lt_of_lt_of_le inFile (image.loadable phdr member).fits
    have byte := Option.some.inj
      ((reads phdr member i inside).symm.trans (asked phdr member i inside))
    rw [split] at byte image
    exact (loadedMemory_eq_imageByte_iff image inside).mp byte inFile
  · intro kept
    refine ⟨after, afterFound, sameRip, ?_⟩
    intro phdr member i inside
    obtain ⟨before, later, split⟩ := List.append_of_mem member
    have byte := reads phdr member i inside
    rw [split] at byte image
    rw [(loadedMemory_eq_imageByte_iff image inside).mpr
      (kept before phdr later split i)] at byte
    rw [sameCr3]
    exact byte

end Faithful

/-! ## Two segments -/

/-- An image with two segments of four bytes, both the start of the file: at
`0x400000`, and 16 bytes and `page` pages further on. -/
def neighbourImage (flags page : Byte) (a : Word) : Byte :=
  match (a - 0xFFFFFFFF80210000).toNat with
  | 0 => 0x7F
  | 1 => 0x45
  | 2 => 0x4C
  | 3 => 0x46
  | 26 => 0x40
  | 32 => 64
  | 56 => 2
  | 64 => 1
  | 68 => flags
  | 82 => 0x40
  | 96 => 4
  | 104 => 4
  | 120 => 1
  | 124 => 6
  | 136 => 0x10
  | 137 => page <<< 4
  | 138 => 0x40
  | 152 => 4
  | 160 => 4
  | _ => 0

def neighbourKernel (flags page : Byte) : Kernel :=
  { segmentKernel 0 with archive := neighbourImage flags page }

def loadNeighbours (flags page : Byte) : Except Fault (Bool × Kernel) :=
  loadBinaries 4 0x1000 0xFFFFFFFF80210000 (neighbourKernel flags page)

def firstHeader (flags : Byte) : ElfPhdr where
  pType := 1
  pFlags := flags.setWidth 32
  pOffset := 0
  pVaddr := 0x400000
  pFilesz := 4
  pMemsz := 4

def secondHeader (page : Byte) : ElfPhdr where
  pType := 1
  pFlags := 6
  pOffset := 0
  pVaddr := 0x400010 + page.setWidth 64 <<< 12
  pFilesz := 4
  pMemsz := 4

theorem loadHeaders_neighbourImage :
    ∀ flags ∈ [4, 5], ∀ page ∈ [0, 2],
      loadHeaders (elfPhdrs (neighbourImage flags page) 0xFFFFFFFF80210000) =
        [firstHeader flags, secondHeader page] := by
  decide +kernel

theorem imageByte_neighbourImage :
    ∀ flags ∈ [4, 5], ∀ page ∈ [0, 2],
      (firstHeader flags).imageByte (neighbourImage flags page)
        0xFFFFFFFF80210000 0 = 0x7F := by
  decide

theorem loadableImage_neighbours :
    ∀ flags ∈ [4, 5], ∀ page ∈ [0, 2],
      LoadableImage [firstHeader flags, secondHeader page] := by
  decide

/-- Two segments in pages of their own, both to be copied. -/
theorem filePartsKept_neighbours :
    FilePartsKept (neighbourImage 5 2) 0xFFFFFFFF80210000 := by
  intro before phdr later split
  rw [loadHeaders_neighbourImage 5 (by decide) 2 (by decide)] at split
  cases before with
  | nil =>
      rw [List.nil_append, List.cons.injEq] at split
      obtain ⟨isFirst, isLater⟩ := split
      rw [← isFirst, ← isLater]
      decide
  | cons first rest =>
      cases rest with
      | nil =>
          simp only [List.cons_append, List.nil_append, List.cons.injEq]
            at split
          obtain ⟨_, isSecond, isLater⟩ := split
          rw [← isSecond, ← isLater]
          decide
      | cons second rest =>
          simp at split

theorem loadBinaries_loadedFaithfully_neighbours :
    ∃ next, loadNeighbours 5 2 = .ok (true, next) ∧
      LoadedFaithfully (neighbourImage 5 2) 0xFFFFFFFF80210000 0x1000
        next := by
  have loads : shown (fun loaded _ => loaded) (loadNeighbours 5 2) =
      some true := by
    decide +kernel
  obtain ⟨loaded, next, returned, isLoaded⟩ := exists_of_shown loads
  subst isLoaded
  have root : kernelFrame (pageAddr 16) = 16 := by decide
  have found : (neighbourKernel 5 2).procs.pcb 0x1000 =
      some { cr3 := pageAddr 16, mm := some {} } := rfl
  have ready := ready_segmentKernel 0
  have archive : (neighbourKernel 5 2).archive = neighbourImage 5 2 := rfl
  have image : LoadableImage (loadHeaders
      (elfPhdrs (neighbourKernel 5 2).archive 0xFFFFFFFF80210000)) := by
    rw [archive, loadHeaders_neighbourImage 5 (by decide) 2 (by decide)]
    exact loadableImage_neighbours 5 (by decide) 2 (by decide)
  have rooted : linearKind (kernelFrame (pageAddr 16)) = .pml4 := by
    rw [root]
    exact ready.rooted
  have owned : Owned linearKind (neighbourKernel 5 2).paging := ready.owned
  have current : (neighbourKernel 5 2).paging.cr3 = pageAddr 16 := rfl
  have loaded : loadBinaries 4 0x1000 0xFFFFFFFF80210000
      (neighbourKernel 5 2) = .ok (true, next) := returned
  have faithful := loadBinaries_loadedFaithfully_iff found owned rooted
    current image loaded
  rw [archive] at faithful
  exact ⟨next, returned, faithful.mpr filePartsKept_neighbours⟩

/-- What the process reads first and where its tables are. -/
def firstByte (loaded : Bool) (next : Kernel) : Bool × Option Word ×
    Option Byte :=
  (loaded, (next.procs.pcb 0x1000).map Pcb.cr3,
    processByte next.paging (pageAddr 16) 0x400000)

/-- The file has `0x7F` where the process reads zero. -/
theorem not_loadedFaithfully_of_firstByte {flags page : Byte} {next : Kernel}
    (flagsKnown : flags ∈ [4, 5]) (pageKnown : page ∈ [0, 2])
    (read : firstByte true next = (true, some (pageAddr 16), some 0)) :
    ¬ LoadedFaithfully (neighbourImage flags page) 0xFFFFFFFF80210000
      0x1000 next := by
  rintro ⟨pcb, found, _, asked⟩
  unfold firstByte at read
  rw [found, Prod.mk.injEq, Prod.mk.injEq] at read
  obtain ⟨_, cr3, byte⟩ := read
  have tables : pcb.cr3 = pageAddr 16 := Option.some.inj cr3
  have headers := loadHeaders_neighbourImage flags flagsKnown page pageKnown
  have first := asked (firstHeader flags) (by rw [headers]; simp) 0
    (show 0 < 4 by decide)
  have addr : (firstHeader flags).byteAddr 0 = 0x400000 :=
    show (0x400000 : Word) + BitVec.ofNat 64 0 = 0x400000 by decide
  rw [tables, addr, byte,
    imageByte_neighbourImage flags flagsKnown page pageKnown] at first
  exact absurd (Option.some.inj first) (by decide)

/-- The load returns, but not with the image. -/
theorem exists_misread {flags page : Byte} (flagsKnown : flags ∈ [4, 5])
    (pageKnown : page ∈ [0, 2])
    (loads : shown firstByte (loadNeighbours flags page) =
      some (true, some (pageAddr 16), some 0)) :
    ∃ next, loadNeighbours flags page = .ok (true, next) ∧
      ¬ LoadedFaithfully (neighbourImage flags page) 0xFFFFFFFF80210000
        0x1000 next := by
  obtain ⟨loaded, next, returned, read⟩ := exists_of_shown loads
  have isLoaded : loaded = true := congrArg Prod.fst read
  subst isLoaded
  exact ⟨next, returned,
    not_loadedFaithfully_of_firstByte flagsKnown pageKnown read⟩

/-- A segment in the same page as a later one loses its bytes, and a segment
that is to be read only never gets them. -/
theorem not_loadedFaithfully_neighbours :
    (Ready linearKind 16 (neighbourKernel 5 0).paging ∧
      LoadableImage (loadHeaders
        (elfPhdrs (neighbourImage 5 0) 0xFFFFFFFF80210000)) ∧
      ∃ next, loadNeighbours 5 0 = .ok (true, next) ∧
        ¬ LoadedFaithfully (neighbourImage 5 0) 0xFFFFFFFF80210000 0x1000
          next) ∧
    Ready linearKind 16 (neighbourKernel 4 2).paging ∧
      LoadableImage (loadHeaders
        (elfPhdrs (neighbourImage 4 2) 0xFFFFFFFF80210000)) ∧
      ∃ next, loadNeighbours 4 2 = .ok (true, next) ∧
        ¬ LoadedFaithfully (neighbourImage 4 2) 0xFFFFFFFF80210000 0x1000
          next := by
  have shared := loadHeaders_neighbourImage 5 (by decide) 0 (by decide)
  have readOnly := loadHeaders_neighbourImage 4 (by decide) 2 (by decide)
  refine ⟨⟨ready_segmentKernel 0, ?_, ?_⟩, ready_segmentKernel 0, ?_, ?_⟩
  · rw [shared]
    exact loadableImage_neighbours 5 (by decide) 0 (by decide)
  · have loads : shown firstByte (loadNeighbours 5 0) =
        some (true, some (pageAddr 16), some 0) := by
      decide +kernel
    exact exists_misread (by decide) (by decide) loads
  · rw [readOnly]
    exact loadableImage_neighbours 4 (by decide) 2 (by decide)
  · have loads : shown firstByte (loadNeighbours 4 2) =
        some (true, some (pageAddr 16), some 0) := by
      decide +kernel
    exact exists_misread (by decide) (by decide) loads

end SbuUnix
