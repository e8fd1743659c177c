import SbuUnix.Paging.Extension

/-!
# What the mappers and the kernel allocator do

`map_phys_to_virt_addr` on kernel addresses, `kmalloc` and
`create_user_address_space` extend the paging state.
`map_phys_to_user_virt_addr` maps one page of one address space to a fresh
frame and keeps everything else: `Remapped`.
-/

namespace SbuUnix

open TableForest Outcome

/-! ## Kernel mappings -/

/-- Every address `KERNEL_ADDR | p` lies below entry 511. -/
theorem pml4Index_kernelAddr (p : Word) :
    pml4Index (kernelAddr ||| p) = 511 := by
  have shifted :
      (kernelAddr ||| p) >>> 39 = (0x1FFFFFF : Word) ||| p >>> 39 := by
    have high : kernelAddr >>> 39 = (0x1FFFFFF : Word) := by decide
    rw [← high]
    exact BitVec.ushiftRight_or_distrib ..
  have masked :
      ((0x1FFFFFF : Word) ||| p >>> 39).toNat % 512 = 511 := by
    have low : (511 : Nat) = 2 ^ 9 - 1 := rfl
    rw [BitVec.toNat_or, show (512 : Nat) = 2 ^ 9 from rfl,
      ← Nat.and_two_pow_sub_one_eq_mod, Nat.and_or_distrib_right]
    have ones : (0x1FFFFFF : Word).toNat &&& (2 ^ 9 - 1) = 511 := by decide
    rw [ones]
    have bound : (p >>> 39).toNat &&& (2 ^ 9 - 1) < 2 ^ 9 := by
      rw [Nat.and_two_pow_sub_one_eq_mod]
      exact Nat.mod_lt _ (by decide)
    apply Nat.eq_of_testBit_eq
    intro bit
    rw [Nat.testBit_or]
    by_cases inside : bit < 9
    · rw [low, Nat.testBit_two_pow_sub_one]
      simp [inside]
    · have outside :
          ((p >>> 39).toNat &&& (2 ^ 9 - 1)).testBit bit = false :=
        Nat.testBit_lt_two_pow
          (Nat.lt_of_lt_of_le bound
            (Nat.pow_le_pow_right (by decide) (by omega)))
      simp
  apply Fin.ext
  show ((kernelAddr ||| p) >>> 39).toNat % 512 = 511
  rw [shifted, masked]

namespace Extends

variable {kind changed : Nat → Kind} {s next : Paging}
variable {table frame : Nat} {index : Fin 512} {entry : Word} {value : Kind}

/-- Writing an entry of a last-level kernel table. -/
theorem writeKernelLeaf (extension : Extends kind s changed next)
    (owned : Owned kind s) (tableKind : changed table = .kernelTable 3) :
    Extends kind s changed (next.writeWord table index entry) where
  owned := by
    apply extension.owned.writeWord
    unfold EntryOk
    simp only [tableKind]
    rw [if_neg (by decide)]
    trivial
  kinds := extension.kinds
  pages := by
    intro other used noTable
    have different : other ≠ table := by
      intro same
      rw [← extension.kinds other used, same, tableKind] at noTable
      exact noTable trivial
    rw [Paging.writeWord_of_ne_frame different]
    exact extension.pages other used noTable
  tables := by
    intro root path found rooted legal short reached
    have rootedNow := extension.root owned rooted
    rw [extension.owned.hung.tableAt_congr (Kind.depth_root rootedNow) legal
      (Nat.le_succ_of_le short)
      fun other level position otherDepth _ _ => ?_]
    · exact extension.tables root path found rooted legal short reached
    · have different : other ≠ table := by
        intro same
        rw [same, tableKind] at otherDepth
        cases otherDepth
      rw [Paging.writeWord_of_ne_frame different]
  lookups := by
    intro root path rooted legal full
    have rootedNow := extension.root owned rooted
    rw [← extension.lookups root path rooted legal full]
    refine extension.owned.hung.lookup_congr (Kind.depth_root rootedNow) legal
      (Nat.le_of_eq full) fun other level position otherDepth _ _ => ?_
    have different : other ≠ table := by
      intro same
      rw [same, tableKind] at otherDepth
      cases otherDepth
    rw [Paging.writeWord_of_ne_frame different]
  fewer := extension.fewer
  untouched := by
    intro other free
    have different : other ≠ table := by
      intro same
      have freeKind := extension.owned.free other free
      rw [same, tableKind] at freeKind
      cases freeKind
    rw [Paging.writeWord_of_ne_frame different]
    exact extension.untouched other free
  cr3 := extension.cr3

/-- A frame taken by the operation gets its final kind. -/
theorem setKind (extension : Extends kind s changed next)
    (fresh : s.isFree frame = true) (taken : next.isFree frame = false)
    (heldNow : changed frame = .held)
    (entries : ∀ position,
      EntryOk (setKind changed frame value) frame position
        (next.mem frame position)) :
    Extends kind s (SbuUnix.setKind changed frame value) next where
  owned := by
    refine extension.owned.setKind (fun owner position hangs => ?_)
      entries taken
    rw [heldNow] at hangs
    exact hangs
  kinds := by
    intro other used
    have different : other ≠ frame := by
      intro same
      rw [same, fresh] at used
      cases used
    rw [setKind_of_ne different]
    exact extension.kinds other used
  pages := extension.pages
  tables := extension.tables
  lookups := extension.lookups
  fewer := extension.fewer
  untouched := extension.untouched
  cr3 := extension.cr3

end Extends

section KernelMappings

variable {kind : Nat → Kind} {s : Paging} {allowed : Fault → Prop}

/-- Mapping a page of the kernel half. -/
theorem yields_mapPhysToVirtAddr {vAddress phys : Word}
    (exhausted : allowed .noFreeFrame) (owned : Owned kind s)
    (rooted : kind (kernelFrame s.cr3) = .pml4)
    (kernelHalf : pml4Index vAddress = 511) :
    Yields allowed (mapPhysToVirtAddr vAddress phys) s fun _ next =>
      ∃ changed, Extends kind s changed next := by
  rw [mapPhysToVirtAddr, yields_bind, yields_get, yields_bind]
  refine (yields_nextTable_kernel exhausted (by decide) owned
    (Or.inl ⟨rooted, kernelHalf, rfl⟩)).mono ?_
  rintro pdpt first ⟨firstKind, firstExtension, pdptKind⟩
  rw [yields_bind]
  refine (yields_nextTable_kernel exhausted (by decide)
    firstExtension.owned (Or.inr ⟨pdptKind, by decide⟩)).mono ?_
  rintro pd second ⟨secondKind, secondExtension, pdKind⟩
  rw [yields_bind]
  refine (yields_nextTable_kernel exhausted (by decide)
    secondExtension.owned (Or.inr ⟨pdKind, by decide⟩)).mono ?_
  rintro pt third ⟨thirdKind, thirdExtension, ptKind⟩
  have extension :=
    (firstExtension.trans secondExtension owned).trans thirdExtension owned
  exact ⟨thirdKind, extension.writeKernelLeaf owned ptKind⟩

/-- Every block of `kmalloc` consists of distinct frames that were free, and
its allocation extends the paging state. -/
theorem yields_kmallocPages (exhausted : allowed .noFreeFrame) :
    ∀ (count : Nat) {kind : Nat → Kind} {s : Paging}, Owned kind s →
      kind (kernelFrame s.cr3) = .pml4 →
      Yields allowed (kmallocPages count) s fun frames next =>
        ∃ changed, Extends kind s changed next ∧ frames.Nodup ∧
          frames.length = count ∧
          ∀ frame ∈ frames,
            s.isFree frame = true ∧ changed frame = .held
  | 0, kind, s, owned, _ => by
      rw [kmallocPages, yields_pure]
      exact ⟨kind, Extends.refl owned, List.nodup_nil, rfl,
        fun frame member => absurd member List.not_mem_nil⟩
  | count + 1, kind, s, owned, rooted => by
      rw [kmallocPages, yields_bind]
      apply yields_allocateVirtPage exhausted
      intro frame free
      have small := lt_of_lt_frameCount (Paging.lt_of_isFree free)
      have taken := Extends.allocate owned free
      have rootedTaken := taken.root owned rooted
      rw [yields_bind]
      apply (yields_mapPhysToVirtAddr exhausted taken.owned rootedTaken
        (pml4Index_kernelAddr _)).mono
      rintro _ mapped ⟨mappedKind, mapping⟩
      have frameUsed : (s.unsetFree frame).isFree frame = false := by
        simp [Paging.isFree_unsetFree]
      have frameHeld : mappedKind frame = .held := by
        rw [mapping.kinds frame frameUsed, setKind_same]
      rw [yields_bind, kernelFrame_pageAddr small]
      have cleared :
          Extends kind s mappedKind (mapped.writePage frame fun _ => 0) :=
        (taken.trans mapping owned).writeFresh owned free
          (mapping.used frameUsed)
          (by rw [frameHeld]; exact fun isTable => isTable)
      have rootedNow := cleared.root owned rooted
      have sameCr3 : (mapped.writePage frame fun _ => 0).cr3 = s.cr3 :=
        cleared.cr3
      show Yields allowed (kmallocPages count >>= _)
        (mapped.writePage frame fun _ => 0) _
      rw [yields_bind]
      refine (yields_kmallocPages exhausted count cleared.owned
        (by rw [sameCr3]; exact rootedNow)).mono ?_
      rintro later last ⟨lastKind, rest, distinct, length, fresh⟩
      rw [yields_pure]
      have frameTaken :
          (mapped.writePage frame fun _ => 0).isFree frame = false :=
        mapping.used frameUsed
      refine ⟨lastKind, cleared.trans rest owned, ?_, ?_, ?_⟩
      · refine List.nodup_cons.mpr ⟨fun member => ?_, distinct⟩
        have free := (fresh frame member).1
        rw [frameTaken] at free
        cases free
      · rw [List.length_cons, length]
      · intro other member
        rcases List.mem_cons.mp member with same | later
        · subst same
          exact ⟨free, by rw [rest.kinds other frameTaken, frameHeld]⟩
        · exact ⟨cleared.fewer other (fresh other later).1,
            (fresh other later).2⟩

/-- A new address space: an empty user half and the kernel half of CR3. -/
theorem yields_createUserAddressSpace (exhausted : allowed .noFreeFrame)
    (owned : Owned kind s) (rooted : kind (kernelFrame s.cr3) = .pml4) :
    Yields allowed createUserAddressSpace s fun pml4Addr next =>
      ∃ changed frame, Extends kind s changed next ∧
        pml4Addr = pageAddr frame ∧ s.isFree frame = true ∧
        changed frame = .pml4 ∧
        ∀ index, index ≠ 511 → next.mem frame index = 0 := by
  rw [createUserAddressSpace, yields_bind]
  apply yields_allocateVirtPage exhausted
  intro frame free
  have small := lt_of_lt_frameCount (Paging.lt_of_isFree free)
  have taken := Extends.allocate owned free
  rw [yields_bind]
  apply (yields_mapPhysToVirtAddr exhausted taken.owned
    (taken.root owned rooted) (pml4Index_kernelAddr _)).mono
  rintro _ mapped ⟨mappedKind, mapping⟩
  have frameUsed : (s.unsetFree frame).isFree frame = false := by
    simp [Paging.isFree_unsetFree]
  have frameTaken : mapped.isFree frame = false := mapping.used frameUsed
  have frameHeld : mappedKind frame = .held := by
    rw [mapping.kinds frame frameUsed, setKind_same]
  have heldNoTable : ¬ (mappedKind frame).IsTable := by
    rw [frameHeld]
    exact fun isTable => isTable
  rw [yields_bind, kernelFrame_pageAddr small]
  have cleared :
      Extends kind s mappedKind (mapped.writePage frame fun _ => 0) :=
    (taken.trans mapping owned).writeFresh owned free frameTaken heldNoTable
  have rootedNow := cleared.root owned rooted
  have sameCr3 : mapped.cr3 = s.cr3 := cleared.cr3
  have rootDifferent : kernelFrame s.cr3 ≠ frame := by
    intro same
    rw [← same, owned.used_of_kind (by rw [rooted]; decide)] at free
    cases free
  have copied :
      ((mapped.writePage frame fun _ => 0).mem
        (kernelFrame (mapped.writePage frame fun _ => 0).cr3) 511) =
        mapped.mem (kernelFrame s.cr3) 511 := by
    rw [Paging.writePage_cr3, sameCr3,
      Paging.writePage_of_ne rootDifferent]
  have kernelEntry := cleared.owned.entries (kernelFrame s.cr3) 511
  rw [Paging.writePage_of_ne rootDifferent] at kernelEntry
  unfold EntryOk at kernelEntry
  simp only [rootedNow, if_true] at kernelEntry
  rw [memsetPage, yields_modify, yields_bind, yields_get, yields_bind,
    copied]
  let page : Page := fun position =>
    if position = 511 then mapped.mem (kernelFrame s.cr3) 511 else 0
  have written :
      (mapped.writePage frame fun _ => 0).writeWord frame 511
          (mapped.mem (kernelFrame s.cr3) 511) =
        mapped.writePage frame page := by
    simp only [Paging.writeWord, Paging.writePage, page]
    congr 1
    funext other position
    by_cases sameFrame : other = frame <;>
      by_cases last : position = 511 <;> simp [sameFrame, last]
  rw [writeEntry, yields_modify, yields_pure, written]
  have filled :
      Extends kind s mappedKind (mapped.writePage frame page) :=
    (taken.trans mapping owned).writeFresh owned free frameTaken heldNoTable
  refine ⟨SbuUnix.setKind mappedKind frame .pml4, frame,
    filled.setKind free frameTaken frameHeld (fun position => ?_), rfl, free,
    setKind_same, fun index inner => ?_⟩
  · rw [Paging.writePage_same]
    unfold EntryOk
    simp only [setKind_same]
    by_cases last : position = 511
    · rw [if_pos last]
      simp only [page, if_pos last]
      apply kernelEntry.mono
      intro target holds
      rw [setKind_of_ne, holds]
      intro same
      rw [same, frameHeld] at holds
      cases holds
    · rw [if_neg last]
      simp only [page, if_neg last]
      exact below_zero
  · rw [Paging.writePage_same]
    exact if_neg inner

end KernelMappings

/-- An empty user half has no walk and no user page. -/
theorem tableAt_emptyRoot {mem : Nat → Page} {root : Nat}
    (empty : ∀ index, index ≠ 511 → mem root index = 0) :
    ∀ {path : List (Fin 512)}, OwnedPath ownedIndex path → path ≠ [] →
      tableAt childOf mem root path = none
  | [], _, nonempty => absurd rfl nonempty
  | [index], legal, _ => by
      rw [tableAt_cons_of_eq_some rfl, empty index (legal.2 rfl)]
      exact childOf_zero
  | _ :: index :: path, legal, _ =>
      tableAt_cons_of_eq_none
        (tableAt_emptyRoot empty legal.1 (List.cons_ne_nil index path))

/-! ## Mapping a user page -/

theorem privateLeaf_entryOf (frame : Nat) :
    PrivateLeaf (entryOf frame userFlags) where
  writable := by rw [hasFlag_entryOf _ _ (by decide)]; decide
  user := by rw [hasFlag_entryOf _ _ (by decide)]; decide
  notCow := by rw [hasFlag_entryOf _ _ (by decide)]; decide

/-- One page of one address space is mapped to a fresh frame; all frames in
use keep their kind and, unless they are tables, their contents; all other
pages of all address spaces keep their entry. -/
structure Remapped (kind : Nat → Kind) (s : Paging)
    (changed : Nat → Kind) (next : Paging)
    (root : Nat) (path : List (Fin 512)) (fresh : Nat) : Prop where
  owned : Owned changed next
  free : s.isFree fresh = true
  taken : next.isFree fresh = false
  pageKind : ∃ pt index, changed fresh = .page pt index
  kinds : ∀ frame, s.isFree frame = false → changed frame = kind frame
  pages : ∀ frame, s.isFree frame = false → ¬ (kind frame).IsTable →
    next.mem frame = s.mem frame
  lookups : ∀ other otherPath, kind other = .pml4 →
    OwnedPath ownedIndex otherPath → otherPath.length = 4 →
      lookup childOf next.mem other otherPath =
        if other = root ∧ otherPath = path then
          some (entryOf fresh userFlags)
        else
          lookup childOf s.mem other otherPath
  fewer : ∀ frame, next.isFree frame = true → s.isFree frame = true
  untouched : ∀ frame, next.isFree frame = true →
    next.mem frame = s.mem frame
  cr3 : next.cr3 = s.cr3

namespace Remapped

variable {kind changed final : Nat → Kind} {s next last : Paging}
variable {root fresh : Nat} {path : List (Fin 512)}

theorem used (remapped : Remapped kind s changed next root path fresh)
    {frame : Nat} (used : s.isFree frame = false) :
    next.isFree frame = false := by
  cases free : next.isFree frame with
  | false => rfl
  | true =>
      rw [remapped.fewer frame free] at used
      cases used

theorem root_kind (remapped : Remapped kind s changed next root path fresh)
    (owned : Owned kind s) {other : Nat} (rooted : kind other = .pml4) :
    changed other = .pml4 := by
  rw [remapped.kinds other
    (owned.used_of_kind (by rw [rooted]; decide)), rooted]

theorem freeZero (remapped : Remapped kind s changed next root path fresh)
    (zero : FreeZero s) : FreeZero next := by
  intro frame free index
  rw [remapped.untouched frame free]
  exact zero frame (remapped.fewer frame free) index

/-- An extension before a mapping. -/
theorem of_extends (extension : Extends kind s changed next)
    (owned : Owned kind s)
    (remapped : Remapped changed next final last root path fresh) :
    Remapped kind s final last root path fresh where
  owned := remapped.owned
  free := extension.fewer fresh remapped.free
  taken := remapped.taken
  pageKind := remapped.pageKind
  kinds := by
    intro frame used
    rw [remapped.kinds frame (extension.used used),
      extension.kinds frame used]
  pages := by
    intro frame used noTable
    rw [remapped.pages frame (extension.used used)
      (by rw [extension.kinds frame used]; exact noTable),
      extension.pages frame used noTable]
  lookups := by
    intro other otherPath rooted legal full
    rw [remapped.lookups other otherPath (extension.root owned rooted) legal
      full, extension.lookups other otherPath rooted legal full]
  fewer := fun frame free =>
    extension.fewer frame (remapped.fewer frame free)
  untouched := by
    intro frame free
    rw [remapped.untouched frame free,
      extension.untouched frame (remapped.fewer frame free)]
  cr3 := remapped.cr3.trans extension.cr3

end Remapped

/-! ## Leaf entries -/

section Leaves

variable {kind : Nat → Kind} {s : Paging} {pt : Nat} (index : Fin 512)
variable (entry : Word)

theorem Owned.tableAt_writeLeaf (owned : Owned kind s)
    (ptDepth : (kind pt).depth = some 3) {root : Nat}
    {walk : List (Fin 512)} (rooted : kind root = .pml4)
    (legal : OwnedPath ownedIndex walk) (short : walk.length ≤ 3) :
    tableAt childOf (s.writeWord pt index entry).mem root walk =
      tableAt childOf s.mem root walk :=
  owned.hung.tableAt_setEntry (Kind.depth_root rooted) ptDepth legal
    (Nat.le_succ_of_le short) short

/-- A store to a leaf entry changes the lookup of the page at this entry
only. -/
theorem Owned.lookup_setLeaf (owned : Owned kind s) {home root : Nat}
    {path walk : List (Fin 512)} (homeRooted : kind home = .pml4)
    (homeLegal : OwnedPath ownedIndex path) (homeFull : path.length = 3)
    (reached : tableAt childOf s.mem home path = some pt)
    (rooted : kind root = .pml4) (legal : OwnedPath ownedIndex walk)
    (full : walk.length = 4) :
    lookup childOf (s.writeWord pt index entry).mem root walk =
      if root = home ∧ walk = index :: path then
        if (childOf entry).isSome then some entry else none
      else
        lookup childOf s.mem root walk :=
  owned.hung.lookup_setEntry_reached (Kind.depth_root homeRooted) homeLegal
    homeFull reached (Kind.depth_root rooted) legal full

/-- Writing the leaf entry of one page changes the lookup of this page
only. -/
theorem Owned.lookup_writeLeaf (owned : Owned kind s) {home root : Nat}
    {path walk : List (Fin 512)} (homeRooted : kind home = .pml4)
    (homeLegal : OwnedPath ownedIndex path) (homeFull : path.length = 3)
    (reached : tableAt childOf s.mem home path = some pt)
    (rooted : kind root = .pml4) (legal : OwnedPath ownedIndex walk)
    (full : walk.length = 4) (present : (childOf entry).isSome = true) :
    lookup childOf (s.writeWord pt index entry).mem root walk =
      if root = home ∧ walk = index :: path then
        some entry
      else
        lookup childOf s.mem root walk := by
  rw [owned.lookup_setLeaf index entry homeRooted homeLegal homeFull reached
    rooted legal full, if_pos present]

end Leaves

section UserMappings

variable {kind : Nat → Kind} {s : Paging} {allowed : Fault → Prop}

/-- Writing the leaf entry of a path to a frame the kernel holds. -/
theorem Extends.mapLeaf {changed : Nat → Kind} {next : Paging}
    {root pt parent fresh : Nat} {position index : Fin 512}
    {path : List (Fin 512)}
    (extension : Extends kind s changed next) (owned : Owned kind s)
    (free : s.isFree fresh = true) (taken : next.isFree fresh = false)
    (heldNow : changed fresh = .held)
    (ptKind : changed pt = .table 3 parent position)
    (rooted : kind root = .pml4)
    (legal : OwnedPath ownedIndex (index :: path))
    (full : path.length = 3)
    (reached : tableAt childOf next.mem root path = some pt) :
    Remapped kind s (SbuUnix.setKind changed fresh (.page pt index))
      (next.writeWord pt index (entryOf fresh userFlags)) root
      (index :: path) fresh := by
  have small := Paging.lt_of_isFree free
  have different : pt ≠ fresh := by
    intro same
    rw [same, heldNow] at ptKind
    cases ptKind
  exact
    { owned := by
        refine Owned.writeWord ?_ ?_
        · refine extension.owned.setKind (fun owner place hangs => ?_)
            (fun place => entryOk_of_not_isTable fun isTable => ?_) taken
          · rw [heldNow] at hangs
            exact hangs
          · rw [setKind_same] at isTable
            exact isTable
        · unfold EntryOk
          rw [setKind_of_ne different, ptKind]
          dsimp only
          rw [if_neg (by decide)]
          exact below_entryOf small (by decide)
            (Or.inl ⟨privateLeaf_entryOf fresh, setKind_same⟩)
      free := free
      taken := taken
      pageKind := ⟨pt, index, setKind_same⟩
      kinds := by
        intro frame used
        have notFresh : frame ≠ fresh := by
          intro same
          rw [same, free] at used
          cases used
        rw [setKind_of_ne notFresh]
        exact extension.kinds frame used
      pages := by
        intro frame used noTable
        have notPt : frame ≠ pt := by
          intro same
          rw [← extension.kinds frame used, same, ptKind] at noTable
          exact noTable trivial
        rw [Paging.writeWord_of_ne_frame notPt]
        exact extension.pages frame used noTable
      lookups := by
        intro other otherPath otherRooted otherLegal otherFull
        have otherRootedNow := extension.root owned otherRooted
        rw [extension.owned.lookup_writeLeaf _ _
          (extension.root owned rooted)
          legal.1 full reached otherRootedNow otherLegal otherFull
          (by
            rw [childOf_entryOf small (by decide) (by decide)]
            rfl),
          extension.lookups other otherPath otherRooted otherLegal
            otherFull]
      fewer := extension.fewer
      untouched := by
        intro frame stillFree
        have notPt : frame ≠ pt := by
          intro same
          have freeKind := extension.owned.free frame stillFree
          rw [same, ptKind] at freeKind
          cases freeKind
        rw [Paging.writeWord_of_ne_frame notPt]
        exact extension.untouched frame stillFree
      cr3 := extension.cr3 }

/-- The mapper of user pages: the page is mapped to a fresh frame, which holds
what the given frame held, provided that one is in use and no table. -/
theorem yields_mapPhysToUserVirtAddr {vAddress phys cr3Addr : Word}
    (exhausted : allowed .noFreeFrame) (owned : Owned kind s)
    (rooted : kind (kernelFrame cr3Addr) = .pml4)
    (userHalf : pml4Index vAddress ≠ 511) :
    Yields allowed (mapPhysToUserVirtAddr vAddress phys cr3Addr) s
      fun _ next =>
        ∃ changed fresh,
          Remapped kind s changed next (kernelFrame cr3Addr)
            (pageOf vAddress) fresh ∧
          (s.isFree (kernelFrame phys) = false →
            ¬ (kind (kernelFrame phys)).IsTable →
              next.mem fresh = s.mem (kernelFrame phys)) := by
  have inner : ∀ level : Nat, ∀ index, 0 < level →
      ownedIndex level index := fun level index positive root => by omega
  rw [mapPhysToUserVirtAddr, yields_bind]
  refine (yields_nextTable_user exhausted owned (Kind.depth_root rooted)
    (by decide) fun _ => userHalf).mono ?_
  rintro pdpt first ⟨firstKind, firstExtension, firstPoints, pdptKind⟩
  rw [yields_bind]
  refine (yields_nextTable_user exhausted firstExtension.owned
    (by rw [pdptKind]; rfl) (by decide) (inner 1 _ (by decide))).mono ?_
  rintro pd second ⟨secondKind, secondExtension, secondPoints, pdKind⟩
  rw [yields_bind]
  refine (yields_nextTable_user exhausted secondExtension.owned
    (by rw [pdKind]; rfl) (by decide) (inner 2 _ (by decide))).mono ?_
  rintro pt third ⟨thirdKind, thirdExtension, thirdPoints, ptKind⟩
  -- The walk to the page table, followed through the three extensions.
  have legal4 : OwnedPath ownedIndex [pml4Index vAddress] :=
    ⟨trivial, fun _ => userHalf⟩
  have legal3 :
      OwnedPath ownedIndex [pdptIndex vAddress, pml4Index vAddress] :=
    ⟨legal4, inner 1 _ (by decide)⟩
  have legal2 :
      OwnedPath ownedIndex
        [pdIndex vAddress, pdptIndex vAddress, pml4Index vAddress] :=
    ⟨legal3, inner 2 _ (by decide)⟩
  have walk4 :
      tableAt childOf first.mem (kernelFrame cr3Addr)
        [pml4Index vAddress] = some pdpt := by
    rw [tableAt_cons_of_eq_some rfl]
    exact firstPoints
  have firstRooted := firstExtension.root owned rooted
  have walk3 :
      tableAt childOf second.mem (kernelFrame cr3Addr)
        [pdptIndex vAddress, pml4Index vAddress] = some pd := by
    rw [tableAt_cons_of_eq_some (secondExtension.tables _ _ _ firstRooted
      legal4 (by simp) walk4)]
    exact secondPoints
  have secondRooted :=
    secondExtension.root firstExtension.owned firstRooted
  have walk2 :
      tableAt childOf third.mem (kernelFrame cr3Addr)
        [pdIndex vAddress, pdptIndex vAddress, pml4Index vAddress] =
          some pt := by
    rw [tableAt_cons_of_eq_some (thirdExtension.tables _ _ _ secondRooted
      legal3 (by simp) walk3)]
    exact thirdPoints
  have extension :=
    (firstExtension.trans secondExtension owned).trans thirdExtension owned
  -- The page itself.
  rw [yields_bind]
  apply yields_allocateVirtPage exhausted
  intro fresh free
  have freshSmall := lt_of_lt_frameCount (Paging.lt_of_isFree free)
  have freeBefore := extension.fewer fresh free
  rw [kernelFrame_pageAddr freshSmall, yields_bind, memsetPage,
    yields_modify, yields_bind, memcpyPage, yields_modify, writeEntry,
    yields_modify]
  have taken := Extends.allocate extension.owned free
  have freshTaken : (third.unsetFree fresh).isFree fresh = false := by
    simp [Paging.isFree_unsetFree]
  have freshNoTable :
      ¬ (SbuUnix.setKind thirdKind fresh .held fresh).IsTable := by
    rw [setKind_same]
    exact fun isTable => isTable
  have cleared :
      Extends thirdKind third (SbuUnix.setKind thirdKind fresh .held)
        ((third.unsetFree fresh).writePage fresh fun _ => 0) :=
    taken.writeFresh extension.owned free freshTaken freshNoTable
  let content :=
    ((third.unsetFree fresh).writePage fresh fun _ => 0).mem
      (kernelFrame phys)
  have copied :
      Extends kind s (SbuUnix.setKind thirdKind fresh .held)
        (((third.unsetFree fresh).writePage fresh fun _ => 0).writePage
          fresh content) :=
    extension.trans
      (cleared.writeFresh extension.owned free freshTaken freshNoTable) owned
  have ptNotFresh : pt ≠ fresh := by
    intro same
    have freeKind := extension.owned.free fresh free
    rw [← same, ptKind] at freeKind
    cases freeKind
  have walkNow :
      tableAt childOf
        (((third.unsetFree fresh).writePage fresh fun _ => 0).writePage
          fresh content).mem (kernelFrame cr3Addr)
        [pdIndex vAddress, pdptIndex vAddress, pml4Index vAddress] =
          some pt :=
    (cleared.writeFresh extension.owned free freshTaken
      freshNoTable).tables _ _ _ (extension.root owned rooted) legal2
      (by simp) walk2
  have remapped :=
    copied.mapLeaf owned freeBefore freshTaken setKind_same
      (by rw [setKind_of_ne ptNotFresh]; exact ptKind) rooted
      (show OwnedPath ownedIndex (pageOf vAddress) from
        ⟨legal2, inner 3 _ (by decide)⟩) rfl walkNow
  refine ⟨_, fresh, remapped, fun used noTable => ?_⟩
  have sourceDifferent : kernelFrame phys ≠ fresh := by
    intro same
    rw [same, freeBefore] at used
    cases used
  show Paging.mem (Paging.writeWord _ pt (ptIndex vAddress) _) fresh = _
  rw [Paging.writeWord_of_ne_frame ptNotFresh.symm, Paging.writePage_same]
  show ((third.unsetFree fresh).writePage fresh fun _ => 0).mem
    (kernelFrame phys) = _
  rw [Paging.writePage_of_ne sourceDifferent]
  exact extension.pages (kernelFrame phys) used noTable

end UserMappings

end SbuUnix
