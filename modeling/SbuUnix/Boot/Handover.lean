import SbuUnix.Boot.MemoryMap
import SbuUnix.Paging.FrameOwnership

/-!
# What the boot hands over

The tables that `start` builds hang from entry 511, and building them changes
no frame that stays in the map.  So the machine it leaves fits the ownership
of frames that all later operations keep.
-/

namespace SbuUnix

open TableForest Outcome

/-! ## What the boot leaves alone -/

/-- Nothing hangs from the other entries of the root, and the frames of the
map hold what they held. -/
structure Behind (start : Paging) (root : Nat) (s : Paging) : Prop where
  top : ∀ index, index ≠ 511 → s.mem root index = 0
  untouched : ∀ frame, s.isFree frame = true → s.mem frame = start.mem frame

/-- A state of the boot that began in `k`, with tables below entry 511. -/
structure Building (k : Boot) (root : Nat) (cur : Boot) : Prop where
  booting : ∃ used, Booting k root used cur
  behind : Behind k.paging root cur.paging

section Tables

variable {start s : Paging} {root used table level frame : Nat}
variable {depth : Nat → Option Nat} {slot : Nat → Nat × Fin 512}
variable {index : Fin 512} {word : Word}

/-- An entry of a table of the boot is not in a frame of the map. -/
theorem Behind.write (behind : Behind start root s)
    (used : s.isFree table = false) (top : table = root → index = 511) :
    Behind start root (s.writeWord table index word) where
  top := by
    intro other low
    have apart : ¬ (root = table ∧ other = index) := by
      rintro ⟨same, here⟩
      exact low (here.trans (top same.symm))
    exact (if_neg apart).trans (behind.top other low)
  untouched := by
    intro frame free
    have different : frame ≠ table := by
      rintro rfl
      rw [show (s.writeWord frame index word).isFree frame = s.isFree frame
        from rfl, used] at free
      cases free
    rw [Paging.writeWord_of_ne_frame different]
    exact behind.untouched frame free

theorem Behind.clear (behind : Behind start root s)
    (free : s.isFree frame = true) (inUse : s.isFree root = false) :
    Behind start root
      ((s.unsetFree frame).writePage frame fun _ => 0) where
  top := by
    intro other low
    have different : root ≠ frame := by
      rintro rfl
      rw [inUse] at free
      cases free
    rw [Paging.writePage_of_ne different]
    exact behind.top other low
  untouched := by
    intro other stillFree
    rw [Paging.isFree_writePage, Paging.isFree_unsetFree,
      Bool.and_eq_true] at stillFree
    have different : other ≠ frame := by simpa using stillFree.2
    rw [Paging.writePage_of_ne different]
    exact behind.untouched other stillFree.1

/-- A frame of the map is linked to an entry. -/
theorem Behind.link (behind : Behind start root s)
    (tables : BuiltTables start root used depth slot s)
    (tableDepth : depth table = some level) (free : s.isFree frame = true)
    (top : table = root → index = 511) :
    Behind start root (linked s table index frame) := by
  have inUse := (tables.taken table level tableDepth).2
  apply (behind.clear free (tables.taken root 0 tables.rooted).2).write
  · rw [Paging.isFree_writePage, Paging.isFree_unsetFree, inUse]
    rfl
  · exact top

/-- A table below another one is not the root. -/
theorem BuiltTables.ne_root
    (tables : BuiltTables start root used depth slot s)
    (tableDepth : depth table = some (level + 1)) : table ≠ root := by
  rintro rfl
  rw [tables.rooted] at tableDepth
  cases tableDepth

end Tables

/-! ## The steps of the boot -/

section Steps

variable {k cur : Boot} {root used table : Nat} {path : List (Fin 512)}
variable {start : Paging} {index : Fin 512} {below : TablePointer}

/-- A table that hangs from the root hangs from entry 511. -/
theorem Behind.linkTable (behind : Behind start root cur.paging)
    (has : HasTables start root used cur.paging)
    (reached : tableAt childOf cur.paging.mem root path = some table)
    (short : path.length ≤ 3) (top : path = [] → index = 511) :
    Yields AnyFault (linkTable below (pageAddr table) index) cur
      fun _ next => Behind start root next.paging := by
  obtain ⟨depth, slot, tables⟩ := has
  have tableDepth := tables.depth_tableAt short reached
  have first : table = root → index = 511 := by
    rintro rfl
    rw [tables.rooted] at tableDepth
    exact top (List.length_eq_zero_iff.mp (Option.some.inj tableDepth).symm)
  apply yields_linkTable (tables.small tableDepth) (fun _ => anyFault _)
  intro frame free
  rw [Boot.paging_point]
  exact behind.link tables tableDepth free first

/-- One level of the mapper. -/
theorem Behind.enterTable (behind : Behind start root cur.paging)
    (has : HasTables start root used cur.paging)
    (reached : tableAt childOf cur.paging.mem root path = some table)
    (short : path.length ≤ 3) (top : path = [] → index = 511) :
    Yields AnyFault (enterTable below (pageAddr table) index) cur
      fun _ next => Behind start root next.paging := by
  unfold SbuUnix.enterTable
  rw [yields_bind, yields_get, yields_ite]
  constructor
  · intro _
    rw [yields_modify, Boot.paging_point]
    exact behind
  · intro _
    exact behind.linkTable has reached short top

/-- A page that is mapped in the last 512 GiB. -/
theorem Behind.mapVirtToPhysAddr (behind : Behind start root k.paging)
    (has : HasTables start root used k.paging)
    (isRoot : k.pml4 = pageAddr root) {v : Word} (high : pml4Index v = 511)
    (phys : Word) :
    Yields AnyFault (mapVirtToPhysAddr v phys) k
      fun _ next => Behind start root next.paging := by
  unfold SbuUnix.mapVirtToPhysAddr
  rw [yields_bind, yields_get, isRoot, yields_bind]
  apply (((Entered.start has).enter (by simp) (Nat.lt_succ_self used) .pdpt
    (pml4Index v)).weaken (fun _ _ => anyFault _)).returned.mono
  rintro _ atPdpt ⟨returned, pdpt, isPdpt, toPdpt⟩
  have behindPdpt := yields_of_ok (behind.enterTable has
    (tableAt_nil childOf _ root) (Nat.zero_le 3) (fun _ => high)) returned
  rw [yields_bind, yields_get, yields_bind]
  change atPdpt.pdpt = _ at isPdpt
  rw [isPdpt]
  apply ((toPdpt.enter (by simp) (Nat.lt_succ_self _) .pd
    (pdptIndex v)).weaken (fun _ _ => anyFault _)).returned.mono
  rintro _ atPd ⟨returned, pd, isPd, toPd⟩
  have behindPd := yields_of_ok (behindPdpt.enterTable toPdpt.built
    toPdpt.reached (by simp)
    (fun isRoot => absurd isRoot (List.cons_ne_nil _ _))) returned
  rw [yields_bind, yields_get, yields_bind]
  change atPd.pd = _ at isPd
  rw [isPd]
  apply ((toPd.enter (by simp) (Nat.lt_succ_self _) .pt
    (pdIndex v)).weaken (fun _ _ => anyFault _)).returned.mono
  rintro _ atPt ⟨returned, pt, isPt, toPt⟩
  have behindPt := yields_of_ok (behindPd.enterTable toPd.built
    toPd.reached (by simp)
    (fun isRoot => absurd isRoot (List.cons_ne_nil _ _))) returned
  rw [yields_bind, yields_get]
  change atPt.pt = _ at isPt
  have small := lt_of_lt_frameCount (toPt.small (Nat.le_refl 3))
  unfold onFrames
  rw [isPt, physicalFrame_pageAddr small, yields_zoom]
  unfold writeEntry
  rw [yields_modify]
  obtain ⟨depth, slot, tables⟩ := toPt.built
  have tableDepth := tables.depth_tableAt (by simp) toPt.reached
  exact behindPt.write (tables.taken pt _ tableDepth).2
    fun same => absurd same (tables.ne_root tableDepth)

/-- The loop over the kernel image writes to the table behind `pt` only. -/
structure LeavesOnly (k next : Boot) : Prop where
  pt : next.pt = k.pt
  freeMap : next.paging.freeMap = k.paging.freeMap
  other : ∀ frame, frame ≠ physicalFrame k.pt →
    next.paging.mem frame = k.paging.mem frame

theorem leavesOnly_mapKernelImage (fuel : Nat) :
    ∀ physBase v, Keeps LeavesOnly (mapKernelImage fuel physBase v) := by
  have trans : ∀ first second third, LeavesOnly first second →
      LeavesOnly second third → LeavesOnly first third := by
    intro first second third before later
    refine ⟨later.pt.trans before.pt, later.freeMap.trans before.freeMap, ?_⟩
    intro frame different
    rw [later.other frame (by rw [before.pt]; exact different)]
    exact before.other frame different
  induction fuel with
  | zero => exact fun _ _ => keeps_throw _
  | succ fuel inductionHypothesis =>
      intro physBase v before value next returned
      have whole : Yields AnyFault (mapKernelImage (fuel + 1) physBase v)
          before fun _ next => LeavesOnly before next := by
        unfold mapKernelImage
        rw [yields_bind, yields_get, yields_ite]
        constructor
        · intro _
          rw [yields_bind, yields_get, yields_bind, onFrames, yields_zoom,
            writeEntry, yields_modify]
          apply yields_anyFault.mpr
          intro _ last returned
          have later := inductionHypothesis _ _ _ _ _ returned
          have first : LeavesOnly before
              { before with
                paging := before.paging.writeWord (physicalFrame before.pt)
                  (ptIndex v) (physBase ||| kernelFlags) } :=
            ⟨rfl, rfl, fun _ different =>
              Paging.writeWord_of_ne_frame different⟩
          exact trans _ _ _ first later
        · intro _
          exact ⟨rfl, rfl, fun _ _ => rfl⟩
      have leaves := yields_of_ok whole returned
      exact leaves

theorem Behind.leavesOnly {next : Boot}
    (behind : Behind start root cur.paging) (leaves : LeavesOnly cur next)
    (used : cur.paging.isFree (physicalFrame cur.pt) = false)
    (inner : physicalFrame cur.pt ≠ root) :
    Behind start root next.paging where
  top := by
    intro index low
    rw [leaves.other root inner.symm]
    exact behind.top index low
  untouched := by
    intro frame free
    have before : cur.paging.isFree frame = true := by
      rw [← free]
      unfold Paging.isFree
      rw [leaves.freeMap]
    have different : frame ≠ physicalFrame cur.pt := by
      rintro rfl
      rw [used] at before
      cases before
    rw [leaves.other frame different]
    exact behind.untouched frame before

end Steps

/-! ## The tables of the boot -/

namespace Building

variable {k cur : Boot} {root table : Nat} {path : List (Fin 512)}

/-- A new table for an entry. -/
theorem link (building : Building k root cur)
    (reached : tableAt childOf cur.paging.mem root path = some table)
    (short : path.length ≤ 2) (below : TablePointer) (index : Fin 512)
    (top : path = [] → index = 511) :
    Yields AnyFault (linkTable below (pageAddr table) index) cur
      fun _ next => ∃ frame, Building k root next ∧
        next.pointer below = pageAddr frame ∧
        (∀ other, other ≠ below → next.pointer other = cur.pointer other) ∧
        tableAt childOf next.paging.mem root (index :: path) = some frame ∧
        ∀ other, other.length ≤ path.length →
          tableAt childOf next.paging.mem root other =
            tableAt childOf cur.paging.mem root other := by
  obtain ⟨used, booting⟩ := building.booting
  apply ((booting.link reached short (Nat.lt_succ_self used) below
    index).weaken fun _ _ => anyFault _).returned.mono
  rintro _ next ⟨returned, frame, bootingNext, effects⟩
  have behindNext := yields_of_ok (building.behind.linkTable booting.built
    reached (by omega) top) returned
  exact ⟨frame, ⟨⟨_, bootingNext⟩, behindNext⟩, effects⟩

/-- The table behind `pt` is in use, and is not the root. -/
theorem pt_inner (building : Building k root cur) (full : path.length = 3)
    (reached : tableAt childOf cur.paging.mem root path = some table)
    (isPt : cur.pt = pageAddr table) :
    cur.paging.isFree (physicalFrame cur.pt) = false ∧
      physicalFrame cur.pt ≠ root := by
  obtain ⟨used, booting⟩ := building.booting
  obtain ⟨depth, slot, tables⟩ := booting.built
  have tableDepth := tables.depth_tableAt (by omega) reached
  rw [full] at tableDepth
  rw [isPt, physicalFrame_pageAddr
    (lt_of_lt_frameCount (tables.small tableDepth))]
  exact ⟨(tables.taken table 3 tableDepth).2, tables.ne_root tableDepth⟩

theorem writeLeaf (building : Building k root cur) (full : path.length = 3)
    (reached : tableAt childOf cur.paging.mem root path = some table)
    (isPt : cur.pt = pageAddr table) (index : Fin 512) (word : Word) :
    Yields AnyFault
      (onFrames (writeEntry (physicalFrame cur.pt) index word)) cur
      fun _ next => Building k root next := by
  obtain ⟨used, booting⟩ := building.booting
  obtain ⟨inUse, inner⟩ := building.pt_inner full reached isPt
  have bounded : Yields (LacksFrames k.paging 0) _ cur _ :=
    booting.writeLeaf full reached isPt index word
  apply (bounded.weaken fun _ _ => anyFault _).returned.mono
  rintro _ next ⟨returned, bootingNext, _⟩
  cases returned
  exact ⟨⟨used, bootingNext⟩, building.behind.write inUse
    fun same => absurd same inner⟩

theorem mapKernelImage (building : Building k root cur) {fuel : Nat}
    {physBase v : Word} (low : k.physfreeStart.toNat ≤ 2 ^ 63)
    (full : path.length = 3)
    (reached : tableAt childOf cur.paging.mem root path = some table)
    (isPt : cur.pt = pageAddr table)
    (enough : k.physfreeStart.toNat ≤ physBase.toNat + fuel * 4096) :
    Yields AnyFault (mapKernelImage (fuel + 1) physBase v) cur fun _ next =>
      Building k root next ∧ next.pd = cur.pd ∧
        ∀ other, other.length ≤ 3 →
          tableAt childOf next.paging.mem root other =
            tableAt childOf cur.paging.mem root other := by
  obtain ⟨used, booting⟩ := building.booting
  obtain ⟨inUse, inner⟩ := building.pt_inner full reached isPt
  have bounded : Yields (LacksFrames k.paging 0)
      (SbuUnix.mapKernelImage (fuel + 1) physBase v) cur _ :=
    booting.mapKernelImage low full reached isPt enough
  apply (bounded.weaken fun _ _ => anyFault _).returned.mono
  rintro _ next ⟨returned, bootingNext, effects⟩
  have leaves := leavesOnly_mapKernelImage _ _ _ _ _ _ returned
  exact ⟨⟨⟨used, bootingNext⟩, building.behind.leavesOnly leaves inUse inner⟩,
    effects⟩

theorem mapVirtToPhysAddr (building : Building k root cur) {v : Word}
    (high : pml4Index v = 511) (phys : Word) :
    Yields AnyFault (mapVirtToPhysAddr v phys) cur
      fun _ next => Building k root next := by
  obtain ⟨used, booting⟩ := building.booting
  apply ((booting.mapVirtToPhysAddr (Nat.le_refl (used + 3)) v
    phys).weaken fun _ _ => anyFault _).returned.mono
  rintro _ next ⟨returned, bootingNext⟩
  have behindNext := yields_of_ok
    (building.behind.mapVirtToPhysAddr booting.built booting.pml4 high phys)
    returned
  exact ⟨⟨_, bootingNext⟩, behindNext⟩

end Building

section Setup

variable {k : Boot} {root : Nat}

theorem building_root {cur : Boot} (free : k.paging.isFree root = true)
    (paging : cur.paging =
      (k.paging.unsetFree root).writePage root fun _ => 0)
    (pml4 : cur.pml4 = pageAddr root) (cr3 : cur.cr3 = pageAddr root)
    (physfreeStart : cur.physfreeStart = k.physfreeStart)
    (physfreeEnd : cur.physfreeEnd = k.physfreeEnd) :
    Building k root cur where
  booting := ⟨1,
    { built := by
        rw [paging]
        exact ⟨_, _, builtTables_root free⟩
      pml4 := pml4
      cr3 := cr3
      physfreeStart := physfreeStart
      physfreeEnd := physfreeEnd }⟩
  behind :=
    { top := by
        intro index _
        rw [paging, Paging.writePage_same]
      untouched := by
        intro frame stillFree
        rw [paging, Paging.isFree_writePage, Paging.isFree_unsetFree,
          Bool.and_eq_true] at stillFree
        have different : frame ≠ root := by simpa using stillFree.2
        rw [paging, Paging.writePage_of_ne different]
        rfl }

/-- `setup_page_tables` for a kernel that is linked in the last 512 GiB. -/
theorem yields_setupPageTables_building {fuel : Nat}
    {kernmem physBase : Word} (high : pml4Index kernmem = 511)
    (low : k.physfreeStart.toNat ≤ 2 ^ 63)
    (enough : k.physfreeStart.toNat ≤ physBase.toNat + fuel * 4096)
    (physFree : Word) :
    Yields AnyFault (setupPageTables (fuel + 1) kernmem physBase physFree) k
      fun _ next => ∃ root, Building k root next := by
  unfold setupPageTables
  rw [yields_bind, onFrames, yields_zoom]
  apply yields_allocatePage (fun _ => anyFault _)
  intro root free
  rw [yields_bind, yields_modify, yields_bind, yields_modify, yields_bind,
    yields_get, yields_bind]
  have building : Building k root
      { k with
        paging := (k.paging.unsetFree root).writePage root fun _ => 0
        pml4 := pageAddr root
        cr3 := pageAddr root } :=
    building_root free rfl rfl rfl rfl rfl
  apply (building.link (tableAt_nil childOf _ root) (Nat.zero_le 2) .pdpt _
    fun _ => high).mono
  rintro _ atPdpt ⟨pdpt, building, isPdpt, -, toPdpt, -⟩
  rw [yields_bind, yields_get, yields_bind]
  change atPdpt.pdpt = _ at isPdpt
  rw [isPdpt]
  apply (building.link toPdpt (by simp) .pd _
    fun isRoot => absurd isRoot (List.cons_ne_nil _ _)).mono
  rintro _ atPd ⟨pd, building, isPd, -, toPd, -⟩
  rw [yields_bind, yields_get, yields_bind]
  change atPd.pd = _ at isPd
  rw [isPd]
  apply (building.link toPd (by simp) .pt _
    fun isRoot => absurd isRoot (List.cons_ne_nil _ _)).mono
  rintro _ atPt ⟨pt, building, isPt, samePd, toPt, sameWalks⟩
  have stillPd : atPt.pd = pageAddr pd := (samePd .pd (by decide)).trans isPd
  have stillToPd := (sameWalks _ (Nat.le_refl _)).trans toPd
  rw [yields_bind]
  apply (building.mapKernelImage low rfl toPt isPt enough).mono
  rintro _ image ⟨building, imagePd, imageWalks⟩
  have imageToPd := (imageWalks _ (by simp)).trans stillToPd
  rw [yields_bind, yields_get, yields_bind, imagePd, stillPd]
  apply (building.link imageToPd (by simp) .pt _
    fun isRoot => absurd isRoot (List.cons_ne_nil _ _)).mono
  rintro _ video ⟨videoPt, building, isVideo, -, toVideo, -⟩
  rw [yields_bind, yields_get, yields_bind]
  apply (building.writeLeaf rfl toVideo isVideo _ _).mono
  intro _ written building
  rw [yields_bind, yields_get, yields_bind, yields_get, yields_bind]
  apply (building.mapVirtToPhysAddr (pml4Index_kernelAddr _) _).mono
  intro _ first building
  rw [yields_bind, yields_get, yields_bind, yields_get, yields_bind]
  apply (building.mapVirtToPhysAddr (pml4Index_kernelAddr _) _).mono
  intro _ second building
  rw [yields_bind, yields_get, yields_bind, yields_get, yields_bind]
  apply (building.mapVirtToPhysAddr (pml4Index_kernelAddr _) _).mono
  intro _ third building
  rw [yields_bind, yields_get, yields_bind, yields_get]
  apply (building.mapVirtToPhysAddr (pml4Index_kernelAddr _) _).mono
  intro _ last building
  exact ⟨root, building⟩

/-- The loop of `set_identity_paging` below 2 GiB. -/
theorem Building.mapMemory (low : k.physfreeEnd.toNat ≤ 2 ^ 31)
    (fuel : Nat) :
    ∀ {count : Nat} {cur : Boot}, Building k root cur → count ≤ 524288 →
      Yields AnyFault
        (mapMemory fuel (kernelAddr + pageAddr count) (pageAddr count)) cur
        fun _ next => Building k root next := by
  induction fuel with
  | zero => exact fun _ _ => yields_stop _ _
  | succ fuel inductionHypothesis =>
      intro count cur building small
      obtain ⟨used, booting⟩ := building.booting
      unfold SbuUnix.mapMemory
      rw [yields_bind, yields_get, booting.physfreeEnd, yields_ite]
      constructor
      · intro more
        have order := BitVec.lt_def.mp more
        rw [pageAddr_toNat_of_le small] at order
        have inside : count < 524288 := by omega
        have address : kernelAddr + pageAddr count = linearAddr count :=
          (linear_eq_add inside).symm
        rw [yields_bind, address]
        apply (building.mapVirtToPhysAddr (pml4Index_kernelAddr _) _).mono
        intro _ mapped building
        rw [← address, BitVec.add_assoc, ← pageAddr_succ]
        exact inductionHypothesis building (by omega)
      · intro _
        exact building

end Setup

/-! ## Ownership after the boot -/

/-- What a frame is used for when the boot is over. -/
def bootKind (root : Nat) (depth : Nat → Option Nat) (s : Paging)
    (frame : Nat) : Kind :=
  if frame = root then
    .pml4
  else
    match depth frame with
    | some (level + 1) => .kernelTable (level + 1)
    | _ => if s.isFree frame then .free else .held

section Ownership

variable {start s : Paging} {root used frame target level : Nat}
variable {depth : Nat → Option Nat} {slot : Nat → Nat × Fin 512}

theorem bootKind_table (tables : BuiltTables start root used depth slot s)
    (tableDepth : depth frame = some (level + 1)) :
    bootKind root depth s frame = .kernelTable (level + 1) := by
  unfold bootKind
  rw [if_neg (tables.ne_root tableDepth), tableDepth]

theorem bootKind_other (depth : Nat → Option Nat) (s : Paging)
    (notRoot : frame ≠ root) :
    (∃ level, depth frame = some (level + 1)) ∨
      bootKind root depth s frame = .free ∨
        bootKind root depth s frame = .held := by
  unfold bootKind
  rw [if_neg notRoot]
  split
  · next level found => exact Or.inl ⟨level, found⟩
  · right
    by_cases free : s.isFree frame = true
    · exact Or.inl (if_pos free)
    · exact Or.inr (if_neg free)

/-- A frame that the map never had belongs to the kernel. -/
theorem bootKind_held (tables : BuiltTables start root used depth slot s)
    (never : start.isFree frame = false) :
    bootKind root depth s frame = .held := by
  have notTable : ∀ level, depth frame ≠ some level := by
    intro level tableDepth
    have taken := (tables.taken frame level tableDepth).1
    rw [never] at taken
    cases taken
  have notFree : s.isFree frame = false := by
    cases free : s.isFree frame with
    | false => rfl
    | true =>
        rw [tables.fewer frame free] at never
        cases never
  have notRoot : frame ≠ root := by
    rintro rfl
    exact notTable 0 tables.rooted
  unfold bootKind
  rw [if_neg notRoot]
  cases found : depth frame with
  | none => simp [notFree]
  | some level => exact absurd found (notTable level)

theorem bootKind_free (tables : BuiltTables start root used depth slot s)
    (free : s.isFree frame = true) :
    bootKind root depth s frame = .free := by
  have notTable : ∀ level, depth frame ≠ some level := by
    intro level tableDepth
    exact absurd rfl (tables.ne_of_free tableDepth free)
  have notRoot : frame ≠ root := by
    rintro rfl
    exact notTable 0 tables.rooted
  unfold bootKind
  rw [if_neg notRoot]
  cases found : depth frame with
  | none => simp [free]
  | some level => exact absurd found (notTable level)

/-- An entry of a table of the boot is empty or leads one level down. -/
theorem BuiltTables.below (tables : BuiltTables start root used depth slot s)
    (tableDepth : depth frame = some level) (inner : level < 3)
    (index : Fin 512) :
    Below (bootKind root depth s) (s.mem frame index)
      fun below => below = .kernelTable (level + 1) := by
  intro present
  rcases tables.entries frame level index tableDepth inner with
    empty | ⟨target, word, targetDepth, -⟩
  · rw [empty] at present
    cases present
  · refine ⟨target, tables.small targetDepth, ?_,
      bootKind_table tables targetDepth⟩
    rw [word]
    exact removeFlag_entryOf target removeFlag_kernelFlags

theorem owned_bootKind (tables : BuiltTables start root used depth slot s)
    (behind : Behind start root s) : Owned (bootKind root depth s) s where
  entries := by
    intro frame index
    by_cases isRoot : frame = root
    · subst isRoot
      unfold EntryOk
      rw [show bootKind frame depth s frame = .pml4 from if_pos rfl]
      dsimp only
      split
      · exact tables.below tables.rooted (by omega) index
      · next low =>
          intro present
          rw [behind.top index low] at present
          cases present
    · rcases bootKind_other depth s isRoot with ⟨level, found⟩ | plain
      · unfold EntryOk
        rw [bootKind_table tables found]
        dsimp only
        split
        · next inner => exact tables.below found inner index
        · trivial
      · unfold EntryOk
        rcases plain with free | held
        · rw [free]
          trivial
        · rw [held]
          trivial
  free := fun _ free => bootKind_free tables free

end Ownership

/-- The machine that the boot leaves: one address space, and the frames up to
the end of the kernel image and the bitmap are taken. -/
def handedOver (booted : Boot) : Allocation where
  paging := booted.paging
  spaces := [booted.cr3]
  kmalloced := List.range (frameFrom booted.physfreeStart.toNat)

/-- `load_CR3` leaves a machine that fits the ownership of frames, when no
frame of the image was in the map and the frames of the map read as zero. -/
theorem Building.consistent {k cur booted : Boot} {root : Nat}
    (building : Building k root cur)
    (image : ∀ frame, k.paging.isFree frame = true →
      k.physfreeStart.toNat ≤ frame * 4096)
    (positive : 0 < k.physfreeStart.toNat) (zero : FreeZero k.paging)
    (returned : loadCR3 cur = .ok ((), booted)) :
    ∃ kind, Consistent kind (handedOver booted) := by
  obtain ⟨used, booting⟩ := building.booting
  obtain ⟨depth, slot, tables⟩ := booting.built
  cases returned
  have rootSmall := lt_of_lt_frameCount (tables.small tables.rooted)
  have held : ∀ frame < frameFrom k.physfreeStart.toNat,
      bootKind root depth cur.paging frame = .held := by
    intro frame below
    apply bootKind_held tables
    cases free : k.paging.isFree frame with
    | false => rfl
    | true =>
        have high := image frame free
        unfold frameFrom at below
        omega
  have nonempty : 0 < frameFrom k.physfreeStart.toNat := by
    unfold frameFrom
    omega
  refine ⟨bootKind root depth cur.paging, ?_⟩
  constructor
  · exact (owned_bootKind tables building.behind).congr (fun _ _ => rfl)
      fun _ free => free
  · intro frame free index
    have wasFree := tables.fewer frame free
    rw [← zero frame wasFree index, ← building.behind.untouched frame free]
    rfl
  · exact held 0 nonempty
  · intro cr3Addr member
    rw [List.mem_singleton.mp member]
    show bootKind root depth cur.paging (kernelFrame cur.cr3) = .pml4
    rw [booting.cr3, kernelFrame_pageAddr rootSmall]
    exact if_pos rfl
  · exact List.mem_singleton.mpr rfl
  · intro frame member
    apply held
    rw [← booting.physfreeStart]
    exact List.mem_range.mp member
  · exact List.nodup_range

/-! ## The whole boot -/

/-- What `init_paging` does beside the map. -/
structure MapOnly (k next : Boot) : Prop where
  mem : next.paging.mem = k.paging.mem
  physfreeStart : next.physfreeStart = k.physfreeStart
  physfreeEnd : next.physfreeEnd = k.physfreeEnd

theorem mapOnly_markFrame (start : Nat) :
    Keeps MapOnly (markFrame start) := by
  intro k value next returned
  have marked : Yields AnyFault (markFrame start) k
      fun _ next => MapOnly k next := by
    unfold markFrame
    rw [yields_bind, yields_get, yields_ite]
    constructor
    · intro _
      exact ⟨rfl, rfl, rfl⟩
    · intro _
      rw [onFrames, yields_zoom, setBit, yields_ite]
      exact ⟨fun _ => ⟨rfl, rfl, rfl⟩, fun _ => yields_stop _ _⟩
  have holds := yields_of_ok marked returned
  exact holds

theorem initPaging_mapOnly {physbase physfree base length : Word}
    {k next : Boot}
    (returned : initPaging physbase physfree base length k =
      .ok ((), next)) :
    next.paging.mem = k.paging.mem ∧
      next.physfreeStart = physfree + 2048 ∧
        next.physfreeEnd = base + length := by
  have whole : Yields AnyFault (initPaging physbase physfree base length) k
      fun _ next => next.paging.mem = k.paging.mem ∧
        next.physfreeStart = physfree + 2048 ∧
          next.physfreeEnd = base + length := by
    unfold initPaging onFrames clearFreeMap
    rw [yields_bind, yields_zoom, yields_modify, yields_bind, yields_modify,
      yields_anyFault]
    intro _ next marked
    have kept := keeps_forUpto (fun _ => ⟨rfl, rfl, rfl⟩)
      (fun _ _ _ first second =>
        ⟨second.mem.trans first.mem,
          second.physfreeStart.trans first.physfreeStart,
          second.physfreeEnd.trans first.physfreeEnd⟩)
      mapOnly_markFrame _ _ _ _ marked
    exact ⟨kept.mem, kept.physfreeStart, kept.physfreeEnd⟩
  have holds := yields_of_ok whole returned
  exact holds

/-- The tables are built when `bootFrames` frames are free. -/
theorem bootTables_return {fuel : Nat} {k : Boot}
    (kernmem physbase physfree : Word) (low : k.physfreeStart.toNat ≤ 2 ^ 31 + 2048)
    (memoryLow : k.physfreeEnd.toNat ≤ 2 ^ 31) (enough : 524290 ≤ fuel)
    (frames : bootFrames k.physfreeEnd ≤ k.paging.freeCount) :
    ∃ built booted,
      setupPageTables fuel kernmem physbase physfree k = .ok ((), built) ∧
        setIdentityPaging fuel built = .ok ((), booted) := by
  obtain ⟨passes, rfl⟩ : ∃ passes, fuel = passes + 1 := ⟨fuel - 1, by omega⟩
  have room : ∀ failure,
      ¬ LacksFrames k.paging (bootFrames k.physfreeEnd) failure :=
    fun _ lacks => absurd lacks.2 (Nat.not_lt.mpr frames)
  have setupYields : Yields
      (LacksFrames k.paging (bootFrames k.physfreeEnd))
      (setupPageTables (passes + 1) kernmem physbase physfree) k
      fun _ next => ∃ root, Booting k root 17 next :=
    yields_setupPageTables (by omega) (by omega)
      (by unfold bootFrames; omega) kernmem physfree
  obtain ⟨_, built, setup, root, booting⟩ := setupYields.returns
    fun failure lacks => absurd lacks (room failure)
  have nothing : MapsBelow k root 0 built :=
    { booting := booting
      mapped := by
        intro frame below
        omega
      inside := fun inside => absurd rfl inside }
  have identityYields : Yields
      (LacksFrames k.paging (bootFrames k.physfreeEnd))
      (setIdentityPaging (passes + 1)) built fun _ _ => True := by
    apply (nothing.mapMemory memoryLow (by omega) (by omega)).mono
    exact fun _ _ _ => trivial
  obtain ⟨_, booted, identity, -⟩ := identityYields.returns
    fun failure lacks => absurd lacks (room failure)
  exact ⟨built, booted, setup, identity⟩

/-- The loader's data and the place of the kernel that a boot needs: a memory
map whose largest region ends where the bitmap does at most and has room for
the tables behind the image. -/
structure Bootable (fuel : Nat) (data : LoaderData)
    (kernmem physfree : Word) (smap : Smap) : Prop where
  enough : 524290 ≤ fuel
  found : ∃ modules place smaps, Modules data 0 modules place ∧
    (∀ header ∈ modules, header.1 ≠ 0x9001) ∧ modules.length < fuel ∧
      HasSmaps data place smaps ∧ smaps.length < fuel ∧ Largest smaps smap
  linked : pml4Index kernmem = 511
  inside : smap.base.toNat + smap.length.toNat ≤ frameCount * pageSize
  room : frameFrom (physfree.toNat + 2048) +
      bootFrames (smap.base + smap.length) ≤
    (smap.base.toNat + smap.length.toNat) / pageSize

section Whole

variable {fuel : Nat} {data : LoaderData} {smap : Smap} {k : Boot}
variable {kernmem physfree : Word}

/-- The map after `init_paging` holds the frames from the end of the bitmap
to the end of the region. -/
theorem Bootable.initPaging
    (bootable : Bootable fuel data kernmem physfree smap) (physbase : Word)
    (k : Boot) :
    ∃ marked, initPaging physbase physfree smap.base smap.length k =
        .ok ((), marked) ∧
      (∀ frame, marked.paging.isFree frame = true ↔
        frameFrom (physfree.toNat + 2048) ≤ frame ∧
          frame < (smap.base.toNat + smap.length.toNat) / pageSize) ∧
      marked.paging.mem = k.paging.mem ∧
        marked.physfreeStart.toNat = physfree.toNat + 2048 ∧
          marked.physfreeEnd = smap.base + smap.length := by
  have inside := bootable.inside
  have room := bootable.room
  simp only [frameCount, pageSize] at inside room ⊢
  have counted : (countedFrames smap.base smap.length).toNat =
      (smap.base.toNat + smap.length.toNat) / 4096 := by
    rw [countedFrames_toNat, if_pos (by omega)]
    omega
  have size : (2048 : Word).toNat = 2048 := by decide
  have start : (physfree + 2048).toNat = physfree.toNat + 2048 := by
    unfold frameFrom at room
    rw [BitVec.toNat_add, size]
    omega
  have fits : ¬ Overruns (physfree + 2048)
      (countedFrames smap.base smap.length).toNat := by
    rw [not_overruns_iff, counted]
    left
    simp only [frameCount]
    omega
  obtain ⟨_, marked, returned, -, bits, -⟩ :=
    (yields_initPaging physbase physfree smap.base smap.length k).returns
      fun _ overruns => absurd overruns fits
  obtain ⟨mem, physfreeStart, physfreeEnd⟩ := initPaging_mapOnly returned
  refine ⟨marked, returned, ?_, mem, ?_, physfreeEnd⟩
  · intro frame
    rw [bits frame, counted]
    constructor
    · rintro ⟨below, marks⟩
      rw [marks_iff (by simp only [frameCount]; omega), start] at marks
      unfold frameFrom
      omega
    · rintro ⟨above, below⟩
      refine ⟨below, ?_⟩
      rw [marks_iff (by simp only [frameCount]; omega), start]
      unfold frameFrom at above
      omega
  · rw [physfreeStart, start]

/-- `start` returns and leaves a machine that fits the ownership of frames. -/
theorem Bootable.startPaging
    (bootable : Bootable fuel data kernmem physfree smap) (physbase : Word)
    (zero : ∀ frame index, physfree.toNat + 2048 ≤ frame * pageSize →
      k.paging.mem frame index = 0) :
    ∃ booted, startPaging fuel data kernmem physbase physfree k =
        .ok ((), booted) ∧
      booted.physfreeStart.toNat = physfree.toNat + 2048 ∧
        ∃ kind, Consistent kind (handedOver booted) := by
  obtain ⟨modules, place, smaps, chain, others, manyModules, map, manySmaps,
    largest⟩ := bootable.found
  have enough := bootable.enough
  have inside := bootable.inside
  have room := bootable.room
  simp only [frameCount, pageSize] at inside room zero
  obtain ⟨marked, initialized, bits, mem, physfreeStart, physfreeEnd⟩ :=
    bootable.initPaging physbase k
  have memoryEnd : marked.physfreeEnd.toNat =
      smap.base.toNat + smap.length.toNat := by
    rw [physfreeEnd, BitVec.toNat_add]
    omega
  have frames : bootFrames marked.physfreeEnd ≤ marked.paging.freeCount := by
    have counted := card_le_freeCount (Finset.Ico
      (frameFrom (physfree.toNat + 2048))
      ((smap.base.toNat + smap.length.toNat) / 4096)) fun frame member =>
        (bits frame).mpr (Finset.mem_Ico.mp member)
    rw [Nat.card_Ico] at counted
    rw [physfreeEnd]
    omega
  have imageLow : marked.physfreeStart.toNat ≤ 2 ^ 31 := by
    rw [physfreeStart]
    unfold frameFrom at room
    omega
  obtain ⟨built, mapped, setup, identity⟩ := bootTables_return kernmem
    physbase physfree (by omega) (by omega) enough frames
  obtain ⟨passes, rfl⟩ : ∃ passes, fuel = passes + 1 := ⟨fuel - 1, by omega⟩
  obtain ⟨root, building⟩ := yields_of_ok
    (yields_setupPageTables_building bootable.linked (by omega) (by omega)
      physfree) setup
  have ready := yields_of_ok
    (building.mapMemory (by omega) (passes + 1) (Nat.zero_le 524288)) identity
  have image : ∀ frame, marked.paging.isFree frame = true →
      marked.physfreeStart.toNat ≤ frame * 4096 := by
    intro frame free
    have above := ((bits frame).mp free).1
    rw [physfreeStart]
    unfold frameFrom at above
    omega
  have freeZero : FreeZero marked.paging := by
    intro frame free index
    have above := image frame free
    rw [mem]
    exact zero frame index (by omega)
  obtain ⟨kind, consistent⟩ := ready.consistent image (by omega) freeZero
    (show loadCR3 mapped = .ok ((), _) from rfl)
  obtain ⟨used, booting⟩ := ready.booting
  refine ⟨_, ?_, ?_, kind, consistent⟩
  · unfold SbuUnix.startPaging
    rw [bind_of_ok (findSmap_eq map.type chain others manyModules),
      bind_of_ok (visitSmaps_eq map.smaps (by rw [map.size]; omega)
        manySmaps),
      foldl_visit_largest largest, bind_of_ok initialized, bind_of_ok setup,
      bind_of_ok identity]
    rfl
  · show mapped.physfreeStart.toNat = _
    rw [booting.physfreeStart, physfreeStart]

end Whole

/-! ## Runs after the boot -/

/-- The frames that the kernel took stay taken. -/
def KeepsBlocks (m next : Allocation) : Prop :=
  ∀ frame ∈ m.kmalloced, frame ∈ next.kmalloced

theorem keepsBlocks_trans (first second third : Allocation)
    (before : KeepsBlocks first second) (later : KeepsBlocks second third) :
    KeepsBlocks first third :=
  fun frame member => later frame (before frame member)

theorem keepsBlocks_inPaging {α : Type} (program : PagingM α) :
    Keeps KeepsBlocks (inPaging program) :=
  keeps_zoom (show Keeps (fun _ _ => True) program from
    fun _ _ _ _ => trivial) fun _ _ _ _ member => member

theorem keepsBlocks_serve (request : Request) :
    Keeps KeepsBlocks (serve request) := by
  have refl : ∀ m, KeepsBlocks m m := fun _ _ member => member
  cases request with
  | create =>
      exact keeps_bind keepsBlocks_trans (keepsBlocks_inPaging _) fun _ =>
        keeps_modify fun _ _ member => member
  | fault fuel vmas cr2 =>
      exact keeps_bind keepsBlocks_trans (keeps_get refl) fun _ =>
        keeps_bind keepsBlocks_trans (keepsBlocks_inPaging _) fun _ =>
          keeps_pure refl _
  | kmalloc size =>
      exact keeps_bind keepsBlocks_trans (keepsBlocks_inPaging _) fun _ =>
        keeps_modify fun _ _ member => List.mem_append_right _ member
  | map vAddress phys cr3Addr => exact keepsBlocks_inPaging _
  | fork cr3Addr => exact keepsBlocks_inPaging _
  | freePage vAddress cr3Addr => exact keepsBlocks_inPaging _
  | freeVma fuel vmas cr3Addr => exact keepsBlocks_inPaging _
  | switch cr3Addr => exact keepsBlocks_inPaging _

theorem keepsBlocks_serveAll (requests : List Request) :
    Keeps KeepsBlocks (serveAll requests) := by
  induction requests with
  | nil => exact keeps_pure (fun _ _ member => member) _
  | cons request rest inductionHypothesis =>
      exact keeps_bind keepsBlocks_trans (keepsBlocks_serve request) fun _ =>
        inductionHypothesis

/-- A module without data, and the map of a machine of 32 MiB. -/
def smallLoaderData : LoaderData := fun i =>
  [1, 0, 0x9001, 40, 0, 0, 0x9F000, 0, 1, 0x100000, 0, 0x1F00000, 0, 1].getD i
    0

/-- The memory behind the first MiB. -/
def smallSmap : Smap where
  base := 0x100000
  length := 0x1F00000
  type := 1

theorem bootable_small :
    Bootable 524290 smallLoaderData 0xFFFFFFFF80200000 0x300000 smallSmap where
  enough := Nat.le_refl _
  found := by
    refine ⟨[(1, 0)], 2, [⟨0, 0x9F000, 1⟩, smallSmap], ⟨rfl, rfl, rfl⟩,
      by simp, by decide, ⟨rfl, rfl, ?_⟩, by decide, ?_⟩
    · intro i smap member
      match i with
      | 0 =>
          cases member
          rfl
      | 1 =>
          cases member
          rfl
    · exact
        { usable := ⟨rfl, by decide⟩
          split := ⟨[⟨0, 0x9F000, 1⟩], [], rfl, by
            intro other member _
            rw [List.mem_singleton.mp member]
            decide, nofun⟩ }
  linked := by decide
  inside := by decide
  room := by decide

end SbuUnix
