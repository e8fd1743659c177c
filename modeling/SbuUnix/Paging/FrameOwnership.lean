import SbuUnix.Paging.CopyOnWrite

/-!
# Frame ownership over whole runs

The paging operations of the kernel, in any order, keep the frames apart:
free frames, page-table pages, frames of `kmalloc` and user pages.  The
statement `FramesApart` does not mention kinds; the invariant behind it says
that some map of kinds fits the state.
-/

namespace SbuUnix

open TableForest Outcome

/-! ## Freeing a page -/

section Free

variable {kind : Nat → Kind} {s : Paging} {frame : Nat}
variable {allowed : Fault → Prop}

/-- What every operation keeps of the kinds: the roots and what the kernel
holds. -/
structure Evolves (kind : Nat → Kind) (s : Paging)
    (changed : Nat → Kind) (next : Paging) : Prop where
  owned : Owned changed next
  zero : FreeZero next
  kept : ∀ frame, kind frame = .pml4 ∨ kind frame = .held →
    changed frame = kind frame
  cr3 : next.cr3 = s.cr3

theorem Evolves.refl (owned : Owned kind s) (zero : FreeZero s) :
    Evolves kind s kind s :=
  ⟨owned, zero, fun _ _ => rfl, rfl⟩

theorem Evolves.trans {changed final : Nat → Kind} {next last : Paging}
    (first : Evolves kind s changed next)
    (second : Evolves changed next final last) :
    Evolves kind s final last where
  owned := second.owned
  zero := second.zero
  kept := by
    intro frame known
    have same := first.kept frame known
    rw [second.kept frame (by rw [same]; exact known), same]
  cr3 := second.cr3.trans first.cr3

theorem Owned.used_of_kept (owned : Owned kind s)
    (known : kind frame = .pml4 ∨ kind frame = .held) :
    s.isFree frame = false := by
  apply owned.used_of_kind
  intro free
  rw [free] at known
  rcases known with same | same <;> cases same

theorem Extends.evolves {changed : Nat → Kind} {next : Paging}
    (extension : Extends kind s changed next) (owned : Owned kind s)
    (zero : FreeZero s) : Evolves kind s changed next where
  owned := extension.owned
  zero := extension.freeZero zero
  kept := fun frame known =>
    extension.kinds frame (owned.used_of_kept known)
  cr3 := extension.cr3

theorem Remapped.evolves {changed : Nat → Kind} {next : Paging}
    {root fresh : Nat} {path : List (Fin 512)}
    (remapped : Remapped kind s changed next root path fresh)
    (owned : Owned kind s) (zero : FreeZero s) :
    Evolves kind s changed next where
  owned := remapped.owned
  zero := remapped.freeZero zero
  kept := fun frame known =>
    remapped.kinds frame (owned.used_of_kept known)
  cr3 := remapped.cr3

theorem Shares.evolves {changed : Nat → Kind} {next : Paging}
    {parent child : Nat} {covered : List (Fin 512) → Prop}
    (shares : Shares kind s changed next parent child covered)
    (owned : Owned kind s) (zero : FreeZero s) :
    Evolves kind s changed next where
  owned := shares.owned
  zero := shares.freeZero zero
  kept := by
    intro frame known
    apply shares.kind_of_ne_page (owned.used_of_kept known)
    intro pt index isPage
    rw [isPage] at known
    rcases known with same | same <;> cases same
  cr3 := shares.cr3

/-- What `free_page` leaves when it gives a page back. -/
def Paging.freeLeaf (s : Paging) (pt : Nat) (index : Fin 512)
    (frame : Nat) : Paging :=
  ((s.setFree frame).writeWord pt index 0).writePage frame fun _ => 0

theorem isFree_freeLeaf {pt : Nat} {index : Fin 512} {other : Nat} :
    (s.freeLeaf pt index frame).isFree other = true ↔
      s.isFree other = true ∨ other = frame ∧ other < frameCount := by
  change (s.setFree frame).isFree other = true ↔ _
  rw [Paging.isFree_setFree]
  simp only [Bool.or_eq_true, Bool.and_eq_true, decide_eq_true_eq]

/-- A private page of a cleared leaf entry may go back to the free map. -/
theorem Owned.freeLeaf {pt : Nat} {index : Fin 512} (owned : Owned kind s)
    (pageKind : kind frame = .page pt index) :
    Owned (SbuUnix.setKind kind frame .free) (s.freeLeaf pt index frame) := by
  have cleared : Owned kind (s.writeWord pt index 0) :=
    owned.writeWord entryOk_zero
  have used : s.isFree frame = false :=
    owned.used_of_kind (by rw [pageKind]; exact Kind.noConfusion)
  have noTable : ¬ (SbuUnix.setKind kind frame .free frame).IsTable := by
    rw [setKind_same]
    exact fun isTable => isTable
  have released : Owned (SbuUnix.setKind kind frame .free)
      (s.writeWord pt index 0) := by
    refine cleared.setKind_of_absent (fun owner place hangs => ?_)
      (fun place => entryOk_of_not_isTable noTable) used
    rw [pageKind] at hangs
    rw [← hangs.1, ← hangs.2, Paging.writeWord_same]
    decide
  constructor
  · exact (released.writePage noTable).entries
  · intro other free
    rcases isFree_freeLeaf.mp free with already | ⟨same, _⟩
    · exact released.free other already
    · rw [same, setKind_same]

/-- On cleared free frames the page that goes back is one more. -/
theorem Evolves.freeLeaf {pt up : Nat} {position index : Fin 512}
    (owned : Owned kind s) (zero : FreeZero s)
    (ptKind : kind pt = .table 3 up position)
    (pageKind : kind frame = .page pt index) :
    Evolves kind s (setKind kind frame .free)
      (s.freeLeaf pt index frame) where
  owned := owned.freeLeaf pageKind
  zero := by
    intro other free position
    unfold Paging.freeLeaf
    by_cases same : other = frame
    · rw [same, Paging.writePage_same]
    · have already := (isFree_freeLeaf.mp free).resolve_right
        fun released => same released.1
      have otherPt : other ≠ pt := by
        intro isPt
        have freeKind := owned.free other already
        rw [isPt, ptKind] at freeKind
        cases freeKind
      rw [Paging.writePage_of_ne same,
        Paging.writeWord_of_ne_frame otherPt]
      exact zero other already position
  kept := by
    intro other known
    apply setKind_of_ne
    intro same
    rw [same, pageKind] at known
    rcases known with isRoot | isHeld
    · cases isRoot
    · cases isHeld
  cr3 := rfl

/-- `free_page` gives back private pages only. -/
theorem yields_freePage {vAddress cr3Addr : Word} (owned : Owned kind s)
    (zero : FreeZero s) (rooted : kind (kernelFrame cr3Addr) = .pml4)
    (userHalf : pml4Index vAddress ≠ 511) :
    Yields allowed (freePage vAddress cr3Addr) s fun _ next =>
      ∃ changed, Evolves kind s changed next := by
  have unchanged : ∃ changed, Evolves kind s changed s :=
    ⟨kind, Evolves.refl owned zero⟩
  have userHalfPage : pml4Index (removeFlag vAddress) ≠ 511 := by
    rw [pml4Index, tableIndex_removeFlag (by decide)]
    exact userHalf
  rw [freePage, yields_bind, yields_get]
  dsimp only
  rw [yields_ite]
  refine ⟨fun inside => ?_, fun _ => unchanged⟩
  simp only [Bool.and_eq_true] at inside
  have rootDepth : (kind (kernelFrame cr3Addr)).depth = some 0 := by
    rw [rooted]
    rfl
  obtain ⟨pdpt, pdptSmall, pdptAddress, _, pdptKind⟩ :=
    owned.below_inner rootDepth (by decide) (fun _ => userHalfPage) inside.1
  have pdptDepth : (kind pdpt).depth = some 1 := by
    rw [pdptKind]
    rfl
  rw [Owned.eq_frameOf pdptSmall pdptAddress, yields_ite]
  refine ⟨fun inside => ?_, fun _ => unchanged⟩
  simp only [Bool.and_eq_true] at inside
  obtain ⟨pd, pdSmall, pdAddress, _, pdKind⟩ :=
    owned.below_inner pdptDepth (by decide)
      (fun root => absurd root (by decide)) inside.1
  have pdDepth : (kind pd).depth = some 2 := by
    rw [pdKind]
    rfl
  rw [Owned.eq_frameOf pdSmall pdAddress, yields_ite]
  refine ⟨fun inside => ?_, fun _ => unchanged⟩
  simp only [Bool.and_eq_true] at inside
  obtain ⟨pt, ptSmall, ptAddress, _, ptKind⟩ :=
    owned.below_inner pdDepth (by decide)
      (fun root => absurd root (by decide)) inside.1
  rw [Owned.eq_frameOf ptSmall ptAddress, yields_ite]
  refine ⟨fun inside => ?_, fun _ => unchanged⟩
  simp only [Bool.and_eq_true, Bool.not_eq_true'] at inside
  obtain ⟨target, small, address, leaf⟩ :=
    owned.below_leaf ptKind inside.1.2
  have pageKind : kind target = .page pt (ptIndex (removeFlag vAddress)) := by
    rcases leaf with ⟨_, known⟩ | ⟨isShared, _⟩
    · exact known
    · rw [isShared.cow] at inside
      exact absurd inside.1.1 Bool.noConfusion
  have number :
      (removeFlag (s.mem pt (ptIndex (removeFlag vAddress)))).toNat /
        pageSize = target := by
    rw [address, pageAddr_toNat (lt_of_lt_frameCount small)]
    exact Nat.mul_div_cancel target (by decide)
  have insideMap : target / 64 < 256 := by
    simp only [frameCount] at small
    omega
  rw [number, Owned.eq_frameOf small address, yields_bind, setBit,
    if_pos insideMap, yields_modify, yields_bind, writeEntry, yields_modify,
    memsetPage, yields_modify]
  exact ⟨_, Evolves.freeLeaf owned zero ptKind pageKind⟩

/-- An address of the user half lies at least a PML4 entry below the end of
the address space. -/
theorem toNat_lt_of_userHalf {vAddress : Word}
    (userHalf : pml4Index vAddress ≠ 511) :
    vAddress.toNat < 2 ^ 64 - 2 ^ 39 := by
  by_contra high
  apply userHalf
  have quotient : (vAddress >>> 39).toNat = 2 ^ 25 - 1 := by
    rw [BitVec.toNat_ushiftRight, Nat.shiftRight_eq_div_pow]
    omega
  rw [pml4Index, tableIndex, quotient]
  rfl

/-- The inner loop of `free_vma` over an area of the user half gives back
private pages only. -/
theorem yields_freeRange {startAddr endAddr cr3Addr : Word}
    (spins : allowed .outOfFuel)
    (userHalf : ∀ vAddress : Word, startAddr ≤ vAddress →
      vAddress < endAddr → pml4Index vAddress ≠ 511) :
    ∀ (fuel : Nat) (physfree : Word) {kind : Nat → Kind} {s : Paging},
      startAddr ≤ physfree → Owned kind s → FreeZero s →
        kind (kernelFrame cr3Addr) = .pml4 →
          Yields allowed (freeRange fuel physfree endAddr cr3Addr) s
            fun _ next => ∃ changed, Evolves kind s changed next
  | 0, _, _, _, _, _, _, _ => spins
  | fuel + 1, physfree, kind, s, above, owned, zero, rooted => by
      rw [freeRange]
      by_cases inside : physfree < endAddr
      · have here := userHalf physfree above inside
        rw [if_pos inside, yields_bind]
        apply (yields_freePage owned zero rooted here).mono
        rintro _ next ⟨changed, first⟩
        have rootedNow : changed (kernelFrame cr3Addr) = .pml4 := by
          rw [first.kept _ (Or.inl rooted), rooted]
        have noWrap : startAddr ≤ physfree + 4096 := by
          have low := toNat_lt_of_userHalf here
          rw [BitVec.le_def] at above ⊢
          rw [BitVec.toNat_add]
          have page : (4096 : Word).toNat = 4096 := by decide
          omega
        apply (yields_freeRange spins userHalf fuel (physfree + 4096)
          noWrap first.owned first.zero rootedNow).mono
        rintro _ last ⟨final, rest⟩
        exact ⟨final, first.trans rest⟩
      · rw [if_neg inside]
        exact ⟨kind, Evolves.refl owned zero⟩

/-- All addresses of an area lie in the user half. -/
def Vma.InUserHalf (vma : Vma) : Prop :=
  ∀ vAddress : Word, vma.vmStart ≤ vAddress → vAddress < vma.vmEnd →
    pml4Index vAddress ≠ 511

theorem yields_freeVma {cr3Addr : Word} (fuel : Nat)
    (spins : allowed .outOfFuel) :
    ∀ (vmas : List Vma) {kind : Nat → Kind} {s : Paging},
      (∀ vma ∈ vmas, vma.InUserHalf) → Owned kind s → FreeZero s →
        kind (kernelFrame cr3Addr) = .pml4 →
          Yields allowed (freeVma fuel cr3Addr vmas) s
            fun _ next => ∃ changed, Evolves kind s changed next
  | [], kind, _, _, owned, zero, _ => ⟨kind, Evolves.refl owned zero⟩
  | vma :: rest, kind, s, userHalf, owned, zero, rooted => by
      rw [freeVma, yields_bind]
      apply (yields_freeRange spins (userHalf vma List.mem_cons_self) fuel
        vma.vmStart (BitVec.le_refl _) owned zero rooted).mono
      rintro _ next ⟨changed, first⟩
      have rootedNow : changed (kernelFrame cr3Addr) = .pml4 := by
        rw [first.kept _ (Or.inl rooted), rooted]
      refine (yields_freeVma fuel spins rest
        (fun other member => userHalf other (List.mem_cons_of_mem _ member))
        first.owned first.zero rootedNow).mono ?_
      rintro _ last ⟨final, later⟩
      exact ⟨final, first.trans later⟩

end Free

/-! ## The system -/

/-- The machine with the address spaces made so far and the frames that
`kmalloc` has handed out. -/
structure Allocation where
  paging : Paging
  spaces : List Word
  kmalloced : List Nat

abbrev AllocationM := StateT Allocation (Except Fault)

def inPaging {α : Type} : PagingM α → AllocationM α :=
  zoom Allocation.paging fun paging m => { m with paging := paging }

theorem yields_inPaging {α : Type} {allowed : Fault → Prop}
    (program : PagingM α) (m : Allocation)
    {post : α → Allocation → Prop} :
    Yields allowed (inPaging program) m post ↔
      Yields allowed program m.paging fun value paging =>
        post value { m with paging := paging } :=
  yields_zoom program m

/-- The operations on address spaces; those of a process run with its tables
in CR3. -/
inductive Request where
  | create
  | map (vAddress phys cr3Addr : Word)
  | fork (cr3Addr : Word)
  | fault (fuel : Nat) (vmas : List Vma) (cr2 : Word)
  | kmalloc (size : Int)
  | freePage (vAddress cr3Addr : Word)
  | freeVma (fuel : Nat) (vmas : List Vma) (cr3Addr : Word)
  | switch (cr3Addr : Word)

def serve : Request → AllocationM Unit
  | .create => do
      let cr3Addr ← inPaging createUserAddressSpace
      modify fun m => { m with spaces := cr3Addr :: m.spaces }
  | .map vAddress phys cr3Addr =>
      inPaging (mapPhysToUserVirtAddr vAddress phys cr3Addr)
  | .fork cr3Addr => inPaging (copyParentTables cr3Addr)
  | .fault fuel vmas cr2 => do
      let _ ← inPaging (pagefaultHandler fuel (← get).paging.cr3 vmas cr2)
  | .kmalloc size => do
      let block ← inPaging (SbuUnix.kmalloc size)
      modify fun m => { m with kmalloced := block.2 ++ m.kmalloced }
  | .freePage vAddress cr3Addr =>
      inPaging (SbuUnix.freePage vAddress cr3Addr)
  | .freeVma fuel vmas cr3Addr =>
      inPaging (SbuUnix.freeVma fuel cr3Addr vmas)
  | .switch cr3Addr => inPaging (setCR3 cr3Addr)

def serveAll : List Request → AllocationM Unit
  | [] => pure ()
  | request :: rest => do
      serve request
      serveAll rest

/-- What the callers of an operation promise: addresses of the user half,
address spaces that exist, and an empty one as the child of a fork. -/
def Request.Permitted : Request → Allocation → Prop
  | .create, _ => True
  | .map vAddress _ cr3Addr, m =>
      pml4Index vAddress ≠ 511 ∧ cr3Addr ∈ m.spaces
  | .fork cr3Addr, m =>
      cr3Addr ∈ m.spaces ∧
        kernelFrame m.paging.cr3 ≠ kernelFrame cr3Addr ∧
        ∀ index, index ≠ 511 →
          m.paging.mem (kernelFrame cr3Addr) index = 0
  | .fault _ _ cr2, _ => pml4Index cr2 ≠ 511
  | .kmalloc _, _ => True
  | .freePage vAddress cr3Addr, m =>
      pml4Index vAddress ≠ 511 ∧ cr3Addr ∈ m.spaces
  | .freeVma _ vmas cr3Addr, m =>
      (∀ vma ∈ vmas, vma.InUserHalf) ∧ cr3Addr ∈ m.spaces
  | .switch cr3Addr, m => cr3Addr ∈ m.spaces

/-- Every operation of a run is permitted in the state it starts from. -/
def PermittedRun : List Request → Allocation → Prop
  | [], _ => True
  | request :: rest, m =>
      request.Permitted m ∧
        ∀ next, serve request m = .ok ((), next) → PermittedRun rest next

/-- The invariant of the runs: some map of kinds fits. -/
structure Consistent (kind : Nat → Kind) (m : Allocation) : Prop where
  owned : Owned kind m.paging
  zero : FreeZero m.paging
  reserved : kind 0 = .held
  roots : ∀ cr3Addr ∈ m.spaces, kind (kernelFrame cr3Addr) = .pml4
  current : m.paging.cr3 ∈ m.spaces
  blocks : ∀ frame ∈ m.kmalloced, kind frame = .held
  distinct : m.kmalloced.Nodup

section Runs

variable {kind changed : Nat → Kind} {m : Allocation} {next : Paging}
variable {allowed : Fault → Prop}

theorem Consistent.evolve (consistent : Consistent kind m)
    (evolves : Evolves kind m.paging changed next) :
    Consistent changed { m with paging := next } where
  owned := evolves.owned
  zero := evolves.zero
  reserved := by
    rw [evolves.kept 0 (Or.inr consistent.reserved), consistent.reserved]
  roots := by
    intro cr3Addr member
    have known := consistent.roots cr3Addr member
    rw [evolves.kept _ (Or.inl known), known]
  current := by
    show next.cr3 ∈ m.spaces
    rw [evolves.cr3]
    exact consistent.current
  blocks := by
    intro frame member
    have known := consistent.blocks frame member
    rw [evolves.kept _ (Or.inr known), known]
  distinct := consistent.distinct

/-- A fault in the user half keeps the invariant, whichever branch the
handler takes. -/
theorem yields_fault (exhausted : allowed .noFreeFrame)
    (spins : allowed .outOfFuel) (consistent : Consistent kind m)
    (fuel : Nat) (vmas : List Vma) {cr2 : Word}
    (userHalf : pml4Index cr2 ≠ 511) :
    Yields allowed (pagefaultHandler fuel m.paging.cr3 vmas cr2) m.paging
      fun _ next => ∃ changed, Evolves kind m.paging changed next := by
  have owned := consistent.owned
  have zero := consistent.zero
  have rooted := consistent.roots _ consistent.current
  have unchanged : ∃ changed, Evolves kind m.paging changed m.paging :=
    ⟨kind, Evolves.refl owned zero⟩
  by_cases cow : ∃ entry,
      lookup childOf m.paging.mem (kernelFrame m.paging.cr3) (pageOf cr2) =
          some entry ∧ hasFlag entry ptCow = true
  · obtain ⟨entry, found, isCow⟩ := cow
    apply (yields_pagefaultHandler_cow fuel vmas exhausted owned
      consistent.reserved rooted rfl userHalf found isCow).mono
    rintro _ next ⟨_, changed, fresh, remapped, _⟩
    exact ⟨changed, remapped.evolves owned zero⟩
  have notCow : ∀ entry,
      lookup childOf m.paging.mem (kernelFrame m.paging.cr3) (pageOf cr2) =
          some entry →
        hasFlag entry ptCow = false := by
    intro entry found
    by_contra set
    exact cow ⟨entry, found, by simpa using set⟩
  by_cases areas : vmas = []
  · unfold Yields
    rw [pagefaultHandler_of_not_cow fuel rfl notCow,
      if_neg (by simp [areas])]
    exact unchanged
  · apply (yields_pagefaultHandler_grow fuel exhausted owned rooted rfl
      userHalf notCow areas (Or.inl spins)).mono
    rintro _ next (⟨_, _, rfl⟩ | ⟨_, _, _, _, changed, fresh, remapped, _⟩)
    · exact unchanged
    · exact ⟨changed, remapped.evolves owned zero⟩

/-- `kmalloc` hands out frames that were free. -/
theorem yields_kmalloc (exhausted : allowed .noFreeFrame)
    (consistent : Consistent kind m) (size : Int) :
    Yields allowed (kmalloc size) m.paging fun block next =>
      ∃ changed, Evolves kind m.paging changed next ∧ block.2.Nodup ∧
        ∀ frame ∈ block.2,
          m.paging.isFree frame = true ∧ changed frame = .held := by
  rw [kmalloc, yields_bind]
  apply (yields_kmallocPages exhausted (numPage size) consistent.owned
    (consistent.roots _ consistent.current)).mono
  rintro frames next ⟨changed, extension, distinct, _, fresh⟩
  rw [yields_pure]
  exact ⟨changed, extension.evolves consistent.owned consistent.zero,
    distinct, fresh⟩

/-- Every operation keeps the invariant. -/
theorem yields_serve (exhausted : allowed .noFreeFrame)
    (spins : allowed .outOfFuel) {request : Request}
    (consistent : Consistent kind m) (permitted : request.Permitted m) :
    Yields allowed (serve request) m fun _ next =>
      ∃ changed, Consistent changed next := by
  have owned := consistent.owned
  have zero := consistent.zero
  have rooted := consistent.roots _ consistent.current
  cases request with
  | create =>
      rw [serve, yields_bind, yields_inPaging]
      apply (yields_createUserAddressSpace exhausted owned rooted).mono
      rintro cr3Addr next ⟨changed, frame, extension, rfl, free, rootKind, _⟩
      have small := lt_of_lt_frameCount (Paging.lt_of_isFree free)
      have later := consistent.evolve (extension.evolves owned zero)
      rw [yields_modify]
      refine ⟨changed, { later with roots := ?_, current := ?_ }⟩
      · intro other member
        rcases List.mem_cons.mp member with rfl | old
        · rw [kernelFrame_pageAddr small]
          exact rootKind
        · exact later.roots other old
      · exact List.mem_cons_of_mem _ later.current
  | map vAddress phys cr3Addr =>
      rw [serve, yields_inPaging]
      apply (yields_mapPhysToUserVirtAddr exhausted owned
        (consistent.roots cr3Addr permitted.2) permitted.1).mono
      rintro _ next ⟨changed, fresh, remapped, _⟩
      exact ⟨changed, consistent.evolve (remapped.evolves owned zero)⟩
  | fork cr3Addr =>
      obtain ⟨member, different, empty⟩ := permitted
      rw [serve, yields_inPaging]
      apply (yields_copyParentTables exhausted owned zero rooted
        (consistent.roots cr3Addr member) different empty).mono
      rintro _ next ⟨changed, shares⟩
      exact ⟨changed, consistent.evolve (shares.evolves owned zero)⟩
  | fault fuel vmas cr2 =>
      rw [serve, yields_bind, yields_get, yields_bind, yields_inPaging]
      apply (yields_fault exhausted spins consistent fuel vmas
        permitted).mono
      rintro _ next ⟨changed, evolves⟩
      exact ⟨changed, consistent.evolve evolves⟩
  | kmalloc size =>
      rw [serve, yields_bind, yields_inPaging]
      apply (yields_kmalloc exhausted consistent size).mono
      rintro block next ⟨changed, evolves, distinct, fresh⟩
      have later := consistent.evolve evolves
      rw [yields_modify]
      refine ⟨changed, { later with blocks := ?_, distinct := ?_ }⟩
      · intro frame member
        rcases List.mem_append.mp member with new | old
        · exact (fresh frame new).2
        · exact later.blocks frame old
      · refine List.nodup_append.mpr ⟨distinct, consistent.distinct, ?_⟩
        rintro frame new other old rfl
        have used := owned.used_of_kept (Or.inr (consistent.blocks frame old))
        rw [(fresh frame new).1] at used
        cases used
  | freePage vAddress cr3Addr =>
      rw [serve, yields_inPaging]
      apply (yields_freePage owned zero
        (consistent.roots cr3Addr permitted.2) permitted.1).mono
      rintro _ next ⟨changed, evolves⟩
      exact ⟨changed, consistent.evolve evolves⟩
  | freeVma fuel vmas cr3Addr =>
      rw [serve, yields_inPaging]
      apply (yields_freeVma fuel spins vmas permitted.1 owned zero
        (consistent.roots cr3Addr permitted.2)).mono
      rintro _ next ⟨changed, evolves⟩
      exact ⟨changed, consistent.evolve evolves⟩
  | switch cr3Addr =>
      rw [serve, yields_inPaging, setCR3, yields_modify]
      exact ⟨kind,
        { owned := owned.congr (fun _ _ => rfl) fun _ free => free
          zero := zero
          reserved := consistent.reserved
          roots := consistent.roots
          current := permitted
          blocks := consistent.blocks
          distinct := consistent.distinct }⟩

/-- Whole runs keep the invariant. -/
theorem yields_serveAll (exhausted : allowed .noFreeFrame)
    (spins : allowed .outOfFuel) :
    ∀ (requests : List Request) {kind : Nat → Kind} {m : Allocation},
      Consistent kind m → PermittedRun requests m →
        Yields allowed (serveAll requests) m fun _ next =>
          ∃ changed, Consistent changed next
  | [], kind, _, consistent, _ => ⟨kind, consistent⟩
  | request :: rest, kind, m, consistent, permitted => by
      rw [serveAll, yields_bind]
      apply (yields_serve exhausted spins consistent
        permitted.1).returned.mono
      rintro _ next ⟨returned, changed, later⟩
      exact yields_serveAll exhausted spins rest later
        (permitted.2 next returned)

end Runs

/-! ## Frames apart -/

section Apart

variable (m : Allocation)

/-- A walk of the user half of some address space ends at the frame. -/
def IsTablePage (frame : Nat) : Prop :=
  ∃ cr3Addr path, cr3Addr ∈ m.spaces ∧ OwnedPath ownedIndex path ∧
    path.length ≤ 3 ∧
      tableAt childOf m.paging.mem (kernelFrame cr3Addr) path = some frame

/-- Some page of some address space is mapped to the frame. -/
def IsUserPage (frame : Nat) : Prop :=
  ∃ cr3Addr path entry, cr3Addr ∈ m.spaces ∧ OwnedPath ownedIndex path ∧
    path.length = 4 ∧
      lookup childOf m.paging.mem (kernelFrame cr3Addr) path = some entry ∧
        frameOf entry = frame

/-- The separation of frames, in terms of the bitmap and the tables. -/
structure FramesApart : Prop where
  tableUsed : ∀ frame, IsTablePage m frame → m.paging.isFree frame = false
  pageUsed : ∀ frame, IsUserPage m frame → m.paging.isFree frame = false
  blockUsed : ∀ frame ∈ m.kmalloced, m.paging.isFree frame = false
  tableNoPage : ∀ frame, IsTablePage m frame → ¬ IsUserPage m frame
  blockNoTable : ∀ frame ∈ m.kmalloced, ¬ IsTablePage m frame
  blockNoPage : ∀ frame ∈ m.kmalloced, ¬ IsUserPage m frame
  blocksDistinct : m.kmalloced.Nodup
  tableOnce : ∀ cr3Addr otherCr3 path otherPath frame,
    cr3Addr ∈ m.spaces → otherCr3 ∈ m.spaces →
      OwnedPath ownedIndex path → OwnedPath ownedIndex otherPath →
        path.length ≤ 3 → otherPath.length ≤ 3 →
          tableAt childOf m.paging.mem (kernelFrame cr3Addr) path =
              some frame →
            tableAt childOf m.paging.mem (kernelFrame otherCr3) otherPath =
                some frame →
              kernelFrame cr3Addr = kernelFrame otherCr3 ∧ path = otherPath
  privateOnce : ∀ cr3Addr otherCr3 path otherPath entry otherEntry,
    cr3Addr ∈ m.spaces → otherCr3 ∈ m.spaces →
      OwnedPath ownedIndex path → OwnedPath ownedIndex otherPath →
        path.length = 4 → otherPath.length = 4 →
          lookup childOf m.paging.mem (kernelFrame cr3Addr) path =
              some entry →
            lookup childOf m.paging.mem (kernelFrame otherCr3) otherPath =
                some otherEntry →
              hasFlag entry ptCow = false →
                frameOf otherEntry = frameOf entry →
                  kernelFrame otherCr3 = kernelFrame cr3Addr ∧
                    otherPath = path
  freeZero : FreeZero m.paging

end Apart

section Conclusions

variable {kind : Nat → Kind} {m : Allocation} {frame : Nat}

theorem Consistent.table_kind (consistent : Consistent kind m)
    (table : IsTablePage m frame) : (kind frame).depth.isSome = true := by
  obtain ⟨cr3Addr, path, member, legal, short, reached⟩ := table
  have rooted := consistent.roots cr3Addr member
  rw [consistent.owned.hung.depth_tableAt (Kind.depth_root rooted) legal short
    reached]
  rfl

theorem Consistent.page_kind (consistent : Consistent kind m)
    (page : IsUserPage m frame) :
    (∃ pt index, kind frame = .page pt index) ∨ kind frame = .shared := by
  obtain ⟨cr3Addr, path, entry, member, legal, full, found, rfl⟩ := page
  match path, full with
  | index :: path, full =>
      obtain ⟨_, _, _, pt, _, _, _, leaf⟩ :=
        consistent.owned.leaf_of_lookup (consistent.roots cr3Addr member)
          legal (Nat.succ.inj full) found
      exact leaf.imp (fun known => ⟨pt, index, known.2⟩) And.right

/-- The invariant separates the frames. -/
theorem Consistent.framesApart (consistent : Consistent kind m) :
    FramesApart m where
  tableUsed := by
    intro frame table
    apply consistent.owned.used_of_kind
    intro free
    have known := consistent.table_kind table
    rw [free] at known
    cases known
  pageUsed := by
    intro frame page
    apply consistent.owned.used_of_kind
    intro free
    rcases consistent.page_kind page with ⟨pt, index, known⟩ | known <;>
    · rw [free] at known
      cases known
  blockUsed := fun frame member =>
    consistent.owned.used_of_kept (Or.inr (consistent.blocks frame member))
  tableNoPage := by
    intro frame table page
    have depth := consistent.table_kind table
    rcases consistent.page_kind page with ⟨pt, index, known⟩ | known <;>
    · rw [known] at depth
      cases depth
  blockNoTable := by
    intro frame member table
    have depth := consistent.table_kind table
    rw [consistent.blocks frame member] at depth
    cases depth
  blockNoPage := by
    intro frame member page
    rcases consistent.page_kind page with ⟨pt, index, known⟩ | known <;>
    · rw [consistent.blocks frame member] at known
      cases known
  blocksDistinct := consistent.distinct
  tableOnce := by
    intro cr3Addr otherCr3 path otherPath frame member otherMember legal
      otherLegal short otherShort reached otherReached
    have rooted := consistent.roots cr3Addr member
    have otherRooted := consistent.roots otherCr3 otherMember
    exact consistent.owned.hung.tableAt_injective (Kind.depth_root rooted)
      (Kind.depth_root otherRooted) legal short otherLegal otherShort reached
      otherReached
  privateOnce := by
    intro cr3Addr otherCr3 path otherPath entry otherEntry member
      otherMember legal otherLegal full otherFull found otherFound notCow
      sameFrame
    match path, full, otherPath, otherFull with
    | index :: path, full, place :: otherPath, otherFull =>
        have rooted := consistent.roots cr3Addr member
        obtain ⟨_, _, _, _, _, _, _, leaf⟩ :=
          consistent.owned.leaf_of_lookup rooted legal (Nat.succ.inj full)
            found
        have writable : hasFlag entry ptWR = true := by
          rcases leaf with ⟨isPrivate, _⟩ | ⟨isShared, _⟩
          · exact isPrivate.writable
          · rw [isShared.cow] at notCow
            cases notCow
        exact consistent.owned.eq_of_private rooted
          (consistent.roots otherCr3 otherMember) legal (Nat.succ.inj full)
          otherLegal (Nat.succ.inj otherFull) found otherFound writable
          sameFrame
  freeZero := consistent.zero

/-- After every run of permitted operations that does not run out of frames
the frames are apart. -/
theorem serveAll_framesApart (requests : List Request) {next : Allocation}
    (consistent : Consistent kind m)
    (permitted : PermittedRun requests m)
    (returned : serveAll requests m = .ok ((), next)) :
    FramesApart next := by
  obtain ⟨changed, later⟩ :=
    yields_of_ok
      (yields_serveAll (anyFault _) (anyFault _) requests consistent
        permitted) returned
  exact later.framesApart

/-- One empty address space. -/
def emptyAllocation : Allocation :=
  ⟨emptyPaging, [pageAddr 16], []⟩

theorem consistent_emptyAllocation : Consistent emptyKind emptyAllocation where
  owned := owned_emptyPaging
  zero := freeZero_emptyPaging
  reserved := by decide
  roots := by
    intro cr3Addr member
    rw [List.mem_singleton.mp member]
    decide
  current := List.mem_singleton.mpr rfl
  blocks := fun _ member => absurd member List.not_mem_nil
  distinct := List.nodup_nil

def stackArea : Vma where
  addr := kernelAddr
  vmStart := stackAddr
  vmEnd := stackEnd
  type := .stack

/-- A mapped page, a first touch of a stack page and a block for a PCB. -/
def smallRun : List Request :=
  [.map 0x1000 0 (pageAddr 16), .fault 1 [stackArea] 0x444ff000000,
    .kmalloc 6000]

theorem serveAll_framesApart_smallRun :
    ∃ next, serveAll smallRun emptyAllocation = .ok ((), next) ∧
      FramesApart next := by
  have permitted : PermittedRun smallRun emptyAllocation :=
    ⟨⟨by decide, List.mem_singleton.mpr rfl⟩, fun _ _ =>
      ⟨show pml4Index 0x444ff000000 ≠ 511 by decide,
        fun _ _ => ⟨trivial, fun _ _ => trivial⟩⟩⟩
  have ends : (serveAll smallRun emptyAllocation).isOk = true := by
    decide +kernel
  cases ending : serveAll smallRun emptyAllocation with
  | ok result =>
      exact ⟨result.2, rfl, serveAll_framesApart smallRun
        consistent_emptyAllocation permitted ending⟩
  | error failure =>
      rw [ending] at ends
      cases ends

end Conclusions

end SbuUnix
