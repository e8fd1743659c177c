import SbuUnix.Paging.FaultResolution
import SbuUnix.Process.Loader

/-!
# Frames lost by a user mapping

The caller of `map_phys_to_user_virt_addr` takes a frame, fills it and passes
it on, and the mapper takes another one for the page and copies.  The first
frame is then neither mapped nor free.
-/

namespace SbuUnix

open TableForest Outcome

/-- A walk in the user half leads to a table. -/
def IsTableOf (s : Paging) (root frame : Nat) : Prop :=
  ∃ path, OwnedPath ownedIndex path ∧ path.length ≤ 3 ∧
    tableAt childOf s.mem root path = some frame

/-- The frame an address is mapped to. -/
def IsFrameAt (s : Paging) (root : Nat) (vAddress : Word) (frame : Nat) :
    Prop :=
  ∃ entry, lookup childOf s.mem root (pageOf vAddress) = some entry ∧
    frameOf entry = frame

/-- The frames taken from the map are the new tables of an address space and
the frame that the address is mapped to now. -/
def TakesWhatItMaps (s next : Paging) (root : Nat) (vAddress : Word) : Prop :=
  ∀ frame, (s.isFree frame = true ∧ next.isFree frame = false) ↔
    (¬ IsTableOf s root frame ∧ IsTableOf next root frame) ∨
      IsFrameAt next root vAddress frame

/-- A frame was taken for nothing. -/
def LosesFrame (s next : Paging) (root : Nat) (vAddress : Word) : Prop :=
  ∃ frame, s.isFree frame = true ∧ next.isFree frame = false ∧
    ¬ IsTableOf next root frame ∧ ¬ IsFrameAt next root vAddress frame

theorem LosesFrame.takesMore {s next : Paging} {root : Nat}
    {vAddress : Word} (loses : LosesFrame s next root vAddress) :
    ¬ TakesWhatItMaps s next root vAddress := by
  obtain ⟨frame, free, used, noTable, notMapped⟩ := loses
  intro exact
  rcases (exact frame).mp ⟨free, used⟩ with ⟨-, isTable⟩ | isMapped
  · exact noTable isTable
  · exact notMapped isMapped

section Mapping

variable {kind : Nat → Kind} {s : Paging} {allowed : Fault → Prop}
variable {cr3Addr : Word}

/-- The frame that the caller took and filled is lost. -/
theorem Remapped.losesFrame {changed : Nat → Kind} {next : Paging}
    {root source fresh : Nat} {content : Page} {vAddress : Word}
    (owned : Owned kind s) (free : s.isFree source = true)
    (rooted : kind root = .pml4) (userHalf : pml4Index vAddress ≠ 511)
    (remapped : Remapped (setKind kind source .held)
      ((s.unsetFree source).writePage source content) changed next root
      (pageOf vAddress) fresh) :
    LosesFrame s next root vAddress := by
  have taken : ((s.unsetFree source).writePage source content).isFree source =
      false := by
    simp [Paging.isFree_unsetFree]
  have isHeld : changed source = .held := by
    rw [remapped.kinds source taken, setKind_same]
  have notRoot : root ≠ source := by
    intro same
    have freeKind := owned.free source free
    rw [← same, rooted] at freeKind
    cases freeKind
  have rootedThen : setKind kind source .held root = .pml4 := by
    rw [setKind_of_ne notRoot, rooted]
  have filled : Owned (setKind kind source .held)
      ((s.unsetFree source).writePage source content) :=
    ((Extends.allocate owned free).writeFresh owned free (by
      simp [Paging.isFree_unsetFree]) (by
        rw [setKind_same]
        exact fun isTable => isTable)).owned
  have rootedNow := remapped.root_kind filled rootedThen
  refine ⟨source, free, remapped.used taken, ?_, ?_⟩
  · rintro ⟨path, legal, short, reached⟩
    have depth := remapped.owned.hung.depth_tableAt (Kind.depth_root rootedNow)
      legal short reached
    rw [isHeld] at depth
    cases depth
  · rintro ⟨entry, found, frame⟩
    rw [remapped.lookup_here rootedThen (ownedPath_pageOf userHalf) rfl]
      at found
    cases found
    rw [remapped.frameOf_fresh] at frame
    have stillFree := remapped.free
    rw [frame, taken] at stillFree
    cases stillFree

/-- What the callers of the mapper do with the frame they took. -/
theorem yields_mapLost {source : Nat} {content : Page} {vAddress : Word}
    (owned : Owned kind s) (free : s.isFree source = true)
    (rooted : kind (kernelFrame cr3Addr) = .pml4)
    (userHalf : pml4Index vAddress ≠ 511) :
    Yields AnyFault
      (mapPhysToUserVirtAddr vAddress (pageAddr source) cr3Addr)
      ((s.unsetFree source).writePage source content) fun _ next =>
        LosesFrame s next (kernelFrame cr3Addr) vAddress := by
  have filled : Extends kind s (setKind kind source .held)
      ((s.unsetFree source).writePage source content) :=
    (Extends.allocate owned free).writeFresh owned free (by
      simp [Paging.isFree_unsetFree]) (by
        rw [setKind_same]
        exact fun isTable => isTable)
  apply (yields_mapPhysToUserVirtAddr (anyFault _) filled.owned
    (filled.root owned rooted) userHalf).mono
  rintro _ next ⟨changed, fresh, remapped, -⟩
  exact remapped.losesFrame owned free rooted userHalf

/-- The state without CR3 decides what is lost. -/
theorem LosesFrame.setCr3 {next : Paging} {root : Nat} {vAddress word : Word}
    (loses : LosesFrame s next root vAddress) :
    LosesFrame s { next with cr3 := word } root vAddress :=
  loses

end Mapping

/-! ## The operations -/

/-- One pass of the page loop of `load_binaries`. -/
def loadPage (cr3Addr vAddress : Word) : PagingM PUnit := do
  let page ← allocateVirtPage
  memsetPage (kernelFrame page)
  mapPhysToUserVirtAddr vAddress page cr3Addr

theorem mapSegment_succ (fuel : Nat) (cr3Addr phdrStart phdrEnd : Word) :
    mapSegment (fuel + 1) cr3Addr phdrStart phdrEnd =
      if phdrStart ≤ phdrEnd then do
        loadPage cr3Addr phdrStart
        mapSegment fuel cr3Addr (phdrStart + 4096) phdrEnd
      else
        pure phdrStart := by
  rw [mapSegment]
  unfold loadPage
  simp only [bind_assoc]

/-- A fault of a process, or a page of a segment that is loaded for it. -/
inductive UserMapping where
  | fault (fuel : Nat) (vmas : List Vma) (cr2 : Word)
  | load (vAddress : Word)

namespace UserMapping

def address : UserMapping → Word
  | fault _ _ cr2 => cr2
  | load vAddress => vAddress

/-- Runs the operation for the tables at `cr3Addr`; `true` when a page was
mapped. -/
def run (cr3Addr : Word) : UserMapping → PagingM Bool
  | fault fuel vmas cr2 => do
      let result ← pagefaultHandler fuel cr3Addr vmas cr2
      match result with
      | .copied => pure true
      | .grown _ => pure true
      | _ => pure false
  | load vAddress => do
      loadPage cr3Addr vAddress
      pure true

end UserMapping

section Operations

variable {kind : Nat → Kind} {s : Paging} {cr3Addr : Word}

theorem yields_loadPage {vAddress : Word} (owned : Owned kind s)
    (rooted : kind (kernelFrame cr3Addr) = .pml4)
    (userHalf : pml4Index vAddress ≠ 511) :
    Yields AnyFault (loadPage cr3Addr vAddress) s fun _ next =>
      LosesFrame s next (kernelFrame cr3Addr) vAddress := by
  unfold loadPage
  rw [yields_bind]
  apply yields_allocateVirtPage (anyFault _)
  intro source free
  have small := lt_of_lt_frameCount (Paging.lt_of_isFree free)
  rw [yields_bind, memsetPage, yields_modify, kernelFrame_pageAddr small]
  exact yields_mapLost owned free rooted userHalf

theorem kernelPage_state {s next : Paging} {vAddress : Word} {frame : Nat}
    (read : kernelPage vAddress s = .ok (frame, next)) : next = s := by
  unfold kernelPage at read
  obtain ⟨_, _, first, rest⟩ := bind_eq_ok_iff.mp read
  cases first
  cases found : s.translate ptPR vAddress with
  | none =>
      simp only [found] at rest
      cases rest
  | some entry =>
      simp only [found] at rest
      cases rest
      rfl

/-- The scan maps a page only with a frame that is lost. -/
theorem yields_growVma_lost {faultAddr : Word} (owned : Owned kind s)
    (rooted : kind (kernelFrame cr3Addr) = .pml4)
    (userHalf : pml4Index faultAddr ≠ 511) :
    ∀ (fuel : Nat) (vmas : List Vma),
      Yields AnyFault (growVma cr3Addr faultAddr fuel vmas) s
        fun result next => result = .ignored ∨
          LosesFrame s next (kernelFrame cr3Addr) faultAddr := by
  intro fuel
  induction fuel with
  | zero => exact fun _ => yields_stop _ _
  | succ fuel inductionHypothesis =>
      intro vmas
      cases vmas with
      | nil => exact .inl rfl
      | cons vma rest =>
          rw [growVma, yields_ite]
          refine ⟨fun _ => ?_, fun _ => inductionHypothesis rest⟩
          rw [yields_ite]
          refine ⟨fun _ => ?_, fun _ => inductionHypothesis (vma :: rest)⟩
          have mapped : (do
              let newPage ← allocateVirtPage
              memsetPage (kernelFrame newPage)
              mapPhysToUserVirtAddr faultAddr newPage cr3Addr
              pure (FaultEnd.grown vma) : PagingM FaultEnd) =
            (do
              loadPage cr3Addr faultAddr
              pure (FaultEnd.grown vma)) := by
            unfold loadPage
            simp only [bind_assoc]
          rw [mapped, yields_bind]
          apply (yields_loadPage owned rooted userHalf).mono
          intro _ next loses
          exact .inr loses

theorem yields_pagefaultHandler_lost {fuel : Nat} {vmas : List Vma}
    {cr2 : Word} (owned : Owned kind s)
    (rooted : kind (kernelFrame cr3Addr) = .pml4)
    (userHalf : pml4Index cr2 ≠ 511) :
    Yields AnyFault (pagefaultHandler fuel cr3Addr vmas cr2) s
      fun result next => (result = .copied ∨ ∃ vma, result = .grown vma) →
        LosesFrame s next (kernelFrame cr3Addr) cr2 := by
  have userHalfPage : pml4Index (removeFlag cr2) ≠ 511 := by
    rw [pml4Index, tableIndex_removeFlag (by decide)]
    exact userHalf
  have samePage : ∀ next,
      LosesFrame s next (kernelFrame cr3Addr) (removeFlag cr2) →
        LosesFrame s next (kernelFrame cr3Addr) cr2 := by
    intro next loses
    unfold LosesFrame IsFrameAt at loses ⊢
    rwa [pageOf_removeFlag] at loses
  rw [pagefaultHandler, yields_bind, yields_get]
  dsimp only
  rw [yields_ite]
  constructor
  · intro _
    rw [yields_bind]
    apply yields_allocateVirtPage (anyFault _)
    intro source free
    have small := lt_of_lt_frameCount (Paging.lt_of_isFree free)
    rw [yields_bind, yields_anyFault]
    intro shared next read
    obtain rfl := kernelPage_state read
    rw [yields_bind, memcpyPage, yields_modify, yields_bind,
      kernelFrame_pageAddr small]
    apply (yields_mapLost owned free rooted userHalfPage).mono
    intro _ next loses
    rw [yields_bind, setCR3, yields_modify, yields_pure]
    exact fun _ => samePage _ loses.setCr3
  · intro _
    rw [yields_ite]
    constructor
    · intro _
      rw [yields_bind]
      apply (yields_growVma_lost owned rooted userHalfPage fuel vmas).mono
      intro result next loses
      rw [yields_bind, setCR3, yields_modify, yields_pure]
      intro mapped
      obtain rfl | loses := loses
      · rcases mapped with none | ⟨vma, none⟩ <;> cases none
      · exact samePage _ loses.setCr3
    · rintro _ (none | ⟨vma, none⟩) <;> cases none

/-- A page that is mapped for a process costs a frame more than its tables and
the page. -/
theorem yields_run_lost (mapping : UserMapping) (owned : Owned kind s)
    (rooted : kind (kernelFrame cr3Addr) = .pml4)
    (userHalf : pml4Index mapping.address ≠ 511) :
    Yields AnyFault (mapping.run cr3Addr) s fun mapped next =>
      mapped = true →
        LosesFrame s next (kernelFrame cr3Addr) mapping.address := by
  cases mapping with
  | fault fuel vmas cr2 =>
      rw [UserMapping.run, yields_bind]
      apply (yields_pagefaultHandler_lost owned rooted userHalf).mono
      intro result next loses
      cases result with
      | copied => exact fun _ => loses (.inl rfl)
      | grown vma => exact fun _ => loses (.inr ⟨vma, rfl⟩)
      | ignored => exact fun mapped => by cases mapped
      | exited => exact fun mapped => by cases mapped
  | load vAddress =>
      rw [UserMapping.run, yields_bind]
      apply (yields_loadPage owned rooted userHalf).mono
      exact fun _ next loses _ => loses

/-- No page is mapped for a process without losing a frame: what is taken
from the map is never what the mapping uses. -/
theorem not_takesWhatItMaps {mapping : UserMapping} {next : Paging}
    (owned : Owned kind s) (rooted : kind (kernelFrame cr3Addr) = .pml4)
    (userHalf : pml4Index mapping.address ≠ 511)
    (mapped : mapping.run cr3Addr s = .ok (true, next)) :
    ¬ TakesWhatItMaps s next (kernelFrame cr3Addr) mapping.address := by
  have loses := yields_of_ok (yields_run_lost mapping owned rooted userHalf)
    mapped
  exact (loses rfl).takesMore

end Operations

/-! ### A page at 4 MiB -/

theorem takesWhatItMaps_load_empty :
    ∃ next, (UserMapping.load 0x400000).run (pageAddr 16) emptyPaging =
        .ok (true, next) ∧
      ¬ TakesWhatItMaps emptyPaging next 16 0x400000 := by
  have run : shown (fun mapped _ => mapped)
      ((UserMapping.load 0x400000).run (pageAddr 16) emptyPaging) =
        some true := by
    decide +kernel
  obtain ⟨mapped, next, returned, same⟩ := exists_of_shown run
  rw [same] at returned
  exact ⟨next, returned,
    not_takesWhatItMaps owned_emptyPaging (by decide) (by decide) returned⟩

/-- A fault of a process with a stack at the page. -/
def smallFault : UserMapping :=
  .fault 2
    [{ addr := kernelAddr
       vmStart := 0x400000
       vmEnd := 0x402000
       type := .stack }] 0x401008

/-- A demand-zero fault takes a frame that nothing maps. -/
theorem exists_not_takesWhatItMaps :
    ∃ next, smallFault.run (pageAddr 16) emptyPaging = .ok (true, next) ∧
      ¬ TakesWhatItMaps emptyPaging next 16 0x401008 := by
  have run : shown (fun mapped _ => mapped)
      (smallFault.run (pageAddr 16) emptyPaging) = some true := by
    decide +kernel
  obtain ⟨mapped, next, returned, same⟩ := exists_of_shown run
  rw [same] at returned
  have loses := yields_of_ok (yields_run_lost smallFault
    owned_emptyPaging (by decide) (by decide)) returned
  exact ⟨next, returned, (loses rfl).takesMore⟩

end SbuUnix
