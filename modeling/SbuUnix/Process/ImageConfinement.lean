import SbuUnix.Paging.Blocks
import SbuUnix.Paging.Confinement
import SbuUnix.Process.MalformedImage
import SbuUnix.Process.Table

/-!
# What an image can reach

`load_binaries` maps the pages of a segment wherever `p_vaddr` says, and
`map_phys_to_user_virt_addr` follows entry 511 as any other.  An image whose
segments lie in the user half only works on its own address space; one with a
segment in the kernel half rewrites the kernel's tables.
-/

namespace SbuUnix

open TableForest Outcome

/-! ## Images in the user half -/

/-- The pages that the loop maps and the bytes that are copied lie in the
user half. -/
structure ElfPhdr.InUserHalf (phdr : ElfPhdr) : Prop where
  pages : ∀ page, phdr.start ≤ page → page ≤ phdr.stop →
    pml4Index page ≠ 511
  bytes : phdr.copied = true → ∀ i < phdr.copyCount,
    pml4Index (phdr.pVaddr + BitVec.ofNat 64 i) ≠ 511

def ImageInUserHalf (bytes : Word → Byte) (elfStart : Word) : Prop :=
  ∀ phdr ∈ elfPhdrs bytes elfStart, phdr.pType = ptLoad → phdr.InUserHalf

section Segments

variable {root : Nat} {cr3Addr : Word}

/-- The last page before an overflow lies in the kernel half. -/
theorem le_add_page {start stop : Word} (below : start ≤ stop)
    (userHalf : pml4Index stop ≠ 511) : start ≤ start + 4096 := by
  have notLast : stop.toNat / 2 ^ 39 % 512 ≠ 511 := by
    intro last
    apply userHalf
    apply Fin.ext
    show (stop >>> 39).toNat % 512 = 511
    rw [BitVec.toNat_ushiftRight, Nat.shiftRight_eq_div_pow, last]
  have small := stop.isLt
  rw [BitVec.le_def] at below ⊢
  rw [BitVec.toNat_add, Nat.mod_eq_of_lt]
  · exact Nat.le_add_right _ _
  · show start.toNat + 4096 < 2 ^ 64
    omega

theorem within_mapSegment (fuel : Nat) (stop : Word) :
    ∀ start, (∀ page, start ≤ page → page ≤ stop → pml4Index page ≠ 511) →
      Keeps (Within (kernelFrame cr3Addr))
        (mapSegment fuel cr3Addr start stop) := by
  induction fuel with
  | zero => exact fun _ _ => keeps_throw _
  | succ fuel inductionHypothesis =>
      intro start userHalf
      rw [mapSegment]
      by_cases below : start ≤ stop
      · rw [if_pos below]
        have here := userHalf start (BitVec.le_refl start) below
        have grows :=
          le_add_page below (userHalf stop below (BitVec.le_refl stop))
        have later := inductionHypothesis (start + 4096)
          fun page after => userHalf page (BitVec.le_trans grows after)
        intro s _ next returned
        obtain ⟨page, taken, allocated, rest⟩ := bind_eq_ok_iff.mp returned
        obtain ⟨frame, free, rfl, rfl⟩ := allocateVirtPage_eq_ok allocated
        have small := lt_of_lt_frameCount (Paging.lt_of_isFree free)
        obtain ⟨_, _, cleared, rest⟩ := bind_eq_ok_iff.mp rest
        cases cleared
        rw [kernelFrame_pageAddr small] at rest
        exact Within.trans _ _ _ (within_take free fun _ => 0)
          (keeps_bind Within.trans (within_mapPhysToUserVirtAddr here)
            (fun _ => later) _ _ _ rest)
      · rw [if_neg below]
        exact keeps_pure Within.refl _

theorem within_memcpyOut (source : Nat → Byte) (dest : Word) :
    ∀ count, (∀ i < count, pml4Index (dest + BitVec.ofNat 64 i) ≠ 511) →
      Keeps (Within root) (memcpyOut source dest count) := by
  intro count
  unfold memcpyOut
  induction count with
  | zero =>
      intro _
      rw [forUpto_zero]
      exact keeps_pure Within.refl ()
  | succ count inductionHypothesis =>
      intro userHalf
      rw [forUpto_succ]
      apply keeps_bind Within.trans
      · exact inductionHypothesis fun i below =>
          userHalf i (Nat.lt_succ_of_lt below)
      · exact fun _ => within_storeByte _
          (userHalf count (Nat.lt_succ_self count))

end Segments

/-! ## The loader -/

/-- The process table is kept, and only the address space of `p` is worked
on. -/
structure LoadsInto (p : Word) (k next : Kernel) : Prop where
  view : SameView k next
  within : ∀ pcb, k.procs.pcb p = some pcb →
    Within (kernelFrame pcb.cr3) k.paging next.paging

section Loader

variable {α β : Type} {p : Word}

/-- The address space of a process is part of the view. -/
theorem SameView.cr3 {k next : Kernel} (same : SameView k next) {pcb : Pcb}
    (found : k.procs.pcb p = some pcb) :
    ∃ after, next.procs.pcb p = some after ∧ after.cr3 = pcb.cr3 := by
  have slot := view_slot found
  rw [← same] at slot
  obtain ⟨after, here, kept⟩ := exists_of_view_slot slot
  exact ⟨after, here, congrArg Slot.cr3 kept⟩

theorem LoadsInto.refl (k : Kernel) : LoadsInto p k k :=
  ⟨sameView.refl k, fun _ _ => Within.refl _⟩

theorem LoadsInto.trans (k next last : Kernel) (first : LoadsInto p k next)
    (second : LoadsInto p next last) : LoadsInto p k last where
  view := sameView.trans _ _ _ first.view second.view
  within := by
    intro pcb found
    obtain ⟨after, here, same⟩ := first.view.cr3 found
    have later := second.within after here
    rw [same] at later
    exact Within.trans _ _ _ (first.within pcb found) later

theorem loadsInto : Frame (LoadsInto p) where
  refl := LoadsInto.refl
  trans := LoadsInto.trans
  storePcb := by
    intro other update untouched k _ next returned
    have stored : Yields AnyFault (storePcb other update) k fun _ next =>
        next.paging = k.paging :=
      yields_storePcb.mpr fun _ _ => rfl
    refine ⟨sameView.storePcb untouched _ _ _ returned, fun _ _ => ?_⟩
    rw [yields_anyFault.mp stored _ _ returned]
    exact Within.refl _

theorem loadsInto_runPaging {program : PagingM α}
    (within : ∀ root, Keeps (Within root) program) :
    Keeps (LoadsInto p) (runPaging program) := by
  have everywhere :
      Keeps (fun s next => ∀ root, Within root s next) program :=
    fun _ _ _ ran root => within root _ _ _ ran
  exact keeps_zoom everywhere fun _ _ all => ⟨rfl, fun _ _ => all _⟩

theorem loadsInto_kmallocRecord (size : Int) :
    Keeps (LoadsInto p) (kmallocRecord size) := by
  intro k _ next returned
  have allocated : Yields AnyFault (kmallocRecord size) k fun _ next =>
      LoadsInto p k next :=
    yields_kmallocRecord fun _ _ _ ran =>
      ⟨rfl, fun _ _ => within_kmalloc size _ _ _ ran⟩
  exact yields_anyFault.mp allocated _ _ returned

/-- Work on the address space that the control block names. -/
theorem loadsInto_inSpace (program : Word → PagingM α)
    {rest : α → KernelM β}
    (within : ∀ cr3Addr, Keeps (Within (kernelFrame cr3Addr))
      (program cr3Addr))
    (second : ∀ value, Keeps (LoadsInto p) (rest value)) :
    Keeps (LoadsInto p)
      (derefPcb p >>= fun pcb => runPaging (program pcb.cr3) >>= rest) := by
  intro k value last returned
  obtain ⟨pcb, same, read, continued⟩ := bind_eq_ok_iff.mp returned
  have known : Yields AnyFault (derefPcb p) k fun pcb next =>
      k.procs.pcb p = some pcb ∧ next = k :=
    yields_derefPcb.mpr fun _ found => ⟨found, rfl⟩
  obtain ⟨found, rfl⟩ := yields_anyFault.mp known _ _ read
  obtain ⟨middle, next, ran, continued⟩ := bind_eq_ok_iff.mp continued
  have paged : Yields AnyFault (runPaging (program pcb.cr3)) same
      fun _ next => LoadsInto p same next := by
    refine yields_runPaging.mpr (yields_anyFault.mpr fun _ _ worked => ?_)
    refine ⟨rfl, fun other here => ?_⟩
    rw [found] at here
    cases here
    exact within _ _ _ _ worked
  exact LoadsInto.trans _ _ _ (yields_anyFault.mp paged _ _ ran)
    (second _ _ _ _ continued)

theorem loadsInto_loadSegment {fuel : Nat} {elfHdr : Word} {phdr : ElfPhdr}
    (userHalf : phdr.InUserHalf) :
    Keeps (LoadsInto p) (loadSegment fuel p elfHdr phdr) := by
  have frame : Frame (LoadsInto p) := loadsInto
  unfold loadSegment
  apply frame.bind (loadsInto_kmallocRecord _)
  intro block
  apply frame.bind (frame.derefMm p)
  intro mm
  cases addMmstruct mm _ with
  | none => exact frame.pure _
  | some added =>
      apply frame.bind (frame.storeMm p added)
      intro _
      refine loadsInto_inSpace
        (fun cr3Addr => mapSegment fuel cr3Addr phdr.start phdr.stop)
        (fun _ => within_mapSegment _ _ _ userHalf.pages) fun stop => ?_
      apply frame.bind (frame.derefMm p)
      intro mapped
      apply frame.bind (frame.storeMm p _)
      intro _
      split
      · next copied =>
        apply frame.bind (loadsInto_kmallocRecord _)
        intro file
        apply frame.bind frame.get
        intro _
        refine frame.bind (loadsInto_runPaging fun root =>
          within_memcpyOut _ _ _ (userHalf.bytes copied)) fun _ => ?_
        apply frame.bind (frame.derefMm p)
        intro _
        exact frame.bind (frame.storeMm p _) fun _ => frame.pure _
      · exact frame.pure _

theorem loadsInto_loadSegments {fuel : Nat} {elfHdr : Word}
    (phdrs : List ElfPhdr) :
    (∀ phdr ∈ phdrs, phdr.pType = ptLoad → phdr.InUserHalf) →
      Keeps (LoadsInto p) (loadSegments fuel p elfHdr phdrs) := by
  have frame : Frame (LoadsInto p) := loadsInto
  induction phdrs with
  | nil => exact fun _ => frame.pure _
  | cons phdr rest inductionHypothesis =>
      intro userHalf
      have later := inductionHypothesis fun other member =>
        userHalf other (List.mem_cons_of_mem _ member)
      rw [loadSegments]
      split
      · next isLoad =>
        refine frame.bind (loadsInto_loadSegment
          (userHalf phdr List.mem_cons_self isLoad)) fun _ => ?_
        exact keeps_ite _ later (frame.pure _)
      · exact later

theorem loadsInto_initMmap : Keeps (LoadsInto p) (initMmap p) := by
  have frame : Frame (LoadsInto p) := loadsInto
  unfold initMmap
  refine frame.bind (loadsInto_runPaging fun _ =>
    within_allocateVirtPage) fun phyAddr => ?_
  refine loadsInto_inSpace
    (fun cr3Addr => mapPhysToUserVirtAddr heapAddr phyAddr cr3Addr)
    (fun _ => within_mapPhysToUserVirtAddr (by decide)) fun _ => ?_
  apply frame.bind (frame.derefMm p)
  intro mm
  cases mm.vma.find? _ with
  | none => exact keeps_throw _
  | some heap => exact frame.storeMm p _

theorem loadsInto_loadHeapAndStack :
    Keeps (LoadsInto p) (loadHeapAndStack p) := by
  have frame : Frame (LoadsInto p) := loadsInto
  unfold loadHeapAndStack
  apply frame.bind (loadsInto_kmallocRecord _)
  intro heap
  apply frame.bind (frame.derefMm p)
  intro mm
  cases addMmstruct mm _ with
  | none => exact frame.pure _
  | some added =>
      apply frame.bind (frame.storeMm p _)
      intro _
      apply frame.bind (loadsInto_kmallocRecord _)
      intro stack
      apply frame.bind (frame.derefMm p)
      intro mm
      cases addMmstruct mm _ with
      | none => exact frame.pure _
      | some whole =>
          apply frame.bind (frame.storeMm p whole)
          intro _
          exact frame.bind loadsInto_initMmap fun _ => frame.pure _

/-- Loading an image of the user half works on the new address space only. -/
theorem loadBinaries_within {fuel : Nat} {elfStart : Word} {k next : Kernel}
    {pcb : Pcb} {loaded : Bool}
    (userHalf : ImageInUserHalf k.archive elfStart)
    (found : k.procs.pcb p = some pcb)
    (returned : loadBinaries fuel p elfStart k = .ok (loaded, next)) :
    Within (kernelFrame pcb.cr3) k.paging next.paging := by
  have frame : Frame (LoadsInto p) := loadsInto
  obtain ⟨here, _, read, rest⟩ := bind_eq_ok_iff.mp returned
  cases read
  split at rest
  · have kept : Keeps (LoadsInto p) (do
        storePcb p fun pcb => { pcb with rip := elfEntry k.archive elfStart }
        if ← loadSegments fuel p elfStart (elfPhdrs k.archive elfStart) then
          loadHeapAndStack p
        else
          pure false) := by
      refine frame.bind (frame.storePcb fun _ => ⟨rfl, rfl⟩) fun _ => ?_
      apply frame.bind (loadsInto_loadSegments _ userHalf)
      intro _
      exact keeps_ite _ loadsInto_loadHeapAndStack (frame.pure _)
    exact (kept _ _ _ rest).within pcb found
  · cases rest
    exact Within.refl _

end Loader

/-! ## The kernel half -/

/-- Every kernel-half address is translated as before, with the same flags,
in every address space.  Its page holds what it held, unless the frame was
taken from the free map meanwhile or belongs to the address space at
`root`. -/
structure KernelHalfKept (kind : Nat → Kind) (root : Nat)
    (s next : Paging) : Prop where
  walks : ∀ other need vAddress, kind other = .pml4 →
    need &&& ptPR = ptPR → pml4Index vAddress = 511 →
      mmuWalk next.mem need other (pageOf vAddress).reverse =
        mmuWalk s.mem need other (pageOf vAddress).reverse
  contents : ∀ other vAddress entry, kind other = .pml4 →
    pml4Index vAddress = 511 →
      mmuWalk s.mem ptPR other (pageOf vAddress).reverse = some entry →
        (s.isFree (frameOf entry) = true →
          next.isFree (frameOf entry) = true) →
          ¬ Belongs s root (frameOf entry) →
            next.mem (frameOf entry) = s.mem (frameOf entry)

theorem Within.kernelHalfKept {kind : Nat → Kind} {root : Nat}
    {s next : Paging} (within : Within root s next)
    (ready : Ready kind root s) : KernelHalfKept kind root s next := by
  obtain ⟨changed, confined⟩ := within kind ready
  constructor
  · intro other need vAddress rooted needsPresent kernelHalf
    exact confined.mmuWalk_kernel ready.owned ready.rooted rooted
      needsPresent kernelHalf
  · intro other vAddress entry _ _ _ stillFree foreign
    cases free : s.isFree (frameOf entry) with
    | false => exact confined.words _ free foreign
    | true => exact confined.untouched _ (stillFree free)

/-- What no image should be able to change: the kernel-half addresses that
are mapped and do not lie in a block that the call takes from `kmalloc`. -/
def KernelHalfUntouched (kind : Nat → Kind) (k next : Kernel) : Prop :=
  ∀ other vAddress entry, kind other = .pml4 → pml4Index vAddress = 511 →
    mmuWalk k.paging.mem ptPR other (pageOf vAddress).reverse = some entry →
      (∀ frame ∈ next.objects, frame ∉ k.objects →
        removeFlag vAddress ≠ linearAddr frame) →
        mmuWalk next.paging.mem ptPR other (pageOf vAddress).reverse =
            some entry ∧
          next.paging.mem (frameOf entry) = k.paging.mem (frameOf entry)

/-- An image with one segment of 16 bytes, to be read only. -/
def segmentImage (vaddr a : Word) : Byte :=
  match (a - 0xFFFFFFFF80210000).toNat with
  | 0 => 0x7F
  | 1 => 0x45
  | 2 => 0x4C
  | 3 => 0x46
  | 32 => 64
  | 56 => 1
  | 64 => 1
  | 68 => 4
  | 80 => byteOf vaddr 0
  | 81 => byteOf vaddr 1
  | 82 => byteOf vaddr 2
  | 83 => byteOf vaddr 3
  | 84 => byteOf vaddr 4
  | 85 => byteOf vaddr 5
  | 86 => byteOf vaddr 6
  | 87 => byteOf vaddr 7
  | 104 => 16
  | _ => 0

/-- A process in the first address space of two megabytes, and an image. -/
def segmentKernel (vaddr : Word) : Kernel where
  paging := linearPaging (BitVec.allOnes 64)
  procs :=
    { pcb := fun p =>
        if p = 0x1000 then
          some { cr3 := pageAddr 16, mm := some {} }
        else
          none }
  archive := segmentImage vaddr

theorem ready_segmentKernel (vaddr : Word) :
    Ready linearKind 16 (segmentKernel vaddr).paging where
  owned := owned_linearPaging _
  rooted := rfl
  current := show kernelFrame (pageAddr 16) = 16 by decide
  linear := by
    intro frame free
    have word := word_of_isFree_linearPaging free
    exact (linearEntry_linearPaging _ (by omega)).trans (if_pos (by omega))

def loadSegmentImage (vaddr : Word) : Except Fault (Bool × Kernel) :=
  loadBinaries 4 0x1000 0xFFFFFFFF80210000 (segmentKernel vaddr)

theorem imageInUserHalf_segmentImage :
    ImageInUserHalf (segmentImage 0x400000) 0xFFFFFFFF80210000 := by
  intro phdr member _
  have headers : elfPhdrs (segmentImage 0x400000) 0xFFFFFFFF80210000 =
      [{ pType := 1, pFlags := 4, pOffset := 0, pVaddr := 0x400000,
         pFilesz := 0, pMemsz := 16 }] := by
    decide +kernel
  rw [headers, List.mem_singleton] at member
  subst member
  constructor
  · intro page above below last
    have stop : page.toNat ≤ 0x400010 := BitVec.le_def.mp below
    have index := congrArg Fin.val last
    rw [pml4Index, val_tableIndex] at index
    change page.toNat / 2 ^ 39 % 512 = 511 at index
    omega
  · intro copied
    exact absurd copied (by decide)

end SbuUnix
