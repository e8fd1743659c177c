import SbuUnix.Paging.KernelHalf
import SbuUnix.Process.Runs

/-!
# A failing `execve`

When `load_binaries` returns `-1`, `execve` prints a line and returns.  By
then a control block, an address space, a stack and maybe some segments have
been made, the caller's stack page is mapped to another frame, and CR3 holds
the new address space.  Nothing of it is undone.
-/

namespace SbuUnix

open Outcome

/-! ## Frames are only taken -/

section Paging

/-- Two programs that only take frames, one after the other. -/
theorem OnlyTakes.bind {α β : Type} {program : PagingM α}
    {rest : α → PagingM β} (first : Keeps OnlyTakes program)
    (second : ∀ value, Keeps OnlyTakes (rest value)) :
    Keeps OnlyTakes (program >>= rest) :=
  keeps_bind OnlyTakes.trans first second

theorem onlyTakes_get : Keeps OnlyTakes (get : PagingM Paging) :=
  keeps_get OnlyTakes.refl

theorem onlyTakes_pure {α : Type} (value : α) :
    Keeps OnlyTakes (pure value : PagingM α) :=
  keeps_pure OnlyTakes.refl value

theorem onlyTakes_memsetPage (frame : Nat) :
    Keeps OnlyTakes (memsetPage frame) :=
  keeps_modify fun _ => ⟨fun _ free => free, rfl⟩

theorem onlyTakes_memcpyPage (source destination : Nat) :
    Keeps OnlyTakes (memcpyPage source destination) :=
  keeps_modify fun _ => ⟨fun _ free => free, rfl⟩

theorem onlyTakes_nextTable (flags : Word) (table : Nat) (index : Fin 512) :
    Keeps OnlyTakes (nextTable flags table index) := by
  apply OnlyTakes.bind onlyTakes_get
  intro _
  apply keeps_ite
  · exact onlyTakes_pure _
  · apply OnlyTakes.bind onlyTakes_allocateVirtPage
    intro _
    apply OnlyTakes.bind (onlyTakes_memsetPage _)
    intro _
    exact OnlyTakes.bind (onlyTakes_writeEntry _ _ _) fun _ =>
      onlyTakes_pure _

theorem onlyTakes_mapPhysToVirtAddr (vAddress phys : Word) :
    Keeps OnlyTakes (mapPhysToVirtAddr vAddress phys) := by
  apply OnlyTakes.bind onlyTakes_get
  intro _
  apply OnlyTakes.bind (onlyTakes_nextTable _ _ _)
  intro _
  apply OnlyTakes.bind (onlyTakes_nextTable _ _ _)
  intro _
  apply OnlyTakes.bind (onlyTakes_nextTable _ _ _)
  intro _
  exact onlyTakes_writeEntry _ _ _

theorem onlyTakes_mapPhysToUserVirtAddr (vAddress phys cr3Addr : Word) :
    Keeps OnlyTakes (mapPhysToUserVirtAddr vAddress phys cr3Addr) := by
  apply OnlyTakes.bind (onlyTakes_nextTable _ _ _)
  intro _
  apply OnlyTakes.bind (onlyTakes_nextTable _ _ _)
  intro _
  apply OnlyTakes.bind (onlyTakes_nextTable _ _ _)
  intro _
  apply OnlyTakes.bind onlyTakes_allocateVirtPage
  intro _
  apply OnlyTakes.bind (onlyTakes_memsetPage _)
  intro _
  apply OnlyTakes.bind (onlyTakes_memcpyPage _ _)
  intro _
  exact onlyTakes_writeEntry _ _ _

theorem onlyTakes_kmallocPages (count : Nat) :
    Keeps OnlyTakes (kmallocPages count) := by
  induction count with
  | zero => exact onlyTakes_pure _
  | succ count inductionHypothesis =>
      apply OnlyTakes.bind onlyTakes_allocateVirtPage
      intro _
      apply OnlyTakes.bind (onlyTakes_mapPhysToVirtAddr _ _)
      intro _
      apply OnlyTakes.bind (onlyTakes_memsetPage _)
      intro _
      exact OnlyTakes.bind inductionHypothesis fun _ => onlyTakes_pure _

theorem onlyTakes_kmalloc (size : Int) : Keeps OnlyTakes (kmalloc size) :=
  OnlyTakes.bind (onlyTakes_kmallocPages _) fun _ => onlyTakes_pure _

theorem onlyTakes_mapSegment (fuel : Nat) (cr3Addr stop : Word) :
    ∀ start, Keeps OnlyTakes (mapSegment fuel cr3Addr start stop) := by
  induction fuel with
  | zero => exact fun _ => keeps_throw _
  | succ fuel inductionHypothesis =>
      intro start
      rw [mapSegment]
      apply keeps_ite
      · apply OnlyTakes.bind onlyTakes_allocateVirtPage
        intro _
        apply OnlyTakes.bind (onlyTakes_memsetPage _)
        intro _
        exact OnlyTakes.bind (onlyTakes_mapPhysToUserVirtAddr _ _ _)
          fun _ => inductionHypothesis _
      · exact onlyTakes_pure _

theorem onlyTakes_loadByte (need vAddress : Word) :
    Keeps OnlyTakes (loadByte need vAddress) := by
  apply OnlyTakes.bind onlyTakes_get
  intro s
  cases s.translate need vAddress with
  | some entry => exact onlyTakes_pure _
  | none => exact keeps_throw _

theorem onlyTakes_storeByte (need vAddress : Word) (byte : Byte) :
    Keeps OnlyTakes (storeByte need vAddress byte) := by
  intro s value next returned
  obtain ⟨_, _, here, stored⟩ := bind_eq_ok_iff.mp returned
  cases here
  cases found : s.translate need vAddress with
  | some entry =>
      simp only [found] at stored
      cases stored
      exact ⟨fun _ free => free, rfl⟩
  | none =>
      simp only [found] at stored
      cases stored

theorem onlyTakes_memcpyOut (source : Nat → Byte) (dest : Word)
    (count : Nat) : Keeps OnlyTakes (memcpyOut source dest count) :=
  keeps_forUpto OnlyTakes.refl OnlyTakes.trans
    (fun _ => onlyTakes_storeByte _ _ _) count

/-- The PML4 page of a new address space was a free frame. -/
theorem createUserAddressSpace_takes {s next : Paging} {cr3Addr : Word}
    (returned : createUserAddressSpace s = .ok (cr3Addr, next)) :
    OnlyTakes s next ∧ ∃ frame, cr3Addr = pageAddr frame ∧
      s.isFree frame = true ∧ next.isFree frame = false := by
  obtain ⟨page, taken, allocated, rest⟩ := bind_eq_ok_iff.mp returned
  have first := onlyTakes_allocateVirtPage s page taken allocated
  obtain ⟨frame, free, rfl, rfl⟩ := allocateVirtPage_eq_ok allocated
  have used : (s.unsetFree frame).isFree frame = false := by
    simp [Paging.isFree_unsetFree]
  obtain ⟨_, _, mapped, rest⟩ := bind_eq_ok_iff.mp rest
  have second := onlyTakes_mapPhysToVirtAddr _ _ _ _ _ mapped
  obtain ⟨_, _, here, rest⟩ := bind_eq_ok_iff.mp rest
  cases here
  obtain ⟨_, _, here, rest⟩ := bind_eq_ok_iff.mp rest
  cases here
  obtain ⟨_, _, here, rest⟩ := bind_eq_ok_iff.mp rest
  cases here
  cases rest
  exact ⟨⟨fun other still => first.fewer other (second.fewer other still),
    second.cr3.trans first.cr3⟩, frame, rfl, free, second.used used⟩

end Paging

/-! ## The parts of the call -/

def Takes (k next : Kernel) : Prop :=
  OnlyTakes k.paging next.paging

theorem takes_runPaging {α : Type} {program : PagingM α}
    (takes : Keeps OnlyTakes program) : Keeps Takes (runPaging program) :=
  keeps_zoom takes fun _ _ kept => kept

theorem takes_storePcb (p : Word) (update : Pcb → Pcb) :
    Keeps Takes (storePcb p update) := by
  intro k _ next returned
  have stored : Yields AnyFault (storePcb p update) k fun _ next =>
      Takes k next :=
    yields_storePcb.mpr fun _ _ => OnlyTakes.refl k.paging
  exact yields_anyFault.mp stored _ _ returned

theorem takes : LoadFrame Takes where
  refl := fun k => OnlyTakes.refl k.paging
  trans := fun _ _ _ => OnlyTakes.trans _ _ _
  storePcb := fun _ => takes_storePcb _ _
  kmallocRecord := by
    intro size k _ next returned
    have allocated : Yields AnyFault (kmallocRecord size) k fun _ next =>
        Takes k next :=
      yields_kmallocRecord fun _ _ _ ran => onlyTakes_kmalloc size _ _ _ ran
    exact yields_anyFault.mp allocated _ _ returned
  mapSegment := fun _ _ _ _ => takes_runPaging (onlyTakes_mapSegment _ _ _ _)
  memcpyOut := fun _ _ _ => takes_runPaging (onlyTakes_memcpyOut _ _ _)
  allocateVirtPage := takes_runPaging onlyTakes_allocateVirtPage
  mapPhysToUserVirtAddr := fun _ _ _ =>
    takes_runPaging (onlyTakes_mapPhysToUserVirtAddr _ _ _)

theorem takes_loadUser (v : Word) : Keeps Takes (loadUser v) :=
  takes_runPaging (onlyTakes_loadByte _ _)

theorem takes_storeUser (v : Word) (byte : Byte) :
    Keeps Takes (storeUser v byte) :=
  takes_runPaging (onlyTakes_storeByte _ _ _)

theorem takes_countBytes (fuel : Nat) :
    ∀ str, Keeps Takes (countBytes fuel str) := by
  induction fuel with
  | zero => exact fun _ => keeps_throw _
  | succ fuel inductionHypothesis =>
      intro str
      apply takes.bind (takes_loadUser str)
      intro byte
      apply keeps_ite
      · exact takes.bind (inductionHypothesis _) fun _ => takes.pure _
      · exact takes.pure _

theorem takes_strlen (fuel : Nat) (str : Word) :
    Keeps Takes (strlen fuel str) := by
  apply takes.bind (takes_countBytes fuel str)
  intro _
  apply takes.bind (takes_storeUser _ _)
  intro _
  exact takes.bind (takes_storeUser _ _) fun _ => takes.pure _

theorem takes_copyFile (fuel : Nat) :
    ∀ filename i, Keeps Takes (copyFile fuel filename i) := by
  induction fuel with
  | zero => exact fun _ _ => keeps_throw _
  | succ fuel inductionHypothesis =>
      intro filename i
      apply takes.bind (takes_loadUser filename)
      intro byte
      apply keeps_ite
      · apply keeps_ite
        · exact takes.bind (inductionHypothesis _ _) fun _ => takes.pure _
        · exact takes.pure _
      · exact keeps_throw _

theorem takes_putArg (args : Nat → Byte) (index : Nat) (byte : Byte) :
    Keeps Takes (putArg args index byte) :=
  keeps_ite _ (takes.pure _) (keeps_throw _)

theorem takes_copyArg (argv : Word) (i fuel : Nat) :
    ∀ j k args, Keeps Takes (copyArg argv i fuel j k args) := by
  induction fuel with
  | zero => exact fun _ _ _ => keeps_throw _
  | succ fuel inductionHypothesis =>
      intro j k args
      apply takes.bind (takes_loadUser _)
      intro byte
      apply keeps_ite
      · exact takes.bind (takes_putArg _ _ _) fun _ =>
          inductionHypothesis _ _ _
      · exact takes.bind (takes_putArg _ _ _) fun _ => takes.pure _

theorem takes_splitArgs (argv : Word) (fuel : Nat) :
    ∀ i k args, Keeps Takes (splitArgs argv fuel i k args) := by
  induction fuel with
  | zero => exact fun _ _ _ => keeps_throw _
  | succ fuel inductionHypothesis =>
      intro i k args
      apply takes.bind (takes_loadUser _)
      intro byte
      apply keeps_ite
      · exact takes.bind (takes_copyArg argv i _ _ _ _) fun _ =>
          inductionHypothesis _ _ _
      · exact takes.pure _

theorem takes_readArguments (fuel : Nat) (stale : Nat → Byte)
    (filename argv : Word) :
    Keeps Takes (readArguments fuel stale filename argv) := by
  apply takes.bind (takes_strlen fuel argv)
  intro len
  apply takes.bind (takes_loadUser _)
  intro byte
  dsimp only
  apply keeps_ite
  · apply takes.bind (takes_storeUser _ _)
    intro _
    apply takes.bind (takes_storeUser _ _)
    intro _
    apply takes.bind (takes_copyFile fuel filename 0)
    intro _
    exact takes.bind (takes_splitArgs argv fuel 0 0 stale) fun _ =>
      takes.pure _
  · apply takes.bind (takes_copyFile fuel filename 0)
    intro _
    exact takes.bind (takes_splitArgs argv fuel 0 0 stale) fun _ =>
      takes.pure _

theorem takes_newPcb : Keeps Takes newPcb := by
  intro k _ next returned
  have allocated : Yields AnyFault newPcb k fun _ next => Takes k next :=
    yields_newPcb fun _ _ _ ran _ => onlyTakes_kmalloc 6000 _ _ _ ran
  exact yields_anyFault.mp allocated _ _ returned

/-! ## What is left behind -/

/-- CR3 holds an address space on a frame that was free. -/
def InNewSpace (k next : Kernel) : Prop :=
  ∃ frame, next.paging.cr3 = pageAddr frame ∧
    k.paging.isFree frame = true ∧ next.paging.isFree frame = false

/-- Before that nothing was given back, and after it frames are only
taken. -/
theorem InNewSpace.extend {k start between next : Kernel}
    (before : Takes k start) (inNew : InNewSpace start between)
    (after : Takes between next) : InNewSpace k next := by
  obtain ⟨frame, cr3, free, used⟩ := inNew
  exact ⟨frame, after.cr3.trans cr3, before.fewer frame free,
    after.used used⟩

theorem onlyTakes_kernelPage (vAddress : Word) :
    Keeps OnlyTakes (kernelPage vAddress) := by
  apply OnlyTakes.bind onlyTakes_get
  intro s
  cases s.translate ptPR vAddress with
  | some entry => exact onlyTakes_pure _
  | none => exact keeps_throw _

theorem mapUserStack_used {cr3Addr : Word} {s next : Paging} {frame : Nat}
    (used : s.isFree frame = false)
    (returned : mapUserStack cr3Addr s = .ok ((), next)) :
    next.isFree frame = false := by
  obtain ⟨_, _, allocated, rest⟩ := bind_eq_ok_iff.mp returned
  have first := (onlyTakes_allocateVirtPage _ _ _ allocated).used used
  obtain ⟨_, _, mapped, rest⟩ := bind_eq_ok_iff.mp rest
  have second := (onlyTakes_mapPhysToVirtAddr _ _ _ _ _ mapped).used first
  obtain ⟨_, _, mapped, rest⟩ := bind_eq_ok_iff.mp rest
  have third :=
    (onlyTakes_mapPhysToUserVirtAddr _ _ _ _ _ _ mapped).used second
  obtain ⟨_, _, here, rest⟩ := bind_eq_ok_iff.mp rest
  cases here
  obtain ⟨_, _, reached, rest⟩ := bind_eq_ok_iff.mp rest
  have fourth := (onlyTakes_kernelPage _ _ _ _ reached).used third
  cases rest
  exact fourth

/-- The new process's tables are left in CR3. -/
theorem makeUserSpace_ends {p cr3Addr : Word} {k next : Kernel} {frame : Nat}
    (used : k.paging.isFree frame = false)
    (returned : makeUserSpace p cr3Addr k = .ok ((), next)) :
    next.paging.cr3 = cr3Addr ∧ next.paging.isFree frame = false := by
  obtain ⟨_, _, mapped, rest⟩ := bind_eq_ok_iff.mp returned
  have kept : Yields AnyFault (runPaging (mapUserStack cr3Addr)) k
      fun _ next => next.paging.isFree frame = false :=
    yields_runPaging.mpr
      (yields_anyFault.mpr fun _ _ ran => mapUserStack_used used ran)
  have first := yields_of_ok kept mapped
  obtain ⟨_, _, here, rest⟩ := bind_eq_ok_iff.mp rest
  cases here
  obtain ⟨_, _, read, rest⟩ := bind_eq_ok_iff.mp rest
  have second := (takes.derefPcb _ _ _ _ read).used first
  obtain ⟨_, _, here, rest⟩ := bind_eq_ok_iff.mp rest
  cases here
  obtain ⟨_, _, allocated, rest⟩ := bind_eq_ok_iff.mp rest
  have third := (takes.kmallocRecord _ _ _ _ allocated).used second
  obtain ⟨_, _, stored, rest⟩ := bind_eq_ok_iff.mp rest
  have fourth := (takes_storePcb _ _ _ _ _ stored).used third
  cases rest
  exact ⟨rfl, fourth⟩

theorem loadNewImage_inNewSpace {fuel : Nat} {p : Word} {file : List Byte}
    {k next : Kernel} {loaded : Bool}
    (returned : loadNewImage fuel p file k = .ok (loaded, next)) :
    InNewSpace k next := by
  obtain ⟨_, _, copied, rest⟩ := bind_eq_ok_iff.mp returned
  have first := takes.strcpyTo _ _ _ _ _ copied
  obtain ⟨_, _, here, rest⟩ := bind_eq_ok_iff.mp rest
  cases here
  obtain ⟨_, _, read, rest⟩ := bind_eq_ok_iff.mp rest
  have second := takes.trans _ _ _ first (takes.derefPcb _ _ _ _ read)
  obtain ⟨_, start, stored, rest⟩ := bind_eq_ok_iff.mp rest
  have before := takes.trans _ _ _ second (takes_storePcb _ _ _ _ _ stored)
  obtain ⟨cr3Addr, made, created, rest⟩ := bind_eq_ok_iff.mp rest
  have new : Yields AnyFault (runPaging createUserAddressSpace) start
      fun cr3Addr made => ∃ frame, cr3Addr = pageAddr frame ∧
        start.paging.isFree frame = true ∧
          made.paging.isFree frame = false :=
    yields_runPaging.mpr (yields_anyFault.mpr fun _ _ ran =>
      (createUserAddressSpace_takes ran).2)
  obtain ⟨frame, rfl, free, used⟩ := yields_of_ok new created
  obtain ⟨_, _, stored, rest⟩ := bind_eq_ok_iff.mp rest
  have usedNow := (takes_storePcb _ _ _ _ _ stored).used used
  obtain ⟨_, between, mapped, rest⟩ := bind_eq_ok_iff.mp rest
  obtain ⟨cr3, usedThen⟩ := makeUserSpace_ends usedNow mapped
  obtain ⟨_, _, here, rest⟩ := bind_eq_ok_iff.mp rest
  cases here
  exact InNewSpace.extend before ⟨frame, cr3, free, usedThen⟩
    (takes.loadBinaries _ _ _ _ _ _ rest)

/-- A failing call leaves the process on the tables of an address space that
nothing else uses. -/
theorem execve_inNewSpace {fuel : Nat} {stale : Nat → Byte}
    {filename argv : Word} {k next : Kernel}
    (failed : execve fuel stale filename argv k = .ok (false, next)) :
    InNewSpace k next := by
  obtain ⟨_, _, made, rest⟩ := bind_eq_ok_iff.mp failed
  have first := takes_newPcb _ _ _ made
  obtain ⟨_, start, read, rest⟩ := bind_eq_ok_iff.mp rest
  have before :=
    takes.trans _ _ _ first (takes_readArguments _ _ _ _ _ _ _ read)
  obtain ⟨loaded, between, ran, rest⟩ := bind_eq_ok_iff.mp rest
  have inNew := loadNewImage_inNewSpace ran
  cases loaded with
  | true =>
      obtain ⟨_, _, _, rest⟩ := bind_eq_ok_iff.mp rest
      obtain ⟨_, _, _, rest⟩ := bind_eq_ok_iff.mp rest
      cases rest
  | false =>
      cases rest
      exact inNew.extend before (OnlyTakes.refl next.paging)

/-! ## The caller -/

/-- The caller is as it was: CR3, what its user addresses translate to and
what the pages hold, the process it is, the ring, the forked processes, and
the free frames. -/
structure CallerKept (k next : Kernel) : Prop where
  cr3 : next.paging.cr3 = k.paging.cr3
  translations : ∀ need vAddress, pml4Index vAddress ≠ 511 →
    { next.paging with cr3 := k.paging.cr3 }.translate need vAddress =
      k.paging.translate need vAddress
  pages : ∀ need vAddress entry, pml4Index vAddress ≠ 511 →
    k.paging.translate need vAddress = some entry →
      next.paging.mem (frameOf entry) = k.paging.mem (frameOf entry)
  currProcess : next.procs.currProcess = k.procs.currProcess
  ring : ∀ p pcb, k.procs.pcb p = some pcb →
    (next.procs.pcb p).map Pcb.nextProc = some pcb.nextProc
  forkedProcess : next.procs.forkedProcess = k.procs.forkedProcess
  givenBack : ∀ frame, k.paging.isFree frame = true →
    next.paging.isFree frame = true

theorem InNewSpace.not_callerKept {k next : Kernel}
    (inNew : InNewSpace k next) : ¬ CallerKept k next := by
  intro kept
  obtain ⟨frame, _, free, used⟩ := inNew
  rw [kept.givenBack frame free] at used
  cases used

/-- No failing call leaves its caller as it was: when the caller's tables are
not free, CR3 has changed, and the frames are gone in any case. -/
theorem failedExecve_not_callerKept (fuel : Nat) (stale : Nat → Byte)
    (filename argv : Word) (k next : Kernel)
    (failed : execve fuel stale filename argv k = .ok (false, next)) :
    (∀ frame, k.paging.cr3 = pageAddr frame →
      frame < frameCount → k.paging.isFree frame = false →
        next.paging.cr3 ≠ k.paging.cr3) ∧
      ¬ CallerKept k next := by
  have inNew := execve_inNewSpace failed
  refine ⟨fun own isOwn small used same => ?_, inNew.not_callerKept⟩
  obtain ⟨frame, cr3, free, -⟩ := inNew
  have sameFrame : frame = own :=
    pageAddr_injective (lt_of_lt_frameCount (Paging.lt_of_isFree free))
      (lt_of_lt_frameCount small) (by rw [← cr3, same, isOwn])
  rw [sameFrame, used] at free
  cases free

/-! ## A file that does not exist -/

/-- The first process asks for the file `x`, with no arguments; both strings
are on its stack page. -/
def failingExec : KernelM (Kernel × Bool) := do
  createKernelThread
  scheduleSbush 20
  storeUser (userVirt + 0x10) 0x78
  let start ← get
  let loaded ← execve 20 (fun _ => 0) (userVirt + 0x10) (userVirt + 0x100)
  pure (start, loaded)

theorem exists_failingExec :
    ∃ k next,
      execve 20 (fun _ => 0) (userVirt + 0x10) (userVirt + 0x100) k =
          .ok (false, next) ∧
        next.paging.cr3 ≠ k.paging.cr3 ∧
        (k.paging.translate userStore userVirt).isSome = true ∧
        { next.paging with cr3 := k.paging.cr3 }.translate userStore
          userVirt = none := by
  have ends : shown
      (fun states (next : Kernel) => decide (
        states.2 = false ∧ next.paging.cr3 ≠ states.1.paging.cr3 ∧
          (states.1.paging.translate userStore userVirt).isSome = true ∧
          { next.paging with cr3 := states.1.paging.cr3 }.translate userStore
            userVirt = none))
      (failingExec bootMachine.kernel) = some true := by
    decide +kernel
  obtain ⟨⟨start, loaded⟩, next, ran, seen⟩ := exists_of_shown ends
  rw [decide_eq_true_eq] at seen
  obtain ⟨notLoaded, left, mapped, lost⟩ := seen
  obtain ⟨_, _, -, ran⟩ := bind_eq_ok_iff.mp ran
  obtain ⟨_, _, -, ran⟩ := bind_eq_ok_iff.mp ran
  obtain ⟨_, _, -, ran⟩ := bind_eq_ok_iff.mp ran
  obtain ⟨_, _, here, ran⟩ := bind_eq_ok_iff.mp ran
  cases here
  obtain ⟨_, _, called, ran⟩ := bind_eq_ok_iff.mp ran
  cases ran
  subst notLoaded
  exact ⟨start, next, called, left, mapped, lost⟩

theorem failedExecve_not_callerKept_noFile :
    ∃ k next,
      execve 20 (fun _ => 0) (userVirt + 0x10) (userVirt + 0x100) k =
          .ok (false, next) ∧
        ¬ CallerKept k next := by
  obtain ⟨k, next, failed, -⟩ := exists_failingExec
  exact ⟨k, next, failed,
    (failedExecve_not_callerKept 20 (fun _ => 0) _ _ k next failed).2⟩

/-- The call returns on other tables, and the process can no longer write
its stack. -/
theorem not_callerKept_noFile :
    ∃ k next,
      execve 20 (fun _ => 0) (userVirt + 0x10) (userVirt + 0x100) k =
          .ok (false, next) ∧
        next.paging.cr3 ≠ k.paging.cr3 ∧
        (k.paging.translate userStore userVirt).isSome = true ∧
        { next.paging with cr3 := k.paging.cr3 }.translate userStore
          userVirt = none ∧
        ¬ CallerKept k next := by
  obtain ⟨k, next, failed, left, mapped, lost⟩ := exists_failingExec
  exact ⟨k, next, failed, left, mapped, lost, fun kept => left kept.cr3⟩

end SbuUnix
