import SbuUnix.Process.Create

/-!
# What the operations do to the process table

The fields of control blocks that link, name and place processes form the
`View` of the table.  Most of the code keeps it: whatever works on memory, and
everything that loads an image.  `After program w post` runs the rest on the
view alone, one rule for each kind of statement, so that the effect of an
operation is read off its text.
-/

namespace SbuUnix

open Outcome

/-! ## The view -/

structure Slot where
  pid : BitVec 32
  nextProc : Word
  initKernel : Word
  cr3 : Word
  frames : List Nat

def Pcb.slot (pcb : Pcb) : Slot where
  pid := pcb.pid
  nextProc := pcb.nextProc
  initKernel := pcb.initKernel
  cr3 := pcb.cr3
  frames := pcb.frames

@[ext]
structure View where
  slot : Word → Option Slot
  first : Word
  curr : Word
  stopped : Word
  forked : Word
  processID : Word

def Procs.view (t : Procs) : View where
  slot := fun p => (t.pcb p).map Pcb.slot
  first := t.firstProcess
  curr := t.currProcess
  stopped := t.stoppedProcess
  forked := t.forkedProcess
  processID := t.processID

def View.put (w : View) (p : Word) (slot : Slot) : View :=
  { w with slot := fun other => if other = p then some slot else w.slot other }

namespace View

variable {w : View} {p other : Word} {slot again : Slot}

@[simp]
theorem put_same : (w.put p slot).slot p = some slot := by
  simp [put]

theorem put_of_ne (different : other ≠ p) :
    (w.put p slot).slot other = w.slot other := by
  simp [put, different]

@[simp]
theorem put_put : (w.put p slot).put p again = w.put p again := by
  unfold put
  congr 1
  funext other
  by_cases here : other = p <;> simp [here]

theorem put_of_slot (found : w.slot p = some slot) : w.put p slot = w := by
  have unchanged : (w.put p slot).slot = w.slot := by
    funext place
    by_cases here : place = p <;> simp [put, here, found]
  exact congrArg (fun slots => { w with slot := slots }) unchanged

@[simp]
theorem put_first : (w.put p slot).first = w.first :=
  rfl

@[simp]
theorem put_curr : (w.put p slot).curr = w.curr :=
  rfl

@[simp]
theorem put_stopped : (w.put p slot).stopped = w.stopped :=
  rfl

@[simp]
theorem put_forked : (w.put p slot).forked = w.forked :=
  rfl

@[simp]
theorem put_processID : (w.put p slot).processID = w.processID :=
  rfl

end View

theorem view_put (t : Procs) (p : Word) (pcb : Pcb) :
    (t.put p pcb).view = t.view.put p pcb.slot := by
  unfold Procs.view View.put Procs.put
  congr 1
  funext other
  by_cases here : other = p <;> simp [here]

theorem view_slot {t : Procs} {p : Word} {pcb : Pcb}
    (found : t.pcb p = some pcb) : t.view.slot p = some pcb.slot := by
  simp [Procs.view, found]

theorem exists_of_view_slot {t : Procs} {p : Word} {slot : Slot}
    (found : t.view.slot p = some slot) :
    ∃ pcb, t.pcb p = some pcb ∧ pcb.slot = slot :=
  Option.map_eq_some_iff.mp found

/-! ## Programs that leave control blocks alone -/

section Frames

variable {α β : Type} {relation : Kernel → Kernel → Prop}

/-- A relation that runs of programs compose.  It allows any store to a
control block that keeps its view and its state. -/
structure Frame (relation : Kernel → Kernel → Prop) : Prop where
  refl : ∀ k, relation k k
  trans : ∀ first second third,
    relation first second → relation second third → relation first third
  storePcb : ∀ {p : Word} {update : Pcb → Pcb},
    (∀ pcb, (update pcb).slot = pcb.slot ∧ (update pcb).state = pcb.state) →
      Keeps relation (storePcb p update)

/-- A frame that allows what the loader does with pages. -/
structure LoadFrame (relation : Kernel → Kernel → Prop) : Prop
    extends Frame relation where
  kmallocRecord : ∀ size, Keeps relation (kmallocRecord size)
  mapSegment : ∀ fuel cr3Addr start stop,
    Keeps relation (runPaging (mapSegment fuel cr3Addr start stop))
  memcpyOut : ∀ source dest count,
    Keeps relation (runPaging (memcpyOut source dest count))
  allocateVirtPage : Keeps relation (runPaging allocateVirtPage)
  mapPhysToUserVirtAddr : ∀ vaddr paddr cr3Addr,
    Keeps relation (runPaging (mapPhysToUserVirtAddr vaddr paddr cr3Addr))

/-- A frame that allows all work on memory. -/
structure Quiet (relation : Kernel → Kernel → Prop) : Prop
    extends Frame relation where
  kmallocRecord : ∀ size, Keeps relation (kmallocRecord size)
  runPaging : ∀ {α : Type} (program : PagingM α),
    Keeps relation (runPaging program)

theorem Quiet.toLoadFrame (quiet : Quiet relation) : LoadFrame relation where
  toFrame := quiet.toFrame
  kmallocRecord := quiet.kmallocRecord
  mapSegment := fun _ _ _ _ => quiet.runPaging _
  memcpyOut := fun _ _ _ => quiet.runPaging _
  allocateVirtPage := quiet.runPaging _
  mapPhysToUserVirtAddr := fun _ _ _ => quiet.runPaging _

namespace Frame

variable (frame : Frame relation)

include frame

theorem bind {program : KernelM α} {rest : α → KernelM β}
    (first : Keeps relation program)
    (second : ∀ value, Keeps relation (rest value)) :
    Keeps relation (program >>= rest) :=
  keeps_bind frame.trans first second

theorem pure (value : α) : Keeps relation (pure value : KernelM α) :=
  keeps_pure frame.refl value

theorem get : Keeps relation (get : KernelM Kernel) :=
  keeps_get frame.refl

theorem globals : Keeps relation globals :=
  frame.bind frame.get fun _ => frame.pure _

theorem derefPcb (p : Word) : Keeps relation (derefPcb p) := by
  refine frame.bind frame.globals fun t => ?_
  cases t.pcb p with
  | none => exact keeps_throw _
  | some pcb => exact frame.pure pcb

theorem derefMm (p : Word) : Keeps relation (derefMm p) := by
  refine frame.bind (frame.derefPcb p) fun pcb => ?_
  cases pcb.mm with
  | none => exact keeps_throw _
  | some mm => exact frame.pure mm

theorem storeMm (p : Word) (mm : MmStruct) : Keeps relation (storeMm p mm) :=
  frame.bind (frame.derefMm p) fun _ => frame.storePcb fun _ => ⟨rfl, rfl⟩

theorem strcpyTo (size : Nat) (source : List Byte) :
    Keeps relation (strcpyTo size source) :=
  keeps_ite _ (frame.pure _) (keeps_throw _)

end Frame

namespace LoadFrame

variable (frame : LoadFrame relation)

include frame

theorem loadSegment (p : Word) (fuel : Nat) (elfHdr : Word) (phdr : ElfPhdr) :
    Keeps relation (loadSegment fuel p elfHdr phdr) := by
  unfold SbuUnix.loadSegment
  refine frame.bind (frame.kmallocRecord _) fun block => ?_
  refine frame.bind (frame.derefMm p) fun mm => ?_
  cases addMmstruct mm _ with
  | none => exact frame.pure _
  | some added =>
      refine frame.bind (frame.storeMm p added) fun _ => ?_
      refine frame.bind (frame.derefPcb p) fun pcb => ?_
      refine frame.bind (frame.mapSegment _ _ _ _) fun stop => ?_
      refine frame.bind (frame.derefMm p) fun mapped => ?_
      refine frame.bind (frame.storeMm p _) fun _ => ?_
      split
      · refine frame.bind (frame.kmallocRecord _) fun file => ?_
        refine frame.bind frame.get fun _ => ?_
        refine frame.bind (frame.memcpyOut _ _ _) fun _ => ?_
        refine frame.bind (frame.derefMm p) fun _ => ?_
        exact frame.bind (frame.storeMm p _) fun _ => frame.pure _
      · exact frame.pure _

theorem loadSegments (p : Word) (fuel : Nat) (elfHdr : Word)
    (phdrs : List ElfPhdr) :
    Keeps relation (loadSegments fuel p elfHdr phdrs) := by
  induction phdrs with
  | nil => exact frame.pure _
  | cons phdr rest inductionHypothesis =>
      rw [SbuUnix.loadSegments]
      refine keeps_ite _ ?_ inductionHypothesis
      refine frame.bind (frame.loadSegment p fuel elfHdr phdr) fun ok => ?_
      exact keeps_ite _ inductionHypothesis (frame.pure _)

theorem initMmap (p : Word) : Keeps relation (initMmap p) := by
  unfold SbuUnix.initMmap
  refine frame.bind frame.allocateVirtPage fun _ => ?_
  refine frame.bind (frame.derefPcb p) fun _ => ?_
  refine frame.bind (frame.mapPhysToUserVirtAddr _ _ _) fun _ => ?_
  refine frame.bind (frame.derefMm p) fun mm => ?_
  cases mm.vma.find? _ with
  | none => exact keeps_throw _
  | some heap => exact frame.storeMm p _

theorem loadHeapAndStack (p : Word) :
    Keeps relation (loadHeapAndStack p) := by
  unfold SbuUnix.loadHeapAndStack
  refine frame.bind (frame.kmallocRecord _) fun heap => ?_
  refine frame.bind (frame.derefMm p) fun mm => ?_
  cases addMmstruct mm _ with
  | none => exact frame.pure _
  | some added =>
      refine frame.bind (frame.storeMm p _) fun _ => ?_
      refine frame.bind (frame.kmallocRecord _) fun stack => ?_
      refine frame.bind (frame.derefMm p) fun mm => ?_
      cases addMmstruct mm _ with
      | none => exact frame.pure _
      | some whole =>
          refine frame.bind (frame.storeMm p whole) fun _ => ?_
          exact frame.bind (frame.initMmap p) fun _ => frame.pure _

theorem loadBinaries (p : Word) (fuel : Nat) (elfStart : Word) :
    Keeps relation (loadBinaries fuel p elfStart) := by
  unfold SbuUnix.loadBinaries
  refine frame.bind frame.get fun k => ?_
  refine keeps_ite _ ?_ (frame.pure _)
  refine frame.bind (frame.storePcb fun _ => ⟨rfl, rfl⟩) fun _ => ?_
  refine frame.bind (frame.loadSegments p fuel elfStart _) fun ok => ?_
  exact keeps_ite _ (frame.loadHeapAndStack p) (frame.pure _)

end LoadFrame

namespace Quiet

variable (quiet : Quiet relation)

include quiet

theorem makeUserSpace (p cr3Addr : Word) :
    Keeps relation (makeUserSpace p cr3Addr) := by
  unfold SbuUnix.makeUserSpace
  refine quiet.bind (quiet.runPaging _) fun _ => ?_
  refine quiet.bind quiet.globals fun _ => ?_
  refine quiet.bind (quiet.derefPcb _) fun _ => ?_
  refine quiet.bind (quiet.runPaging _) fun _ => ?_
  refine quiet.bind (quiet.kmallocRecord _) fun _ => ?_
  refine quiet.bind (quiet.storePcb fun _ => ⟨rfl, rfl⟩) fun _ => ?_
  exact quiet.runPaging _

theorem copyVma (parentVma : Vma) :
    Keeps relation (copyVma parentVma) := by
  unfold SbuUnix.copyVma
  refine quiet.bind (quiet.kmallocRecord _) fun _ => ?_
  refine keeps_ite _ ?_ (quiet.pure _)
  exact quiet.bind (quiet.kmallocRecord _) fun _ => quiet.pure _

theorem copyVmas (p : Word) (vmas : List Vma) :
    ∀ isFirst, Keeps relation (copyVmas p isFirst vmas) := by
  induction vmas with
  | nil => exact fun _ => quiet.pure _
  | cons parentVma rest inductionHypothesis =>
      intro isFirst
      rw [SbuUnix.copyVmas]
      refine quiet.bind (quiet.copyVma parentVma) fun childVma => ?_
      refine quiet.bind (quiet.derefMm p) fun mm => ?_
      split
      · exact quiet.bind (quiet.storeMm p _) fun _ =>
          inductionHypothesis false
      · exact quiet.bind (quiet.storeMm p _) fun _ =>
          inductionHypothesis false

theorem copyKernelStack (source destination : Word) :
    Keeps relation (copyKernelStack source destination) :=
  quiet.bind quiet.get fun _ =>
    keeps_ite _ (keeps_throw _) (quiet.runPaging _)

theorem loadBinaries (p : Word) (fuel : Nat) (elfStart : Word) :
    Keeps relation (loadBinaries fuel p elfStart) :=
  quiet.toLoadFrame.loadBinaries p fuel elfStart

end Quiet

end Frames

/-! ## What keeps the view -/

def SameView (k after : Kernel) : Prop :=
  after.procs.view = k.procs.view

theorem SameView.trans (first second third : Kernel)
    (before : SameView first second) (later : SameView second third) :
    SameView first third :=
  Eq.trans later before

theorem sameView_storePcb {p : Word} {update : Pcb → Pcb}
    (sameSlot : ∀ pcb, (update pcb).slot = pcb.slot) :
    Keeps SameView (storePcb p update) := by
  intro k _ after returned
  have stored : Yields AnyFault (storePcb p update) k fun _ after =>
      SameView k after := by
    refine yields_storePcb.mpr fun pcb found => ?_
    unfold SameView
    rw [view_put, sameSlot, View.put_of_slot (view_slot found)]
  exact yields_anyFault.mp stored _ _ returned

theorem sameView : Quiet SameView where
  refl := fun _ => rfl
  trans := SameView.trans
  storePcb := fun untouched => sameView_storePcb fun pcb => (untouched pcb).1
  kmallocRecord := fun size k value after returned => by
    have allocated : Yields AnyFault (kmallocRecord size) k fun _ after =>
        SameView k after :=
      yields_kmallocRecord fun _ _ _ _ => rfl
    exact yields_anyFault.mp allocated _ _ returned
  runPaging := fun program =>
    keeps_zoom (show Keeps (fun _ _ => True) program from
      fun _ _ _ _ => trivial) fun _ _ _ => rfl

/-! ## Running a program on the view -/

/-- What every run of a program that starts with this view ends with. -/
def After {α : Type} (program : KernelM α) (w : View)
    (post : α → Kernel → Prop) : Prop :=
  ∀ k, k.procs.view = w → Yields AnyFault program k post

section After

variable {α β : Type} {w : View} {p : Word} {post : β → Kernel → Prop}

theorem after_last {program : KernelM β}
    (after : After (program >>= pure) w post) : After program w post := by
  rw [bind_pure] at after
  exact after

theorem after_pure {value : β}
    (ends : ∀ k, k.procs.view = w → post value k) :
    After (pure value) w post :=
  ends

theorem after_keeps {program : KernelM α} {rest : α → KernelM β}
    (keeps : Keeps SameView program)
    (continues : ∀ value, After (rest value) w post) :
    After (program >>= rest) w post := by
  intro k start
  rw [yields_bind, yields_anyFault]
  intro value next returned
  exact continues value next (Eq.trans (keeps k value next returned) start)

theorem after_bind {program : KernelM α} {rest : α → KernelM β}
    (runs : After program w fun value next =>
      Yields AnyFault (rest value) next post) :
    After (program >>= rest) w post := by
  intro k start
  rw [yields_bind]
  exact runs k start

theorem after_globals {rest : Procs → KernelM β}
    (continues : ∀ t, t.view = w → After (rest t) w post) :
    After (globals >>= rest) w post :=
  fun k start => continues k.procs start k start

theorem after_derefPcb {rest : Pcb → KernelM β}
    (continues : ∀ pcb, w.slot p = some pcb.slot → After (rest pcb) w post) :
    After (derefPcb p >>= rest) w post := by
  intro k start
  rw [yields_bind, yields_derefPcb]
  intro pcb found
  refine continues pcb ?_ k start
  rw [← start]
  exact view_slot found

theorem after_storePcb {update : Pcb → Pcb} (change : Slot → Slot)
    {rest : Unit → KernelM β}
    (acts : ∀ pcb, (update pcb).slot = change pcb.slot)
    (continues : ∀ slot, w.slot p = some slot →
      After (rest ()) (w.put p (change slot)) post) :
    After (storePcb p update >>= rest) w post := by
  intro k start
  rw [yields_bind, yields_storePcb]
  intro pcb found
  refine continues pcb.slot ?_ _ ?_
  · rw [← start]
    exact view_slot found
  · rw [view_put, acts, start]

/-- A store that the view does not show. -/
theorem after_touch {update : Pcb → Pcb} {rest : Unit → KernelM β}
    (sameSlot : ∀ pcb, (update pcb).slot = pcb.slot)
    (continues : ∀ slot, w.slot p = some slot → After (rest ()) w post) :
    After (storePcb p update >>= rest) w post := by
  refine after_storePcb id sameSlot fun slot found => ?_
  rw [id, View.put_of_slot found]
  exact continues slot found

theorem after_setGlobals {update : Procs → Procs} (change : View → View)
    {rest : Unit → KernelM β}
    (acts : ∀ t, (update t).view = change t.view)
    (continues : After (rest ()) (change w) post) :
    After (setGlobals update >>= rest) w post := by
  intro k start
  rw [yields_bind, yields_setGlobals]
  apply continues _
  rw [acts, start]

/-- The frames and the address of a block of 6000 bytes. -/
def PcbBlock (addr : Word) (frames : List Nat) : Prop :=
  ∃ first second,
    first < frameCount ∧ second < frameCount ∧
      frames = [first, second] ∧ addr = kernelAddr ||| pageAddr first

theorem PcbBlock.ne_zero {addr : Word} {frames : List Nat}
    (block : PcbBlock addr frames) : (0 : Word) ≠ addr := by
  obtain ⟨first, _, _, _, _, rfl⟩ := block
  intro zero
  have high := congrArg (fun word : Word => word.getLsbD 63) zero
  simp [kernelAddr] at high

theorem pcbBlock_of_kmalloc {s paging : Paging} {addr : Word}
    {frames : List Nat}
    (returned : kmalloc 6000 s = .ok ((addr, frames), paging)) :
    PcbBlock addr frames := by
  unfold kmalloc at returned
  obtain ⟨taken, after, allocated, rest⟩ := bind_eq_ok_iff.mp returned
  cases rest
  rw [show numPage 6000 = 1 + 1 from by decide] at allocated
  obtain ⟨first, firstSmall, later, after', more, rfl⟩ :=
    kmallocPages_eq_ok allocated
  obtain ⟨second, secondSmall, last, _, none, rfl⟩ := kmallocPages_eq_ok more
  cases none
  exact ⟨first, second, firstSmall, secondSmall, rfl, rfl⟩

theorem after_newPcb {rest : Word → KernelM β}
    (continues : ∀ addr frames, PcbBlock addr frames →
      w.slot addr = none →
        After (rest addr) (w.put addr (Pcb.slot { frames := frames })) post) :
    After (newPcb >>= rest) w post := by
  intro k start
  rw [yields_bind]
  apply yields_newPcb
  intro addr frames paging returned fresh
  refine continues addr frames (pcbBlock_of_kmalloc returned) ?_ _ ?_
  · rw [← start]
    simp [Procs.view, fresh]
  · rw [view_put, start]

end After

/-! ## Process identities -/

/-- The pid that the next process gets, and the map of used ones after. -/
def takeID (processID : Word) : BitVec 32 × Word :=
  match (List.range maxProcessCount).find? fun i =>
      (processID >>> i) &&& 1 = 0 with
  | some i => (BitVec.ofNat 32 (i + 1), processID ||| idBit i)
  | none => (-1, processID)

theorem after_getNextProcessID {β : Type} {w : View}
    {post : β → Kernel → Prop} {rest : BitVec 32 → KernelM β}
    (continues : After (rest (takeID w.processID).1)
      { w with processID := (takeID w.processID).2 } post) :
    After (getNextProcessID >>= rest) w post := by
  unfold getNextProcessID
  rw [bind_assoc]
  refine after_globals fun t start => ?_
  have same : t.processID = w.processID := by rw [← start]; rfl
  rw [← same] at continues
  dsimp only
  unfold takeID at continues
  cases found : (List.range maxProcessCount).find? fun i =>
      (t.processID >>> i) &&& 1 = 0 with
  | none =>
      rw [found] at continues
      simpa [same] using continues
  | some i =>
      rw [found] at continues
      simp only [bind_assoc]
      exact after_setGlobals
        (fun w => { w with processID := t.processID ||| idBit i })
        (fun _ => rfl) continues

/-! ## Creating processes -/

namespace View

/-- A process of `create_user_process` behind the current one. -/
def create (w : View) (caller : Slot) (addr cr3 : Word) (frames : List Nat) :
    View :=
  { (w.put w.curr { caller with nextProc := addr }).put addr
      { pid := (takeID w.processID).1
        nextProc := w.curr
        initKernel := kernelStackTop addr
        cr3 := cr3
        frames := frames } with
    curr := addr
    processID := (takeID w.processID).2 }

/-- A child of the current process, behind it. -/
def fork (w : View) (caller : Slot) (addr cr3 loaded : Word)
    (frames : List Nat) : View :=
  { (w.put w.curr
        { caller with
          nextProc := addr
          cr3 := loaded }).put addr
      { pid := (takeID w.processID).1
        nextProc := caller.nextProc
        initKernel := kernelStackTop addr
        cr3 := cr3
        frames := frames } with
    processID := (takeID w.processID).2 }

end View

section Create

variable {w : View} {caller : Slot}

theorem after_createKernelThread {post : Unit → Kernel → Prop}
    (ends : ∀ addr cr3 frames, PcbBlock addr frames → w.slot addr = none →
      ∀ k, k.procs.view =
        { w.put addr
            { pid := (takeID w.processID).1
              nextProc := 0
              initKernel := addr + 4096
              cr3 := cr3
              frames := frames } with
          first := addr
          curr := addr
          processID := (takeID w.processID).2 } → post () k) :
    After createKernelThread w post := by
  unfold createKernelThread
  refine after_newPcb fun addr frames block fresh => ?_
  apply after_getNextProcessID
  refine after_keeps sameView.get fun k => ?_
  refine after_storePcb
    (fun slot =>
      { slot with
        pid := (takeID w.processID).1
        nextProc := 0
        initKernel := addr + 4096
        cr3 := k.paging.cr3 }) (fun _ => rfl) fun slot found => ?_
  apply after_last
  refine after_setGlobals
    (fun w => { w with first := addr, curr := addr }) (fun _ => rfl) ?_
  refine after_pure fun after view => ?_
  apply ends addr k.paging.cr3 frames block fresh after
  have same : Pcb.slot { frames := frames } = slot := by
    simpa [View.put] using found
  rw [view, ← same]
  ext1 <;> simp [View.put, Pcb.slot]
  funext other
  by_cases here : other = addr <;> simp [here]

theorem after_createUserProcess {fuel : Nat} {filename : List Byte}
    {post : Word → Kernel → Prop}
    (known : w.slot w.curr = some caller)
    (created : ∀ addr cr3 frames, PcbBlock addr frames → w.slot addr = none →
      ∀ k, k.procs.view = w.create caller addr cr3 frames → post addr k)
    (failed : ∀ addr slot frames, PcbBlock addr frames →
      w.slot addr = none → ∀ k,
      k.procs.view =
        { w.put addr slot with processID := (takeID w.processID).2 } →
        post 0 k) :
    After (createUserProcess fuel filename) w post := by
  unfold createUserProcess
  refine after_newPcb fun addr frames block fresh => ?_
  have different : w.curr ≠ addr := by
    intro same
    rw [same, fresh] at known
    cases known
  apply after_getNextProcessID
  refine after_keeps (sameView.runPaging _) fun cr3 => ?_
  refine after_keeps (sameView.strcpyTo _ _) fun name => ?_
  refine after_storePcb
    (fun slot => { slot with pid := (takeID w.processID).1, cr3 := cr3 })
    (fun _ => rfl) fun empty emptyFound => ?_
  refine after_keeps (sameView.makeUserSpace _ _) fun _ => ?_
  refine after_keeps sameView.get fun _ => ?_
  refine after_keeps (sameView.loadBinaries _ _ _) fun loaded => ?_
  split
  · refine after_globals fun t start => ?_
    refine after_keeps (sameView.derefPcb _) fun _ => ?_
    refine after_keeps (sameView.runPaging _) fun _ => ?_
    refine after_storePcb
      (fun slot =>
        { slot with
          nextProc := t.firstProcess
          initKernel := kernelStackTop addr })
      (fun _ => rfl) fun built builtFound => ?_
    refine after_storePcb (fun slot => { slot with nextProc := addr })
      (fun _ => rfl) fun slot slotFound => ?_
    refine after_storePcb
      (fun slot => { slot with nextProc := t.currProcess })
      (fun _ => rfl) fun linked linkedFound => ?_
    refine after_setGlobals (fun w => { w with curr := addr })
      (fun _ => rfl) ?_
    refine after_pure fun k view => ?_
    apply created addr cr3 frames block fresh k
    have current : t.currProcess = w.curr := congrArg View.curr start
    rw [current] at slotFound linkedFound view
    have isCaller : caller = slot := by
      simpa [View.put, different, known] using slotFound
    have isEmpty : Pcb.slot { frames := frames } = empty := by
      simpa [View.put] using emptyFound
    simp [View.put] at builtFound
    simp [View.put, Ne.symm different] at linkedFound
    rw [view, ← isCaller, ← linkedFound, ← builtFound, ← isEmpty]
    ext1 <;> simp [View.put, View.create, Pcb.slot]
    funext other
    by_cases here : other = addr
    · simp [here]
    · by_cases there : other = w.curr <;> simp [here, there, different]
  · refine after_pure fun k view => ?_
    apply failed addr
      { empty with
        pid := (takeID w.processID).1
        cr3 := cr3 } frames block fresh k
    rw [view]
    ext1 <;> simp [View.put]
    funext other
    by_cases here : other = addr <;> simp [here]

/-- `switch_to_ring3` makes its argument the current process. -/
theorem after_switchToRing3 {proc : Word} {post : Unit → Kernel → Prop}
    (ends : (w.slot proc).isSome → ∀ k,
      k.procs.view = { w with curr := proc } → post () k) :
    After (switchToRing3 proc) w post := by
  unfold switchToRing3
  refine after_globals fun t _ => ?_
  refine after_derefPcb fun curr _ => ?_
  refine after_setGlobals (fun w => { w with curr := curr.nextProc })
    (fun _ => rfl) ?_
  refine after_keeps (sameView.derefPcb _) fun next => ?_
  refine after_setGlobals id (fun _ => rfl) ?_
  refine after_touch (fun _ => rfl) fun slot slotFound => ?_
  have present : (w.slot proc).isSome :=
    Option.isSome_of_mem slotFound
  refine after_globals fun t' _ => ?_
  refine after_keeps sameView.get fun _ => ?_
  refine after_keeps (sameView_storePcb fun _ => rfl) fun _ => ?_
  refine after_setGlobals (fun w => { w with curr := proc })
    (fun _ => rfl) ?_
  refine after_keeps (sameView_storePcb fun _ => rfl) fun _ => ?_
  refine after_keeps (sameView.derefPcb _) fun pcb => ?_
  refine after_keeps (sameView.runPaging _) fun _ => ?_
  intro k view
  exact ends present _ view

/-- `schedule_sbush` goes on only with a process that could be loaded. -/
theorem after_scheduleSbush {fuel : Nat} {post : Unit → Kernel → Prop}
    (known : w.slot w.curr = some caller) (null : w.slot 0 = none)
    (ends : ∀ addr cr3 frames, PcbBlock addr frames → w.slot addr = none →
      ∀ k, k.procs.view = w.create caller addr cr3 frames → post () k) :
    After (scheduleSbush fuel) w post := by
  unfold scheduleSbush
  apply after_bind
  refine after_createUserProcess known ?_ ?_
  · intro addr cr3 frames block fresh k view
    refine after_switchToRing3 (fun _ after same => ?_) k view
    exact ends addr cr3 frames block fresh after same
  · intro addr slot frames block _ k view
    refine after_switchToRing3 (fun present => ?_) k view
    have absent : (w.put addr slot).slot 0 = none := by
      rw [View.put_of_ne block.ne_zero, null]
    have found : ((w.put addr slot).slot 0).isSome := present
    rw [absent] at found
    cases found

/-- `copy_parent_structure` returns with CR3 at the tables that were loaded
at the call, which it has recorded as those of the caller. -/
theorem after_copyParentStructure {post : Word → Kernel → Prop}
    (known : w.slot w.curr = some caller)
    (ends : ∀ addr cr3 loaded frames, PcbBlock addr frames →
      w.slot addr = none → ∀ k,
        k.procs.view =
          { (w.put w.curr { caller with cr3 := loaded }).put addr
              { pid := (takeID w.processID).1
                nextProc := 0
                initKernel := kernelStackTop addr
                cr3 := cr3
                frames := frames } with
            processID := (takeID w.processID).2 } →
          k.paging.cr3 = loaded → post addr k) :
    After (copyParentStructure w.curr) w post := by
  unfold copyParentStructure
  refine after_newPcb fun addr frames block fresh => ?_
  have different : w.curr ≠ addr := by
    intro same
    rw [same, fresh] at known
    cases known
  apply after_getNextProcessID
  refine after_globals fun t start => ?_
  have current : t.currProcess = w.curr := congrArg View.curr start
  rw [current]
  refine after_keeps (sameView.derefPcb _) fun curr => ?_
  refine after_storePcb
    (fun slot =>
      { slot with
        pid := (takeID w.processID).1
        nextProc := 0 }) (fun _ => rfl) fun empty emptyFound => ?_
  refine after_keeps (sameView_storePcb fun _ => rfl) fun _ => ?_
  refine after_keeps (sameView.runPaging _) fun cr3 => ?_
  refine after_storePcb (fun slot => { slot with cr3 := cr3 })
    (fun _ => rfl) fun named namedFound => ?_
  refine after_keeps sameView.get fun k => ?_
  refine after_storePcb (fun slot => { slot with cr3 := k.paging.cr3 })
    (fun _ => rfl) fun parent parentFound => ?_
  refine after_keeps (sameView.runPaging _) fun _ => ?_
  refine after_storePcb
    (fun slot => { slot with initKernel := kernelStackTop addr })
    (fun _ => rfl) fun spaced spacedFound => ?_
  refine after_keeps (sameView.kmallocRecord _) fun _ => ?_
  refine after_keeps (sameView.derefMm _) fun mm => ?_
  refine after_keeps (sameView_storePcb fun _ => rfl) fun _ => ?_
  refine after_keeps (sameView.copyVmas _ _ _) fun _ => ?_
  refine after_keeps (sameView.derefPcb _) fun _ => ?_
  refine after_keeps (sameView.derefPcb _) fun _ => ?_
  refine after_keeps (sameView.copyKernelStack _ _) fun _ => ?_
  refine after_globals fun _ _ => ?_
  refine after_keeps (sameView_storePcb fun _ => rfl) fun _ => ?_
  refine after_derefPcb fun last lastFound => ?_
  have isEmpty : Pcb.slot { frames := frames } = empty := by
    simpa [View.put] using emptyFound
  simp [View.put] at namedFound
  have isParent : caller = parent := by
    simpa [View.put, different, known] using parentFound
  simp [View.put, Ne.symm different] at spacedFound
  have isLast : last.cr3 = k.paging.cr3 := by
    have same : last.slot = { parent with cr3 := k.paging.cr3 } := by
      simpa [View.put, different] using lastFound.symm
    exact congrArg Slot.cr3 same
  intro after view
  refine ends addr cr3 last.cr3 frames block fresh _ ?_ rfl
  apply Eq.trans view
  rw [← spacedFound, ← namedFound, ← isEmpty, ← isParent, isLast]
  ext1 <;> simp [View.put, Pcb.slot]
  funext other
  by_cases here : other = addr
  · simp [here]
  · by_cases there : other = w.curr <;> simp [here, there, different]

theorem after_forkChild {post : BitVec 32 → Kernel → Prop}
    (known : w.slot w.curr = some caller)
    (ends : ∀ addr cr3 loaded frames, PcbBlock addr frames →
      w.slot addr = none → ∀ k,
        k.procs.view = w.fork caller addr cr3 loaded frames →
          k.paging.cr3 = loaded → post (takeID w.processID).1 k) :
    After forkChild w post := by
  unfold forkChild
  refine after_globals fun t start => ?_
  have current : t.currProcess = w.curr := congrArg View.curr start
  rw [current]
  apply after_bind
  apply after_copyParentStructure known
  intro addr cr3 loaded frames block fresh k view loads
  have different : w.curr ≠ addr := by
    intro same
    rw [same, fresh] at known
    cases known
  rw [yields_bind, yields_globals, yields_bind, yields_derefPcb]
  intro curr currFound
  rw [yields_bind, yields_storePcb]
  intro child childFound
  rw [yields_bind, yields_storePcb]
  intro parent parentFound
  rw [yields_bind, yields_derefPcb]
  intro last lastFound
  rw [yields_pure]
  have isCurr : k.procs.currProcess = w.curr :=
    congrArg View.curr view
  rw [isCurr] at currFound parentFound lastFound ⊢
  rw [put_of_ne (Ne.symm different), put_same] at lastFound
  rw [put_of_ne different] at parentFound
  have isChild := view_slot childFound
  have isParent := view_slot parentFound
  have isCaller := view_slot currFound
  rw [view] at isChild isParent isCaller
  simp only [View.put_same, Option.some.injEq] at isChild
  simp only [View.put_of_ne different, View.put_same,
    Option.some.injEq] at isParent isCaller
  have pid : last.pid = (takeID w.processID).1 := by
    rw [← Option.some.inj lastFound]
    exact (congrArg Slot.pid isChild).symm
  rw [pid]
  refine ends addr cr3 loaded frames block fresh _ ?_ loads
  rw [view_put, view_put, view]
  change View.put (View.put _ addr
      { child.slot with nextProc := curr.slot.nextProc }) w.curr
    { parent.slot with nextProc := addr } = _
  rw [← isChild, ← isParent, ← isCaller]
  ext1 <;> simp [View.put, View.fork]
  funext other
  by_cases here : other = addr
  · simp [here, Ne.symm different]
  · by_cases there : other = w.curr <;> simp [here, there, different]

end Create

end SbuUnix
