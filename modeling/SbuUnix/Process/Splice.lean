import SbuUnix.Library.Ring
import SbuUnix.Process.Exit
import SbuUnix.Process.Table
import SbuUnix.Process.Wait

/-!
# What the operations do to the links

`execve`, `sys_exit`, `kill` and `wait` move the links of processes that
exist.  Their effect on the view is a sequence of `setNext`; what the loops
over the lists find is a `Search` along the links.
-/

namespace SbuUnix

open Outcome Links

/-! ## Links of the view -/

namespace View

/-- `p->next_proc`, and the null pointer where there is no process. -/
def next (w : View) (p : Word) : Word :=
  match w.slot p with
  | some slot => slot.nextProc
  | none => 0

/-- `p->next_proc = link` -/
def setNext (w : View) (p link : Word) : View :=
  { w with
    slot := fun other =>
      if other = p then
        (w.slot p).map fun slot => { slot with nextProc := link }
      else
        w.slot other }

/-- The process `p` has the pid. -/
def HasPid (w : View) (pid : BitVec 32) (p : Word) : Prop :=
  ∃ slot, w.slot p = some slot ∧ slot.pid = pid

/-- Where the loop of `kill` stops: at the pid it looks for, or before the
first process. -/
def StopsKill (w : View) (pid : Word) (p : Word) : Prop :=
  ∃ slot, w.slot p = some slot ∧
    (slot.pid.signExtend 64 = pid ∨ slot.nextProc = w.first)

variable {w : View} {p q link : Word} {slot : Slot}

theorem next_of_slot (found : w.slot p = some slot) :
    w.next p = slot.nextProc := by
  simp [next, found]

@[simp]
theorem setNext_first : (w.setNext p link).first = w.first :=
  rfl

@[simp]
theorem setNext_curr : (w.setNext p link).curr = w.curr :=
  rfl

@[simp]
theorem setNext_stopped : (w.setNext p link).stopped = w.stopped :=
  rfl

@[simp]
theorem setNext_forked : (w.setNext p link).forked = w.forked :=
  rfl

@[simp]
theorem setNext_processID : (w.setNext p link).processID = w.processID :=
  rfl

theorem setNext_slot_of_ne (different : q ≠ p) :
    (w.setNext p link).slot q = w.slot q := by
  simp [setNext, different]

theorem setNext_none (absent : w.slot q = none) :
    (w.setNext p link).slot q = none := by
  by_cases same : q = p
  · rw [same] at absent ⊢
    simp [setNext, absent]
  · rw [setNext_slot_of_ne same, absent]

@[simp]
theorem setNext_isSome :
    ((w.setNext p link).slot q).isSome = (w.slot q).isSome := by
  by_cases same : q = p
  · rw [same]
    simp [setNext]
  · rw [setNext_slot_of_ne same]

theorem next_put_same : (w.put p slot).next p = slot.nextProc := by
  simp [next]

theorem next_put_of_ne (different : q ≠ p) :
    (w.put p slot).next q = w.next q := by
  simp [next, put_of_ne different]

theorem next_setNext_same (present : (w.slot p).isSome) :
    (w.setNext p link).next p = link := by
  obtain ⟨slot, found⟩ := Option.isSome_iff_exists.mp present
  simp [next, setNext, found]

theorem next_setNext_of_ne (different : q ≠ p) :
    (w.setNext p link).next q = w.next q := by
  simp [next, setNext_slot_of_ne different]

/-- A link leaves the rest of a process alone. -/
theorem setNext_slot (p link : Word) (found : w.slot q = some slot) :
    ∃ linked, (w.setNext p link).slot q = some linked ∧
      linked = { slot with nextProc := linked.nextProc } := by
  by_cases same : q = p
  · rw [same] at found
    refine ⟨{ slot with nextProc := link }, ?_, rfl⟩
    rw [same]
    simp [setNext, found]
  · exact ⟨slot, by rw [setNext_slot_of_ne same, found], rfl⟩

theorem put_eq_setNext (found : w.slot p = some slot) :
    w.put p { slot with nextProc := link } = w.setNext p link := by
  unfold put setNext
  rw [found]
  rfl

end View

/-! ## Rules -/

section Rules

variable {α β : Type} {w : View} {p : Word} {post : β → Kernel → Prop}

theorem after_link (link : Word) {update : Pcb → Pcb}
    {rest : Unit → KernelM β}
    (acts : ∀ pcb, (update pcb).slot = { pcb.slot with nextProc := link })
    (continues : (w.slot p).isSome →
      After (rest ()) (w.setNext p link) post) :
    After (storePcb p update >>= rest) w post := by
  refine after_storePcb (fun slot => { slot with nextProc := link }) acts
    fun slot found => ?_
  rw [View.put_eq_setNext found]
  exact continues (Option.isSome_of_mem found)

theorem after_findBefore {target : Word} {rest : Word → KernelM β}
    (continues : ∀ pointer,
      Search w.next (fun p => p = target) p pointer →
        (w.slot pointer).isSome → After (rest pointer) w post) :
    ∀ fuel, After (findBefore target fuel p >>= rest) w post := by
  intro fuel
  induction fuel generalizing p with
  | zero => exact after_bind fun k _ => yields_stop _ k
  | succ fuel inductionHypothesis =>
      rw [findBefore, bind_assoc]
      refine after_derefPcb fun pcb found => ?_
      have link : w.next p = pcb.nextProc := View.next_of_slot found
      split
      · next goesOn =>
          rw [← link] at goesOn ⊢
          refine inductionHypothesis fun pointer search present => ?_
          exact continues pointer (.later goesOn search) present
      · next stops =>
          rw [← link] at stops
          rw [pure_bind]
          exact continues p (.here (not_not.mp stops))
            (Option.isSome_of_mem found)

theorem after_findPrevTask {pid : BitVec 32} {rest : Word → KernelM β}
    (continues : ∀ pointer,
      Search w.next (w.HasPid pid) p pointer →
        (w.slot pointer).isSome → After (rest pointer) w post) :
    ∀ fuel, After (findPrevTask pid fuel p >>= rest) w post := by
  intro fuel
  induction fuel generalizing p with
  | zero => exact after_bind fun k _ => yields_stop _ k
  | succ fuel inductionHypothesis =>
      rw [findPrevTask, bind_assoc]
      refine after_derefPcb fun pcb found => ?_
      have link : w.next p = pcb.nextProc := View.next_of_slot found
      rw [bind_assoc]
      refine after_derefPcb fun next nextFound => ?_
      rw [← link] at nextFound ⊢
      split
      · next goesOn =>
          refine inductionHypothesis fun pointer search present => ?_
          refine continues pointer (.later ?_ search) present
          rintro ⟨slot, here, same⟩
          rw [nextFound] at here
          cases here
          exact goesOn same
      · next stops =>
          rw [pure_bind]
          refine continues p (.here ?_) (Option.isSome_of_mem found)
          exact ⟨next.slot, nextFound, not_not.mp stops⟩

/-- Past the first process, the loop of `kill` ends before the process it
stops at. -/
theorem after_findVictim {pid iterator : Word} {rest : Word → KernelM β}
    (atOnce : w.StopsKill pid iterator → After (rest p) w post)
    (continues : ∀ pointer, ¬ w.StopsKill pid iterator →
      Search w.next (w.StopsKill pid) iterator pointer →
        After (rest pointer) w post) :
    ∀ fuel, After (findVictim pid w.first fuel p iterator >>= rest) w post := by
  intro fuel
  induction fuel generalizing p iterator with
  | zero => exact after_bind fun k _ => yields_stop _ k
  | succ fuel inductionHypothesis =>
      rw [findVictim, bind_assoc]
      refine after_derefPcb fun pcb found => ?_
      have link : w.next iterator = pcb.nextProc := View.next_of_slot found
      split
      · next goesOn =>
          have passes : ¬ w.StopsKill pid iterator := by
            rintro ⟨slot, here, stops⟩
            rw [found] at here
            cases here
            rcases stops with same | isLast
            · exact goesOn.1 same
            · exact goesOn.2 isLast
          rw [← link]
          refine inductionHypothesis ?_ ?_
          · intro stops
            exact continues iterator passes (.here stops)
          · intro pointer goesOn search
            exact continues pointer passes (.later goesOn search)
      · next stops =>
          rw [pure_bind]
          refine atOnce ⟨pcb.slot, found, ?_⟩
          by_cases same : pcb.pid.signExtend 64 = pid
          · exact Or.inl same
          · exact Or.inr (not_not.mp fun goesOn => stops ⟨same, goesOn⟩)

end Rules

/-! ## Programs that leave control blocks alone -/

namespace Quiet

variable {relation : Kernel → Kernel → Prop} (quiet : Quiet relation)

include quiet

theorem loadUser (v : Word) : Keeps relation (loadUser v) :=
  quiet.runPaging _

theorem storeUser (v : Word) (byte : Byte) :
    Keeps relation (storeUser v byte) :=
  quiet.runPaging _

theorem countBytes (fuel : Nat) :
    ∀ str, Keeps relation (countBytes fuel str) := by
  induction fuel with
  | zero => exact fun _ => keeps_throw _
  | succ fuel inductionHypothesis =>
      intro str
      rw [SbuUnix.countBytes]
      refine quiet.bind (quiet.loadUser str) fun byte => ?_
      refine keeps_ite _ ?_ (quiet.pure _)
      exact quiet.bind (inductionHypothesis _) fun _ => quiet.pure _

theorem strlen (fuel : Nat) (str : Word) :
    Keeps relation (strlen fuel str) :=
  quiet.bind (quiet.countBytes fuel str) fun _ =>
    quiet.bind (quiet.storeUser _ _) fun _ =>
      quiet.bind (quiet.storeUser _ _) fun _ => quiet.pure _

theorem copyFile (fuel : Nat) :
    ∀ filename i, Keeps relation (copyFile fuel filename i) := by
  induction fuel with
  | zero => exact fun _ _ => keeps_throw _
  | succ fuel inductionHypothesis =>
      intro filename i
      rw [SbuUnix.copyFile]
      refine quiet.bind (quiet.loadUser filename) fun byte => ?_
      refine keeps_ite _ (keeps_ite _ ?_ (quiet.pure _)) (keeps_throw _)
      exact quiet.bind (inductionHypothesis _ _) fun _ => quiet.pure _

theorem putArg (args : Nat → Byte) (index : Nat) (byte : Byte) :
    Keeps relation (putArg args index byte) :=
  keeps_ite _ (quiet.pure _) (keeps_throw _)

theorem copyArg (argv : Word) (i fuel : Nat) :
    ∀ j k args, Keeps relation (copyArg argv i fuel j k args) := by
  induction fuel with
  | zero => exact fun _ _ _ => keeps_throw _
  | succ fuel inductionHypothesis =>
      intro j k args
      rw [SbuUnix.copyArg]
      refine quiet.bind (quiet.loadUser _) fun byte => ?_
      split
      · exact quiet.bind (quiet.putArg _ _ _) fun _ =>
          inductionHypothesis _ _ _
      · exact quiet.bind (quiet.putArg _ _ _) fun _ => quiet.pure _

theorem splitArgs (argv : Word) (fuel : Nat) :
    ∀ i k args, Keeps relation (splitArgs argv fuel i k args) := by
  induction fuel with
  | zero => exact fun _ _ _ => keeps_throw _
  | succ fuel inductionHypothesis =>
      intro i k args
      rw [SbuUnix.splitArgs]
      refine quiet.bind (quiet.loadUser _) fun byte => ?_
      refine keeps_ite _ ?_ (quiet.pure _)
      exact quiet.bind (quiet.copyArg _ _ _ _ _ _) fun _ =>
        inductionHypothesis _ _ _

theorem readArguments (fuel : Nat) (stale : Nat → Byte)
    (filename argv : Word) :
    Keeps relation (readArguments fuel stale filename argv) := by
  unfold SbuUnix.readArguments
  refine quiet.bind (quiet.strlen _ _) fun len => ?_
  refine quiet.bind (quiet.loadUser _) fun byte => ?_
  dsimp only
  apply keeps_ite
  · apply quiet.bind (quiet.storeUser _ _)
    intro _
    apply quiet.bind (quiet.storeUser _ _)
    intro _
    apply quiet.bind (quiet.copyFile _ _ _)
    intro _
    exact quiet.bind (quiet.splitArgs _ _ _ _ _) fun _ => quiet.pure _
  · apply quiet.bind (quiet.copyFile _ _ _)
    intro _
    exact quiet.bind (quiet.splitArgs _ _ _ _ _) fun _ => quiet.pure _

theorem releaseProcesses (fuel passes : Nat) :
    ∀ list, Keeps relation (releaseProcesses fuel passes list) := by
  induction passes with
  | zero => exact fun _ => keeps_throw _
  | succ passes inductionHypothesis =>
      intro list
      rw [SbuUnix.releaseProcesses]
      apply keeps_ite _ (quiet.pure _)
      refine quiet.bind (quiet.derefPcb _) fun pcb => ?_
      refine quiet.bind (quiet.derefMm _) fun mm => ?_
      refine quiet.bind (quiet.runPaging _) fun _ => ?_
      refine quiet.bind (quiet.runPaging _) fun _ => ?_
      exact inductionHypothesis _

theorem adoptChildren (pid victim : Word) (fuel : Nat) :
    ∀ pointer, Keeps relation (adoptChildren pid victim fuel pointer) := by
  induction fuel with
  | zero => exact fun _ => keeps_throw _
  | succ fuel inductionHypothesis =>
      intro pointer
      rw [SbuUnix.adoptChildren]
      refine quiet.bind (quiet.derefPcb _) fun pcb => ?_
      refine keeps_ite _ ?_ (quiet.pure _)
      split
      · exact quiet.bind (quiet.storePcb fun _ => ⟨rfl, rfl⟩) fun _ =>
          inductionHypothesis _
      · exact inductionHypothesis _

end Quiet

theorem sameView_userSwitchBack (next : Word) :
    Keeps SameView (userSwitchBack next) :=
  sameView.bind (sameView_storePcb fun _ => rfl) fun _ =>
    sameView.bind (sameView.derefPcb _) fun _ =>
      sameView.bind (sameView.runPaging _) fun _ =>
        keeps_modify fun _ => rfl

/-! ## The operations -/

namespace View

/-- The view when `execve` has set up the new control block but not linked
it: a copy of the caller's identity at `addr`. -/
def fresh (w : View) (caller : Slot) (addr cr3 : Word) (frames : List Nat) :
    View :=
  w.put addr
    { pid := caller.pid
      nextProc := w.first
      initKernel := kernelStackTop addr
      cr3 := cr3
      frames := frames }

/-- The new control block in the place of the caller's, behind `pointer`. -/
def linkImage (w : View) (addr pointer : Word) : View :=
  (w.setNext pointer addr).setNext addr
    ((w.setNext pointer addr).next w.curr)

/-- The links of `execve` when `pointer` is the process before the caller
and `last` the end of `forked_process`. -/
def replace (w : View) (addr pointer last : Word) : View :=
  if w.forked = 0 then
    { (w.linkImage addr pointer).setNext w.curr 0 with forked := w.curr }
  else
    ((w.linkImage addr pointer).setNext last w.curr).setNext w.curr 0

/-- The view when the current process has left the ring and its
predecessor is the current one. -/
def leave (w : View) (prev : Word) : View :=
  { (w.setNext prev w.first).setNext w.curr 0 with
    stopped := w.curr
    forked := 0
    curr := prev }

/-- The links of `kill` when `before` stands before the victim and `last` is
the end of `stopped_process`. -/
def drop (w : View) (before last : Word) : View :=
  let victim := w.next before
  if w.stopped = 0 then
    { (w.setNext before (w.next victim)).setNext victim 0 with
      stopped := victim }
  else
    ((w.setNext last victim).setNext before
      ((w.setNext last victim).next victim)).setNext victim 0

end View

section Operations

variable {w : View} {caller : Slot}

theorem after_wait {pid : Word} {post : Bool → Kernel → Prop}
    (ends : ∀ left slot k, k.procs.view = { w with curr := w.next w.curr } →
      w.slot (w.next w.curr) = some slot →
        (left = true ↔ slot.pid.signExtend 64 = pid) → post left k) :
    After (wait pid) w post := by
  unfold wait
  refine after_globals fun t start => ?_
  have current : t.currProcess = w.curr := congrArg View.curr start
  rw [current]
  refine after_touch (fun _ => rfl) fun slot found => ?_
  refine after_derefPcb fun prev prevFound => ?_
  have link : w.next w.curr = prev.nextProc := View.next_of_slot prevFound
  rw [← link]
  refine after_setGlobals (fun v => { v with curr := w.next w.curr })
    (fun _ => rfl) ?_
  refine after_derefPcb fun curr currFound => ?_
  refine after_setGlobals id (fun _ => rfl) ?_
  refine after_touch (fun _ => rfl) fun _ _ => ?_
  dsimp only
  split
  · next same =>
      refine after_keeps sameView.get fun k => ?_
      refine after_keeps (sameView_storePcb fun _ => rfl) fun _ => ?_
      refine after_keeps (sameView.runPaging _) fun _ => ?_
      refine after_keeps (keeps_modify fun _ => rfl) fun _ => ?_
      refine after_pure fun k view => ?_
      exact ends true curr.slot k view currFound (iff_of_true rfl same)
  · next different =>
      refine after_pure fun k view => ?_
      apply ends false curr.slot k view currFound
      exact iff_of_false Bool.false_ne_true different

/-- A failing `execve` leaves a control block behind and nothing else. -/
theorem after_loadNewImage {fuel : Nat} {addr : Word} {file : List Byte}
    {new : Slot} {post : Bool → Kernel → Prop}
    (known : w.slot w.curr = some caller)
    (found : w.slot addr = some new)
    (ends : ∀ loaded cr3 k, k.procs.view =
      w.put addr { new with pid := caller.pid, cr3 := cr3 } →
        post loaded k) :
    After (loadNewImage fuel addr file) w post := by
  unfold loadNewImage
  refine after_keeps (sameView.strcpyTo _ _) fun name => ?_
  refine after_globals fun t start => ?_
  have current : t.currProcess = w.curr := congrArg View.curr start
  rw [current]
  refine after_derefPcb fun curr currFound => ?_
  have isCaller : caller = curr.slot :=
    Option.some.inj (known.symm.trans currFound)
  refine after_storePcb (fun slot => { slot with pid := curr.slot.pid })
    (fun _ => rfl) fun slot slotFound => ?_
  refine after_keeps (sameView.runPaging _) fun cr3 => ?_
  refine after_storePcb (fun slot => { slot with cr3 := cr3 })
    (fun _ => rfl) fun named namedFound => ?_
  refine after_keeps (sameView.makeUserSpace _ _) fun _ => ?_
  refine after_keeps sameView.get fun k => ?_
  apply after_last
  refine after_keeps (sameView.loadBinaries _ _ _) fun loaded => ?_
  refine after_pure fun k view => ends loaded cr3 k ?_
  rw [found] at slotFound
  cases slotFound
  simp [View.put] at namedFound
  rw [view, ← namedFound, isCaller, View.put_put]

theorem after_replaceProcess {fuel : Nat} {addr : Word}
    {new : Slot} {post : Unit → Kernel → Prop}
    (found : w.slot addr = some new)
    (ends : ∀ pointer last k,
      let prepared := w.put addr
        { new with
          nextProc := w.first
          initKernel := kernelStackTop addr }
      Search prepared.next (fun p => p = w.curr) w.curr pointer →
        (w.forked ≠ 0 → Search (prepared.linkImage addr pointer).next
          (fun p => p = 0) w.forked last) →
        k.procs.view = prepared.replace addr pointer last → post () k) :
    After (replaceProcess fuel addr) w post := by
  unfold replaceProcess
  refine after_globals fun t start => ?_
  have first : t.firstProcess = w.first := congrArg View.first start
  have current : t.currProcess = w.curr := congrArg View.curr start
  have forked : t.forkedProcess = w.forked := congrArg View.forked start
  rw [first, current, forked]
  refine after_keeps (sameView.derefPcb _) fun _ => ?_
  refine after_keeps (sameView.runPaging _) fun _ => ?_
  refine after_storePcb
    (fun slot =>
      { slot with
        nextProc := w.first
        initKernel := kernelStackTop addr }) (fun _ => rfl)
    fun slot slotFound => ?_
  rw [found] at slotFound
  cases slotFound
  refine after_findBefore (fun pointer search present => ?_) fuel
  refine after_link addr (fun _ => rfl) fun _ => ?_
  refine after_derefPcb fun curr currFound => ?_
  have link := View.next_of_slot currFound
  refine after_link curr.slot.nextProc (fun _ => rfl) fun _ => ?_
  rw [← link]
  split
  · next empty =>
      refine after_link 0 (fun _ => rfl) fun _ => ?_
      apply after_last
      refine after_setGlobals (fun v => { v with forked := v.curr })
        (fun _ => rfl) ?_
      refine after_pure fun k view => ?_
      refine ends pointer 0 k search (fun more => absurd empty more) ?_
      exact Eq.trans view (if_pos empty).symm
  · next more =>
      refine after_findBefore (fun last walk _ => ?_) fuel
      refine after_link w.curr (fun _ => rfl) fun _ => ?_
      apply after_last
      refine after_link 0 (fun _ => rfl) fun _ => ?_
      refine after_pure fun k view => ?_
      refine ends pointer last k search (fun _ => walk) ?_
      exact Eq.trans view (if_neg more).symm

/-- `execve_switch_to_ring3` makes its argument the current process. -/
theorem after_enterImage {addr : Word} {argc : Int} {args : Nat → Byte}
    {post : Unit → Kernel → Prop}
    (ends : ∀ k, k.procs.view = { w with curr := addr } → post () k) :
    After (enterImage addr argc args) w post := by
  unfold enterImage execveSwitchToRing3
  refine after_keeps (sameView.derefPcb _) fun user => ?_
  refine after_keeps (sameView.runPaging _) fun _ => ?_
  refine after_keeps (sameView.runPaging _) fun _ => ?_
  refine after_keeps (sameView.runPaging _) fun _ => ?_
  refine after_keeps (sameView_storePcb fun _ => rfl) fun _ => ?_
  refine after_keeps (sameView_storePcb fun _ => rfl) fun _ => ?_
  refine after_setGlobals (fun v => { v with curr := addr })
    (fun _ => rfl) ?_
  refine after_keeps (sameView.derefPcb _) fun pcb => ?_
  refine after_keeps (sameView.runPaging _) fun _ => ?_
  intro k view
  exact ends _ view

theorem after_execve {fuel : Nat} {stale : Nat → Byte} {filename argv : Word}
    {post : Bool → Kernel → Prop}
    (known : w.slot w.curr = some caller)
    (failed : ∀ addr slot frames k, PcbBlock addr frames →
      w.slot addr = none → k.procs.view = w.put addr slot → post false k)
    (replaced : ∀ addr cr3 frames pointer last k, PcbBlock addr frames →
      w.slot addr = none →
        let prepared := w.fresh caller addr cr3 frames
        Search prepared.next (fun p => p = w.curr) w.curr pointer →
          (w.forked ≠ 0 → Search (prepared.linkImage addr pointer).next
            (fun p => p = 0) w.forked last) →
          k.procs.view =
            { prepared.replace addr pointer last with curr := addr } →
          post true k) :
    After (execve fuel stale filename argv) w post := by
  unfold execve
  refine after_newPcb fun addr frames block fresh => ?_
  have different : w.curr ≠ addr := by
    intro same
    rw [same, fresh] at known
    cases known
  refine after_keeps (sameView.readArguments _ _ _ _) fun arguments => ?_
  have knownStill : (w.put addr (Pcb.slot { frames := frames })).slot
      w.curr = some caller := by
    rw [View.put_of_ne different, known]
  apply after_bind
  apply after_loadNewImage knownStill View.put_same
  intro loaded cr3 k view
  rw [View.put_put] at view
  cases loaded with
  | false => exact failed addr _ frames k block fresh view
  | true =>
      refine after_bind ?_ k view
      apply after_replaceProcess View.put_same
      intro pointer last k' prepared search walk view'
      refine after_bind ?_ k' view'
      refine after_enterImage fun k'' view'' => ?_
      have same : prepared = w.fresh caller addr cr3 frames := View.put_put
      rw [same] at search walk view''
      exact replaced addr cr3 frames pointer last k'' block fresh search walk
        view''

theorem after_leaveRing {fuel : Nat} {post : Word → Kernel → Prop}
    (known : w.slot w.curr = some caller)
    (ends : ∀ prev k, Search w.next (w.HasPid caller.pid) w.curr prev →
      (w.slot prev).isSome → k.procs.view = w.leave prev → post prev k) :
    After (leaveRing fuel) w post := by
  unfold leaveRing
  refine after_globals fun t start => ?_
  have current : t.currProcess = w.curr := congrArg View.curr start
  rw [current]
  refine after_touch (fun _ => rfl) fun slot found => ?_
  refine after_derefPcb fun curr currFound => ?_
  have pid : curr.pid = caller.pid :=
    congrArg Slot.pid (Option.some.inj (currFound.symm.trans known))
  rw [pid]
  refine after_findPrevTask (fun prev search present => ?_) fuel
  refine after_globals fun t' start' => ?_
  have first : t'.firstProcess = w.first := congrArg View.first start'
  rw [first]
  refine after_link w.first (fun _ => rfl) fun _ => ?_
  refine after_keeps (sameView.releaseProcesses _ _ _) fun _ => ?_
  refine after_setGlobals (fun v => { v with stopped := w.curr })
    (fun _ => rfl) ?_
  refine after_link 0 (fun _ => rfl) fun _ => ?_
  refine after_keeps (sameView.releaseProcesses _ _ _) fun _ => ?_
  refine after_setGlobals (fun v => { v with forked := 0 })
    (fun _ => rfl) ?_
  refine after_keeps (sameView.derefPcb _) fun _ => ?_
  refine after_keeps (sameView.runPaging _) fun _ => ?_
  refine after_keeps (sameView.runPaging _) fun _ => ?_
  refine after_setGlobals (fun v => { v with curr := prev })
    (fun _ => rfl) ?_
  exact after_pure fun k view => ends prev k search present view

/-- `user_switchTask` loads the tables and the kernel stack of the process it
switches to. -/
theorem after_userSwitchTask {current next : Word} {slot : Slot}
    {post : Unit → Kernel → Prop} (found : w.slot next = some slot)
    (ends : ∀ k, k.procs.view = w → k.paging.cr3 = slot.cr3 →
      k.tssRsp = slot.initKernel → post () k) :
    After (userSwitchTask current next) w post := by
  have isSlot : ∀ (t : Procs) (pcb : Pcb), t.view = w →
      t.pcb next = some pcb → pcb.slot = slot := by
    intro t pcb start pcbFound
    have same := view_slot pcbFound
    rw [start, found] at same
    exact (Option.some.inj same).symm
  intro k start
  unfold userSwitchTask
  rw [yields_bind, yields_derefPcb]
  intro pcb pcbFound
  rw [yields_bind, yields_runPaging, setCR3, yields_modify, yields_bind,
    yields_get, yields_bind, yields_storePcb]
  intro before beforeFound
  have stored : (k.procs.put current
      { before with kernRsp := k.rsp }).view = w := by
    have same : k.procs.view.put current before.slot = k.procs.view :=
      View.put_of_slot (view_slot beforeFound)
    exact (view_put _ _ _).trans (same.trans start)
  rw [yields_bind, yields_derefPcb]
  intro again againFound
  rw [yields_modify]
  refine ends _ stored ?_ ?_
  · exact congrArg Slot.cr3 (isSlot k.procs pcb start pcbFound)
  · exact congrArg Slot.initKernel (isSlot _ again stored againFound)

/-- `sys_exit`: either the predecessor goes on, or it is the kernel thread,
which starts a new shell. -/
theorem after_sysExit {fuel : Nat} {post : Unit → Kernel → Prop}
    (known : w.slot w.curr = some caller) (null : w.slot 0 = none)
    (goesOn : ∀ prev slot k, Search w.next (w.HasPid caller.pid) w.curr prev →
      (w.leave prev).slot prev = some slot → slot.pid ≠ 1 →
        k.procs.view = w.leave prev → k.paging.cr3 = slot.cr3 →
          k.tssRsp = slot.initKernel → post () k)
    (restarts : ∀ prev slot addr cr3 frames k,
      Search w.next (w.HasPid caller.pid) w.curr prev →
        (w.leave prev).slot prev = some slot → slot.pid = 1 →
          PcbBlock addr frames → (w.leave prev).slot addr = none →
            let kernelThread : Slot :=
              { slot with initKernel := prev + 4096 - 8 }
            k.procs.view = ((w.leave prev).put prev kernelThread).create
              kernelThread addr cr3 frames → post () k) :
    After (sysExit fuel) w post := by
  unfold sysExit
  apply after_bind
  refine after_leaveRing known fun prev k search present view => ?_
  have absent : (w.leave prev).slot 0 = none :=
    View.setNext_none (View.setNext_none null)
  refine after_derefPcb (fun slot found => ?_) k view
  split
  · next isFirst =>
      refine after_storePcb
        (fun slot => { slot with initKernel := prev + 4096 - 8 })
        (fun _ => rfl) fun slot' found' => ?_
      rw [found] at found'
      cases found'
      refine after_keeps (sameView_userSwitchBack _) fun _ => ?_
      have different : (0 : Word) ≠ prev := by
        intro same
        rw [same] at absent
        rw [absent] at found
        cases found
      refine after_scheduleSbush View.put_same ?_ ?_
      · rw [View.put_of_ne different, absent]
      · intro addr cr3 frames block fresh k' view'
        refine restarts prev slot.slot addr cr3 frames k' search found isFirst
          block ?_ view'
        by_cases same : addr = prev
        · rw [same, View.put_same] at fresh
          cases fresh
        · rwa [View.put_of_ne same] at fresh
  · next other =>
      exact after_userSwitchTask found fun after view' loads stack =>
        goesOn prev slot.slot after search found other view' loads stack

/-- `kill` of another process: it is dropped from the ring, or nothing is
found and nothing changes. -/
theorem after_kill {fuel : Nat} {pid : Word}
    {post : Option Word → Kernel → Prop}
    (known : w.slot w.curr = some caller) (null : w.slot 0 = none)
    (own : pid = caller.pid.signExtend 64 →
      After (sysExit fuel) w fun _ k => post none k)
    (missed : ∀ k, pid ≠ caller.pid.signExtend 64 →
      k.procs.view = w → post none k)
    (dropped : ∀ before last k victim, pid ≠ caller.pid.signExtend 64 →
      ¬ w.StopsKill pid w.first →
        Search w.next (w.StopsKill pid) w.first before →
          w.slot (w.next before) = some victim →
            victim.pid.signExtend 64 = pid →
              (w.stopped ≠ 0 →
                Search w.next (fun p => p = 0) w.stopped last) →
                k.procs.view = w.drop before last →
                  post (some (w.next before)) k) :
    After (kill fuel pid) w post := by
  unfold kill
  refine after_globals fun t start => ?_
  have current : t.currProcess = w.curr := congrArg View.curr start
  have first : t.firstProcess = w.first := congrArg View.first start
  have stopped : t.stoppedProcess = w.stopped := congrArg View.stopped start
  rw [current, first, stopped]
  refine after_derefPcb fun curr currFound => ?_
  have isCaller : curr.pid = caller.pid :=
    congrArg Slot.pid (Option.some.inj (currFound.symm.trans known))
  rw [isCaller]
  split
  · next same =>
      apply after_bind
      exact own same
  · next different =>
      refine after_findVictim ?_ ?_ fuel
      · -- The first process itself: the source follows a null pointer.
        intro _
        refine after_derefPcb fun before found => ?_
        rw [null] at found
        cases found
      · intro before passes search
        refine after_derefPcb fun pcb found => ?_
        have link : w.next before = pcb.nextProc := View.next_of_slot found
        rw [← link]
        refine after_derefPcb fun victim victimFound => ?_
        split
        · next hits =>
            refine after_keeps (sameView.adoptChildren _ _ _ _) fun _ => ?_
            have victimLink := View.next_of_slot victimFound
            split
            · next empty =>
                refine after_setGlobals
                  (fun v => { v with stopped := w.next before })
                  (fun _ => rfl) ?_
                refine after_link victim.slot.nextProc (fun _ => rfl)
                  fun _ => ?_
                refine after_link 0 (fun _ => rfl) fun _ => ?_
                refine after_pure fun k view => ?_
                refine dropped before 0 k victim.slot different passes search
                  victimFound hits (fun more => absurd empty more) ?_
                rw [← victimLink] at view
                exact Eq.trans view (if_pos empty).symm
            · next more =>
                refine after_findBefore (fun last walk _ => ?_) fuel
                refine after_link (w.next before) (fun _ => rfl) fun _ => ?_
                refine after_derefPcb fun again againFound => ?_
                have againLink := View.next_of_slot againFound
                refine after_link again.slot.nextProc (fun _ => rfl)
                  fun _ => ?_
                refine after_link 0 (fun _ => rfl) fun _ => ?_
                refine after_pure fun k view => ?_
                refine dropped before last k victim.slot different passes
                  search victimFound hits (fun _ => walk) ?_
                rw [← againLink] at view
                exact Eq.trans view (if_neg more).symm
        · exact after_pure fun k view => missed k different view

end Operations

end SbuUnix
