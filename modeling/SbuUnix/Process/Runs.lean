import SbuUnix.Process.Splice

/-!
# Runs of process calls

A run is a list of calls, each issued by the current process.  `live` is not
in the source: the processes created and neither exited nor killed, where
`execve` puts the new control block in the place of the old one.
-/

namespace SbuUnix

open Outcome

structure Tracked where
  kernel : Kernel
  live : List Word

abbrev TrackedM := StateT Tracked (Except Fault)

inductive Call where
  | kernelThread
  | userProcess (filename : List Byte)
  | fork
  | wait (pid : Word)
  | execve (stale : Nat → Byte) (filename argv : Word)
  | exit
  | kill (pid : Word)

def onKernel {α : Type} (program : KernelM α) : TrackedM α :=
  zoom Tracked.kernel (fun k t => { t with kernel := k }) program

def getProcs : TrackedM Procs := do
  pure (← get).kernel.procs

def setLive (update : List Word → List Word) : TrackedM Unit :=
  modify fun t => { t with live := update t.live }

/-- The current process, when it did not exist before. -/
def started (before after : Procs) : List Word :=
  match before.pcb after.currProcess with
  | some _ => []
  | none => [after.currProcess]

/-- The rest of `live` without a process, and what has been started since. -/
def ended (p : Word) (before after : Procs) (live : List Word) : List Word :=
  live.filter (fun other => other ≠ p) ++ started before after

/-- One call and what it means for `live`. -/
def Call.serve (fuel : Nat) : Call → TrackedM Unit
  | .kernelThread => do
      onKernel createKernelThread
      let t ← getProcs
      setLive fun live => live ++ [t.currProcess]
  | .userProcess filename => do
      let p ← onKernel (createUserProcess fuel filename)
      setLive fun live => if p = 0 then live else live ++ [p]
  | .fork => do
      let _ ← onKernel forkChild
      let t ← getProcs
      let curr ← onKernel (derefPcb t.currProcess)
      setLive fun live => live ++ [curr.nextProc]
  | .wait pid => do
      let _ ← onKernel (SbuUnix.wait pid)
  | .execve stale filename argv => do
      let before ← getProcs
      let replaced ← onKernel (SbuUnix.execve fuel stale filename argv)
      let after ← getProcs
      setLive fun live =>
        if replaced then
          live.map fun p =>
            if p = before.currProcess then after.currProcess else p
        else
          live
  | .exit => do
      let before ← getProcs
      onKernel (sysExit fuel)
      let after ← getProcs
      setLive (ended before.currProcess before after)
  | .kill pid => do
      let before ← getProcs
      let curr ← onKernel (derefPcb before.currProcess)
      let victim ← onKernel (SbuUnix.kill fuel pid)
      let after ← getProcs
      setLive fun live =>
        if pid = curr.pid.signExtend 64 then
          ended before.currProcess before after live
        else
          live.filter fun p => some p ≠ victim

def serveCalls (fuel : Nat) : List Call → TrackedM Unit :=
  runAll (Call.serve fuel)

/-! ## One call on the view -/

section Step

variable {t : Tracked} {fuel : Nat}

theorem yields_onKernel {α : Type} {program : KernelM α}
    {post : α → Tracked → Prop} :
    Yields AnyFault (onKernel program) t post ↔
      Yields AnyFault program t.kernel fun value k =>
        post value { t with kernel := k } :=
  yields_zoom program t

theorem yields_getProcs {post : Procs → Tracked → Prop} :
    Yields AnyFault getProcs t post ↔ post t.kernel.procs t :=
  Iff.rfl

theorem yields_setLive {update : List Word → List Word}
    {post : Unit → Tracked → Prop} :
    Yields AnyFault (setLive update) t post ↔
      post () { t with live := update t.live } :=
  Iff.rfl

end Step

/-- What an exit does: the predecessor goes on, or it is the kernel thread
and a new shell is started. -/
inductive ExitEffect (w : View) (live : List Word) (caller : Slot) :
    View → List Word → Prop
  | goesOn {prev : Word} {slot : Slot}
      (search : Links.Search w.next (w.HasPid caller.pid) w.curr prev)
      (found : (w.leave prev).slot prev = some slot) (other : slot.pid ≠ 1) :
      ExitEffect w live caller (w.leave prev)
        (live.filter fun p => p ≠ w.curr)
  | restarts {prev addr cr3 : Word} {slot : Slot} {frames : List Nat}
      (search : Links.Search w.next (w.HasPid caller.pid) w.curr prev)
      (found : (w.leave prev).slot prev = some slot) (first : slot.pid = 1)
      (block : PcbBlock addr frames)
      (fresh : (w.leave prev).slot addr = none) :
      ExitEffect w live caller
        (((w.leave prev).put prev
            { slot with initKernel := prev + 4096 - 8 }).create
          { slot with initKernel := prev + 4096 - 8 } addr cr3 frames)
        ((live.filter fun p => p ≠ w.curr) ++ [addr])

/-- What a call that returns has done to the view and to `live`. -/
inductive Effect (w : View) (live : List Word) (caller : Slot) :
    Call → View → List Word → Prop
  | created {filename : List Byte} {addr cr3 : Word} {frames : List Nat}
      (block : PcbBlock addr frames) (fresh : w.slot addr = none) :
      Effect w live caller (.userProcess filename)
        (w.create caller addr cr3 frames) (live ++ [addr])
  | createFailed {filename : List Byte} {addr : Word} {slot : Slot}
      {frames : List Nat} (block : PcbBlock addr frames)
      (fresh : w.slot addr = none) :
      Effect w live caller (.userProcess filename)
        { w.put addr slot with processID := (takeID w.processID).2 } live
  | forked {addr cr3 loaded : Word} {frames : List Nat}
      (block : PcbBlock addr frames) (fresh : w.slot addr = none) :
      Effect w live caller .fork (w.fork caller addr cr3 loaded frames)
        (live ++ [addr])
  | waited {pid : Word} {slot : Slot}
      (found : w.slot (w.next w.curr) = some slot) :
      Effect w live caller (.wait pid) { w with curr := w.next w.curr } live
  | execFailed {stale : Nat → Byte} {filename argv addr : Word} {slot : Slot}
      {frames : List Nat} (block : PcbBlock addr frames)
      (fresh : w.slot addr = none) :
      Effect w live caller (.execve stale filename argv) (w.put addr slot)
        live
  | replaced {stale : Nat → Byte}
      {filename argv addr cr3 pointer last : Word} {frames : List Nat}
      (block : PcbBlock addr frames) (fresh : w.slot addr = none)
      (search : Links.Search (w.fresh caller addr cr3 frames).next
        (fun p => p = w.curr) w.curr pointer)
      (walk : w.forked ≠ 0 → Links.Search
        ((w.fresh caller addr cr3 frames).linkImage addr pointer).next
          (fun p => p = 0) w.forked last) :
      Effect w live caller (.execve stale filename argv)
        { (w.fresh caller addr cr3 frames).replace addr pointer last with
          curr := addr }
        (live.map fun p => if p = w.curr then addr else p)
  | exited {after : View} {rest : List Word}
      (effect : ExitEffect w live caller after rest) :
      Effect w live caller .exit after rest
  | killedSelf {pid : Word} {after : View} {rest : List Word}
      (own : pid = caller.pid.signExtend 64)
      (effect : ExitEffect w live caller after rest) :
      Effect w live caller (.kill pid) after rest
  | missed {pid : Word} (other : pid ≠ caller.pid.signExtend 64) :
      Effect w live caller (.kill pid) w live
  | dropped {pid before last : Word} {victim : Slot}
      (other : pid ≠ caller.pid.signExtend 64)
      (passes : ¬ w.StopsKill pid w.first)
      (search : Links.Search w.next (w.StopsKill pid) w.first before)
      (found : w.slot (w.next before) = some victim)
      (hits : victim.pid.signExtend 64 = pid)
      (walk : w.stopped ≠ 0 →
        Links.Search w.next (fun p => p = 0) w.stopped last) :
      Effect w live caller (.kill pid) (w.drop before last)
        (live.filter fun p => p ≠ w.next before)

/-! ## What calls keep of the processes that exist -/

/-- The processes of `w` still exist, with the same value of `field`. -/
def View.Keeps {γ : Type} (field : Slot → γ) (w after : View) : Prop :=
  ∀ p slot, w.slot p = some slot →
    ∃ slot', after.slot p = some slot' ∧ field slot' = field slot

namespace View

variable {γ : Type} {field : Slot → γ} {w after later : View}
variable {p link : Word} {slot caller : Slot}

theorem Keeps.refl : w.Keeps field w :=
  fun _ slot found => ⟨slot, found, rfl⟩

theorem Keeps.trans (first : w.Keeps field after)
    (second : after.Keeps field later) : w.Keeps field later := by
  intro p slot found
  obtain ⟨slot', found', same⟩ := first p slot found
  obtain ⟨slot'', found'', same'⟩ := second p slot' found'
  exact ⟨slot'', found'', same'.trans same⟩

theorem keeps_put_fresh (fresh : w.slot p = none) :
    w.Keeps field (w.put p slot) := by
  intro q old found
  have different : q ≠ p := by
    intro same
    rw [same, fresh] at found
    cases found
  exact ⟨old, by rw [put_of_ne different, found], rfl⟩

theorem keeps_put_of_eq (field : Slot → γ) (other : Slot)
    (found : w.slot p = some slot) (same : field other = field slot) :
    w.Keeps field (w.put p other) := by
  intro q old found'
  by_cases here : q = p
  · rw [here, found] at found'
    cases found'
    exact ⟨other, by rw [here, put_same], same⟩
  · exact ⟨old, by rw [put_of_ne here, found'], rfl⟩

theorem Keeps.isSome (kept : w.Keeps field after)
    (present : (w.slot p).isSome) : (after.slot p).isSome := by
  obtain ⟨slot, found⟩ := Option.isSome_iff_exists.mp present
  obtain ⟨slot', found', -⟩ := kept p slot found
  exact Option.isSome_of_mem found'

theorem leave_none {prev : Word} (absent : w.slot p = none) :
    (w.leave prev).slot p = none :=
  setNext_none (setNext_none absent)

theorem replace_none {addr pointer last : Word} (absent : w.slot p = none) :
    (w.replace addr pointer last).slot p = none := by
  have linked : (w.linkImage addr pointer).slot p = none :=
    setNext_none (setNext_none absent)
  unfold replace
  split
  · exact setNext_none linked
  · exact setNext_none (setNext_none linked)

theorem drop_none {before last : Word} (absent : w.slot p = none) :
    (w.drop before last).slot p = none := by
  unfold drop
  dsimp only
  split
  · exact setNext_none (setNext_none absent)
  · exact setNext_none (setNext_none (setNext_none absent))

theorem hasPid_of_leave {prev : Word}
    (found : (w.leave prev).slot p = some slot) : w.HasPid slot.pid p := by
  have present : (w.slot p).isSome := by
    have same : ((w.leave prev).slot p).isSome = (w.slot p).isSome :=
      setNext_isSome.trans setNext_isSome
    rw [← same, found]
    rfl
  obtain ⟨old, oldFound⟩ := Option.isSome_iff_exists.mp present
  obtain ⟨linked, linkedFound, sameSlot⟩ := setNext_slot prev w.first oldFound
  obtain ⟨again, againFound, sameAgain⟩ := setNext_slot w.curr 0 linkedFound
  have isSlot : again = slot :=
    Option.some.inj (againFound.symm.trans found)
  refine ⟨old, oldFound, ?_⟩
  rw [← isSlot, sameAgain, sameSlot]

section NotLink

-- The field does not depend on the link and the tables of a process.
variable (notLink : ∀ slot nextProc cr3,
  field { slot with nextProc := nextProc, cr3 := cr3 } = field slot)

include notLink

theorem keeps_setNext : w.Keeps field (w.setNext p link) := by
  intro q old found
  obtain ⟨linked, found', same⟩ :=
    setNext_slot p link found
  refine ⟨linked, found', ?_⟩
  rw [same]
  exact notLink old _ old.cr3

theorem keeps_create {addr cr3 : Word} {frames : List Nat}
    (known : w.slot w.curr = some caller) (fresh : w.slot addr = none) :
    w.Keeps field (w.create caller addr cr3 frames) := by
  have linked := keeps_put_of_eq field { caller with nextProc := addr }
    known
    (notLink caller addr caller.cr3)
  refine linked.trans (keeps_put_fresh ?_)
  rw [put_of_ne ?_, fresh]
  intro same
  rw [← same, fresh] at known
  cases known

theorem keeps_fork {addr cr3 loaded : Word} {frames : List Nat}
    (known : w.slot w.curr = some caller) (fresh : w.slot addr = none) :
    w.Keeps field (w.fork caller addr cr3 loaded frames) := by
  have linked := keeps_put_of_eq field
    { caller with nextProc := addr, cr3 := loaded } known
    (notLink caller addr loaded)
  refine linked.trans (keeps_put_fresh ?_)
  rw [put_of_ne ?_, fresh]
  intro same
  rw [← same, fresh] at known
  cases known

theorem keeps_replace {addr pointer last : Word} :
    w.Keeps field (w.replace addr pointer last) := by
  have linked : w.Keeps field (w.linkImage addr pointer) :=
    (keeps_setNext notLink).trans (keeps_setNext notLink)
  unfold replace
  split
  · exact linked.trans (keeps_setNext notLink)
  · exact linked.trans
      ((keeps_setNext notLink).trans (keeps_setNext notLink))

theorem keeps_leave {prev : Word} : w.Keeps field (w.leave prev) :=
  (keeps_setNext notLink).trans (keeps_setNext notLink)

theorem keeps_drop {before last : Word} :
    w.Keeps field (w.drop before last) := by
  unfold drop
  dsimp only
  split
  · exact (keeps_setNext notLink).trans (keeps_setNext notLink)
  · exact (keeps_setNext notLink).trans
      ((keeps_setNext notLink).trans (keeps_setNext notLink))

end NotLink

end View

/-! ## A process runs -/

/-- The current process exists, and the null pointer names none. -/
structure View.Running (w : View) : Prop where
  null : w.slot 0 = none
  current : (w.slot w.curr).isSome

section Running

variable {w after : View} {live rest : List Word} {caller : Slot}
variable {addr cr3 : Word} {frames : List Nat}

theorem ne_of_slot {p q : Word} {slot : Slot} (found : w.slot p = some slot)
    (absent : w.slot q = none) : p ≠ q := by
  intro same
  rw [same, absent] at found
  cases found

theorem running_create (running : w.Running)
    (known : w.slot w.curr = some caller) (block : PcbBlock addr frames) :
    (w.create caller addr cr3 frames).Running := by
  have notCurr := (ne_of_slot known running.null).symm
  constructor
  · have absent := running.null
    rw [← View.put_of_ne notCurr, ← View.put_of_ne block.ne_zero] at absent
    exact absent
  · exact Option.isSome_of_mem View.put_same

theorem running_exit (running : w.Running)
    (effect : ExitEffect w live caller after rest) : after.Running := by
  cases effect with
  | goesOn search found other =>
      exact ⟨View.leave_none running.null, Option.isSome_of_mem found⟩
  | @restarts prev addr cr3 slot frames search found first block fresh =>
      refine running_create ⟨?_, ?_⟩ View.put_same block
      · have left : (w.leave prev).slot 0 = none :=
          View.leave_none running.null
        rw [View.put_of_ne (ne_of_slot found left).symm]
        exact left
      · exact Option.isSome_of_mem View.put_same

/-- Whatever call returns, a process runs. -/
theorem running_effect {call : Call} (running : w.Running)
    (known : w.slot w.curr = some caller)
    (effect : Effect w live caller call after rest) : after.Running := by
  cases effect with
  | created block fresh => exact running_create running known block
  | @createFailed filename addr slot frames block fresh =>
      constructor
      · exact Eq.trans (View.put_of_ne block.ne_zero) running.null
      · exact (View.keeps_put_fresh fresh : w.Keeps id _).isSome
          running.current
  | forked block fresh =>
      have notCurr := (ne_of_slot known running.null).symm
      constructor
      · have absent := running.null
        rw [← View.put_of_ne notCurr, ← View.put_of_ne block.ne_zero]
          at absent
        exact absent
      · exact (View.keeps_fork (fun _ _ _ => rfl) known fresh :
          w.Keeps Slot.pid _).isSome running.current
  | waited found => exact ⟨running.null, Option.isSome_of_mem found⟩
  | @execFailed stale filename argv addr slot frames block fresh =>
      constructor
      · exact Eq.trans (View.put_of_ne block.ne_zero) running.null
      · exact (View.keeps_put_fresh fresh : w.Keeps id _).isSome
          running.current
  | replaced block fresh search walk =>
      constructor
      · apply View.replace_none
        exact Eq.trans (View.put_of_ne block.ne_zero) running.null
      · exact (View.keeps_replace (fun _ _ _ => rfl) :
          View.Keeps Slot.pid _ _).isSome
            (Option.isSome_of_mem View.put_same)
  | exited exits => exact running_exit running exits
  | killedSelf own exits => exact running_exit running exits
  | missed other => exact running
  | @dropped pid before last victim other passes search found hits walk =>
      have same : (w.drop before last).curr = w.curr := by
        unfold View.drop
        dsimp only
        split <;> rfl
      refine ⟨View.drop_none running.null, ?_⟩
      rw [same]
      exact (View.keeps_drop (fun _ _ _ => rfl) :
        w.Keeps Slot.pid _).isSome running.current

end Running

section Serve

variable {t : Tracked} {fuel : Nat} {caller : Slot}

def Tracked.view (t : Tracked) : View :=
  t.kernel.procs.view

theorem started_eq_nil {before after : Procs} {p : Word}
    (current : after.currProcess = p)
    (present : (before.view.slot p).isSome) : started before after = [] := by
  rw [← current] at present
  cases found : before.pcb after.currProcess with
  | none => simp [Procs.view, found] at present
  | some pcb => simp [started, found]

theorem started_eq_singleton {before after : Procs} {p : Word}
    (current : after.currProcess = p)
    (fresh : before.view.slot p = none) : started before after = [p] := by
  rw [← current] at fresh
  cases found : before.pcb after.currProcess with
  | none =>
      simp only [started, found]
      rw [current]
  | some pcb => simp [Procs.view, found] at fresh

theorem exit_effect {post : Unit → Kernel → Prop}
    (known : t.view.slot t.view.curr = some caller)
    (null : t.view.slot 0 = none)
    (ends : ∀ k, ExitEffect t.view t.live caller k.procs.view
      (ended t.view.curr t.kernel.procs k.procs t.live) → post () k) :
    After (sysExit fuel) t.view post := by
  refine after_sysExit known null ?_ ?_
  · intro prev slot k search found other view _ _
    apply ends
    have current : k.procs.currProcess = prev := congrArg View.curr view
    have present : (t.kernel.procs.view.slot prev).isSome := by
      have same : ((t.view.leave prev).slot prev).isSome =
          (t.view.slot prev).isSome :=
        View.setNext_isSome.trans View.setNext_isSome
      rw [found] at same
      exact same.symm
    rw [ended, started_eq_nil current present, List.append_nil, view]
    exact .goesOn search found other
  · intro prev slot addr cr3 frames k search found first block fresh _ view
    apply ends
    have current : k.procs.currProcess = addr := congrArg View.curr view
    have absent : t.view.slot addr = none := by
      have same : ((t.view.leave prev).slot addr).isSome =
          (t.view.slot addr).isSome :=
        View.setNext_isSome.trans View.setNext_isSome
      rw [fresh] at same
      exact Option.isNone_iff_eq_none.mp (by simpa using same.symm)
    rw [ended, started_eq_singleton current absent, view]
    exact .restarts search found first block fresh

/-- Every call but the creation of the kernel thread, from a state with a
current process. -/
theorem effect_of_serve {call : Call} (notThread : call ≠ .kernelThread)
    (known : t.view.slot t.view.curr = some caller)
    (null : t.view.slot 0 = none) :
    Yields AnyFault (call.serve fuel) t fun _ after =>
      Effect t.view t.live caller call after.view after.live := by
  cases call with
  | kernelThread => exact absurd rfl notThread
  | userProcess filename =>
      rw [Call.serve, yields_bind, yields_onKernel]
      refine after_createUserProcess known ?_ ?_ t.kernel rfl
      · intro addr cr3 frames block fresh k view
        rw [yields_setLive, if_neg (Ne.symm block.ne_zero)]
        change Effect _ _ _ _ k.procs.view _
        rw [view]
        exact .created block fresh
      · intro addr slot frames block fresh k view
        rw [yields_setLive, if_pos rfl]
        change Effect _ _ _ _ k.procs.view _
        rw [view]
        exact .createFailed block fresh
  | fork =>
      rw [Call.serve, yields_bind, yields_onKernel]
      refine after_forkChild known ?_ t.kernel rfl
      intro addr cr3 loaded frames block fresh k view _
      rw [yields_bind, yields_getProcs, yields_bind, yields_onKernel,
        yields_derefPcb]
      intro curr found
      have different : t.view.curr ≠ addr := by
        intro same
        rw [same, fresh] at known
        cases known
      have child : curr.nextProc = addr := by
        have slot := view_slot found
        have current : k.procs.currProcess = t.view.curr :=
          congrArg View.curr view
        rw [current, view] at slot
        simp [View.fork, View.put, different] at slot
        exact (congrArg Slot.nextProc slot).symm
      rw [yields_setLive, child]
      change Effect _ _ _ _ k.procs.view _
      rw [view]
      exact .forked block fresh
  | wait pid =>
      rw [Call.serve, yields_bind, yields_onKernel]
      refine after_wait ?_ t.kernel rfl
      intro left slot k view found _
      rw [yields_pure]
      change Effect _ _ _ _ k.procs.view _
      rw [view]
      exact .waited found
  | execve stale filename argv =>
      rw [Call.serve, yields_bind, yields_getProcs, yields_bind,
        yields_onKernel]
      refine after_execve known ?_ ?_ t.kernel rfl
      · intro addr slot frames k block fresh view
        rw [yields_bind, yields_getProcs, yields_setLive, if_neg (by decide)]
        change Effect _ _ _ _ k.procs.view _
        rw [view]
        exact .execFailed block fresh
      · intro addr cr3 frames pointer last k block fresh prepared search walk
          view
        have current : k.procs.currProcess = addr := congrArg View.curr view
        rw [yields_bind, yields_getProcs, yields_setLive, if_pos rfl]
        change Effect _ _ _ _ k.procs.view _
        rw [view]
        simp only [current]
        exact .replaced block fresh search walk
  | exit =>
      rw [Call.serve, yields_bind, yields_getProcs, yields_bind,
        yields_onKernel]
      refine exit_effect known null (fun k effect => ?_) t.kernel rfl
      rw [yields_bind, yields_getProcs, yields_setLive]
      exact .exited effect
  | kill pid =>
      rw [Call.serve, yields_bind, yields_getProcs, yields_bind,
        yields_onKernel, yields_derefPcb]
      intro curr currFound
      have isCaller : curr.pid = caller.pid :=
        congrArg Slot.pid (Option.some.inj
          ((view_slot currFound).symm.trans known))
      rw [isCaller, yields_bind, yields_onKernel]
      refine after_kill known null ?_ ?_ ?_ t.kernel rfl
      · intro own
        apply exit_effect known null
        intro k effect
        rw [yields_bind, yields_getProcs, yields_setLive, if_pos own]
        exact .killedSelf own effect
      · intro k other view
        rw [yields_bind, yields_getProcs, yields_setLive, if_neg other]
        change Effect _ _ _ _ k.procs.view _
        rw [view]
        simpa using Effect.missed other
      · intro before last k victim other passes search found hits walk view
        rw [yields_bind, yields_getProcs, yields_setLive, if_neg other]
        change Effect _ _ _ _ k.procs.view _
        rw [view]
        simpa using Effect.dropped other passes search found hits walk

end Serve

/-! ## A machine at boot -/

/-- No process has been created yet. -/
structure Booted (t : Tracked) : Prop where
  empty : ∀ p, t.kernel.procs.pcb p = none
  processID : t.kernel.procs.processID = 0
  live : t.live = []

/-- Where the machine at boot keeps the image of `bin/init`. -/
def initImageAddr : Word := 0xFFFFFFFF80200000

/-- An image without segments: the four magic bytes. -/
def initImage (addr : Word) : Byte :=
  if addr = initImageAddr then 0x7F
  else if addr = initImageAddr + 1 then 0x45
  else if addr = initImageAddr + 2 then 0x4C
  else if addr = initImageAddr + 3 then 0x46
  else 0

/-- All frames but those of the numbers divisible by 64 are free; no process
has been created. -/
def bootMachine : Tracked where
  kernel :=
    { paging :=
        { mem := fun _ _ => 0
          freeMap := fun _ => 0xFFFFFFFFFFFFFFFE
          cr3 := 0 }
      procs := { pcb := fun _ => none }
      tarfs := [{ name := initName, addr := initImageAddr, inode := 4 }]
      archive := initImage }
  live := []

theorem booted_bootMachine : Booted bootMachine :=
  ⟨fun _ => rfl, rfl, rfl⟩

end SbuUnix
