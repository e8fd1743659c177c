import SbuUnix.Process.Table

/-!
# Waiting for a process

`wait` of `sys/process.c` moves `curr_process` before it compares the pid.
This module says exactly when the call is all or nothing, and that a run of
forks and waits keeps CR3 at the tables of `curr_process` when its waits are.
-/

namespace SbuUnix

open Outcome

/-- `wait`; `true` when it leaves by `iretq` into the next process of the
ring, `false` when it returns.  The argument is 64 bits wide and `pid` an
`int`. -/
def wait (pid : Word) : KernelM Bool := do
  let t ← globals
  storePcb t.currProcess fun pcb =>
    { pcb with
      kernRsp := t.rspPointer
      state := .ready }
  let prev ← derefPcb t.currProcess
  setGlobals fun t => { t with currProcess := prev.nextProc }
  let curr ← derefPcb prev.nextProc
  setGlobals fun t => { t with nextProcess := curr.nextProc }
  storePcb prev.nextProc fun pcb => { pcb with state := .running }
  if curr.pid.signExtend 64 = pid then
    let rsp := (← get).rsp
    storePcb t.currProcess fun pcb => { pcb with kernRsp := rsp }
    runPaging (setCR3 curr.cr3)
    modify fun k => { k with tssRsp := curr.initKernel, rsp := curr.rsp }
    pure true
  else
    pure false

/-! ## All or nothing -/

def Kernel.stateOf (k : Kernel) (p : Word) : Option TaskState :=
  (k.procs.pcb p).map Pcb.state

/-- Control goes to the process with the pid, which runs, and the caller is
ready. -/
structure HandsOver (k : Kernel) (pid : Word) (after : Kernel) : Prop where
  awaited : ∃ pcb, after.procs.pcb after.procs.currProcess = some pcb ∧
    pcb.pid.signExtend 64 = pid ∧ after.paging.cr3 = pcb.cr3 ∧
      after.rsp = pcb.rsp
  running : after.stateOf after.procs.currProcess = some .running
  caller : after.stateOf k.procs.currProcess = some .ready

/-- The scheduling state is that of the call. -/
structure ComesBack (k after : Kernel) : Prop where
  currProcess : after.procs.currProcess = k.procs.currProcess
  nextProcess : after.procs.nextProcess = k.procs.nextProcess
  states : ∀ p, after.stateOf p = k.stateOf p

def AllOrNothing (k : Kernel) (pid : Word) (left : Bool) (after : Kernel) :
    Prop :=
  left = true ∧ HandsOver k pid after ∨ left = false ∧ ComesBack k after

/-- The awaited process is the next one and not the caller itself; or the
caller is alone in the ring, marked as running and as `next_process`, and
waits for another pid. -/
def WaitMeets (k : Kernel) (pid : Word) : Prop :=
  ∃ caller next,
    k.procs.pcb k.procs.currProcess = some caller ∧
      k.procs.pcb caller.nextProc = some next ∧
      (next.pid.signExtend 64 = pid ∧ caller.nextProc ≠ k.procs.currProcess ∨
        next.pid.signExtend 64 ≠ pid ∧
          caller.nextProc = k.procs.currProcess ∧
          k.procs.nextProcess = k.procs.currProcess ∧
          caller.state = .running)

section Wait

variable {k : Kernel} {pid : Word} {caller next : Pcb}

/-- The control block of the caller when `wait` looks at the next one. -/
def waiting (t : Procs) (caller : Pcb) : Pcb :=
  { caller with
    kernRsp := t.rspPointer
    state := .ready }

@[simp]
theorem waiting_pid (t : Procs) : (waiting t caller).pid = caller.pid :=
  rfl

/-- The table when `wait` compares the pid. -/
def stepped (t : Procs) (caller successor : Pcb) : Procs :=
  { (t.put t.currProcess (waiting t caller)).put caller.nextProc
      { successor with state := .running } with
    currProcess := caller.nextProc
    nextProcess := successor.nextProc }

theorem wait_eq (pid : Word) {successor : Pcb}
    (found : k.procs.pcb k.procs.currProcess = some caller)
    (nextFound : (k.procs.put k.procs.currProcess
        (waiting k.procs caller)).pcb caller.nextProc = some successor) :
    ∃ last, (stepped k.procs caller successor).pcb k.procs.currProcess =
        some last ∧
      wait pid k =
        if successor.pid.signExtend 64 = pid then
          .ok (true,
            { k with
              procs := (stepped k.procs caller successor).put
                k.procs.currProcess { last with kernRsp := k.rsp }
              paging := { k.paging with cr3 := successor.cr3 }
              tssRsp := successor.initKernel
              rsp := successor.rsp })
        else
          .ok (false,
            { k with procs := stepped k.procs caller successor }) := by
  have present : ∃ last, (stepped k.procs caller successor).pcb
      k.procs.currProcess = some last := by
    by_cases same : k.procs.currProcess = caller.nextProc <;>
      simp [stepped, Procs.put, same]
  obtain ⟨last, lastFound⟩ := present
  refine ⟨last, lastFound, ?_⟩
  unfold wait
  rw [bind_of_ok (show globals k = .ok (k.procs, k) from rfl)]
  rw [bind_of_ok (storePcb_eq found)]
  rw [bind_of_ok (derefPcb_eq put_same)]
  rw [bind_of_ok (show setGlobals _ _ = .ok ((), _) from rfl)]
  rw [bind_of_ok (derefPcb_eq nextFound)]
  rw [bind_of_ok (show setGlobals _ _ = .ok ((), _) from rfl)]
  rw [bind_of_ok (storePcb_eq nextFound)]
  by_cases same : successor.pid.signExtend 64 = pid
  · rw [if_pos same, if_pos same]
    rw [bind_of_ok (show (get : KernelM Kernel) _ = .ok (_, _) from rfl)]
    rw [bind_of_ok (storePcb_eq lastFound)]
    rfl
  · rw [if_neg same, if_neg same]
    rfl

/-- `wait` is all or nothing exactly when the next process is the awaited one
and not the caller, or when there is no other process and nothing changes. -/
theorem wait_atomic_iff
    (found : k.procs.pcb k.procs.currProcess = some caller)
    (nextFound : k.procs.pcb caller.nextProc = some next) :
    ∃ left after, wait pid k = .ok (left, after) ∧
      (AllOrNothing k pid left after ↔ WaitMeets k pid) := by
  have successorFound : ∃ successor,
      (k.procs.put k.procs.currProcess (waiting k.procs caller)).pcb
          caller.nextProc = some successor ∧
        successor.pid = next.pid ∧
        (caller.nextProc = k.procs.currProcess →
          successor = waiting k.procs caller) := by
    by_cases alone : caller.nextProc = k.procs.currProcess
    · rw [alone, found] at nextFound
      cases nextFound
      exact ⟨waiting k.procs caller, by rw [alone, put_same], rfl,
        fun _ => rfl⟩
    · refine ⟨next, by rw [put_of_ne alone, nextFound], rfl, ?_⟩
      exact fun same => absurd same alone
  obtain ⟨successor, successorHere, samePid, whenAlone⟩ := successorFound
  obtain ⟨last, lastFound, run⟩ := wait_eq pid found successorHere
  have meets : WaitMeets k pid ↔
      (successor.pid.signExtend 64 = pid ∧
          caller.nextProc ≠ k.procs.currProcess ∨
        successor.pid.signExtend 64 ≠ pid ∧
          caller.nextProc = k.procs.currProcess ∧
          k.procs.nextProcess = k.procs.currProcess ∧
          caller.state = .running) := by
    rw [samePid]
    constructor
    · rintro ⟨caller', next', callerHere, nextHere, cases⟩
      rw [found] at callerHere
      cases callerHere
      rw [nextFound] at nextHere
      cases nextHere
      exact cases
    · intro cases
      exact ⟨caller, next, found, nextFound, cases⟩
  rw [meets, run]
  by_cases same : successor.pid.signExtend 64 = pid
  · rw [if_pos same]
    refine ⟨true, _, rfl, ?_⟩
    by_cases alone : caller.nextProc = k.procs.currProcess
    · -- The caller would have to be ready and running at once.
      constructor
      · rintro (⟨-, handsOver⟩ | ⟨back, -⟩)
        · have running := handsOver.running
          have ready := handsOver.caller
          simp only [stepped, Procs.put_currProcess, alone] at running ready
          rw [running] at ready
          cases ready
        · cases back
      · rintro (⟨-, different⟩ | ⟨different, -⟩)
        · exact absurd alone different
        · exact absurd same different
    · have isWaiting : waiting k.procs caller = last := by
        simpa [stepped, Procs.put, Ne.symm alone] using lastFound
      constructor
      · intro _
        exact Or.inl ⟨same, alone⟩
      · intro _
        refine Or.inl ⟨rfl, ?_, ?_, ?_⟩
        · refine ⟨{ successor with state := .running }, ?_, same, rfl, rfl⟩
          simp [stepped, Procs.put, alone]
        · simp [Kernel.stateOf, stepped, Procs.put, alone]
        · simp [Kernel.stateOf, ← isWaiting, waiting]
  · rw [if_neg same]
    refine ⟨false, _, rfl, ?_⟩
    constructor
    · rintro (⟨left, -⟩ | ⟨-, back⟩)
      · cases left
      · have alone : caller.nextProc = k.procs.currProcess :=
          back.currProcess
        have isWaiting := whenAlone alone
        have next : successor.nextProc = k.procs.nextProcess :=
          back.nextProcess
        have state := back.states k.procs.currProcess
        simp [Kernel.stateOf, stepped, Procs.put, alone, found] at state
        refine Or.inr ⟨same, alone, ?_, state.symm⟩
        rw [← next, isWaiting]
        exact alone
    · rintro (⟨match', -⟩ | ⟨-, alone, next, state⟩)
      · exact absurd match' same
      · have isWaiting := whenAlone alone
        refine Or.inr ⟨rfl, alone, ?_, fun p => ?_⟩
        · change successor.nextProc = _
          rw [isWaiting, next]
          exact alone
        · by_cases here : p = k.procs.currProcess
          · simp [Kernel.stateOf, stepped, Procs.put, alone, here, found,
              state]
          · simp [Kernel.stateOf, stepped, Procs.put, alone, here]

end Wait

/-! ## Runs of forks and waits -/

inductive ForkWait where
  | fork
  | wait (pid : Word)
  deriving DecidableEq, Repr

def ForkWait.serve : ForkWait → KernelM Unit
  | .fork => do
      let _ ← forkChild
  | .wait pid => do
      let _ ← SbuUnix.wait pid

/-- The tables in CR3 are those of the current process. -/
def OwnTables (k : Kernel) : Prop :=
  ∃ pcb, k.procs.pcb k.procs.currProcess = some pcb ∧
    k.paging.cr3 = pcb.cr3

def ForkWait.Meets : ForkWait → Kernel → Prop
  | .fork, _ => True
  | .wait pid, k => WaitMeets k pid

section Runs

variable {k : Kernel} {pid : Word}

theorem ownTables_fork {after : Kernel} {pid : BitVec 32}
    (own : OwnTables k) (returned : forkChild k = .ok (pid, after)) :
    OwnTables after := by
  obtain ⟨pcb, found, -⟩ := own
  have known : k.procs.view.slot k.procs.view.curr = some pcb.slot :=
    view_slot found
  have forks : After forkChild k.procs.view fun _ next => OwnTables next := ?_
  · exact yields_anyFault.mp (forks k rfl) _ _ returned
  apply after_forkChild known
  intro addr cr3 loaded frames block fresh next view loads
  have different : k.procs.view.curr ≠ addr := by
    intro same
    rw [same, fresh] at known
    cases known
  have slot : next.procs.view.slot next.procs.currProcess =
      some { pcb.slot with nextProc := addr, cr3 := loaded } := by
    have current : next.procs.currProcess = k.procs.view.curr :=
      congrArg View.curr view
    rw [view, current]
    simp [View.fork, View.put, different]
  obtain ⟨last, lastFound, same⟩ := exists_of_view_slot slot
  refine ⟨last, lastFound, ?_⟩
  rw [loads]
  exact (congrArg Slot.cr3 same).symm

theorem ownTables_wait {after : Kernel} {left : Bool}
    (own : OwnTables k) (meets : WaitMeets k pid)
    (returned : wait pid k = .ok (left, after)) : OwnTables after := by
  obtain ⟨caller, next, found, nextFound, ⟨same, other⟩ |
    ⟨different, alone, -, -⟩⟩ := meets
  · obtain ⟨last, lastFound, run⟩ := wait_eq pid found
      (show _ = some next by rw [put_of_ne other, nextFound])
    rw [run, if_pos same] at returned
    cases returned
    refine ⟨{ next with state := .running }, ?_, rfl⟩
    simp [stepped, Procs.put, other]
  · rw [alone, found] at nextFound
    cases nextFound
    obtain ⟨last, lastFound, run⟩ := wait_eq pid found
      (show _ = some (waiting k.procs caller) by rw [alone, put_same])
    rw [run, waiting_pid, if_neg different] at returned
    cases returned
    obtain ⟨pcb, here, loads⟩ := own
    rw [found] at here
    cases here
    refine ⟨{ waiting k.procs caller with state := .running }, ?_, loads⟩
    simp [stepped, Procs.put]

theorem ownTables_serve (operation : ForkWait) (k after : Kernel)
    (own : OwnTables k) (meets : operation.Meets k)
    (returned : operation.serve k = .ok ((), after)) : OwnTables after := by
  cases operation with
  | fork =>
      obtain ⟨pid, between, forked, rest⟩ := bind_eq_ok_iff.mp returned
      cases rest
      exact ownTables_fork own forked
  | wait pid =>
      obtain ⟨left, between, waited, rest⟩ := bind_eq_ok_iff.mp returned
      cases rest
      exact ownTables_wait own meets waited

end Runs

/-! ## A ring of three -/

/-- The kernel thread, a shell and its child in the ring; the shell runs. -/
def ringOfThree : Kernel where
  paging :=
    { mem := fun _ _ => 0
      freeMap := fun _ => 0
      cr3 := 0x2000 }
  procs :=
    { pcb := fun p =>
        if p = 0x10 then
          some { pid := 1, cr3 := 0x1000, nextProc := 0x20, state := .ready }
        else if p = 0x20 then
          some { pid := 2, cr3 := 0x2000, nextProc := 0x30, state := .running }
        else if p = 0x30 then
          some { pid := 3, cr3 := 0x3000, nextProc := 0x10 }
        else
          none
      firstProcess := 0x10
      currProcess := 0x20
      nextProcess := 0x30 }

end SbuUnix
