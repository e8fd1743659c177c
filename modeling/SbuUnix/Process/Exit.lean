import SbuUnix.Process.Execve

/-!
# Exiting and killing

`sys_exit` and `kill` of `sys/process.c`.
-/

namespace SbuUnix

open Outcome

/-! ## Exit -/

/-- `while (prev_task->next_proc->pid != curr_process->pid)` -/
def findPrevTask (pid : BitVec 32) : Nat → Word → KernelM Word
  | 0, _ => throw .outOfFuel
  | fuel + 1, prevTask => do
      let prev ← derefPcb prevTask
      let next ← derefPcb prev.nextProc
      if next.pid ≠ pid then
        findPrevTask pid fuel prev.nextProc
      else
        pure prevTask

/-- The two loops of `sys_exit` that free the pages of the processes on
`stopped_process` and `forked_process`. -/
def releaseProcesses (fuel : Nat) : Nat → Word → KernelM Unit
  | 0, _ => throw .outOfFuel
  | passes + 1, list =>
      if list = 0 then
        pure ()
      else do
        let pcb ← derefPcb list
        let mm ← derefMm list
        runPaging (freeVma fuel pcb.cr3 mm.vma)
        runPaging (freePage pcb.userStack pcb.cr3)
        releaseProcesses fuel passes pcb.nextProc

/-- `user_switchBack` -/
def userSwitchBack (next : Word) : KernelM Unit := do
  storePcb next fun pcb => { pcb with state := .running }
  let pcb ← derefPcb next
  runPaging (setCR3 pcb.cr3)
  modify fun k => { k with tssRsp := pcb.initKernel, rsp := pcb.kernRsp + 8 }

/-- `user_switchTask` -/
def userSwitchTask (current next : Word) : KernelM Unit := do
  let pcb ← derefPcb next
  runPaging (setCR3 pcb.cr3)
  let rsp := (← get).rsp
  storePcb current fun pcb => { pcb with kernRsp := rsp }
  let pcb ← derefPcb next
  modify fun k => { k with tssRsp := pcb.initKernel, rsp := pcb.kernRsp + 16 }

/-- `sys_exit` up to the choice of the next process: the process leaves the
ring, what the lists hold is freed, and `curr_process` is the predecessor,
which is returned. -/
def leaveRing (fuel : Nat) : KernelM Word := do
  let currProcess := (← globals).currProcess
  storePcb currProcess fun pcb => { pcb with state := .stopped }
  let curr ← derefPcb currProcess
  let prevTask ← findPrevTask curr.pid fuel currProcess
  let t ← globals
  storePcb prevTask fun pcb => { pcb with nextProc := t.firstProcess }
  releaseProcesses fuel fuel t.stoppedProcess
  setGlobals fun t => { t with stoppedProcess := currProcess }
  storePcb currProcess fun pcb => { pcb with nextProc := 0 }
  releaseProcesses fuel fuel t.forkedProcess
  setGlobals fun t => { t with forkedProcess := 0 }
  let curr ← derefPcb currProcess
  runPaging (setCR3 curr.cr3)
  let _ ← runPaging allocateVirtPage
  setGlobals fun t => { t with currProcess := prevTask }
  pure prevTask

/-- `sys_exit`.  Back in the kernel thread, whose pid is 1, the stack is set
up so that the switch returns into `schedule_sbush`; the cleared page is the
stack of its control block. -/
def sysExit (fuel : Nat) : KernelM Unit := do
  let prevTask ← leaveRing fuel
  let prev ← derefPcb prevTask
  if prev.pid = 1 then
    storePcb prevTask fun pcb =>
      { pcb with
        initKernel := prevTask + 4096 - 8
        kernRsp := prevTask + 4096 - 8 }
    userSwitchBack prevTask
    scheduleSbush fuel
  else
    userSwitchTask prev.nextProc prevTask

/-! ## Kill -/

/-- The first loop of `kill`: the process before the one found, the null
pointer when it is the first one. -/
def findVictim (pid firstProcess : Word) : Nat → Word → Word → KernelM Word
  | 0, _, _ => throw .outOfFuel
  | fuel + 1, prevTask, iterator => do
      let pcb ← derefPcb iterator
      if pcb.pid.signExtend 64 ≠ pid ∧ pcb.nextProc ≠ firstProcess then
        findVictim pid firstProcess fuel iterator pcb.nextProc
      else
        pure prevTask

/-- The second loop of `kill`: children of the victim become children of
process 1. -/
def adoptChildren (pid victim : Word) : Nat → Word → KernelM Unit
  | 0, _ => throw .outOfFuel
  | fuel + 1, pointer => do
      let pcb ← derefPcb pointer
      if pcb.nextProc ≠ victim then
        if pcb.ppid.signExtend 64 = pid then
          storePcb pointer fun pcb => { pcb with ppid := 1 }
        adoptChildren pid victim fuel pcb.nextProc

/-- `kill`; returns the process that was taken out of the ring and put on
`stopped_process`, which the source reports on the console. -/
def kill (fuel : Nat) (pid : Word) : KernelM (Option Word) := do
  let t ← globals
  let curr ← derefPcb t.currProcess
  if pid = curr.pid.signExtend 64 then
    sysExit fuel
    pure none
  else
    let iterator ← findVictim pid t.firstProcess fuel 0 t.firstProcess
    let before ← derefPcb iterator
    let victim ← derefPcb before.nextProc
    if victim.pid.signExtend 64 = pid then
      adoptChildren pid before.nextProc fuel victim.nextProc
      if t.stoppedProcess = 0 then
        setGlobals fun t => { t with stoppedProcess := before.nextProc }
        storePcb iterator fun pcb => { pcb with nextProc := victim.nextProc }
      else
        let last ← findBefore 0 fuel t.stoppedProcess
        storePcb last fun pcb => { pcb with nextProc := before.nextProc }
        let victim ← derefPcb before.nextProc
        storePcb iterator fun pcb => { pcb with nextProc := victim.nextProc }
      storePcb before.nextProc fun pcb => { pcb with nextProc := 0 }
      pure (some before.nextProc)
    else
      pure none

end SbuUnix
