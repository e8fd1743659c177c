import SbuUnix.Process.Create

/-!
# Replacing the image of a process

`execve` of `sys/process.c`.  The argument string stays in the memory of the
caller, where `strlen` and the test for a trailing `&` write to it.
-/

namespace SbuUnix

open Outcome

/-! ## Strings in user memory -/

/-- `*ptr` for a pointer into the process that CR3 selects. -/
def loadUser (v : Word) : KernelM Byte :=
  runPaging (loadByte ptPR v)

def storeUser (v : Word) (byte : Byte) : KernelM Unit :=
  runPaging (storeByte ptPR v byte)

/-- The loop of `strlen`. -/
def countBytes : Nat → Word → KernelM Nat
  | 0, _ => throw .outOfFuel
  | fuel + 1, str => do
      if (← loadUser str) ≠ 0 then
        let count ← countBytes fuel (str + 1)
        pure (count + 1)
      else
        pure 0

/-- `strlen`, whose call of `strcat` writes two NULs at the end. -/
def strlen (fuel : Nat) (str : Word) : KernelM Nat := do
  let len ← countBytes fuel str
  storeUser (str + BitVec.ofNat 64 len) 0
  storeUser (str + BitVec.ofNat 64 (len + 1)) 0
  pure len

/-- The copy of the file name into `file[100]`, from index `i` on. -/
def copyFile : Nat → Word → Nat → KernelM (List Byte)
  | 0, _, _ => throw .outOfFuel
  | fuel + 1, filename, i => do
      let byte ← loadUser filename
      if i < 100 then
        if byte ≠ 0 then
          let rest ← copyFile fuel (filename + 1) (i + 1)
          pure (byte :: rest)
        else
          pure []
      else
        throw .outOfBounds

/-- A store to `kernel_args[5][64]`, by its index in the whole array. -/
def putArg (args : Nat → Byte) (index : Nat) (byte : Byte) :
    KernelM (Nat → Byte) :=
  if index < 5 * 64 then
    pure fun other => if other = index then byte else args other
  else
    throw .outOfBounds

/-- The inner loop over one argument; returns `k` and the array. -/
def copyArg (argv : Word) (i : Nat) :
    Nat → Nat → Nat → (Nat → Byte) → KernelM (Nat × (Nat → Byte))
  | 0, _, _, _ => throw .outOfFuel
  | fuel + 1, j, k, args => do
      let byte ← loadUser (argv + BitVec.ofNat 64 k)
      if byte ≠ 0x20 ∧ byte ≠ 0 ∧ byte ≠ 0x0A then
        copyArg argv i fuel (j + 1) (k + 1) (← putArg args (i * 64 + j) byte)
      else
        pure (k, ← putArg args (i * 64 + j) 0)

/-- The outer loop over the argument string; returns the number of arguments
and the array.  After the last argument it reads on behind the NUL. -/
def splitArgs (argv : Word) :
    Nat → Nat → Nat → (Nat → Byte) → KernelM (Nat × (Nat → Byte))
  | 0, _, _, _ => throw .outOfFuel
  | fuel + 1, i, k, args => do
      if (← loadUser (argv + BitVec.ofNat 64 k)) ≠ 0 then
        let (k, args) ← copyArg argv i (fuel + 1) 0 k args
        splitArgs argv fuel (i + 1) (k + 1) args
      else
        pure (i, args)

/-! ## Lists of processes -/

/-- `while (pointer->next_proc != target) pointer = pointer->next_proc;` -/
def findBefore (target : Word) : Nat → Word → KernelM Word
  | 0, _ => throw .outOfFuel
  | fuel + 1, pointer => do
      let pcb ← derefPcb pointer
      if pcb.nextProc ≠ target then
        findBefore target fuel pcb.nextProc
      else
        pure pointer

/-- `execve_switch_to_ring3` -/
def execveSwitchToRing3 (proc : Word) : KernelM Unit := do
  storePcb proc fun pcb => { pcb with state := .running }
  setGlobals fun t => { t with currProcess := proc }
  let pcb ← derefPcb proc
  runPaging (setCR3 pcb.cr3)
  modify fun k => { k with tssRsp := pcb.initKernel, rsp := pcb.rsp }

/-! ## The parts of `execve` -/

/-- Reading the arguments: the file name, `argc` and `kernel_args`, which
holds what was on the kernel stack (`stale`) where no argument is copied. -/
def readArguments (fuel : Nat) (stale : Nat → Byte) (filename argv : Word) :
    KernelM (List Byte × Int × (Nat → Byte)) := do
  let len ← strlen fuel argv
  let at2 := argv + BitVec.ofNat 64 len - 2
  let zombie := (← loadUser at2) == 0x26
  if zombie then
    storeUser (at2 - 1) 0x2F
    storeUser at2 0
  let file ← copyFile fuel filename 0
  let (i, args) ← splitArgs argv fuel 0 0 stale
  pure (file, if zombie then (i : Int) - 1 else i, args)

/-- The new control block up to the call of `load_binaries`, and what that
call returns. -/
def loadNewImage (fuel : Nat) (userPcb : Word) (file : List Byte) :
    KernelM Bool := do
  let name ← strcpyTo 30 file
  let curr ← derefPcb (← globals).currProcess
  storePcb userPcb fun pcb =>
    { pcb with
      pName := name
      pid := curr.pid
      ppid := curr.ppid
      state := .running
      nChild := 0
      currDir := curr.currDir
      tempCurrDir := curr.tempCurrDir
      echoCount := curr.echoCount
      echoVar := curr.echoVar
      echoVarKey := curr.echoVarKey }
  let cr3Addr ← runPaging createUserAddressSpace
  storePcb userPcb fun pcb => { pcb with cr3 := cr3Addr }
  makeUserSpace userPcb cr3Addr
  loadBinaries fuel userPcb (isFileExist (← get).tarfs file)

/-- After a successful load the new control block takes the place of the
caller's in the ring, and the caller's goes to the end of `forked_process`. -/
def replaceProcess (fuel : Nat) (userPcb : Word) : KernelM Unit := do
  let t ← globals
  let first ← derefPcb t.firstProcess
  runPaging (setCR3 first.cr3)
  storePcb userPcb fun pcb =>
    { pcb with
      state := .ready
      nextProc := t.firstProcess
      userStack := userVirt + 4096 - 8
      rsp := userVirt + 4096 - 8
      initKernel := kernelStackTop userPcb }
  let pointer ← findBefore t.currProcess fuel t.currProcess
  storePcb pointer fun pcb => { pcb with nextProc := userPcb }
  let curr ← derefPcb t.currProcess
  storePcb userPcb fun pcb => { pcb with nextProc := curr.nextProc }
  if t.forkedProcess = 0 then
    storePcb t.currProcess fun pcb => { pcb with nextProc := 0 }
    setGlobals fun t => { t with forkedProcess := t.currProcess }
  else
    let last ← findBefore 0 fuel t.forkedProcess
    storePcb last fun pcb => { pcb with nextProc := t.currProcess }
    storePcb t.currProcess fun pcb => { pcb with nextProc := 0 }

/-- The last part: the arguments go to the new stack, and the new process
starts. -/
def enterImage (userPcb : Word) (argc : Int) (args : Nat → Byte) :
    KernelM Unit := do
  let user ← derefPcb userPcb
  runPaging (setCR3 user.cr3)
  let ptr := user.userStack - 5 * 64
  runPaging (memcpyOut args ptr (5 * 64))
  let count := BitVec.ofInt 64 argc
  runPaging (memcpyOut (fun i => byteOf count i) (ptr - 8) 4)
  storePcb userPcb fun pcb => { pcb with rsp := pcb.userStack - 5 * 64 - 8 }
  execveSwitchToRing3 userPcb

/-- `execve`; `false` when `load_binaries` returned `-1` and the call comes
back to its caller. -/
def execve (fuel : Nat) (stale : Nat → Byte) (filename argv : Word) :
    KernelM Bool := do
  let userPcb ← newPcb
  let (file, argc, args) ← readArguments fuel stale filename argv
  if ← loadNewImage fuel userPcb file then
    replaceProcess fuel userPcb
    enterImage userPcb argc args
    pure true
  else
    pure false

end SbuUnix
