import SbuUnix.Interrupts.Frames
import SbuUnix.Paging.Words

/-!
# System calls

A wrapper of the C library loads `rbx`, `rcx` and `rdx` and executes `int
$0x80`; `syscall_handler` finds them in its `regis`, chooses a function of the
kernel and leaves the result in `rax`.  What the functions do is not part of
this module: `perform` is any kernel.
-/

namespace SbuUnix

open Stack

/-! ## The handler -/

/-- The calls that `syscall_handler` makes, with their arguments.  Pointers
are addresses of the caller. -/
inductive Service where
  | kprintf (text : Word)
  | scanf (buf : Word)
  | opendir (filename : Word)
  | readDir (fd : BitVec 32)
  | openFile (filename : Word) (permission : BitVec 32)
  | read (fd : BitVec 32) (buf : Word) (size : BitVec 32)
  | chdir (dir : Word)
  | getcwd
  | clearConsole
  | mmap (size : BitVec 32)
  | getPid
  | forkChild
  | wait (pid : Word)
  | sleep (val : BitVec 32)
  | execve (filename argv : Word)
  | getCwd (buf : Word)
  | printAllPID
  | sysExit
  | kill (pid : Word)
  | setEnv (s : Word)
  | printEnv (s : Word)
  deriving DecidableEq

/-- What the handler makes of a result: an `int` is widened, and most calls
return 0. -/
def Service.result (value : Word) : Service → Word
  | .opendir _ => (value.setWidth 32).signExtend 64
  | .openFile _ _ => (value.setWidth 32).signExtend 64
  | .forkChild => (value.setWidth 32).signExtend 64
  | .mmap _ => value
  | .getPid => value
  | _ => 0

/-- The global `size` of `sys/syscalls.c`, and the rest of the kernel. -/
structure SysState (σ : Type) where
  size : BitVec 32
  kernel : σ

section Handler

variable {σ : Type}

/-- A call of the handler that returns. -/
def serveWith (perform : Service → σ → Word × σ) (service : Service)
    (s : SysState σ) : Word × SysState σ :=
  let (value, kernel) := perform service s.kernel
  (service.result value, { s with kernel := kernel })

/-- The branches of `syscall_handler` that call a function, by the number in
`rbx`; the last argument is `size`. -/
def serviceOf (number rcx rdx : Int) (size : BitVec 32) : Option Service :=
  let first := BitVec.ofInt 64 rcx
  let second := BitVec.ofInt 64 rdx
  if number = 1 then some (.kprintf first)
  else if number = 4 then some (.scanf first)
  else if number = 89 then some (.opendir first)
  else if number = 90 then some (.readDir (first.setWidth 32))
  else if number = 0 then some (.openFile first (second.setWidth 32))
  else if number = 2 then some (.read (first.setWidth 32) second size)
  else if number = 80 then some (.chdir first)
  else if number = 79 then some .getcwd
  else if number = 91 then some .clearConsole
  else if number = 9 then some (.mmap (first.setWidth 32))
  else if number = 39 then some .getPid
  else if number = 57 then some .forkChild
  else if number = 247 then some (.wait first)
  else if number = 35 then some (.sleep (first.setWidth 32))
  else if number = 59 then some (.execve first second)
  else if number = 78 then some (.getCwd first)
  else if number = 270 then some .printAllPID
  else if number = 60 then some .sysExit
  else if number = 62 then some (.kill first)
  else if number = 5 then some (.setEnv first)
  else if number = 6 then some (.printEnv first)
  else none

/-- `syscall_handler`; call 50 keeps its argument for the next `read`. -/
def syscallHandler (perform : Service → σ → Word × σ) (reg : Regis)
    (s : SysState σ) : Word × SysState σ :=
  if reg.rbx = 50 then
    (0, { s with size := (BitVec.ofInt 64 reg.rcx).setWidth 32 })
  else
    match serviceOf reg.rbx reg.rcx reg.rdx s.size with
    | some service => serveWith perform service s
    | none => (0, s)

end Handler

/-! ## The wrappers -/

/-- One `int $0x80`: the number, and the arguments in `rcx` and `rdx`. -/
structure Trap where
  number : Word
  rcx : Option Word := none
  rdx : Option Word := none

/-- The calls of the C library; strings are given by their addresses. -/
inductive LibCall where
  | printf (result : Word)
  | scanf (buf : Word)
  | clear
  | malloc (size : BitVec 32)
  | openDir (filename : Word)
  | readDir (fd : Word)
  | openFile (filename : Word) (perm : BitVec 32)
  | read (fd buf : Word) (size : BitVec 32)
  | chdir (dir : Word)
  | getcwd
  | cwd2 (buf : Word)
  | getpid
  | fork
  | waitPid (pid : Word)
  | execvpe (filename argv : Word)
  | exit
  | kill (pid : Word)
  | setEchoValue (s : Word)
  | printEchoVar (s : Word)
  | sleep (duration : Word)
  | ps

/-- The traps of a call. -/
def LibCall.traps : LibCall → List Trap
  | .printf result => [⟨1, some result, none⟩]
  | .scanf buf => [⟨4, some buf, none⟩]
  | .clear => [⟨91, none, none⟩]
  | .malloc size => [⟨9, some (size.signExtend 64), none⟩]
  | .openDir filename => [⟨89, some filename, none⟩]
  | .readDir fd => [⟨90, some fd, none⟩]
  | .openFile filename perm =>
      [⟨0, some filename, some (perm.signExtend 64)⟩]
  | .read fd buf size =>
      [⟨50, some (size.signExtend 64), none⟩, ⟨2, some fd, some buf⟩]
  | .chdir dir => [⟨80, some dir, none⟩]
  | .getcwd => [⟨79, none, none⟩]
  | .cwd2 buf => [⟨78, some buf, none⟩]
  | .getpid => [⟨39, none, none⟩]
  | .fork => [⟨57, none, none⟩]
  | .waitPid pid => [⟨247, some pid, none⟩]
  | .execvpe filename argv => [⟨59, some filename, some argv⟩]
  | .exit => [⟨60, none, none⟩]
  | .kill pid => [⟨62, some pid, none⟩]
  | .setEchoValue s => [⟨5, some s, none⟩]
  | .printEchoVar s => [⟨6, some s, none⟩]
  | .sleep duration => [⟨35, some duration, none⟩]
  | .ps => [⟨270, none, none⟩]

/-- What a call asks of the kernel. -/
def LibCall.service : LibCall → Service
  | .printf result => .kprintf result
  | .scanf buf => .scanf buf
  | .clear => .clearConsole
  | .malloc size => .mmap size
  | .openDir filename => .opendir filename
  | .readDir fd => .readDir (fd.setWidth 32)
  | .openFile filename perm => .openFile filename perm
  | .read fd buf size => .read (fd.setWidth 32) buf size
  | .chdir dir => .chdir dir
  | .getcwd => .getcwd
  | .cwd2 buf => .getCwd buf
  | .getpid => .getPid
  | .fork => .forkChild
  | .waitPid pid => .wait pid
  | .execvpe filename argv => .execve filename argv
  | .exit => .sysExit
  | .kill pid => .kill pid
  | .setEchoValue s => .setEnv s
  | .printEchoVar s => .printEnv s
  | .sleep duration => .sleep (duration.setWidth 32)
  | .ps => .printAllPID

/-- The registers that a wrapper loads. -/
def Cpu.load (c : Cpu) (trap : Trap) : Cpu :=
  { c with
    reg := fun r =>
      match r with
      | .rbx => trap.number.toNat
      | .rcx => (trap.rcx.map fun w => (w.toNat : Int)).getD (c.reg .rcx)
      | .rdx => (trap.rdx.map fun w => (w.toNat : Int)).getD (c.reg .rdx)
      | _ => c.reg r }

/-! ## User code with its traps -/

/-- User code that goes from `c` to a later state by the given traps: the
handler of each may be interrupted, and so may the user code.  The frames of
the processor fit below `top`. -/
inductive Traps {σ : Type} (code : Code) (top : Int)
    (perform : Service → σ → Word × σ) :
    Cpu → SysState σ → List Trap → Cpu → SysState σ → Prop
  | done {c : Cpu} {s : SysState σ} : Traps code top perform c s [] c s
  | trap {c ended last : Cpu} {s after : SysState σ} {rest : List Trap}
      (trap : Trap) (error : Int) (inside : (c.load trap).entryStack.sp ≤ top)
      (body : Run code top ((c.load trap).served code .systemCall error).rsp
        ((c.load trap).served code .systemCall error) ended)
      (ends : ended.rsp = ((c.load trap).served code .systemCall error).rsp)
      (returns : ended.reg .rax = (syscallHandler perform
        (regisOf ((c.load trap).served code .systemCall error)) s).1.toNat)
      (later : Traps code top perform (ended.resume .systemCall)
        (syscallHandler perform
          (regisOf ((c.load trap).served code .systemCall error)) s).2 rest
        last after) :
      Traps code top perform c s (trap :: rest) last after
  | interrupt {c ended last : Cpu} {s after : SysState σ} {rest : List Trap}
      (irq : Irq) (device : irq ≠ .systemCall) (error : Int)
      (inside : c.entryStack.sp ≤ top)
      (body : Run code top (c.served code irq error).rsp
        (c.served code irq error) ended)
      (ends : ended.rsp = (c.served code irq error).rsp)
      (later : Traps code top perform (ended.resume irq) s rest last after) :
      Traps code top perform c s rest last after

/-- The registers that calls leave to the user. -/
structure SameUser (c next : Cpu) : Prop where
  rip : next.rip = c.rip
  cs : next.cs = c.cs
  rflags : next.rflags = c.rflags
  rsp : next.rsp = c.rsp
  ss : next.ss = c.ss
  reg : ∀ r, r ∉ [Reg.rax, .rbx, .rcx, .rdx] → next.reg r = c.reg r

theorem SameUser.trans {c between next : Cpu} (first : SameUser c between)
    (second : SameUser between next) : SameUser c next where
  rip := second.rip.trans first.rip
  cs := second.cs.trans first.cs
  rflags := second.rflags.trans first.rflags
  rsp := second.rsp.trans first.rsp
  ss := second.ss.trans first.ss
  reg := fun r other => (second.reg r other).trans (first.reg r other)

/-! ## What a trap does -/

section Traps

variable {σ : Type} {code : Code} {top error : Int} {c ended next : Cpu}
variable {perform : Service → σ → Word × σ} {s after : SysState σ}

/-- The handler finds what the wrapper loaded. -/
theorem regisOf_load (trap : Trap) :
    (regisOf ((c.load trap).served code .systemCall error)).rbx =
        trap.number.toNat ∧
      (∀ w, trap.rcx = some w →
        (regisOf ((c.load trap).served code .systemCall error)).rcx =
          w.toNat) ∧
        ∀ w, trap.rdx = some w →
          (regisOf ((c.load trap).served code .systemCall error)).rdx =
            w.toNat := by
  rw [regisOf_served_systemCall]
  refine ⟨rfl, ?_, ?_⟩
  · intro w given
    show (trap.rcx.map fun w => (w.toNat : Int)).getD (c.reg .rcx) = w.toNat
    rw [given]
    rfl
  · intro w given
    show (trap.rdx.map fun w => (w.toNat : Int)).getD (c.reg .rdx) = w.toNat
    rw [given]
    rfl

/-- A device leaves the user as it was. -/
theorem Run.sameUser {irq : Irq} (device : irq ≠ .systemCall)
    (inside : c.entryStack.sp ≤ top)
    (body : Run code top (c.served code irq error).rsp
      (c.served code irq error) ended)
    (ends : ended.rsp = (c.served code irq error).rsp) :
    SameUser c (ended.resume irq) ∧
      (ended.resume irq).reg .rax = c.reg .rax := by
  obtain ⟨resumed, -⟩ := body.resume_eq inside ends
  have saved : ∀ r, r ∈ irq.saved := by
    intro r
    cases irq <;> first | exact absurd rfl device | cases r <;> decide
  rw [resumed]
  exact ⟨⟨rfl, rfl, rfl, rfl, rfl, fun r _ => if_pos (saved r)⟩,
    if_pos (saved .rax)⟩

theorem Traps.nil (run : Traps code top perform c s [] next after) :
    after = s ∧ SameUser c next ∧ next.reg .rax = c.reg .rax := by
  generalize none : ([] : List Trap) = traps at run
  induction run with
  | done => exact ⟨rfl, ⟨rfl, rfl, rfl, rfl, rfl, fun _ _ => rfl⟩, rfl⟩
  | trap _ _ _ _ _ _ _ _ => cases none
  | interrupt irq device error inside body ends _ inductionHypothesis =>
      obtain ⟨same, sameUser, rax⟩ := inductionHypothesis none
      obtain ⟨resumed, raxResumed⟩ := body.sameUser device inside ends
      exact ⟨same, resumed.trans sameUser, rax.trans raxResumed⟩

/-- The first trap is one call of the handler, with the registers that were
loaded, and its result is in `rax`. -/
theorem Traps.cons {trap : Trap} {rest : List Trap}
    (run : Traps code top perform c s (trap :: rest) next after) :
    ∃ (reg : Regis) (middle : Cpu), reg.rbx = trap.number.toNat ∧
      (∀ w, trap.rcx = some w → reg.rcx = w.toNat) ∧
      (∀ w, trap.rdx = some w → reg.rdx = w.toNat) ∧
      SameUser c middle ∧
      middle.reg .rax = (syscallHandler perform reg s).1.toNat ∧
      Traps code top perform middle (syscallHandler perform reg s).2 rest
        next after := by
  generalize some : trap :: rest = traps at run
  induction run with
  | done => cases some
  | @trap c ended last s after others first error inside body ends returns
      later _ =>
      cases some
      obtain ⟨number, rcx, rdx⟩ := @regisOf_load code error c trap
      obtain ⟨resumed, -⟩ := body.resume_eq inside ends
      refine ⟨_, ended.resume .systemCall, number, rcx, rdx, ?_, ?_, later⟩
      · rw [resumed]
        refine ⟨rfl, rfl, rfl, rfl, rfl, ?_⟩
        intro r other
        cases r <;> first | rfl | simp at other
      · rw [← returns, resumed]
        rfl
  | interrupt irq device error inside body ends _ inductionHypothesis =>
      obtain ⟨reg, middle, number, rcx, rdx, sameUser, rax, later⟩ :=
        inductionHypothesis some
      obtain ⟨resumed, -⟩ := body.sameUser device inside ends
      exact ⟨reg, middle, number, rcx, rdx, resumed.trans sameUser, rax,
        later⟩

end Traps

/-! ## Calls -/

/-- The value of the global `size` when the kernel serves a call. -/
def LibCall.size (size : BitVec 32) : LibCall → BitVec 32
  | .read _ _ asked => asked
  | _ => size

/-- A call of the C library as a direct call of the kernel. -/
def LibCall.direct {σ : Type} (perform : Service → σ → Word × σ)
    (call : LibCall) (s : SysState σ) : Word × SysState σ :=
  serveWith perform call.service { s with size := call.size s.size }

def directAll {σ : Type} (perform : Service → σ → Word × σ) :
    List LibCall → SysState σ → List Word × SysState σ
  | [], s => ([], s)
  | call :: rest, s =>
      let (value, between) := call.direct perform s
      let (values, after) := directAll perform rest between
      (value :: values, after)

/-- User code that makes the calls and finds these results in `rax`. -/
inductive Calls {σ : Type} (code : Code) (top : Int)
    (perform : Service → σ → Word × σ) :
    Cpu → SysState σ → List LibCall → List Int → Cpu → SysState σ → Prop
  | done {c : Cpu} {s : SysState σ} : Calls code top perform c s [] [] c s
  | call {c between last : Cpu} {s middle after : SysState σ}
      {rest : List LibCall} {results : List Int} (call : LibCall)
      (run : Traps code top perform c s call.traps between middle)
      (later : Calls code top perform between middle rest results last
        after) :
      Calls code top perform c s (call :: rest)
        (between.reg .rax :: results) last after

section Calls

variable {σ : Type} {code : Code} {top : Int} {c next : Cpu}
variable {perform : Service → σ → Word × σ} {s after : SysState σ}

/-- Every wrapper with one trap reaches the function it is for. -/
theorem syscallHandler_of_single {call : LibCall} {trap : Trap} {reg : Regis}
    (single : call.traps = [trap]) (number : reg.rbx = trap.number.toNat)
    (rcx : ∀ w, trap.rcx = some w → reg.rcx = w.toNat)
    (rdx : ∀ w, trap.rdx = some w → reg.rdx = w.toNat) :
    syscallHandler perform reg s = call.direct perform s := by
  cases call with
  | read fd buf size => cases single
  | _ =>
      cases single
      have isNumber := number
      simp only [Option.some.injEq, forall_eq', reduceCtorEq,
        false_implies, implies_true] at rcx rdx
      simp [syscallHandler, serviceOf, LibCall.direct, LibCall.service,
        LibCall.size, isNumber, rcx, rdx, setWidth_signExtend]

/-- A call of the C library is a direct call of the kernel. -/
theorem LibCall.served (call : LibCall)
    (run : Traps code top perform c s call.traps next after) :
    after = (call.direct perform s).2 ∧
      next.reg .rax = (call.direct perform s).1.toNat ∧ SameUser c next := by
  cases single : call.traps with
  | nil => cases call <;> cases single
  | cons trap rest =>
      rw [single] at run
      obtain ⟨reg, middle, number, rcx, rdx, sameUser, rax, later⟩ := run.cons
      cases rest with
      | nil =>
          rw [syscallHandler_of_single single number rcx rdx] at rax later
          obtain ⟨same, resumed, raxKept⟩ := later.nil
          exact ⟨same, raxKept.trans rax, sameUser.trans resumed⟩
      | cons second rest =>
          cases call with
          | read fd buf size =>
              cases single
              -- the first trap sets `size`, the second one reads
              have sized : syscallHandler perform reg s =
                  (0, { s with size := size }) := by
                have asked := rcx _ rfl
                have isNumber := number
                simp [syscallHandler, isNumber, asked, setWidth_signExtend]
              rw [sized] at later
              obtain ⟨regRead, last, numberRead, rcxRead, rdxRead, sameRead,
                raxRead, ends⟩ := later.cons
              have served : syscallHandler perform regRead
                  { s with size := size } =
                    (LibCall.read fd buf size).direct perform s := by
                have first := rcxRead _ rfl
                have second := rdxRead _ rfl
                have isNumber := numberRead
                simp [syscallHandler, serviceOf, LibCall.direct,
                  LibCall.service, LibCall.size, isNumber, first, second]
              rw [served] at raxRead ends
              obtain ⟨same, resumed, raxKept⟩ := ends.nil
              exact ⟨same, raxKept.trans raxRead,
                sameUser.trans (sameRead.trans resumed)⟩
          | _ => cases single

/-- A program that calls the kernel through the traps, whatever interrupts it
and the handlers: the kernel serves exactly the calls that it makes, in their
order and with their arguments, each result comes back in `rax`, and the other
registers, flags and stack of the program are its own. -/
theorem calls_areDirect (calls : List LibCall) {results : List Int}
    (run : Calls code top perform c s calls results next after) :
    after = (directAll perform calls s).2 ∧
      results = (directAll perform calls s).1.map
        (fun value => (value.toNat : Int)) ∧ SameUser c next := by
  induction run with
  | done => exact ⟨rfl, rfl, ⟨rfl, rfl, rfl, rfl, rfl, fun _ _ => rfl⟩⟩
  | call call run _ inductionHypothesis =>
      obtain ⟨same, rax, sameUser⟩ := call.served run
      obtain ⟨sameAfter, values, sameLast⟩ := inductionHypothesis
      subst same
      refine ⟨sameAfter, ?_, sameUser.trans sameLast⟩
      rw [directAll, List.map_cons, rax, values]

/-- A handler that answers at once. -/
theorem exists_answer (started : Cpu) (value : Int) :
    ∃ ended, Run code top started.rsp started ended ∧
      ended.rsp = started.rsp ∧ ended.reg .rax = value ∧
        ended.tssRsp = started.tssRsp := by
  let ended : Cpu :=
    { started with reg := Function.update started.reg .rax value }
  have step : OwnStep started.rsp top started ended :=
    ⟨Int.le_refl _, rfl, fun _ _ _ => rfl⟩
  exact ⟨ended, .own step .done, rfl,
    Function.update_self Reg.rax value started.reg, rfl⟩

/-- Such handlers serve any traps. -/
theorem exists_traps (traps : List Trap) :
    ∀ {c : Cpu} {s : SysState σ}, c.User → c.tssRsp ≤ top →
      ∃ next after, Traps code top perform c s traps next after ∧
        next.User ∧ next.tssRsp ≤ top := by
  induction traps with
  | nil => exact fun {c s} user inside => ⟨c, s, .done, user, inside⟩
  | cons trap rest inductionHypothesis =>
      intro c s user inside
      have entry : (c.load trap).entryStack.sp ≤ top := by
        have aligned := Int.emod_nonneg c.tssRsp (show (16 : Int) ≠ 0 by decide)
        have isEntry : (c.load trap).entryStack.sp =
            c.tssRsp - c.tssRsp % 16 := by
          unfold Cpu.entryStack
          rw [if_pos (show (c.load trap).User from user)]
          rfl
        omega
      obtain ⟨ended, body, ends, returns, sameTss⟩ := exists_answer
        ((c.load trap).served code .systemCall 0) (syscallHandler perform
          (regisOf ((c.load trap).served code .systemCall 0)) s).1.toNat
      obtain ⟨resumed, -⟩ := body.resume_eq entry ends
      have tssRsp : ((c.load trap).served code .systemCall 0).tssRsp =
          c.tssRsp := by
        rw [Cpu.served, exec_before]
        rfl
      obtain ⟨next, after, later, userNext, insideNext⟩ :=
        @inductionHypothesis (ended.resume .systemCall)
          (syscallHandler perform
            (regisOf ((c.load trap).served code .systemCall 0)) s).2
          (by rw [resumed]; exact user)
          (by rw [resumed]; exact (sameTss.trans tssRsp).trans_le inside)
      exact ⟨next, after, .trap trap 0 entry body ends returns later,
        userNext, insideNext⟩

theorem exists_calls (calls : List LibCall) :
    ∀ {c : Cpu} {s : SysState σ}, c.User → c.tssRsp ≤ top →
      ∃ results next after,
        Calls code top perform c s calls results next after := by
  induction calls with
  | nil => exact fun {c s} _ _ => ⟨[], c, s, .done⟩
  | cons call rest inductionHypothesis =>
      intro c s user inside
      obtain ⟨between, middle, run, userBetween, insideBetween⟩ :=
        exists_traps call.traps user inside
      obtain ⟨results, last, after, later⟩ :=
        inductionHypothesis userBetween insideBetween
      exact ⟨_, last, after, .call call run later⟩

end Calls

/-- A kernel that answers 5 and notes what it is asked. -/
def noting (service : Service) (noted : List Service) :
    Word × List Service :=
  (5, noted ++ [service])

/-- `read` hands its size over in a call of its own. -/
theorem calls_areDirect_read :
    ∃ results next after,
      Calls ⟨fun _ => 0x200000, fun _ => 0x200100⟩ 4096 noting userCpu
          ⟨0, []⟩ [.read 3 0x500000 100, .getpid] results next after ∧
        after = ⟨100, [.read 3 0x500000 100, .getPid]⟩ ∧ results = [0, 5] ∧
          SameUser userCpu next := by
  obtain ⟨results, next, after, run⟩ := exists_calls
    [.read 3 0x500000 100, .getpid] (c := userCpu) (s := ⟨0, []⟩)
    (by decide) (Int.le_refl 4096)
  exact ⟨results, next, after, run, calls_areDirect _ run⟩

end SbuUnix
