import SbuUnix.Library.Stack

/-!
# The interrupt stubs

`sys/pic.s`: a stub saves registers below the frame of the processor, calls
its handler, takes the registers back and returns with `iretq`.  The one for
system calls leaves `rax` to the handler and notes where the frame is, and the
one for page faults drops the error code.

Addresses and the contents of registers are integers: they are moved about,
and only stack pointers are computed with, which stay away from address 0.
-/

namespace SbuUnix

open Stack

/-! ## The processor -/

inductive Reg where
  | rax
  | rbx
  | rcx
  | rdx
  | rsi
  | rdi
  | rbp
  | r8
  | r9
  | r10
  | r11
  | r12
  | r13
  | r14
  | r15
  deriving DecidableEq

/-- The registers and the memory in cells of eight bytes; `tssRsp` is the
`rsp0` of the TSS, and `rspPointer` the variable `rsp_pointer`. -/
structure Cpu where
  reg : Reg → Int
  rip : Int
  cs : Int
  rflags : Int
  rsp : Int
  ss : Int
  mem : Int → Int
  tssRsp : Int
  rspPointer : Int

namespace Cpu

def stack (c : Cpu) : Stack Int where
  sp := c.rsp
  mem := c.mem

def withStack (c : Cpu) (st : Stack Int) : Cpu :=
  { c with
    rsp := st.sp
    mem := st.mem }

/-- The low bits of `cs` are the privilege level. -/
def User (c : Cpu) : Prop :=
  c.cs % 4 = 3

instance (c : Cpu) : Decidable c.User :=
  inferInstanceAs (Decidable (_ = _))

end Cpu

inductive Instr where
  | push (r : Reg)
  | pop (r : Reg)
  /-- `movq %rsp, rsp_pointer` -/
  | saveRsp
  /-- `addq $n, %rsp` -/
  | addRsp (n : Int)
  | iretq

def Instr.exec (c : Cpu) : Instr → Cpu
  | .push r => c.withStack (c.stack.push (c.reg r))
  | .pop r =>
      { c.withStack c.stack.pop with
        reg := Function.update c.reg r c.stack.top }
  | .saveRsp => { c with rspPointer := c.rsp }
  | .addRsp n => { c with rsp := c.rsp + n }
  | .iretq =>
      { c with
        rip := c.mem c.rsp
        cs := c.mem (c.rsp + 8)
        rflags := c.mem (c.rsp + 16)
        rsp := c.mem (c.rsp + 24)
        ss := c.mem (c.rsp + 32) }

/-! ## The stubs -/

/-- What a stub does before and behind the call of its handler. -/
structure Stub where
  before : List Instr
  after : List Instr

/-- The registers from `rbx` on, as the stubs push them. -/
def pushed : List Reg :=
  [.rbx, .rcx, .rdx, .rsi, .rdi, .rbp, .r8, .r9, .r10, .r11, .r12, .r13, .r14,
    .r15]

/-- The registers down to `rbx`, as the stubs pop them. -/
def popped : List Reg :=
  [.r15, .r14, .r13, .r12, .r11, .r10, .r9, .r8, .rbp, .rdi, .rsi, .rdx, .rcx,
    .rbx]

def timerHandler1 : Stub where
  before := (Reg.rax :: pushed).map .push
  after := (popped ++ [Reg.rax]).map .pop ++ [.iretq]

def kbHandler1 : Stub where
  before := (Reg.rax :: pushed).map .push
  after := (popped ++ [Reg.rax]).map .pop ++ [.iretq]

def userInterrupt1 : Stub where
  before := .saveRsp :: pushed.map .push
  after := popped.map .pop ++ [.iretq]

def pageFaultHandler1 : Stub where
  before := (Reg.rax :: pushed).map .push
  after := (popped ++ [Reg.rax]).map .pop ++ [.addRsp 8, .iretq]

/-- The vectors with a gate: 14, 32, 33 and 128. -/
inductive Irq where
  | pageFault
  | timer
  | keyboard
  | systemCall
  deriving DecidableEq

def Irq.stub : Irq → Stub
  | .pageFault => pageFaultHandler1
  | .timer => timerHandler1
  | .keyboard => kbHandler1
  | .systemCall => userInterrupt1

/-! ## An interrupt -/

/-- Where the code is: the stub of a vector, and the address behind its
call. -/
structure Code where
  isr : Irq → Int
  behindCall : Irq → Int

/-- A flag of `rflags` is cleared. -/
def clearFlag (flag rflags : Int) : Int :=
  rflags - flag * (rflags / flag % 2)

/-- TF, IF, NT and RF, which the processor clears at an interrupt gate. -/
def gateFlags : List Int :=
  [0x100, 0x200, 0x4000, 0x10000]

namespace Cpu

variable (c : Cpu)

/-- The stack that the processor goes to: the one of the TSS when it comes
from user mode, aligned to 16 bytes. -/
def entryStack : Stack Int :=
  let sp := if c.User then c.tssRsp else c.rsp
  ⟨sp - sp % 16, c.mem⟩

/-- What the processor pushes. -/
def frame (irq : Irq) (error : Int) : List Int :=
  [c.ss, c.rsp, c.rflags, c.cs, c.rip] ++
    if irq = .pageFault then [error] else []

/-- The processor accepts an interrupt through a gate of kernel code. -/
def enter (code : Code) (irq : Irq) (error : Int) : Cpu :=
  { c.withStack (pushAll (c.frame irq error) c.entryStack) with
    rip := code.isr irq
    cs := 8
    ss := if c.User then 0 else c.ss
    rflags := gateFlags.foldr clearFlag c.rflags }

def exec (instrs : List Instr) : Cpu :=
  instrs.foldl Instr.exec c

def call (behind : Int) : Cpu :=
  c.withStack (c.stack.push behind)

def ret : Cpu :=
  { c.withStack c.stack.pop with rip := c.stack.top }

/-- The state in which the handler starts. -/
def served (code : Code) (irq : Irq) (error : Int) : Cpu :=
  ((c.enter code irq error).exec irq.stub.before).call (code.behindCall irq)

/-- The state behind the `iretq`, for a handler that is about to return. -/
def resume (irq : Irq) : Cpu :=
  c.ret.exec irq.stub.after

end Cpu

/-- What the code of a handler does between two interrupts: it does not leave
kernel mode, its stack pointer stays below where it came in, and the stack
above stays as it is. -/
structure OwnStep (base top : Int) (c next : Cpu) : Prop where
  rsp : next.rsp ≤ base
  cs : next.cs = c.cs
  keeps : SameCells base top c.mem next.mem

/-- The code of a handler that has come in at `base`, with the interrupts that
it is interrupted by, and those that their handlers are interrupted by. -/
inductive Run (code : Code) (top : Int) : Int → Cpu → Cpu → Prop
  | done {base : Int} {c : Cpu} : Run code top base c c
  | own {base : Int} {c next last : Cpu} (step : OwnStep base top c next)
      (later : Run code top base next last) : Run code top base c last
  | interrupt {base : Int} {c ended last : Cpu} (irq : Irq) (error : Int)
      (body : Run code top (c.served code irq error).rsp
        (c.served code irq error) ended)
      (ends : ended.rsp = (c.served code irq error).rsp)
      (later : Run code top base (ended.resume irq) last) :
      Run code top base c last

/-! ## What the stubs do -/

section Exec

variable {c : Cpu}

/-- The registers that are saved for an interrupt, first ones first. -/
def Irq.saved : Irq → List Reg
  | .systemCall => pushed
  | _ => .rax :: pushed

theorem exec_append (first second : List Instr) :
    c.exec (first ++ second) = (c.exec first).exec second :=
  List.foldl_append

theorem exec_pushes (regs : List Reg) :
    ∀ {c : Cpu}, c.exec (regs.map .push) =
      c.withStack (pushAll (regs.map c.reg) c.stack) := by
  induction regs with
  | nil => exact rfl
  | cons r rest inductionHypothesis =>
      intro c
      exact inductionHypothesis

/-- Pops put the topmost cells into the registers. -/
theorem exec_pops (values : Reg → Int) (regs : List Reg) :
    ∀ {c : Cpu} {st : Stack Int}, regs.Nodup →
      popAll regs.length c.stack = (regs.map values, st) →
        c.exec (regs.map .pop) =
          { c.withStack st with
            reg := fun r => if r ∈ regs then values r else c.reg r } := by
  induction regs with
  | nil =>
      intro c st _ cells
      cases cells
      rfl
  | cons r rest inductionHypothesis =>
      intro c st nodup cells
      rw [List.nodup_cons] at nodup
      rw [List.length_cons, popAll, List.map_cons, Prod.mk.injEq,
        List.cons.injEq] at cells
      obtain ⟨⟨topmost, later⟩, left⟩ := cells
      have rested := @inductionHypothesis (Instr.exec c (.pop r)) st nodup.2
        (Prod.ext later left)
      rw [List.map_cons]
      change (Instr.exec c (.pop r)).exec (rest.map .pop) = _
      rw [rested]
      unfold Instr.exec Cpu.withStack
      simp only [Cpu.mk.injEq, and_true]
      funext other
      by_cases inRest : other ∈ rest
      · rw [if_pos inRest, if_pos (List.mem_cons_of_mem r inRest)]
      · rw [if_neg inRest]
        by_cases here : other = r
        · rw [here, Function.update_self, if_pos (List.mem_cons_self ..),
            topmost]
        · rw [Function.update_of_ne here, if_neg (by simp [here, inRest])]

/-- The five topmost cells. -/
theorem exec_iretq {rip cs rflags rsp ss : Int} (st : Stack Int)
    (cells : popAll 5 c.stack = ([rip, cs, rflags, rsp, ss], st)) :
    Instr.exec c .iretq =
      { c with
        rip := rip
        cs := cs
        rflags := rflags
        rsp := rsp
        ss := ss } := by
  have values := congrArg Prod.fst cells
  simp only [popAll, top, pop, Cpu.stack, List.cons.injEq, and_true,
    Int.add_assoc] at values
  obtain ⟨isRip, isCs, isRflags, isRsp, isSs⟩ := values
  unfold Instr.exec
  simp only [Cpu.mk.injEq, and_true, true_and]
  exact ⟨isRip, isCs, isRflags, isRsp, isSs⟩

end Exec

section Served

variable {code : Code} {irq : Irq} {error : Int} {c ended : Cpu}

/-- All that is pushed until the handler starts. -/
def Cpu.cells (c : Cpu) (code : Code) (irq : Irq) (error : Int) : List Int :=
  c.frame irq error ++ irq.saved.map c.reg ++ [code.behindCall irq]

theorem before_eq (irq : Irq) :
    irq.stub.before = (if irq = .systemCall then [.saveRsp] else []) ++
      irq.saved.map .push := by
  cases irq <;> rfl

theorem after_eq (irq : Irq) :
    irq.stub.after = irq.saved.reverse.map .pop ++
      (if irq = .pageFault then [.addRsp 8] else []) ++ [.iretq] := by
  cases irq <;> rfl

theorem saved_nodup (irq : Irq) : irq.saved.reverse.Nodup := by
  cases irq <;> decide

/-- The state behind the pushes of a stub. -/
theorem exec_before :
    c.exec irq.stub.before =
      { c.withStack (pushAll (irq.saved.map c.reg) c.stack) with
        rspPointer := if irq = .systemCall then c.rsp else c.rspPointer } := by
  rw [before_eq, exec_append]
  by_cases call : irq = .systemCall
  · rw [if_pos call, if_pos call]
    exact exec_pushes irq.saved
  · rw [if_neg call, if_neg call]
    exact exec_pushes irq.saved

theorem served_stack :
    (c.served code irq error).stack =
      pushAll (c.cells code irq error) c.entryStack := by
  rw [Cpu.served, exec_before, Cpu.cells, pushAll_append, pushAll_append]
  rfl

theorem served_cs : (c.served code irq error).cs = 8 := by
  rw [Cpu.served, exec_before]
  rfl

/-- `rsp_pointer` is where the frame of a system call is. -/
theorem served_rspPointer :
    (c.served code .systemCall error).rspPointer = c.entryStack.sp - 40 := by
  rw [Cpu.served, exec_before]
  exact pushAll_sp c.entryStack (c.frame .systemCall error)

/-- The handler is entered below the stack that the processor went to. -/
theorem served_rsp_lt :
    (c.served code irq error).rsp < c.entryStack.sp := by
  have entered := congrArg Stack.sp (@served_stack code irq error c)
  rw [pushAll_sp] at entered
  have some : 0 < (c.cells code irq error).length := by
    simp only [Cpu.cells, List.length_append, List.length_singleton]
    omega
  change (c.served code irq error).rsp = _ at entered
  omega

/-- What pushes leave above is what was there. -/
theorem served_mem {low high : Int} (above : c.entryStack.sp ≤ low) :
    SameCells low high c.mem (c.served code irq error).mem := by
  intro place higher _
  have entered := congrArg Stack.mem (@served_stack code irq error c)
  change (c.served code irq error).mem = _ at entered
  rw [entered]
  exact pushAll_mem c.entryStack _ (Int.le_trans above higher)

/-- Behind the call the stub takes the registers back, and the processor its
frame. -/
theorem exec_after {values : Reg → Int} {st : Stack Int}
    {rip cs rflags rsp ss : Int} (regs : popAll irq.saved.length c.stack =
      (irq.saved.reverse.map values, st))
    (frame : (popAll 5 { st with
      sp := if irq = .pageFault then st.sp + 8 else st.sp }).1 =
        [rip, cs, rflags, rsp, ss]) :
    c.exec irq.stub.after =
      { c with
        reg := fun r => if r ∈ irq.saved then values r else c.reg r
        rip := rip
        cs := cs
        rflags := rflags
        rsp := rsp
        ss := ss } := by
  have mem : st.mem = c.mem := by
    have kept := @popAll_mem Int irq.saved.length c.stack
    rw [regs] at kept
    exact kept
  have pops : c.exec (irq.saved.reverse.map .pop) =
      { c.withStack st with
        reg := fun r => if r ∈ irq.saved then values r else c.reg r } := by
    rw [exec_pops values _ (saved_nodup irq) (by
      rw [List.length_reverse]
      exact regs)]
    simp only [List.mem_reverse]
  have behind : c.exec (irq.saved.reverse.map .pop ++
      if irq = .pageFault then [.addRsp 8] else []) =
        { c with
          reg := fun r => if r ∈ irq.saved then values r else c.reg r
          rsp := if irq = .pageFault then st.sp + 8 else st.sp } := by
    rw [exec_append, pops]
    by_cases fault : irq = .pageFault
    · rw [if_pos fault, if_pos fault, ← mem]
      rfl
    · rw [if_neg fault, if_neg fault, ← mem]
      rfl
  rw [after_eq, exec_append, behind]
  refine exec_iretq (popAll 5 { st with
    sp := if irq = .pageFault then st.sp + 8 else st.sp }).2 ?_
  rw [← frame, ← mem]
  rfl

/-- A handler that keeps the stack above it returns to where the interrupt
came. -/
theorem resume_eq (ends : ended.rsp = (c.served code irq error).rsp)
    (kept : SameCells (c.served code irq error).rsp c.entryStack.sp
      (c.served code irq error).mem ended.mem) :
    ended.resume irq =
      { ended with
        reg := fun r => if r ∈ irq.saved then c.reg r else ended.reg r
        rip := c.rip
        cs := c.cs
        rflags := c.rflags
        rsp := c.rsp
        ss := c.ss } := by
  have entered := @served_stack code irq error c
  have sp : ended.stack.sp =
      (pushAll (c.cells code irq error) c.entryStack).sp :=
    ends.trans (congrArg Stack.sp entered)
  have whole : SameCells (pushAll (c.cells code irq error) c.entryStack).sp
      c.entryStack.sp (pushAll (c.cells code irq error) c.entryStack).mem
        ended.mem := by
    rw [← entered]
    exact kept
  have returned := popAll_of_sameCells c.entryStack ended.stack
    (c.frame irq error ++ irq.saved.map c.reg) [code.behindCall irq] rfl sp
    whole
  have isRet : ended.ret.stack =
      ⟨(pushAll (c.frame irq error ++ irq.saved.map c.reg) c.entryStack).sp,
        ended.mem⟩ :=
    congrArg Prod.snd returned
  have upToRegs := whole.of_append
  have regs := popAll_of_sameCells c.entryStack ended.ret.stack
    (c.frame irq error) (irq.saved.map c.reg)
    (List.length_map c.reg) (by rw [isRet]) (by
      rw [isRet]
      exact upToRegs)
  have upToFrame := upToRegs.of_append
  have frameCells : SameCells (pushAll [c.ss, c.rsp, c.rflags, c.cs, c.rip]
      c.entryStack).sp c.entryStack.sp (pushAll [c.ss, c.rsp, c.rflags, c.cs,
        c.rip] c.entryStack).mem ended.mem :=
    upToFrame.of_append
  have frame := popAll_of_sameCells c.entryStack
    ⟨if irq = .pageFault then (pushAll (c.frame irq error) c.entryStack).sp + 8
      else (pushAll (c.frame irq error) c.entryStack).sp, ended.mem⟩
    [] [c.ss, c.rsp, c.rflags, c.cs, c.rip] rfl (by
      rw [List.nil_append, pushAll_sp, pushAll_sp]
      unfold Cpu.frame
      split
      · simp only [List.length_append, List.length_cons, List.length_nil]
        omega
      · rw [List.append_nil]) frameCells
  rw [← List.map_reverse, isRet] at regs
  rw [Cpu.resume, exec_after (by rw [isRet]; exact regs)
    (congrArg Prod.fst frame)]
  rfl

/-- What the handler keeps, the interrupted code finds. -/
theorem Run.keeps {top base : Int} {last : Cpu} (run : Run code top base c last)
    (below : c.rsp ≤ base) (kernel : ¬ c.User) (upTo : base ≤ top) :
    last.rsp ≤ base ∧ last.cs = c.cs ∧ SameCells base top c.mem last.mem := by
  induction run with
  | done => exact ⟨below, rfl, fun _ _ _ => rfl⟩
  | @own base c next last step later inductionHypothesis =>
      have still : ¬ next.User := by
        unfold Cpu.User
        rw [step.cs]
        exact kernel
      obtain ⟨rsp, cs, kept⟩ := inductionHypothesis step.rsp still upTo
      exact ⟨rsp, cs.trans step.cs, step.keeps.trans kept⟩
  | @interrupt base c ended last irq error body ends later inBody inLater =>
      -- the frame lies below the stack pointer of the code it interrupts
      have entry : c.entryStack.sp ≤ c.rsp := by
        unfold Cpu.entryStack
        rw [if_neg kernel]
        have aligned := Int.emod_nonneg c.rsp (show (16 : Int) ≠ 0 by decide)
        dsimp only
        omega
      have lower := @served_rsp_lt code irq error c
      have inKernel : ¬ (c.served code irq error).User := by
        unfold Cpu.User
        rw [served_cs]
        decide
      obtain ⟨-, -, kept⟩ := inBody (Int.le_refl _) inKernel (by omega)
      have resumed := resume_eq ends (kept.mono (Int.le_refl _) (by omega))
      rw [resumed] at inLater
      obtain ⟨rsp, cs, rest⟩ := inLater below kernel upTo
      refine ⟨rsp, cs, ?_⟩
      have entered : SameCells base top c.mem (c.served code irq error).mem :=
        served_mem (by omega)
      exact entered.trans ((kept.mono (by omega) (Int.le_refl _)).trans rest)

/-- Behind the `iretq` stands what was saved, and what the handler left. -/
theorem Run.resume_eq {top : Int} (inside : c.entryStack.sp ≤ top)
    (body : Run code top (c.served code irq error).rsp
      (c.served code irq error) ended)
    (ends : ended.rsp = (c.served code irq error).rsp) :
    ended.resume irq =
        { ended with
          reg := fun r => if r ∈ irq.saved then c.reg r else ended.reg r
          rip := c.rip
          cs := c.cs
          rflags := c.rflags
          rsp := c.rsp
          ss := c.ss } ∧
      SameCells c.entryStack.sp top c.mem ended.mem := by
  have lower := @served_rsp_lt code irq error c
  have inKernel : ¬ (c.served code irq error).User := by
    unfold Cpu.User
    rw [served_cs]
    decide
  obtain ⟨-, -, kept⟩ := body.keeps (Int.le_refl _) inKernel (by omega)
  exact ⟨SbuUnix.resume_eq ends (kept.mono (Int.le_refl _) inside),
    (served_mem (Int.le_refl _)).trans
      (kept.mono (Int.le_of_lt lower) (Int.le_refl _))⟩

/-- Whatever is interrupted, whatever its handler does and by whatever that is
interrupted in turn: with the `iretq` the code goes on with its registers,
flags and stack; a system call returns in `rax` what its handler leaves
there. -/
theorem interrupt_resumes (code : Code) (irq : Irq) (error : Int)
    {c ended : Cpu} {top : Int} (inside : c.entryStack.sp ≤ top)
    (body : Run code top (c.served code irq error).rsp
      (c.served code irq error) ended)
    (ends : ended.rsp = (c.served code irq error).rsp) :
    (ended.resume irq).rip = c.rip ∧ (ended.resume irq).cs = c.cs ∧
      (ended.resume irq).rflags = c.rflags ∧
        (ended.resume irq).rsp = c.rsp ∧ (ended.resume irq).ss = c.ss ∧
          (∀ r, (ended.resume irq).reg r =
            if irq = .systemCall ∧ r = .rax then ended.reg .rax
            else c.reg r) ∧
            SameCells c.entryStack.sp top c.mem (ended.resume irq).mem := by
  obtain ⟨resumed, kept⟩ := body.resume_eq inside ends
  rw [resumed]
  refine ⟨rfl, rfl, rfl, rfl, rfl, ?_, kept⟩
  intro r
  dsimp only
  cases irq <;> cases r <;> rfl

/-- A handler that is interrupted as soon as it starts. -/
theorem served_resume (first second : Irq) :
    (((c.served code first error).served code second error).resume
      second).rsp = (c.served code first error).rsp := by
  rw [resume_eq rfl fun _ _ _ => rfl]

end Served

/-- User code on its own stack; the kernel stack ends at 4096. -/
def userCpu : Cpu where
  reg _ := 7
  rip := 0x400000
  cs := 0x2B
  rflags := 0x202
  rsp := 0x800000
  ss := 0x23
  mem _ := 0
  tssRsp := 4096
  rspPointer := 0

/-- The keyboard interrupts a user, and the timer the keyboard. -/
theorem interrupt_resumes_nested :
    let code : Code := ⟨fun _ => 0x200000, fun _ => 0x200100⟩
    let ended := ((userCpu.served code .keyboard 0).served code .timer
      0).resume .timer
    (ended.resume .keyboard).rip = 0x400000 ∧
      (ended.resume .keyboard).cs = 0x2B ∧
        (ended.resume .keyboard).rflags = 0x202 ∧
          (ended.resume .keyboard).rsp = 0x800000 ∧
            (ended.resume .keyboard).ss = 0x23 ∧
              (∀ r, (ended.resume .keyboard).reg r =
                if Irq.keyboard = .systemCall ∧ r = .rax then ended.reg .rax
                else 7) ∧
                SameCells 4096 4096 (fun _ => 0)
                  (ended.resume .keyboard).mem :=
  @interrupt_resumes ⟨fun _ => 0x200000, fun _ => 0x200100⟩ .keyboard 0
    userCpu _ 4096 (by decide) (.interrupt .timer 0 .done rfl .done)
    (served_resume .keyboard .timer)

end SbuUnix
