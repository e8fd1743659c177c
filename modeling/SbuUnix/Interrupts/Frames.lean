import SbuUnix.Interrupts.Stubs

/-!
# What the kernel reads of the frames

`syscall_handler` takes the saved registers as a `regis` by value, and
`fork_child` copies the page of the kernel stack with the frame of the system
call, which `wait` returns through in the child.
-/

namespace SbuUnix

open Stack

/-! ## The argument of a handler -/

structure Regis where
  r15 : Int
  r14 : Int
  r13 : Int
  r12 : Int
  r11 : Int
  r10 : Int
  r9 : Int
  r8 : Int
  rbp : Int
  rdi : Int
  rsi : Int
  rdx : Int
  rcx : Int
  rbx : Int
  rax : Int
  rip : Int
  cs : Int
  eflags : Int
  rsp : Int
  ss : Int

/-- The parameter `regis reg` of a handler that starts: the cells behind its
return address. -/
def regisOf (c : Cpu) : Regis :=
  let field (i : Nat) := c.mem (c.rsp + 8 * ((i + 1 : Nat) : Int))
  { r15 := field 0
    r14 := field 1
    r13 := field 2
    r12 := field 3
    r11 := field 4
    r10 := field 5
    r9 := field 6
    r8 := field 7
    rbp := field 8
    rdi := field 9
    rsi := field 10
    rdx := field 11
    rcx := field 12
    rbx := field 13
    rax := field 14
    rip := field 15
    cs := field 16
    eflags := field 17
    rsp := field 18
    ss := field 19 }

/-- What is saved of the interrupted code, as a `regis` whose last fields are
given. -/
def Cpu.regis (c : Cpu) (rax rip cs eflags rsp ss : Int) : Regis where
  r15 := c.reg .r15
  r14 := c.reg .r14
  r13 := c.reg .r13
  r12 := c.reg .r12
  r11 := c.reg .r11
  r10 := c.reg .r10
  r9 := c.reg .r9
  r8 := c.reg .r8
  rbp := c.reg .rbp
  rdi := c.reg .rdi
  rsi := c.reg .rsi
  rdx := c.reg .rdx
  rcx := c.reg .rcx
  rbx := c.reg .rbx
  rax := rax
  rip := rip
  cs := cs
  eflags := eflags
  rsp := rsp
  ss := ss

section Argument

variable {code : Code} {irq : Irq} {error : Int} {c : Cpu}

theorem served_cell {i : Nat} {value : Int}
    (here : (c.cells code irq error).reverse[i]? = some value) :
    (c.served code irq error).mem ((c.served code irq error).rsp + 8 * i) =
      value := by
  have entered := @served_stack code irq error c
  obtain ⟨inside, -⟩ := List.getElem?_eq_some_iff.mp here
  rw [List.length_reverse] at inside
  have cell := pushAll_cell c.entryStack (c.cells code irq error) inside
  rw [← entered, here] at cell
  exact (Option.some.inj cell).symm

theorem served_rsp_systemCall :
    (c.served code .systemCall error).rsp =
      c.entryStack.sp - 8 * ((20 : Nat) : Int) := by
  have entered := congrArg Stack.sp (@served_stack code .systemCall error c)
  rw [pushAll_sp] at entered
  exact entered

/-- The interrupts of the devices pass all that was interrupted. -/
theorem regisOf_served_device (device : irq = .timer ∨ irq = .keyboard) :
    regisOf (c.served code irq error) =
      c.regis (c.reg .rax) c.rip c.cs c.rflags c.rsp c.ss := by
  unfold regisOf Cpu.regis
  rw [Regis.mk.injEq]
  rcases device with rfl | rfl
  · and_intros <;> exact served_cell rfl
  · and_intros <;> exact served_cell rfl

/-- In a page fault the error code stands where `rip` is looked for. -/
theorem regisOf_served_pageFault :
    regisOf (c.served code .pageFault error) =
      c.regis (c.reg .rax) error c.rip c.cs c.rflags c.rsp := by
  unfold regisOf Cpu.regis
  rw [Regis.mk.injEq]
  and_intros <;> exact served_cell rfl

/-- A system call passes the registers up to `rbx`; `rax` is not saved, and
from there on every field is the one below. -/
theorem regisOf_served_systemCall :
    regisOf (c.served code .systemCall error) =
      c.regis c.rip c.cs c.rflags c.rsp c.ss (c.mem c.entryStack.sp) := by
  have above : (c.served code .systemCall error).mem
      ((c.served code .systemCall error).rsp + 8 * ((20 : Nat) : Int)) =
        c.mem c.entryStack.sp := by
    rw [served_rsp_systemCall, Int.sub_add_cancel]
    exact served_mem (Int.le_refl _) _ (Int.le_refl _)
      (Int.lt_add_one_iff.mpr (Int.le_refl _))
  unfold regisOf Cpu.regis
  rw [Regis.mk.injEq]
  and_intros
  all_goals first
    | exact served_cell rfl
    | exact above

end Argument

/-! ## Fork -/

/-- The `memcpy` of `copy_parent_structure` between two kernel stacks that do
not overlap. -/
def kernelStackCopy (parent child : Int) (mem : Int → Int) : Int → Int :=
  fun place =>
    if child + 8 - 4096 ≤ place ∧ place < child + 8 then
      mem (place - child + parent)
    else
      mem place

/-- The `rsp` of a new process. -/
def forkedRsp (parent child : Int) (rspPointer : Int) : Int :=
  child - (parent - rspPointer)

/-- The end of `wait`, which goes to the process that it hands over to. -/
def Cpu.switchTo (c : Cpu) (rsp : Int) : Cpu :=
  Instr.exec
    { c with
      rsp := rsp
      reg := Function.update c.reg .rax 0 } .iretq

/-- A child returns from the system call of its parent with 0: if the frame of
the call is still there when the kernel stack is copied, and the copy when
`wait` switches to the child, then the child goes on behind the `int` of its
parent.  The other registers are those that `wait` leaves.  The TSS leads to
`init_kernel` of the parent. -/
theorem forkedChild_resumes (code : Code) (error child : Int) {c forking
    waiting : Cpu} (user : c.User)
    (pointer : forking.rspPointer =
      (c.served code .systemCall error).rspPointer)
    (kept : SameCells forking.rspPointer c.entryStack.sp
      (c.served code .systemCall error).mem forking.mem)
    (copied : SameCells (child + 8 - 4096) (child + 8)
      (kernelStackCopy c.tssRsp child forking.mem) waiting.mem) :
    let resumed := waiting.switchTo
      (forkedRsp c.tssRsp child forking.rspPointer)
    resumed.rip = c.rip ∧ resumed.cs = c.cs ∧ resumed.rflags = c.rflags ∧
      resumed.rsp = c.rsp ∧ resumed.ss = c.ss ∧
        ∀ r, resumed.reg r = if r = .rax then 0 else waiting.reg r := by
  have aligned := Int.emod_nonneg c.tssRsp (show (16 : Int) ≠ 0 by decide)
  have less := Int.emod_lt_of_pos c.tssRsp (show (0 : Int) < 16 by decide)
  have entry : c.entryStack.sp = c.tssRsp - c.tssRsp % 16 := by
    unfold Cpu.entryStack
    rw [if_pos user]
  have frame : forking.rspPointer = c.entryStack.sp - 40 := by
    rw [pointer, served_rspPointer]
  have cell : ∀ i : Nat, i < 5 → ∀ value,
      (c.cells code .systemCall error).reverse[15 + i]? = some value →
        waiting.mem (forkedRsp c.tssRsp child forking.rspPointer + 8 * i) =
          value := by
    intro i small value here
    have stored := served_cell here
    rw [served_rsp_systemCall] at stored
    rw [copied _ (by unfold forkedRsp; omega) (by unfold forkedRsp; omega)]
    unfold kernelStackCopy forkedRsp
    rw [if_pos (by omega), kept _ (by omega) (by omega), ← stored]
    congr 1
    push_cast
    omega
  refine ⟨?_, cell 1 (by decide) c.cs rfl, cell 2 (by decide) c.rflags rfl,
    cell 3 (by decide) c.rsp rfl, cell 4 (by decide) c.ss rfl,
    fun r => Function.update_apply ..⟩
  have first := cell 0 (by decide) c.rip rfl
  rw [Int.natCast_zero, Int.mul_zero, Int.add_zero] at first
  exact first

/-- The stack of the child ends at 8192, and nothing happens in between. -/
theorem forkedChild_resumes_user :
    let forking := userCpu.served ⟨fun _ => 0, fun _ => 0⟩ .systemCall 0
    let waiting := { forking with
      mem := kernelStackCopy userCpu.tssRsp 8192 forking.mem }
    let resumed := waiting.switchTo
      (forkedRsp userCpu.tssRsp 8192 forking.rspPointer)
    resumed.rip = 0x400000 ∧ resumed.cs = 0x2B ∧ resumed.rflags = 0x202 ∧
      resumed.rsp = 0x800000 ∧ resumed.ss = 0x23 ∧
        ∀ r, resumed.reg r = if r = .rax then 0 else waiting.reg r :=
  forkedChild_resumes ⟨fun _ => 0, fun _ => 0⟩ 0 8192 (c := userCpu)
    (by decide) rfl (fun _ _ _ => rfl) (fun _ _ _ => rfl)

end SbuUnix
