import Mathlib.Data.BitVec
import SbuUnix.Process.Runs

/-!
# Kernel stacks

`init_kernel` is computed as `(uint64_t)(pcb + PAGE_SIZE - 8)`, where the sum
counts in process control blocks and not in bytes: the page that the TSS gets
lies 23 MiB behind the block, in frames that were not allocated for it.
-/

namespace SbuUnix

open Outcome

/-- Every byte of the page `[init_kernel + 8 - PAGE_SIZE, init_kernel + 8)`
lies in a frame that was allocated for the block. -/
def Pcb.StackInBlock (pcb : Pcb) : Prop :=
  ∀ i < 4096,
    (pcb.initKernel + 8 - 4096 + BitVec.ofNat 64 i - kernelAddr).toNat /
      pageSize ∈ pcb.frames

section Stack

variable {addr : Word} {frames : List Nat}

theorem stackByte_toNat {first i : Nat} (small : first < frameCount)
    (inside : i < 4096) :
    (kernelStackTop (kernelAddr ||| pageAddr first) + 8 - 4096 +
        BitVec.ofNat 64 i - kernelAddr).toNat =
      23322040 + i + first * pageSize := by
  have low : first < 524288 := by
    simp only [frameCount] at small
    omega
  have scaled : BitVec.ofNat 64 ((4096 - 8) * pcbSize) =
      BitVec.ofNat 64 23322040 - 8 + 4096 := by
    decide
  have offset : kernelStackTop (kernelAddr ||| pageAddr first) + 8 - 4096 +
      BitVec.ofNat 64 i - kernelAddr =
        BitVec.ofNat 64 23322040 + BitVec.ofNat 64 i + pageAddr first := by
    rw [linear_eq_add low, kernelStackTop, scaled]
    ring
  rw [offset, BitVec.toNat_add, BitVec.toNat_add, pageAddr_toNat low]
  simp only [BitVec.toNat_ofNat, pageSize, frameCount] at small ⊢
  omega

/-- The stack page lies in the frames 5693 and 5694 behind the first one. -/
theorem stackByte_frame {first i : Nat} (small : first < frameCount)
    (inside : i < 4096) :
    (kernelStackTop (kernelAddr ||| pageAddr first) + 8 - 4096 +
        BitVec.ofNat 64 i - kernelAddr).toNat / pageSize =
      (23322040 + i) / pageSize + first := by
  rw [stackByte_toNat small inside,
    Nat.add_mul_div_right _ _ (by decide : 0 < pageSize)]

theorem not_stackInBlock {pcb : Pcb} (block : PcbBlock addr pcb.frames)
    (top : pcb.initKernel = kernelStackTop addr) : ¬ pcb.StackInBlock := by
  intro inside
  obtain ⟨first, second, small, -, frames, rfl⟩ := block
  have low := inside 0 (by omega)
  have high := inside 4095 (by omega)
  rw [top, stackByte_frame small (by omega), frames] at low high
  simp only [List.mem_cons, List.not_mem_nil, or_false, pageSize] at low high
  omega

end Stack

/-! ## Runs -/

/-- A block with the stack that `create_user_process`, `fork_child` and
`execve` give it. -/
def OutsideStack (w : View) (p : Word) : Prop :=
  ∃ slot, w.slot p = some slot ∧ PcbBlock p slot.frames ∧
    slot.initKernel = kernelStackTop p

/-- The calls of the property. -/
def Call.Creates : Call → Prop
  | .userProcess _ => True
  | .fork => True
  | .execve _ _ _ => True
  | _ => False

/-- A process runs, and what has been created since `old` has its stack
outside its block. -/
structure StacksOutside (old : List Word) (t : Tracked) : Prop where
  running : t.view.Running
  outside : ∀ p ∈ t.live, p ∉ old → OutsideStack t.view p

section Runs

variable {old live : List Word} {w after : View} {caller : Slot}

theorem OutsideStack.keeps {p : Word} (outside : OutsideStack w p)
    (kept : w.Keeps (fun slot => (slot.initKernel, slot.frames)) after) :
    OutsideStack after p := by
  obtain ⟨slot, found, block, top⟩ := outside
  obtain ⟨slot', found', same⟩ := kept p slot found
  obtain ⟨sameTop, sameFrames⟩ := Prod.mk.inj same
  exact ⟨slot', found', by rw [sameFrames]; exact block, by rw [sameTop, top]⟩

theorem outsideStack_effect {call : Call} {rest : List Word}
    (creates : call.Creates)
    (outside : ∀ p ∈ live, p ∉ old → OutsideStack w p)
    (known : w.slot w.curr = some caller)
    (effect : Effect w live caller call after rest) :
    ∀ p ∈ rest, p ∉ old → OutsideStack after p := by
  cases effect with
  | @created filename addr cr3 frames block fresh =>
      intro p member new
      rcases List.mem_append.mp member with before | here
      · exact (outside p before new).keeps
          (View.keeps_create (fun _ _ _ => rfl) known fresh)
      · rw [List.mem_singleton.mp here]
        exact ⟨_, View.put_same, block, rfl⟩
  | createFailed block fresh =>
      exact fun p member new =>
        (outside p member new).keeps (View.keeps_put_fresh fresh)
  | @forked addr cr3 loaded frames block fresh =>
      intro p member new
      rcases List.mem_append.mp member with before | here
      · exact (outside p before new).keeps
          (View.keeps_fork (fun _ _ _ => rfl) known fresh)
      · rw [List.mem_singleton.mp here]
        exact ⟨_, View.put_same, block, rfl⟩
  | execFailed block fresh =>
      exact fun p member new =>
        (outside p member new).keeps (View.keeps_put_fresh fresh)
  | @replaced stale filename argv addr cr3 pointer last frames block fresh
      search walk =>
      intro p member new
      have linked : (w.fresh caller addr cr3 frames).Keeps
          (fun slot => (slot.initKernel, slot.frames))
          ((w.fresh caller addr cr3 frames).replace addr pointer last) :=
        View.keeps_replace fun _ _ _ => rfl
      have prepared : w.Keeps (fun slot => (slot.initKernel, slot.frames))
          (w.fresh caller addr cr3 frames) :=
        View.keeps_put_fresh fresh
      obtain ⟨q, inLive, rfl⟩ := List.mem_map.mp member
      split at new
      · next isCaller =>
          rw [if_pos isCaller]
          have created : OutsideStack (w.fresh caller addr cr3 frames) addr :=
            ⟨_, View.put_same, block, rfl⟩
          exact created.keeps linked
      · next isOther =>
          rw [if_neg isOther]
          exact (outside q inLive new).keeps (prepared.trans linked)
  | waited found => exact absurd creates id
  | exited exits => exact absurd creates id
  | killedSelf own exits => exact absurd creates id
  | missed other => exact absurd creates id
  | dropped other passes search found hits walk => exact absurd creates id

theorem stacksOutside_serve {fuel : Nat} {call : Call} {t next : Tracked}
    (apart : StacksOutside old t) (creates : call.Creates)
    (served : call.serve fuel t = .ok ((), next)) :
    StacksOutside old next := by
  obtain ⟨caller, known⟩ := Option.isSome_iff_exists.mp apart.running.current
  have notThread : call ≠ .kernelThread := by
    rintro rfl
    exact creates
  have effect : Yields AnyFault (call.serve fuel) t fun _ after =>
      Effect t.view t.live caller call after.view after.live :=
    effect_of_serve notThread known apart.running.null
  have happened := yields_anyFault.mp effect _ _ served
  exact ⟨running_effect apart.running known happened,
    outsideStack_effect creates apart.outside known happened⟩

/-- In every state that calls of `create_user_process`, `fork_child` and
`execve` lead to, the processes created by them have their kernel stacks in
their own blocks exactly when there are none. -/
theorem kernelStacks_owned_iff {fuel : Nat} {t after : Tracked}
    (calls : List Call) (running : t.view.Running)
    (creating : EachMeets (Call.serve fuel) (fun call _ => call.Creates)
      calls t)
    (ran : serveCalls fuel calls t = .ok ((), after)) :
    (∀ p ∈ after.live, p ∉ t.live →
        ∃ pcb, after.kernel.procs.pcb p = some pcb ∧ pcb.StackInBlock) ↔
      ∀ p ∈ after.live, p ∈ t.live := by
  have kept : StacksOutside t.live after :=
    runAll_keeps
      (fun call t next (apart : StacksOutside _ t) creates served =>
        stacksOutside_serve apart creates served)
      calls t after ⟨running, fun p member new => absurd member new⟩
      creating ran
  constructor
  · intro owned p member
    by_contra new
    obtain ⟨pcb, found, inside⟩ := owned p member new
    obtain ⟨slot, slotFound, block, top⟩ := kept.outside p member new
    have isSlot : pcb.slot = slot :=
      Option.some.inj ((view_slot found).symm.trans slotFound)
    subst isSlot
    exact not_stackInBlock block top inside
  · intro none p member new
    exact absurd (none p member) new

theorem running_thread {t : Tracked}
    (created : serveCalls 20 [.kernelThread] bootMachine = .ok ((), t)) :
    t.view.Running := by
  obtain ⟨_, first, served, rest⟩ := bind_eq_ok_iff.mp created
  cases rest
  have ends : Yields AnyFault (Call.serve 20 .kernelThread) bootMachine
      fun _ next => next.view.Running := by
    rw [Call.serve, yields_bind, yields_onKernel]
    refine after_createKernelThread ?_ bootMachine.kernel rfl
    intro addr cr3 frames block fresh k view
    rw [yields_bind, yields_getProcs, yields_setLive]
    change k.procs.view.Running
    rw [view]
    exact ⟨View.put_of_ne block.ne_zero, Option.isSome_of_mem View.put_same⟩
  exact yields_anyFault.mp ends _ _ served

/-- The first user process after boot. -/
theorem kernelStacks_owned_iff_firstProcess :
    ∃ t after,
      serveCalls 20 [.kernelThread] bootMachine = .ok ((), t) ∧
        serveCalls 20 [.userProcess initName] t = .ok ((), after) ∧
        ((∀ p ∈ after.live, p ∉ t.live →
            ∃ pcb, after.kernel.procs.pcb p = some pcb ∧ pcb.StackInBlock) ↔
          ∀ p ∈ after.live, p ∈ t.live) := by
  have ends : shown (fun _ t => t.live.length)
      (serveCalls 20 [.kernelThread, .userProcess initName] bootMachine) =
        some 2 := by
    decide +kernel
  obtain ⟨_, after, ran, -⟩ := exists_of_shown ends
  obtain ⟨_, t, created, rest⟩ := bind_eq_ok_iff.mp ran
  have first : serveCalls 20 [.kernelThread] bootMachine = .ok ((), t) :=
    bind_of_ok created
  exact ⟨t, after, first, rest,
    kernelStacks_owned_iff [.userProcess initName] (running_thread first)
      ⟨trivial, fun _ _ => trivial⟩ rest⟩

/-- Its stack page starts in frame 5699, its block has the frames 6 and 7. -/
theorem kernelStack_not_owned :
    ∃ t after p pcb,
      serveCalls 20 [.kernelThread] bootMachine = .ok ((), t) ∧
        serveCalls 20 [.userProcess initName] t = .ok ((), after) ∧
        p ∈ after.live ∧ after.kernel.procs.pcb p = some pcb ∧
          ¬ pcb.StackInBlock := by
  have ends : shown
      (fun _ t => t.live.getLast?.bind fun p =>
        (t.kernel.procs.pcb p).map fun pcb => (pcb.initKernel, pcb.frames))
      (serveCalls 20 [.kernelThread, .userProcess initName] bootMachine) =
        some (some (0xFFFFFFFF81644DB0, [6, 7])) := by
    decide +kernel
  obtain ⟨_, after, ran, seen⟩ := exists_of_shown ends
  obtain ⟨_, t, created, rest⟩ := bind_eq_ok_iff.mp ran
  obtain ⟨p, isLast, named⟩ := Option.bind_eq_some_iff.mp seen
  obtain ⟨pcb, found, values⟩ := Option.map_eq_some_iff.mp named
  obtain ⟨top, frames⟩ := Prod.mk.inj values
  refine ⟨t, after, p, pcb, bind_of_ok created, rest,
    List.mem_of_getLast? isLast, found, fun inside => ?_⟩
  have first := inside 0 (by omega)
  rw [top, frames] at first
  exact absurd first (by decide)

end Runs

end SbuUnix
