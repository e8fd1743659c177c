import SbuUnix.Process.RunQueue

/-!
# Nested processes

A process that forks and waits for its child at once hands over to it; the
child may replace its image, run children of its own in the same way, and
exits.  As long as the process that waits is the last node of the ring, its
child becomes the last node, and the exit of the child leads back to it.
-/

namespace SbuUnix

open Outcome Links

/-- What the current process does: fork and wait for the child, replace its
image, or exit. -/
inductive Move where
  | spawn
  | execve (stale : Nat → Byte) (filename argv : Word)
  | exit

def Move.serve (fuel : Nat) : Move → KernelM Unit
  | .spawn => do
      let pid ← forkChild
      let _ ← SbuUnix.wait (pid.signExtend 64)
  | .execve stale filename argv => do
      let _ ← SbuUnix.execve fuel stale filename argv
  | .exit => sysExit fuel

/-- What a process does before it exits: every child has its own moves
between the `spawn` and the `exit` that belongs to it. -/
inductive Nested : List Move → Prop
  | nil : Nested []
  | execve {stale : Nat → Byte} {filename argv : Word} {rest : List Move}
      (later : Nested rest) : Nested (.execve stale filename argv :: rest)
  | spawn {child rest : List Move} (inner : Nested child)
      (later : Nested rest) : Nested (.spawn :: (child ++ .exit :: rest))

/-- The pids in the ring are distinct. -/
def PidsApart (_ : Move) (k : Kernel) : Prop :=
  ∀ nodes, Ring k.procs.view.next k.procs.view.first nodes →
    k.procs.view.PidsDistinct nodes

/-- The current process is the last node behind `before`, and the first one,
another process, is the kernel thread. -/
structure LastBehind (before : List Word) (curr : Word) (w : View) : Prop where
  queue : w.Queue (before ++ [curr])
  current : w.curr = curr
  nonempty : before ≠ []
  thread : w.HasPid 1 w.first

section Steps

variable {fuel : Nat} {before : List Word} {curr : Word} {w : View}
variable {k next : Kernel}

theorem LastBehind.head (last : LastBehind before curr w) :
    ∃ rest, before = w.first :: rest := by
  cases before with
  | nil => exact absurd rfl last.nonempty
  | cons head rest => exact ⟨rest, by rw [last.queue.ring.chain.1]⟩

theorem LastBehind.ne_first (last : LastBehind before curr w) :
    curr ≠ w.first := by
  obtain ⟨rest, split⟩ := last.head
  have nodup := last.queue.ring.nodup
  rw [split] at nodup
  intro same
  apply (List.nodup_cons.mp nodup).1
  rw [← same]
  simp

/-- The node that links to the last one stands right before it. -/
theorem LastBehind.split (last : LastBehind before curr w)
    {pointer : Word} (member : pointer ∈ before ++ [curr])
    (behind : w.next pointer = curr) :
    ∃ front, before = front ++ [pointer] := by
  rcases List.eq_nil_or_concat before with none | ⟨front, previous, split⟩
  · exact absurd none last.nonempty
  · have chain := last.queue.ring.chain
    rw [split, List.concat_eq_append, chain_append] at chain
    obtain ⟨middle, reaches, ends⟩ := chain
    obtain ⟨_, _, links⟩ := chain_append.mp reaches
    have same : pointer = previous := by
      refine last.queue.ring.next_injective member ?_ ?_
      · simp [split]
      · exact behind.trans (links.2.trans ends.1).symm
    exact ⟨front, by rw [split, same, List.concat_eq_append]⟩

/-- The child stands behind the process that has forked. -/
structure ForkedBehind (before : List Word) (curr child : Word) (w : View) :
    Prop where
  queue : w.Queue (before ++ [curr, child])
  current : w.curr = curr
  thread : w.HasPid 1 w.first

theorem LastBehind.fork {pid : BitVec 32}
    (last : LastBehind before curr k.procs.view)
    (forked : forkChild k = .ok (pid, next)) :
    ∃ child, k.procs.view.slot child = none ∧
      ForkedBehind before curr child next.procs.view := by
  obtain ⟨caller, known⟩ :=
    Option.isSome_iff_exists.mp last.queue.running.current
  have ends : Yields AnyFault forkChild k fun _ next =>
      ∃ child, k.procs.view.slot child = none ∧
        ForkedBehind before curr child next.procs.view := by
    refine after_forkChild known ?_ k rfl
    intro addr cr3 loaded frames block fresh forked view _
    have queue := last.queue
    rw [← last.current] at queue
    have inserted : (k.procs.view.fork caller addr cr3 loaded frames).Queue
        (before ++ k.procs.view.curr :: addr :: []) :=
      queue.fork known block fresh
    have kept : k.procs.view.Keeps Slot.pid
        (k.procs.view.fork caller addr cr3 loaded frames) :=
      View.keeps_fork (fun _ _ _ => rfl) known fresh
    rw [last.current] at inserted
    rw [view]
    exact ⟨addr, fresh, inserted, last.current, last.thread.keeps kept⟩
  exact yields_anyFault.mp ends _ _ forked

theorem ForkedBehind.next_eq {child : Word}
    (forked : ForkedBehind before curr child w) : w.next curr = child := by
  have chain := forked.queue.ring.chain
  rw [chain_append] at chain
  obtain ⟨_, _, second⟩ := chain
  exact second.2.1

theorem ForkedBehind.wait {child pid : Word} {left : Bool}
    (forked : ForkedBehind before curr child k.procs.view)
    (waited : SbuUnix.wait pid k = .ok (left, next)) :
    LastBehind (before ++ [curr]) child next.procs.view := by
  have ends : Yields AnyFault (SbuUnix.wait pid) k fun _ next =>
      LastBehind (before ++ [curr]) child next.procs.view := by
    refine after_wait (fun _ slot waited waitView _ _ => ?_) k rfl
    have moved := forked.queue.wait
    rw [forked.current, forked.next_eq,
      show before ++ [curr, child] = (before ++ [curr]) ++ [child] from by
        simp] at moved
    rw [waitView, forked.current, forked.next_eq]
    exact ⟨moved, rfl, by simp, forked.thread⟩
  exact yields_anyFault.mp ends _ _ waited

/-- Behind the process that waits stands its child. -/
theorem LastBehind.spawn (last : LastBehind before curr k.procs.view)
    (served : Move.spawn.serve fuel k = .ok ((), next)) :
    ∃ child, LastBehind (before ++ [curr]) child next.procs.view := by
  rw [Move.serve] at served
  obtain ⟨pid, between, forked, rest⟩ := bind_eq_ok_iff.mp served
  obtain ⟨left, after, waited, ends⟩ := bind_eq_ok_iff.mp rest
  cases ends
  obtain ⟨child, -, behind⟩ := last.fork forked
  exact ⟨child, behind.wait waited⟩

/-- A new image takes the place of the old one. -/
theorem LastBehind.execve {stale : Nat → Byte} {filename argv : Word}
    {replaced : Bool} (last : LastBehind before curr k.procs.view)
    (served : SbuUnix.execve fuel stale filename argv k =
      .ok (replaced, next)) :
    ∃ image, LastBehind before image next.procs.view := by
  obtain ⟨caller, known⟩ :=
    Option.isSome_iff_exists.mp last.queue.running.current
  have ends : Yields AnyFault (SbuUnix.execve fuel stale filename argv) k
      fun _ next => ∃ image, LastBehind before image next.procs.view := by
    refine after_execve known ?_ ?_ k rfl
    · intro addr slot frames after block fresh view
      rw [view]
      exact ⟨curr, last.queue.put_fresh block fresh, last.current,
        last.nonempty, last.thread.keeps (View.keeps_put_fresh fresh)⟩
    · intro addr cr3 frames pointer final after block fresh prepared search
        walk view
      rw [view]
      have placed : (k.procs.view.fresh caller addr cr3 frames).Queue
          (before ++ [curr]) :=
        last.queue.put_fresh block fresh
      have member : pointer ∈ before ++ [curr] :=
        search.mem (fun p => p ∈ before ++ [curr]) placed.current
          fun p inside _ => placed.ring.next_mem inside
      have behind : k.procs.view.next pointer = curr := by
        have apart : pointer ≠ addr := fun same =>
          last.queue.fresh_notMem fresh (same ▸ member)
        rw [← last.current, ← search.found]
        exact (View.next_put_of_ne apart).symm
      obtain ⟨front, rfl⟩ := last.split member behind
      have queue := last.queue
      rw [← last.current, List.append_assoc] at queue
      have moved : { (k.procs.view.fresh caller addr cr3 frames).replace addr
          pointer final with curr := addr }.Queue
            (front ++ pointer :: addr :: []) :=
        queue.replace known block fresh walk
      have kept : k.procs.view.Keeps Slot.pid
          ((k.procs.view.fresh caller addr cr3 frames).replace addr pointer
            final) :=
        (View.keeps_put_fresh fresh).trans (View.keeps_replace fun _ _ _ => rfl)
      have same : ((k.procs.view.fresh caller addr cr3 frames).replace addr
          pointer final).first = k.procs.view.first := by
        unfold View.replace
        split <;> rfl
      have thread := last.thread.keeps kept
      rw [← same] at thread
      rw [show front ++ pointer :: [addr] = (front ++ [pointer]) ++ [addr]
        from by simp] at moved
      exact ⟨addr, moved, rfl, by simp, thread⟩
  exact yields_anyFault.mp ends _ _ served

/-- The tables and the kernel stack of a process are loaded. -/
def Loaded (p : Word) (k : Kernel) : Prop :=
  ∃ pcb, k.procs.pcb p = some pcb ∧ k.paging.cr3 = pcb.cr3 ∧
    k.tssRsp = pcb.initKernel

/-- The exit of the last process leads back to the one before it. -/
theorem LastBehind.exit {parent : Word}
    (last : LastBehind (before ++ [parent]) curr k.procs.view)
    (nonempty : before ≠ []) (apart : PidsApart .exit k)
    (served : sysExit fuel k = .ok ((), next)) :
    LastBehind before parent next.procs.view ∧ Loaded parent next := by
  obtain ⟨caller, known⟩ :=
    Option.isSome_iff_exists.mp last.queue.running.current
  have distinct := apart _ last.queue.ring
  have found : ∀ prev, Search k.procs.view.next
      (k.procs.view.HasPid caller.pid) k.procs.view.curr prev →
        prev = parent := by
    intro prev search
    obtain ⟨member, behind⟩ := last.queue.prevTask distinct known search
    obtain ⟨front, split⟩ := last.split member (behind.trans last.current)
    exact (List.append_inj' split rfl).2 |> List.singleton_inj.mp |>.symm
  have queue := last.queue
  rw [← last.current, List.append_assoc] at queue
  have left : LastBehind before parent (k.procs.view.leave parent) :=
    ⟨queue.leave, rfl, nonempty,
      last.thread.keeps (View.keeps_leave fun _ _ _ => rfl)⟩
  have ends : Yields AnyFault (sysExit fuel) k fun _ next =>
      LastBehind before parent next.procs.view ∧ Loaded parent next := by
    refine after_sysExit known last.queue.null ?_ ?_ k rfl
    · intro prev slot after search slotFound other view loads stack
      have same := found prev search
      subst same
      rw [view]
      refine ⟨left, ?_⟩
      rw [← view] at slotFound
      obtain ⟨pcb, pcbFound, rfl⟩ := exists_of_view_slot slotFound
      exact ⟨pcb, pcbFound, loads, stack⟩
    · intro prev slot addr cr3 frames after search slotFound first
      have same := found prev search
      subst same
      -- The process that waits is not the kernel thread.
      have isThread : k.procs.view.HasPid 1 prev := by
        rw [← first]
        exact View.hasPid_of_leave slotFound
      refine absurd (distinct.eq ?_ ?_ isThread last.thread) left.ne_first
      · simp
      · exact last.queue.ring.first_mem
  exact yields_anyFault.mp ends _ _ served

end Steps

/-! ## Runs -/

section Runs

variable {fuel : Nat}

/-- Nested processes come and go behind the current one. -/
theorem LastBehind.nested {moves : List Move} (nested : Nested moves) :
    ∀ {before : List Word} {curr : Word} {k next : Kernel},
      LastBehind before curr k.procs.view →
        EachMeets (Move.serve fuel) PidsApart moves k →
          runAll (Move.serve fuel) moves k = .ok ((), next) →
            ∃ image, LastBehind before image next.procs.view := by
  induction nested with
  | nil =>
      intro before curr k next last _ ran
      cases ran
      exact ⟨curr, last⟩
  | execve later inductionHypothesis =>
      intro before curr k next last apart ran
      obtain ⟨_, between, served, rest⟩ := bind_eq_ok_iff.mp ran
      obtain ⟨_, _, replaced, ends⟩ := bind_eq_ok_iff.mp served
      cases ends
      obtain ⟨image, last⟩ := last.execve replaced
      exact inductionHypothesis last (apart.2 between served) rest
  | spawn inner later innerHypothesis laterHypothesis =>
      intro before curr k next last apart ran
      obtain ⟨_, forked, spawned, rest⟩ := bind_eq_ok_iff.mp ran
      obtain ⟨child, childLast⟩ := last.spawn spawned
      obtain ⟨ending, childApart, childRan, exitApart, exitRan⟩ :=
        runAll_append (apart.2 forked spawned) rest
      obtain ⟨image, imageLast⟩ := innerHypothesis childLast childApart childRan
      obtain ⟨_, back, exited, rest⟩ := bind_eq_ok_iff.mp exitRan
      obtain ⟨parentLast, -⟩ :=
        imageLast.exit last.nonempty exitApart.1 exited
      exact laterHypothesis parentLast (exitApart.2 back exited) rest

/-- The ring runs through these nodes, and their pids differ. -/
def RingThrough (nodes : List Word) (w : View) : Prop :=
  (Chain w.next w.first nodes w.first ∧ nodes.Nodup ∧ nodes ≠ []) ∧
    (w.pids nodes).Nodup

instance (nodes : List Word) (w : View) : Decidable (RingThrough nodes w) :=
  inferInstanceAs (Decidable (_ ∧ _))

theorem RingThrough.pidsApart {nodes : List Word} {move : Move} {k : Kernel}
    (through : RingThrough nodes k.procs.view) : PidsApart move k := by
  intro others ring
  have same := ring.unique ⟨through.1.1, through.1.2.1, through.1.2.2⟩
  rw [same]
  exact View.pidsDistinct_of_nodup through.2

/-- A first process forks, and the child exits. -/
def spawnAndExit : KernelM (Kernel × Kernel) := do
  createKernelThread
  let _ ← createUserProcess 20 initName
  let start ← get
  Move.serve 20 .spawn
  let middle ← get
  Move.serve 20 .exit
  pure (start, middle)

end Runs

end SbuUnix
