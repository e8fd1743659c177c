import SbuUnix.Process.Runs

/-!
# The run queue

`Queue w nodes` says that the links from `first_process` on are one cycle
through `nodes`, in this order, and that the current process is one of them.
`fork_child` and `execve` keep such a cycle for every current process but the
first one; `kill` always; `sys_exit` only where the caller is the last node,
because it links the predecessor to `first_process`.
-/

namespace SbuUnix

open Outcome Links

/-- The ring of processes, in the order of its links. -/
structure View.Queue (w : View) (nodes : List Word) : Prop where
  null : w.slot 0 = none
  ring : Ring w.next w.first nodes
  exist : ∀ p ∈ nodes, (w.slot p).isSome
  current : w.curr ∈ nodes

namespace View

variable {w after : View} {nodes before later : List Word}
variable {addr cr3 loaded pointer last : Word} {caller : Slot}
variable {frames : List Nat}

theorem Queue.running (queue : w.Queue nodes) : w.Running :=
  ⟨queue.null, queue.exist _ queue.current⟩

theorem Queue.fresh_notMem (queue : w.Queue nodes)
    (fresh : w.slot addr = none) : addr ∉ nodes := by
  intro member
  have present := queue.exist addr member
  rw [fresh] at present
  cases present

theorem Queue.null_notMem (queue : w.Queue nodes) : (0 : Word) ∉ nodes :=
  queue.fresh_notMem queue.null

/-- A process whose link is the null pointer is not in the ring. -/
theorem Queue.notMem_of_next (queue : w.Queue nodes) (ends : w.next last = 0) :
    last ∉ nodes := by
  intro member
  have inside := queue.ring.next_mem member
  rw [ends] at inside
  exact queue.null_notMem inside

/-- Links outside the ring do not matter. -/
theorem Queue.congr (queue : w.Queue nodes) (null : after.slot 0 = none)
    (first : after.first = w.first) (curr : after.curr ∈ nodes)
    (exist : ∀ p ∈ nodes, (after.slot p).isSome)
    (links : ∀ p ∈ nodes, after.next p = w.next p) : after.Queue nodes where
  null := null
  ring := by
    rw [first]
    exact queue.ring.congr links
  exist := exist
  current := curr

/-- A control block that no link leads to. -/
theorem Queue.put_fresh {slot : Slot} (queue : w.Queue nodes)
    (block : PcbBlock addr frames) (fresh : w.slot addr = none) :
    (w.put addr slot).Queue nodes := by
  have out := queue.fresh_notMem fresh
  have apart : ∀ p ∈ nodes, p ≠ addr := fun p member same =>
    out (same ▸ member)
  refine queue.congr ?_ rfl queue.current ?_ ?_
  · rw [put_of_ne block.ne_zero, queue.null]
  · intro p member
    rw [put_of_ne (apart p member)]
    exact queue.exist p member
  · exact fun p member => next_put_of_ne (apart p member)

/-- `fork_child` puts the child behind its parent. -/
theorem Queue.fork (queue : w.Queue (before ++ w.curr :: later))
    (known : w.slot w.curr = some caller) (block : PcbBlock addr frames)
    (fresh : w.slot addr = none) :
    (w.fork caller addr cr3 loaded frames).Queue
      (before ++ w.curr :: addr :: later) := by
  have out := queue.fresh_notMem fresh
  have apart : ∀ p ∈ before ++ w.curr :: later, p ≠ addr :=
    fun p member same => out (same ▸ member)
  have different := ne_of_slot known fresh
  have kept : w.Keeps Slot.pid (w.fork caller addr cr3 loaded frames) :=
    keeps_fork (fun _ _ _ => rfl) known fresh
  constructor
  · have absent := queue.null
    have notCurr := (ne_of_slot known queue.null).symm
    rw [← put_of_ne notCurr, ← put_of_ne block.ne_zero] at absent
    exact absent
  · refine queue.ring.insert out ?_ ?_ ?_
    · exact (next_put_of_ne different).trans next_put_same
    · apply Eq.trans next_put_same
      exact (next_of_slot known).symm
    · intro p member other
      exact (next_put_of_ne (apart p member)).trans (next_put_of_ne other)
  · intro p member
    by_cases same : p = addr
    · rw [same]
      exact Option.isSome_of_mem put_same
    · refine kept.isSome (queue.exist p ?_)
      simpa [same] using member
  · exact List.mem_append_right _ (List.mem_cons_self ..)

/-- `wait` moves to the next node. -/
theorem Queue.wait (queue : w.Queue nodes) :
    { w with curr := w.next w.curr }.Queue nodes :=
  queue.congr queue.null rfl (queue.ring.next_mem queue.current) queue.exist
    fun _ _ => rfl

/-- The place of the caller goes to another control block. -/
theorem Queue.linkImage
    (queue : w.Queue (before ++ pointer :: w.curr :: later))
    (known : w.slot w.curr = some caller) (block : PcbBlock addr frames)
    (fresh : w.slot addr = none) :
    { (w.fresh caller addr cr3 frames).linkImage addr pointer with
      curr := addr }.Queue (before ++ pointer :: addr :: later) := by
  have out := queue.fresh_notMem fresh
  have apart : ∀ p ∈ before ++ pointer :: w.curr :: later, p ≠ addr :=
    fun p member same => out (same ▸ member)
  have subset : ∀ p ∈ before ++ pointer :: later,
      p ∈ before ++ pointer :: w.curr :: later := by
    intro p member
    simp only [List.mem_append, List.mem_cons] at member ⊢
    tauto
  have notAddr := ne_of_slot known fresh
  have pointerIn : pointer ∈ before ++ pointer :: w.curr :: later :=
    List.mem_append_right _ (List.mem_cons_self ..)
  have pointerOther : w.curr ≠ pointer := by
    have distinct := (List.nodup_append.mp queue.ring.nodup).2.1
    intro same
    exact (List.nodup_cons.mp distinct).1 (same ▸ List.mem_cons_self ..)
  have addrPresent : (((w.fresh caller addr cr3 frames).setNext pointer
      addr).slot addr).isSome := by
    rw [setNext_isSome]
    exact Option.isSome_of_mem put_same
  have pointerPresent :
      ((w.fresh caller addr cr3 frames).slot pointer).isSome := by
    rw [View.fresh, put_of_ne (apart pointer pointerIn)]
    exact queue.exist pointer pointerIn
  constructor
  · refine setNext_none (setNext_none ?_)
    exact Eq.trans (put_of_ne block.ne_zero) queue.null
  · refine queue.ring.replace (fun member => out (subset _ member)) ?_ ?_ ?_
    · exact (next_setNext_of_ne (apart pointer pointerIn)).trans
        (next_setNext_same pointerPresent)
    · apply (next_setNext_same addrPresent).trans
      exact (next_setNext_of_ne pointerOther).trans (next_put_of_ne notAddr)
    · intro p member other
      apply (next_setNext_of_ne (apart p (subset p member))).trans
      exact (next_setNext_of_ne other).trans
        (next_put_of_ne (apart p (subset p member)))
  · intro p member
    apply (setNext_isSome.trans setNext_isSome).trans
    by_cases same : p = addr
    · rw [same]
      exact Option.isSome_of_mem put_same
    · rw [View.fresh, put_of_ne same]
      refine queue.exist p (subset p ?_)
      simpa [same] using member
  · simp

/-- `execve` puts the new control block where the caller stood. -/
theorem Queue.replace
    (queue : w.Queue (before ++ pointer :: w.curr :: later))
    (known : w.slot w.curr = some caller) (block : PcbBlock addr frames)
    (fresh : w.slot addr = none)
    (walk : w.forked ≠ 0 → Search
      ((w.fresh caller addr cr3 frames).linkImage addr pointer).next
        (fun p => p = 0) w.forked last) :
    { (w.fresh caller addr cr3 frames).replace addr pointer last with
      curr := addr }.Queue (before ++ pointer :: addr :: later) := by
  have linked : { (w.fresh caller addr cr3 frames).linkImage addr pointer with
      curr := addr }.Queue (before ++ pointer :: addr :: later) :=
    queue.linkImage known block fresh
  have notInRing : w.curr ∉ before ++ pointer :: addr :: later := by
    have notAddr := ne_of_slot known fresh
    have distinct := queue.ring.nodup
    simp only [List.nodup_append, List.nodup_cons, List.mem_append,
      List.mem_cons, not_or] at distinct ⊢
    refine ⟨fun early => ?_, fun same => ?_, notAddr, distinct.2.1.2.1⟩
    · exact distinct.2.2 _ early _ (Or.inr (Or.inl rfl)) rfl
    · exact distinct.2.1.1.1 same.symm
  have apart : ∀ p ∈ before ++ pointer :: addr :: later, p ≠ w.curr :=
    fun p member same => notInRing (same ▸ member)
  refine linked.congr ?_ ?_ linked.current ?_ ?_
  · exact replace_none (Eq.trans (put_of_ne block.ne_zero) queue.null)
  · unfold View.replace
    split <;> rfl
  · intro p member
    have present := linked.exist p member
    unfold View.replace
    split
    · exact setNext_isSome.trans present
    · exact (setNext_isSome.trans setNext_isSome).trans present
  · intro p member
    unfold View.replace
    split
    · exact next_setNext_of_ne (apart p member)
    · next someForked =>
        have ends := (walk someForked).found
        have lastOut := linked.notMem_of_next ends
        have notLast : p ≠ last := fun same => lastOut (same ▸ member)
        exact (next_setNext_of_ne (apart p member)).trans
          (next_setNext_of_ne notLast)

/-- The caller of `sys_exit` leaves the ring, when it is the last node. -/
theorem Queue.leave (queue : w.Queue (before ++ [pointer, w.curr])) :
    (w.leave pointer).Queue (before ++ [pointer]) := by
  have distinct := queue.ring.nodup
  have notInRing : w.curr ∉ before ++ [pointer] := by
    simp only [List.nodup_append, List.nodup_cons, List.mem_append,
      List.mem_cons, List.not_mem_nil, or_false, not_or] at distinct ⊢
    refine ⟨fun early => ?_, fun same => ?_⟩
    · exact distinct.2.2 _ early _ (Or.inr rfl) rfl
    · exact distinct.2.1.1 same.symm
  have apart : ∀ p ∈ before ++ [pointer], p ≠ w.curr :=
    fun p member same => notInRing (same ▸ member)
  have subset : ∀ p ∈ before ++ [pointer],
      p ∈ before ++ [pointer, w.curr] := by
    intro p member
    simp only [List.mem_append, List.mem_cons] at member ⊢
    tauto
  have pointerIn : pointer ∈ before ++ [pointer] := by
    simp
  have back : w.next w.curr = w.first := by
    have chain := queue.ring.chain
    rw [show before ++ [pointer, w.curr] = (before ++ [pointer]) ++ [w.curr]
      from by simp, chain_append] at chain
    obtain ⟨_, _, ends⟩ := chain
    exact ends.2
  constructor
  · exact leave_none queue.null
  · refine queue.ring.remove ?_ ?_
    · apply (next_setNext_of_ne (apart pointer pointerIn)).trans
      exact (next_setNext_same (queue.exist _ (subset _ pointerIn))).trans
        back.symm
    · intro p member other
      exact (next_setNext_of_ne (apart p member)).trans
        (next_setNext_of_ne other)
  · intro p member
    exact (setNext_isSome.trans setNext_isSome).trans
      (queue.exist p (subset p member))
  · exact pointerIn

/-- A new shell behind the only process left. -/
theorem Queue.create (queue : w.Queue [w.curr])
    (known : w.slot w.curr = some caller) (block : PcbBlock addr frames)
    (fresh : w.slot addr = none) :
    (w.create caller addr cr3 frames).Queue [w.curr, addr] := by
  have different := ne_of_slot known fresh
  have kept : w.Keeps Slot.pid (w.create caller addr cr3 frames) :=
    keeps_create (fun _ _ _ => rfl) known fresh
  have alone : w.next w.curr = w.curr := by
    have chain := queue.ring.chain
    exact chain.2.trans chain.1
  constructor
  · have absent := queue.null
    have notCurr := (ne_of_slot known queue.null).symm
    rw [← put_of_ne notCurr, ← put_of_ne block.ne_zero] at absent
    exact absent
  · refine Ring.insert
      (show Ring w.next w.first ([] ++ w.curr :: []) from queue.ring)
      (queue.fresh_notMem fresh) ?_ ?_ ?_
    · exact (next_put_of_ne different).trans next_put_same
    · exact Eq.trans next_put_same alone.symm
    · intro p member other
      exact absurd (List.mem_singleton.mp member) other
  · intro p member
    rcases List.mem_cons.mp member with rfl | member
    · exact kept.isSome (queue.exist _ queue.current)
    · rw [List.mem_singleton.mp member]
      exact Option.isSome_of_mem put_same
  · exact List.mem_cons_of_mem _ (List.mem_cons_self ..)

/-- `kill` takes the process behind `pointer` out of the ring. -/
theorem Queue.drop {victim : Word}
    (queue : w.Queue (before ++ pointer :: victim :: later))
    (other : w.curr ≠ victim) (behind : w.next pointer = victim)
    (walk : w.stopped ≠ 0 →
      Search w.next (fun p => p = 0) w.stopped last) :
    (w.drop pointer last).Queue (before ++ pointer :: later) := by
  have distinct := queue.ring.nodup
  have notInRing : victim ∉ before ++ pointer :: later := by
    simp only [List.nodup_append, List.nodup_cons, List.mem_append,
      List.mem_cons, not_or] at distinct ⊢
    refine ⟨fun early => ?_, fun same => ?_, distinct.2.1.2.1⟩
    · exact distinct.2.2 _ early _ (Or.inr (Or.inl rfl)) rfl
    · exact distinct.2.1.1.1 same.symm
  have apart : ∀ p ∈ before ++ pointer :: later, p ≠ victim :=
    fun p member same => notInRing (same ▸ member)
  have subset : ∀ p ∈ before ++ pointer :: later,
      p ∈ before ++ pointer :: victim :: later := by
    intro p member
    simp only [List.mem_append, List.mem_cons] at member ⊢
    tauto
  have pointerIn : pointer ∈ before ++ pointer :: later := by
    simp
  have pointerPresent := queue.exist _ (subset _ pointerIn)
  have links : (w.drop pointer last).next pointer = w.next victim ∧
      ∀ p ∈ before ++ pointer :: later, p ≠ pointer →
        (w.drop pointer last).next p = w.next p := by
    unfold View.drop
    rw [behind]
    dsimp only
    split
    · constructor
      · exact (next_setNext_of_ne (apart pointer pointerIn)).trans
          (next_setNext_same pointerPresent)
      · intro p member notPointer
        exact (next_setNext_of_ne (apart p member)).trans
          (next_setNext_of_ne notPointer)
    · next someStopped =>
        -- The end of `stopped_process` links to nothing, so it is no node.
        have lastOut := queue.notMem_of_next (walk someStopped).found
        have notLast : ∀ p ∈ before ++ pointer :: victim :: later, p ≠ last :=
          fun p member same => lastOut (same ▸ member)
        have present : ((w.setNext last victim).slot pointer).isSome :=
          setNext_isSome.trans pointerPresent
        constructor
        · apply (next_setNext_of_ne (apart pointer pointerIn)).trans
          refine (next_setNext_same present).trans (next_setNext_of_ne ?_)
          exact notLast victim (by simp)
        · intro p member notPointer
          apply (next_setNext_of_ne (apart p member)).trans
          exact (next_setNext_of_ne notPointer).trans
            (next_setNext_of_ne (notLast p (subset p member)))
  have same : (w.drop pointer last).first = w.first ∧
      (w.drop pointer last).curr = w.curr := by
    unfold View.drop
    dsimp only
    split <;> exact ⟨rfl, rfl⟩
  constructor
  · exact drop_none queue.null
  · rw [same.1]
    exact queue.ring.remove links.1 links.2
  · intro p member
    exact (keeps_drop (fun _ _ _ => rfl) : w.Keeps Slot.pid _).isSome
      (queue.exist p (subset p member))
  · rw [same.2]
    have current := queue.current
    simp only [List.mem_append, List.mem_cons] at current ⊢
    tauto

/-! ## Pids -/

/-- No two of the processes have the same pid. -/
def PidsDistinct (w : View) (nodes : List Word) : Prop :=
  ∀ p ∈ nodes, ∀ q ∈ nodes, ∀ slot slot',
    w.slot p = some slot → w.slot q = some slot' → slot.pid = slot'.pid →
      p = q

theorem HasPid.keeps {pid : BitVec 32} {p : Word} (has : w.HasPid pid p)
    (kept : w.Keeps Slot.pid after) : after.HasPid pid p := by
  obtain ⟨slot, found, same⟩ := has
  obtain ⟨slot', found', same'⟩ := kept p slot found
  exact ⟨slot', found', same'.trans same⟩

def pids (w : View) (nodes : List Word) : List (Option (BitVec 32)) :=
  nodes.map fun p => (w.slot p).map Slot.pid

theorem pidsDistinct_of_nodup (distinct : (w.pids nodes).Nodup) :
    w.PidsDistinct nodes := by
  intro p member q member' slot slot' found found' same
  apply List.inj_on_of_nodup_map distinct member member'
  rw [found, found', Option.map_some, Option.map_some, same]

theorem PidsDistinct.eq {pid : BitVec 32} {p q : Word}
    (distinct : w.PidsDistinct nodes) (member : p ∈ nodes)
    (member' : q ∈ nodes) (has : w.HasPid pid p) (has' : w.HasPid pid q) :
    p = q := by
  obtain ⟨slot, found, same⟩ := has
  obtain ⟨slot', found', same'⟩ := has'
  exact distinct p member q member' slot slot' found found'
    (same.trans same'.symm)

/-- The node that links to a process stands right before it. -/
theorem Queue.split_behind {p : Word} (queue : w.Queue nodes)
    (member : pointer ∈ nodes) (behind : w.next pointer = p)
    (notFirst : p ≠ w.first) :
    ∃ before later, nodes = before ++ pointer :: p :: later := by
  have inside : p ∈ nodes := behind ▸ queue.ring.next_mem member
  obtain ⟨before, previous, later, split, links⟩ :=
    queue.ring.split_before inside notFirst
  have same : pointer = previous := by
    refine queue.ring.next_injective member ?_ (behind.trans links.symm)
    rw [split]
    simp
  exact ⟨before, later, by rw [split, same]⟩

/-- The loop of `sys_exit` finds the predecessor of its caller. -/
theorem Queue.prevTask (queue : w.Queue nodes)
    (distinct : w.PidsDistinct nodes) (known : w.slot w.curr = some caller)
    (search : Search w.next (w.HasPid caller.pid) w.curr pointer) :
    pointer ∈ nodes ∧ w.next pointer = w.curr := by
  apply queue.ring.search search queue.current
  intro p member has
  exact distinct.eq member queue.current has ⟨caller, known, rfl⟩

end View

/-! ## Calls -/

/-- The caller of `sys_exit` is the last node of the ring, and not the
first. -/
structure ExitsLast (w : View) : Prop where
  notFirst : w.curr ≠ w.first
  last : w.next w.curr = w.first

/-- The links from `first_process` on form a single cycle that visits every
live process exactly once and contains `curr_process`. -/
def RingOfLive (t : Tracked) : Prop :=
  ∃ nodes, Ring t.view.next t.view.first nodes ∧ nodes.Perm t.live ∧
    t.view.curr ∈ nodes

/-- What every call keeps; process 1 is the first one. -/
structure RingKept (w : View) (live : List Word) (nodes : List Word) :
    Prop where
  queue : w.Queue nodes
  perm : nodes.Perm live
  thread : w.HasPid 1 w.first

section Calls

variable {w after : View} {live rest nodes before later : List Word}
variable {caller : Slot}

theorem map_eq_self {p addr : Word} (out : p ∉ nodes) :
    nodes.map (fun q => if q = p then addr else q) = nodes := by
  have same : nodes.map (fun q => if q = p then addr else q) =
      nodes.map fun q => q :=
    List.map_congr_left fun q member =>
      if_neg fun here : q = p => out (here ▸ member)
  rw [same, List.map_id']

theorem map_replaced {p : Word} (addr : Word)
    (distinct : (before ++ p :: later).Nodup) :
    (before ++ p :: later).map (fun q => if q = p then addr else q) =
      before ++ addr :: later := by
  have split := List.nodup_append.mp distinct
  have early : p ∉ before := fun member =>
    split.2.2 p member p (List.mem_cons_self ..) rfl
  have late := (List.nodup_cons.mp split.2.1).1
  rw [List.map_append, List.map_cons, if_pos rfl, map_eq_self early,
    map_eq_self late]

theorem filter_removed {p : Word} (distinct : (before ++ p :: later).Nodup) :
    (before ++ p :: later).filter (fun q => q ≠ p) = before ++ later := by
  have split := List.nodup_append.mp distinct
  have early : before.filter (fun q => q ≠ p) = before := by
    apply List.filter_eq_self.mpr
    intro q member
    simpa using split.2.2 q member p (List.mem_cons_self ..)
  have late : later.filter (fun q => q ≠ p) = later := by
    apply List.filter_eq_self.mpr
    intro q member
    have out := (List.nodup_cons.mp split.2.1).1
    simpa using fun same : q = p => out (same ▸ member)
  rw [List.filter_append, List.filter_cons_of_neg (by simp), early, late]

theorem RingKept.ringOfLive {t : Tracked}
    (kept : RingKept t.view t.live nodes) : RingOfLive t :=
  ⟨nodes, kept.queue.ring, kept.perm, kept.queue.current⟩

/-- The exit of the last process. -/
theorem RingKept.exit (kept : RingKept w live nodes)
    (distinct : w.PidsDistinct nodes) (last : ExitsLast w)
    (known : w.slot w.curr = some caller)
    (effect : ExitEffect w live caller after rest) :
    ∃ nodes, RingKept after rest nodes := by
  -- The predecessor, and the ring without the caller.
  have removed : ∀ prev,
      Search w.next (w.HasPid caller.pid) w.curr prev →
        ∃ before, prev ∈ nodes ∧
          RingKept (w.leave prev) (live.filter fun p => p ≠ w.curr)
            (before ++ [prev]) := by
    intro prev search
    obtain ⟨member, behind⟩ := kept.queue.prevTask distinct known search
    obtain ⟨before, later, split⟩ :=
      kept.queue.split_behind member behind last.notFirst
    have ends : later = [] := by
      have ring := kept.queue.ring
      rw [split, show before ++ prev :: w.curr :: later =
        (before ++ [prev]) ++ w.curr :: later from by simp] at ring
      exact ring.eq_nil_of_next_eq_first last.last
    rw [ends] at split
    have queue := kept.queue
    rw [split] at queue
    refine ⟨before, member, queue.leave, ?_, ?_⟩
    · have nodup := queue.ring.nodup
      rw [show before ++ [prev, w.curr] = (before ++ [prev]) ++ [w.curr]
        from by simp] at split nodup
      have rest := filter_removed nodup
      rw [List.append_nil] at rest
      rw [← rest, ← split]
      exact kept.perm.filter _
    · exact kept.thread.keeps (View.keeps_leave fun _ _ _ => rfl)
  cases effect with
  | @goesOn prev slot search found other =>
      obtain ⟨before, -, left⟩ := removed prev search
      exact ⟨_, left⟩
  | @restarts prev addr cr3 slot frames search found first block fresh =>
      obtain ⟨before, member, left⟩ := removed prev search
      -- Process 1 is the only one left.
      have isFirst : prev = w.first := by
        refine distinct.eq member kept.queue.ring.first_mem ?_ kept.thread
        rw [← first]
        exact View.hasPid_of_leave found
      have alone : before = [] := by
        cases before with
        | nil => rfl
        | cons head others =>
            have ring := left.queue.ring
            have headFirst : w.first = head := ring.chain.1
            have nodup := (List.nodup_cons.mp ring.nodup).1
            refine absurd ?_ nodup
            rw [← headFirst, ← isFirst]
            simp
      subst alone
      have stacked : ((w.leave prev).put prev
          { slot with initKernel := prev + 4096 - 8 }).Queue [prev] := by
        refine left.queue.congr ?_ rfl (List.mem_singleton_self _) ?_ ?_
        · rw [View.put_of_ne (ne_of_slot found left.queue.null).symm]
          exact left.queue.null
        · intro p inside
          rw [List.mem_singleton.mp inside]
          exact Option.isSome_of_mem View.put_same
        · intro p inside
          rw [List.mem_singleton.mp inside, View.next_of_slot found]
          exact View.next_put_same
      refine ⟨[prev, addr], stacked.create View.put_same block ?_, ?_, ?_⟩
      · rw [View.put_of_ne (ne_of_slot found fresh).symm, fresh]
      · exact left.perm.append_right [addr]
      · have stays : (w.leave prev).Keeps Slot.pid ((w.leave prev).put prev
            { slot with initKernel := prev + 4096 - 8 }) :=
          View.keeps_put_of_eq _ _ found rfl
        refine left.thread.keeps (stays.trans ?_)
        refine View.keeps_create (fun _ _ _ => rfl) View.put_same ?_
        rw [View.put_of_ne (ne_of_slot found fresh).symm, fresh]

theorem RingKept.drop {pid pointer last : Word} {victim : Slot}
    (kept : RingKept w live nodes) (known : w.slot w.curr = some caller)
    (other : pid ≠ caller.pid.signExtend 64)
    (passes : ¬ w.StopsKill pid w.first)
    (search : Search w.next (w.StopsKill pid) w.first pointer)
    (found : w.slot (w.next pointer) = some victim)
    (hits : victim.pid.signExtend 64 = pid)
    (walk : w.stopped ≠ 0 →
      Search w.next (fun p => p = 0) w.stopped last) :
    ∃ nodes, RingKept (w.drop pointer last)
      (live.filter fun p => p ≠ w.next pointer) nodes := by
  have inside : pointer ∈ nodes ∧ ¬ w.StopsKill pid pointer := by
    refine search.mem (fun p => p ∈ nodes ∧ ¬ w.StopsKill pid p)
      ⟨kept.queue.ring.first_mem, passes⟩ fun p known goesOn => ?_
    exact ⟨kept.queue.ring.next_mem known.1, goesOn⟩
  have notFirst : w.next pointer ≠ w.first := by
    intro back
    obtain ⟨slot, here⟩ := Option.isSome_iff_exists.mp
      (kept.queue.exist pointer inside.1)
    refine inside.2 ⟨slot, here, Or.inr ?_⟩
    rw [← View.next_of_slot here, back]
  have notCaller : w.curr ≠ w.next pointer := by
    intro same
    rw [← same, known] at found
    cases found
    exact other hits.symm
  obtain ⟨before, later, split⟩ :=
    kept.queue.split_behind inside.1 rfl notFirst
  have queue := kept.queue
  rw [split] at queue
  refine ⟨before ++ pointer :: later, queue.drop notCaller rfl walk, ?_, ?_⟩
  · have nodup := queue.ring.nodup
    rw [show before ++ pointer :: w.next pointer :: later =
      (before ++ [pointer]) ++ w.next pointer :: later from by simp]
      at split nodup
    have rest := filter_removed nodup
    rw [show (before ++ [pointer]) ++ later = before ++ pointer :: later
      from by simp] at rest
    rw [← rest, ← split]
    exact kept.perm.filter _
  · have same : (w.drop pointer last).first = w.first := by
      unfold View.drop
      dsimp only
      split <;> rfl
    rw [same]
    exact kept.thread.keeps (View.keeps_drop fun _ _ _ => rfl)

/-- The pids of live processes are distinct, the first process does not call
`execve`, and whoever exits is the last node of the ring. -/
def Call.KeepsRing (call : Call) (t : Tracked) : Prop :=
  t.view.PidsDistinct t.live ∧
    match call with
    | .kernelThread => False
    | .userProcess _ => False
    | .fork => True
    | .wait _ => True
    | .execve _ _ _ => t.view.curr ≠ t.view.first
    | .exit => ExitsLast t.view
    | .kill pid =>
        ∀ caller, t.view.slot t.view.curr = some caller →
          pid = caller.pid.signExtend 64 → ExitsLast t.view

theorem ringKept_effect {call : Call} {t next : Tracked}
    (kept : RingKept t.view t.live nodes) (keeps : call.KeepsRing t)
    (known : t.view.slot t.view.curr = some caller)
    (effect : Effect t.view t.live caller call next.view next.live) :
    ∃ nodes, RingKept next.view next.live nodes := by
  obtain ⟨distinct, allowed⟩ := keeps
  have nodesDistinct : t.view.PidsDistinct nodes := fun p member q member' =>
    distinct p (kept.perm.subset member) q (kept.perm.subset member')
  revert effect
  generalize next.view = after
  generalize next.live = rest
  intro effect
  cases effect with
  | created block fresh => exact absurd allowed id
  | createFailed block fresh => exact absurd allowed id
  | @forked addr cr3 loaded frames block fresh =>
      obtain ⟨before, later, split⟩ := List.append_of_mem kept.queue.current
      have queue := kept.queue
      rw [split] at queue
      refine ⟨_, queue.fork known block fresh, ?_, ?_⟩
      · have perm := kept.perm
        rw [split] at perm
        refine List.Perm.trans ?_ (perm.append_right [addr])
        have behind : (t.view.curr :: addr :: later).Perm
            (t.view.curr :: later ++ [addr]) :=
          (List.perm_append_singleton addr later).symm.cons _
        have whole := behind.append_left before
        rwa [← List.append_assoc] at whole
      · exact kept.thread.keeps (View.keeps_fork (fun _ _ _ => rfl) known fresh)
  | waited found => exact ⟨nodes, kept.queue.wait, kept.perm, kept.thread⟩
  | execFailed block fresh =>
      exact ⟨nodes, kept.queue.put_fresh block fresh, kept.perm,
        kept.thread.keeps (View.keeps_put_fresh fresh)⟩
  | @replaced stale filename argv addr cr3 pointer last frames block fresh
      search walk =>
      have prepared : (t.view.fresh caller addr cr3 frames).Queue nodes :=
        kept.queue.put_fresh block fresh
      have member : pointer ∈ nodes :=
        search.mem (fun p => p ∈ nodes) prepared.current
          fun p inside _ => prepared.ring.next_mem inside
      have behind : t.view.next pointer = t.view.curr := by
        have apart : pointer ≠ addr := fun same =>
          kept.queue.fresh_notMem fresh (same ▸ member)
        rw [← search.found]
        exact (View.next_put_of_ne apart).symm
      obtain ⟨before, later, split⟩ :=
        kept.queue.split_behind member behind allowed
      have queue := kept.queue
      rw [split] at queue
      refine ⟨_, queue.replace known block fresh walk, ?_, ?_⟩
      · have nodup := queue.ring.nodup
        rw [show before ++ pointer :: t.view.curr :: later =
          (before ++ [pointer]) ++ t.view.curr :: later from by simp]
          at split nodup
        have moved := map_replaced addr nodup
        rw [show (before ++ [pointer]) ++ addr :: later =
          before ++ pointer :: addr :: later from by simp] at moved
        rw [← moved, ← split]
        exact kept.perm.map _
      · have stays : t.view.Keeps Slot.pid
            ((t.view.fresh caller addr cr3 frames).replace addr pointer
              last) :=
          (View.keeps_put_fresh fresh).trans
            (View.keeps_replace fun _ _ _ => rfl)
        have same : ((t.view.fresh caller addr cr3 frames).replace addr
            pointer last).first = t.view.first := by
          unfold View.replace
          split <;> rfl
        have thread := kept.thread.keeps stays
        rw [← same] at thread
        exact thread
  | exited exits =>
      exact kept.exit nodesDistinct allowed known exits
  | killedSelf own exits =>
      exact kept.exit nodesDistinct (allowed caller known own) known exits
  | missed other => exact ⟨nodes, kept⟩
  | dropped other passes search found hits walk =>
      exact kept.drop known other passes search found hits walk

end Calls

/-! ## Runs -/

section Runs

variable {fuel : Nat} {boot start after : Tracked}

/-- The ring that `create_kernel_thread` and `create_user_process` build. -/
theorem ringKept_built {filename : List Byte} (booted : Booted boot)
    (built : serveCalls fuel [.kernelThread, .userProcess filename] boot =
      .ok ((), start))
    (both : start.live.length = 2) :
    ∃ nodes, RingKept start.view start.live nodes := by
  obtain ⟨_, middle, thread, rest⟩ := bind_eq_ok_iff.mp built
  obtain ⟨_, last, process, rest⟩ := bind_eq_ok_iff.mp rest
  cases rest
  have null : boot.view.slot 0 = none := by
    simp [Tracked.view, Procs.view, booted.empty]
  have first : Yields AnyFault (Call.serve fuel .kernelThread) boot
      fun _ next => next.live = [next.view.first] ∧
        next.view.curr = next.view.first ∧ next.view.slot 0 = none ∧
        next.view.HasPid 1 next.view.first := by
    rw [Call.serve, yields_bind, yields_onKernel]
    refine after_createKernelThread ?_ boot.kernel rfl
    intro addr cr3 frames block fresh k view
    rw [yields_bind, yields_getProcs, yields_setLive, booted.live]
    have current : k.procs.currProcess = addr := congrArg View.curr view
    change [] ++ [k.procs.currProcess] = [k.procs.view.first] ∧
      k.procs.view.curr = k.procs.view.first ∧
        k.procs.view.slot 0 = none ∧ k.procs.view.HasPid 1 k.procs.view.first
    rw [current, view]
    refine ⟨rfl, rfl, ?_, _, View.put_same, ?_⟩
    · rw [← null]
      exact View.put_of_ne block.ne_zero
    · have map : boot.kernel.procs.view.processID = 0 := booted.processID
      rw [map]
      exact (by decide : (takeID 0).1 = 1)
  obtain ⟨live, current, absent, slot, found, pid⟩ :=
    yields_anyFault.mp first _ _ thread
  have known : middle.view.slot middle.view.curr = some slot := by
    rw [current, found]
  have effect : Yields AnyFault (Call.serve fuel (.userProcess filename)) middle
      fun _ after => Effect middle.view middle.live slot
        (.userProcess filename) after.view after.live :=
    effect_of_serve Call.noConfusion known absent
  have happened := yields_anyFault.mp effect _ _ process
  revert happened both
  generalize start.view = after
  generalize start.live = rest
  intro both happened
  cases happened with
  | createFailed block fresh =>
      rw [live] at both
      cases both
  | @created filename addr cr3 frames block fresh =>
      have different := ne_of_slot known fresh
      have kept : middle.view.Keeps Slot.pid
          (middle.view.create slot addr cr3 frames) :=
        View.keeps_create (fun _ _ _ => rfl) known fresh
      have running : (middle.view.create slot addr cr3 frames).Running :=
        running_create ⟨absent, Option.isSome_of_mem known⟩ known block
      have present : ((middle.view.create slot addr cr3 frames).slot
          middle.view.curr).isSome :=
        kept.isSome (Option.isSome_of_mem known)
      have isFirst : (middle.view.create slot addr cr3 frames).first =
          middle.view.curr := current.symm
      refine ⟨[middle.view.curr, addr], ⟨running.null, ?_, ?_, ?_⟩, ?_, ?_⟩
      · rw [isFirst]
        refine ⟨⟨rfl, ?_, ?_⟩, ?_, by simp⟩
        · exact (View.next_put_of_ne different).trans View.next_put_same
        · exact View.next_put_same
        · simpa using different
      · intro p member
        rcases List.mem_cons.mp member with rfl | member
        · exact present
        · rw [List.mem_singleton.mp member]
          exact running.current
      · simp [View.create]
      · rw [live, current]
        exact List.Perm.refl _
      · rw [isFirst]
        exact View.HasPid.keeps ⟨slot, known, pid⟩ kept

theorem ringKept_serve {call : Call} {t next : Tracked}
    (kept : ∃ nodes, RingKept t.view t.live nodes) (keeps : call.KeepsRing t)
    (served : call.serve fuel t = .ok ((), next)) :
    ∃ nodes, RingKept next.view next.live nodes := by
  obtain ⟨nodes, kept⟩ := kept
  obtain ⟨caller, known⟩ :=
    Option.isSome_iff_exists.mp kept.queue.running.current
  have notThread : call ≠ .kernelThread := by
    rintro rfl
    exact keeps.2
  have effect : Yields AnyFault (call.serve fuel) t fun _ after =>
      Effect t.view t.live caller call after.view after.live :=
    effect_of_serve notThread known kept.queue.null
  exact ringKept_effect kept keeps known
    (yields_anyFault.mp effect _ _ served)

/-- A shell forks, and exits before its child does. -/
def forkThenExit : TrackedM (Tracked × Tracked) := do
  serveCalls 20 [.kernelThread, .userProcess initName]
  let start ← get
  Call.serve 20 .fork
  let middle ← get
  Call.serve 20 .exit
  pure (start, middle)

end Runs

end SbuUnix
