import SbuUnix.Process.Runs

/-!
# Process identities

`get_next_processID` hands out the lowest clear bit of `processID`, and
nothing ever clears one.  Because `id << i` is an `int`, bit 31 sets all the
upper bits with it: the map is full after 32 processes.  Until then the pids
of live processes identify them.
-/

namespace SbuUnix

open Outcome

/-! ## The map of used identities -/

/-- The map after `n` processes. -/
def usedIDs (n : Nat) : Word :=
  if n < 32 then BitVec.ofNat 64 (2 ^ n - 1) else BitVec.allOnes 64

theorem takeID_usedIDs :
    ∀ n < 32, takeID (usedIDs n) =
      (BitVec.ofNat 32 (n + 1), usedIDs (n + 1)) := by
  decide

/-! ## The invariant -/

/-- The pids of live processes are between 1 and `n`, the number of processes
created so far, and different. -/
structure PidsUpTo (n : Nat) (w : View) (live : List Word) : Prop where
  inRange : ∀ p ∈ live, ∃ slot, w.slot p = some slot ∧
    1 ≤ slot.pid.toNat ∧ slot.pid.toNat ≤ n
  distinct : ∀ p ∈ live, ∀ q ∈ live, ∀ slot slot',
    w.slot p = some slot → w.slot q = some slot' → slot.pid = slot'.pid →
      p = q

/-- What every call keeps: some process runs, the null pointer is none, and
the identities of live processes are those handed out. -/
structure Identified (w : View) (live : List Word) : Prop
    extends w.Running where
  pids : ∃ n ≤ 32, w.processID = usedIDs n ∧ PidsUpTo n w live

section Pids

variable {n m : Nat} {w after : View} {live rest : List Word}

theorem PidsUpTo.keeps (pids : PidsUpTo n w live)
    (kept : w.Keeps Slot.pid after) : PidsUpTo n after live := by
  constructor
  · intro p member
    obtain ⟨slot, found, low, high⟩ := pids.inRange p member
    obtain ⟨slot', found', same⟩ := kept p slot found
    exact ⟨slot', found', by rw [same]; exact ⟨low, high⟩⟩
  · intro p member q member' slot slot' found found' same
    obtain ⟨old, oldFound, -⟩ := pids.inRange p member
    obtain ⟨old', oldFound', -⟩ := pids.inRange q member'
    obtain ⟨new, newFound, oldSame⟩ := kept p old oldFound
    obtain ⟨new', newFound', oldSame'⟩ := kept q old' oldFound'
    rw [found] at newFound
    rw [found'] at newFound'
    cases newFound
    cases newFound'
    apply pids.distinct p member q member' old old' oldFound oldFound'
    rw [← oldSame, ← oldSame', same]

theorem PidsUpTo.subset (pids : PidsUpTo n w live)
    (subset : ∀ p ∈ rest, p ∈ live) : PidsUpTo n w rest where
  inRange := fun p member => pids.inRange p (subset p member)
  distinct := fun p member q member' =>
    pids.distinct p (subset p member) q (subset q member')

theorem PidsUpTo.mono (pids : PidsUpTo n w live) (more : n ≤ m) :
    PidsUpTo m w live where
  inRange := by
    intro p member
    obtain ⟨slot, found, low, high⟩ := pids.inRange p member
    exact ⟨slot, found, low, high.trans more⟩
  distinct := pids.distinct

/-- A new process takes the next pid. -/
theorem PidsUpTo.append {addr : Word} {slot : Slot}
    (pids : PidsUpTo n w live) (found : w.slot addr = some slot)
    (next : slot.pid.toNat = n + 1) :
    PidsUpTo (n + 1) w (live ++ [addr]) := by
  have cases : ∀ p ∈ live ++ [addr], p ∈ live ∨ p = addr := by
    intro p member
    simpa using member
  have below : ∀ p ∈ live, ∀ slot', w.slot p = some slot' →
      slot'.pid ≠ slot.pid := by
    intro p member slot' found' same
    obtain ⟨old, oldFound, -, high⟩ := pids.inRange p member
    rw [found'] at oldFound
    cases oldFound
    rw [same, next] at high
    omega
  constructor
  · intro p member
    rcases cases p member with old | rfl
    · exact (pids.mono (Nat.le_succ n)).inRange p old
    · exact ⟨slot, found, by omega, by omega⟩
  · intro p member q member' slotP slotQ foundP foundQ same
    rcases cases p member with oldP | rfl <;>
      rcases cases q member' with oldQ | rfl
    · exact pids.distinct p oldP q oldQ slotP slotQ foundP foundQ same
    · rw [found] at foundQ
      cases foundQ
      exact absurd same (below p oldP slotP foundP)
    · rw [found] at foundP
      cases foundP
      exact absurd same.symm (below q oldQ slotQ foundQ)
    · rfl

/-- A process hands its pid on to the one that takes its place. -/
theorem PidsUpTo.replace {old addr : Word} {slot slot' : Slot}
    (pids : PidsUpTo n w live) (found : w.slot old = some slot)
    (found' : w.slot addr = some slot') (same : slot'.pid = slot.pid) :
    PidsUpTo n w (live.map fun p => if p = old then addr else p) := by
  -- Behind every new member stands an old one with the same pid.
  have behind : ∀ p ∈ live.map (fun p => if p = old then addr else p),
      ∃ q ∈ live, p = (if q = old then addr else q) ∧
        ∀ here, w.slot p = some here →
          ∃ there, w.slot q = some there ∧ there.pid = here.pid := by
    intro p member
    obtain ⟨q, inLive, rfl⟩ := List.mem_map.mp member
    refine ⟨q, inLive, rfl, fun here hereFound => ?_⟩
    by_cases isOld : q = old
    · rw [if_pos isOld, found'] at hereFound
      cases hereFound
      exact ⟨slot, by rw [isOld, found], same.symm⟩
    · rw [if_neg isOld] at hereFound
      exact ⟨here, hereFound, rfl⟩
  constructor
  · intro p member
    obtain ⟨q, inLive, rfl, -⟩ := behind p member
    by_cases isOld : q = old
    · obtain ⟨here, hereFound, low, high⟩ := pids.inRange q inLive
      rw [isOld, found] at hereFound
      cases hereFound
      exact ⟨slot', by rw [if_pos isOld, found'], by rw [same]; exact low,
        by rw [same]; exact high⟩
    · rw [if_neg isOld]
      exact pids.inRange q inLive
  · intro p member q member' slotP slotQ foundP foundQ samePid
    obtain ⟨p', inLive, isP, pidP⟩ := behind p member
    obtain ⟨q', inLive', isQ, pidQ⟩ := behind q member'
    obtain ⟨oldP, oldFoundP, sameP⟩ := pidP slotP foundP
    obtain ⟨oldQ, oldFoundQ, sameQ⟩ := pidQ slotQ foundQ
    have equal := pids.distinct p' inLive q' inLive' oldP oldQ oldFoundP
      oldFoundQ (by rw [sameP, sameQ, samePid])
    rw [isP, isQ, equal]

end Pids

/-! ## Calls -/

/-- Where the exit of the current process leads back to process 1, which
starts a new shell, the map of identities has room for it. -/
def RestartHasID (w : View) : Prop :=
  ∀ caller prev, w.slot w.curr = some caller →
    Links.Search w.next (w.HasPid caller.pid) w.curr prev →
      w.HasPid 1 prev → w.processID ≠ BitVec.allOnes 64

/-- Whenever the call creates a process, some bit of `processID` is clear. -/
def Call.HasID (call : Call) (t : Tracked) : Prop :=
  match call with
  | .kernelThread => t.view.processID ≠ BitVec.allOnes 64
  | .userProcess _ => t.view.processID ≠ BitVec.allOnes 64
  | .fork => t.view.processID ≠ BitVec.allOnes 64
  | .exit => RestartHasID t.view
  | .kill pid =>
      ∀ caller, t.view.slot t.view.curr = some caller →
        pid = caller.pid.signExtend 64 → RestartHasID t.view
  | .wait _ => True
  | .execve _ _ _ => True

section Step

variable {w : View} {live : List Word} {caller : Slot} {addr cr3 : Word}
variable {frames : List Nat}

theorem takeID_of_room {n : Nat} (small : n ≤ 32)
    (map : w.processID = usedIDs n)
    (room : w.processID ≠ BitVec.allOnes 64) :
    n < 32 ∧ takeID w.processID =
      (BitVec.ofNat 32 (n + 1), usedIDs (n + 1)) := by
  have less : n < 32 := by
    rcases Nat.lt_or_eq_of_le small with less | rfl
    · exact less
    · exact absurd map room
  rw [map]
  exact ⟨less, takeID_usedIDs n less⟩

private theorem pid_toNat {n : Nat} (small : n < 32) :
    (BitVec.ofNat 32 (n + 1)).toNat = n + 1 := by
  simp only [BitVec.toNat_ofNat]
  omega

theorem identified_create (identified : Identified w live)
    (known : w.slot w.curr = some caller) (block : PcbBlock addr frames)
    (fresh : w.slot addr = none)
    (room : w.processID ≠ BitVec.allOnes 64) :
    Identified (w.create caller addr cr3 frames) (live ++ [addr]) := by
  obtain ⟨n, small, map, pids⟩ := identified.pids
  obtain ⟨less, taken⟩ := takeID_of_room small map room
  refine ⟨running_create identified.toRunning known block, n + 1, less, ?_, ?_⟩
  · simp [View.create, taken]
  · have kept : PidsUpTo n (w.create caller addr cr3 frames) live :=
      pids.keeps (View.keeps_create (fun _ _ _ => rfl) known fresh)
    apply kept.append View.put_same
    rw [taken]
    exact pid_toNat less

/-- Only links have moved, and another process is the current one. -/
theorem Identified.relink {after : View} {rest : List Word}
    (identified : Identified w live) (running : after.Running)
    (map : after.processID = w.processID)
    (kept : w.Keeps Slot.pid after) (subset : ∀ p ∈ rest, p ∈ live) :
    Identified after rest := by
  obtain ⟨n, small, used, pids⟩ := identified.pids
  exact ⟨running, n, small, map.trans used, (pids.keeps kept).subset subset⟩

theorem mem_of_mem_filter {p q : Word}
    (member : p ∈ live.filter fun p => p ≠ q) : p ∈ live :=
  List.mem_of_mem_filter member

theorem identified_leave {prev : Word} {slot : Slot}
    (identified : Identified w live)
    (found : (w.leave prev).slot prev = some slot) :
    Identified (w.leave prev) (live.filter fun p => p ≠ w.curr) :=
  identified.relink
    ⟨View.leave_none identified.null, Option.isSome_of_mem found⟩ rfl
    (View.keeps_leave fun _ _ _ => rfl) fun _ member => mem_of_mem_filter member

theorem identified_exit {after : View} {rest : List Word}
    (identified : Identified w live)
    (known : w.slot w.curr = some caller) (room : RestartHasID w)
    (effect : ExitEffect w live caller after rest) :
    Identified after rest := by
  cases effect with
  | goesOn search found other => exact identified_leave identified found
  | @restarts prev addr cr3 slot frames search found first block fresh =>
      have left := identified_leave identified found
      have isFirst : w.HasPid 1 prev := by
        rw [← first]
        exact View.hasPid_of_leave found
      have hasRoom := room caller prev known search isFirst
      -- The kernel thread gets another stack, nothing else.
      have stacked : Identified ((w.leave prev).put prev
          { slot with initKernel := prev + 4096 - 8 })
          (live.filter fun p => p ≠ w.curr) := by
        refine left.relink ⟨?_, ?_⟩ rfl ?_ fun _ member => member
        · rw [View.put_of_ne (ne_of_slot found left.null).symm]
          exact left.null
        · exact Option.isSome_of_mem View.put_same
        · exact View.keeps_put_of_eq _ _ found rfl
      refine identified_create stacked View.put_same block ?_ hasRoom
      rw [View.put_of_ne (ne_of_slot found fresh).symm, fresh]

/-- One call keeps the identities of live processes apart. -/
theorem identified_effect {call : Call} {t after : Tracked}
    (identified : Identified t.view t.live)
    (known : t.view.slot t.view.curr = some caller) (room : call.HasID t)
    (effect : Effect t.view t.live caller call after.view after.live) :
    Identified after.view after.live := by
  have running := running_effect identified.toRunning known effect
  revert running effect
  generalize after.view = view
  generalize after.live = rest
  intro effect running
  obtain ⟨n, small, map, pids⟩ := identified.pids
  cases effect with
  | created block fresh =>
      exact identified_create identified known block fresh room
  | @createFailed filename addr slot frames block fresh =>
      obtain ⟨less, taken⟩ := takeID_of_room small map room
      have kept : PidsUpTo n (t.view.put addr slot) t.live :=
        pids.keeps (View.keeps_put_fresh fresh)
      have more := kept.mono (Nat.le_succ n)
      exact ⟨running, n + 1, less, congrArg Prod.snd taken, more.inRange,
        more.distinct⟩
  | @forked addr cr3 loaded frames block fresh =>
      obtain ⟨less, taken⟩ := takeID_of_room small map room
      have different := ne_of_slot known fresh
      have kept : PidsUpTo n (t.view.fork caller addr cr3 loaded frames)
          t.live :=
        pids.keeps (View.keeps_fork (fun _ _ _ => rfl) known fresh)
      refine ⟨running, n + 1, less, congrArg Prod.snd taken,
        kept.append View.put_same ?_⟩
      rw [taken]
      exact pid_toNat less
  | waited found =>
      exact identified.relink running rfl View.Keeps.refl
        fun _ member => member
  | execFailed block fresh =>
      exact identified.relink running rfl (View.keeps_put_fresh fresh)
        fun _ member => member
  | @replaced stale filename argv addr cr3 pointer last frames block fresh
      search walk =>
      have prepared : t.view.Keeps Slot.pid
          (t.view.fresh caller addr cr3 frames) :=
        View.keeps_put_fresh fresh
      have linked : (t.view.fresh caller addr cr3 frames).Keeps Slot.pid
          ((t.view.fresh caller addr cr3 frames).replace addr pointer last) :=
        View.keeps_replace fun _ _ _ => rfl
      obtain ⟨old, oldFound, oldPid⟩ := (prepared.trans linked) _ _ known
      obtain ⟨new, newFound, newPid⟩ := linked addr _ View.put_same
      have same : ((t.view.fresh caller addr cr3 frames).replace addr pointer
          last).processID = t.view.processID := by
        unfold View.replace
        split <;> rfl
      have replacedPids := (pids.keeps (prepared.trans linked)).replace
        oldFound newFound (newPid.trans oldPid.symm)
      exact ⟨running, n, small, same.trans map, replacedPids.inRange,
        replacedPids.distinct⟩
  | exited exits => exact identified_exit identified known room exits
  | killedSelf own exits =>
      exact identified_exit identified known (room caller known own) exits
  | missed other => exact identified
  | @dropped pid before last victim other passes search found hits walk =>
      have same : (t.view.drop before last).processID =
          t.view.processID := by
        unfold View.drop
        dsimp only
        split <;> rfl
      exact identified.relink running same
        (View.keeps_drop fun _ _ _ => rfl) fun _ member =>
          mem_of_mem_filter member

theorem identified_thread {fuel : Nat} {t : Tracked}
    (null : t.view.slot 0 = none)
    (pids : ∃ n ≤ 32, t.view.processID = usedIDs n ∧
      PidsUpTo n t.view t.live)
    (room : t.view.processID ≠ BitVec.allOnes 64) :
    Yields AnyFault (Call.serve fuel .kernelThread) t fun _ after =>
      Identified after.view after.live := by
  rw [Call.serve, yields_bind, yields_onKernel]
  refine after_createKernelThread ?_ t.kernel rfl
  intro addr cr3 frames block fresh k view
  rw [yields_bind, yields_getProcs, yields_setLive]
  obtain ⟨n, small, map, used⟩ := pids
  obtain ⟨less, taken⟩ := takeID_of_room small map room
  have current : k.procs.currProcess = addr := congrArg View.curr view
  change Identified k.procs.view (t.live ++ [k.procs.currProcess])
  rw [current, view]
  refine ⟨⟨?_, Option.isSome_of_mem View.put_same⟩, ?_⟩
  · have absent := null
    rw [← View.put_of_ne block.ne_zero] at absent
    exact absent
  · have next : (takeID t.view.processID).1.toNat = n + 1 := by
      rw [taken]
      exact pid_toNat less
    have more : PidsUpTo (n + 1)
        (t.view.put addr
          { pid := (takeID t.view.processID).1
            nextProc := 0
            initKernel := addr + 4096
            cr3 := cr3
            frames := frames }) (t.live ++ [addr]) :=
      (used.keeps (View.keeps_put_fresh fresh)).append View.put_same next
    exact ⟨n + 1, less, congrArg Prod.snd taken, more.inRange, more.distinct⟩

theorem identified_serve {fuel : Nat} {call : Call} {t after : Tracked}
    (identified : Identified t.view t.live) (room : call.HasID t)
    (served : call.serve fuel t = .ok ((), after)) :
    Identified after.view after.live := by
  by_cases thread : call = .kernelThread
  · subst thread
    exact yields_anyFault.mp
      (identified_thread identified.null identified.pids room) _ _ served
  · obtain ⟨caller, known⟩ := Option.isSome_iff_exists.mp identified.current
    have effect : Yields AnyFault (call.serve fuel) t fun _ after =>
        Effect t.view t.live caller call after.view after.live :=
      effect_of_serve thread known identified.null
    exact identified_effect identified known room
      (yields_anyFault.mp effect _ _ served)

end Step

/-! ## Runs -/

/-- Every live process has a pid between 1 and `MAX_PROCESS_COUNT`, and no
other live process has the same. -/
structure PidsIdentify (t : Tracked) : Prop where
  inRange : ∀ p ∈ t.live, ∃ pcb, t.kernel.procs.pcb p = some pcb ∧
    1 ≤ pcb.pid.toInt ∧ pcb.pid.toInt ≤ maxProcessCount
  distinct : ∀ p ∈ t.live, ∀ q ∈ t.live, ∀ pcb pcb',
    t.kernel.procs.pcb p = some pcb → t.kernel.procs.pcb q = some pcb' →
      pcb.pid = pcb'.pid → p = q

theorem Identified.identify {t : Tracked}
    (identified : Identified t.view t.live) : PidsIdentify t := by
  obtain ⟨n, small, -, pids⟩ := identified.pids
  constructor
  · intro p member
    obtain ⟨slot, found, low, high⟩ := pids.inRange p member
    obtain ⟨pcb, pcbFound, rfl⟩ := exists_of_view_slot found
    have value : pcb.pid.toInt = pcb.pid.toNat :=
      BitVec.toInt_eq_toNat_of_lt (by simp only [Pcb.slot] at high; omega)
    refine ⟨pcb, pcbFound, ?_⟩
    rw [value]
    simp only [Pcb.slot] at low high
    simp only [maxProcessCount]
    omega
  · intro p member q member' pcb pcb' found found' same
    exact pids.distinct p member q member' _ _ (view_slot found)
      (view_slot found') same

end SbuUnix
