import SbuUnix.Process.Nesting

/-!
# Who runs

The `state` of the processes in the ring along a run of nested processes, and
what `print_allPID` shows of it.  The state of a new child is not set, and the
parent to which an exit leads back stays ready.
-/

namespace SbuUnix

open Outcome Links

/-! ## Listing the processes -/

inductive Status where
  | ready
  | running
  deriving DecidableEq

/-- A line of `print_allPID`; for the other states it ends behind the name. -/
structure Listed where
  pid : BitVec 32
  ppid : BitVec 32
  pName : List Byte
  status : Option Status
  deriving DecidableEq

def TaskState.status : TaskState → Option Status
  | .ready => some .ready
  | .running => some .running
  | _ => none

def Pcb.listed (pcb : Pcb) : Listed where
  pid := pcb.pid
  ppid := pcb.ppid
  pName := pcb.pName
  status := pcb.state.status

/-- The loop of `print_allPID`: the last process is printed with the one
before it. -/
def printProcesses (first : Word) : Nat → Word → KernelM (List Listed)
  | 0, _ => throw .outOfFuel
  | fuel + 1, p => do
      let proc ← derefPcb p
      if proc.nextProc ≠ first then
        let next ← derefPcb proc.nextProc
        let rest ← printProcesses first fuel proc.nextProc
        pure (proc.listed ::
          ((if next.nextProc = first then [next.listed] else []) ++ rest))
      else
        pure []

def printAllPID (fuel : Nat) : KernelM (List Listed) := do
  let t ← globals
  printProcesses t.firstProcess fuel t.firstProcess

/-- The current process runs, and the others of the ring are ready; the list
of the processes shows it. -/
structure TracksWhoRuns (k : Kernel) : Prop where
  running : k.stateOf k.procs.currProcess = some .running
  ready : ∀ nodes, Ring k.procs.view.next k.procs.firstProcess nodes →
    ∀ p ∈ nodes, p ≠ k.procs.currProcess → k.stateOf p = some .ready
  listed : ∃ fuel before curr after,
    printAllPID fuel k = .ok (before ++ curr :: after, k) ∧
      (∃ pcb, k.procs.pcb k.procs.currProcess = some pcb ∧
        curr = pcb.listed) ∧
      curr.status = some .running ∧
      ∀ line ∈ before ++ after, line.status = some .ready

section Listing

variable {k : Kernel} {first : Word}

/-- The nodes are printed in the order of the ring. -/
theorem printProcesses_eq {block : Word → Pcb} {rest : List Word} :
    ∀ {p : Word}, Chain k.procs.view.next (k.procs.view.next p) rest first →
      rest ≠ [] → (p :: rest).Nodup → first ∉ rest →
        (∀ q ∈ p :: rest, k.procs.pcb q = some (block q)) →
          printProcesses first (rest.length + 1) p k =
            .ok ((p :: rest).map fun q => (block q).listed, k) := by
  induction rest with
  | nil => exact fun _ nonempty => absurd rfl nonempty
  | cons second more inductionHypothesis =>
      intro p chain _ distinct notFirst exist
      have found := exist p (List.mem_cons_self ..)
      have nextFound := exist second
        (List.mem_cons_of_mem _ (List.mem_cons_self ..))
      have link : ∀ q pcb, k.procs.pcb q = some pcb →
          k.procs.view.next q = pcb.nextProc := fun q pcb here =>
        View.next_of_slot (view_slot here)
      have toSecond : (block p).nextProc = second :=
        (link p _ found).symm.trans chain.1
      have goesOn : second ≠ first := by
        rintro rfl
        exact notFirst (List.mem_cons_self ..)
      rw [List.length_cons, printProcesses, bind_of_ok (derefPcb_eq found)]
      rw [toSecond, if_pos goesOn, bind_of_ok (derefPcb_eq nextFound)]
      cases more with
      | nil =>
          have ends : (block second).nextProc = first :=
            (link second _ nextFound).symm.trans chain.2
          have stops : printProcesses first 1 second k = .ok ([], k) := by
            rw [printProcesses, bind_of_ok (derefPcb_eq nextFound), ends,
              if_neg (not_not.mpr rfl)]
            rfl
          rw [List.length_nil, bind_of_ok stops, if_pos ends]
          rfl
      | cons third others =>
          have passes : (block second).nextProc ≠ first := by
            have toThird : (block second).nextProc = third :=
              (link second _ nextFound).symm.trans chain.2.1
            rw [toThird]
            rintro rfl
            exact notFirst
              (List.mem_cons_of_mem _ (List.mem_cons_self ..))
          have later := inductionHypothesis chain.2 (List.cons_ne_nil _ _)
            (List.nodup_cons.mp distinct).2
            (fun member => notFirst (List.mem_cons_of_mem _ member))
            (fun q member => exist q (List.mem_cons_of_mem _ member))
          rw [bind_of_ok later, if_neg passes]
          rfl

theorem printAllPID_eq {before : List Word} {curr : Word}
    (last : LastBehind before curr k.procs.view) :
    ∃ block : Word → Pcb,
      (∀ q ∈ before ++ [curr], k.procs.pcb q = some (block q)) ∧
        printAllPID (before.length + 1) k =
          .ok ((before ++ [curr]).map fun q => (block q).listed, k) := by
  have exist : ∀ q ∈ before ++ [curr],
      k.procs.pcb q = some ((k.procs.pcb q).getD {}) := by
    intro q member
    obtain ⟨slot, found⟩ :=
      Option.isSome_iff_exists.mp (last.queue.exist q member)
    obtain ⟨pcb, here, -⟩ := exists_of_view_slot found
    rw [here, Option.getD_some]
  refine ⟨fun q => (k.procs.pcb q).getD {}, exist, ?_⟩
  obtain ⟨rest, rfl⟩ := last.head
  have ring := last.queue.ring
  have chain : Chain k.procs.view.next (k.procs.view.next k.procs.view.first)
      (rest ++ [curr]) k.procs.view.first := ring.chain.2
  have printed := printProcesses_eq chain (by simp) ring.nodup
    (List.nodup_cons.mp ring.nodup).1 exist
  rw [List.length_append, List.length_singleton] at printed
  exact printed

/-- With the states as they should be, the list shows them. -/
theorem LastBehind.tracks {before : List Word} {curr : Word}
    (last : LastBehind before curr k.procs.view)
    (running : k.stateOf curr = some .running)
    (ready : ∀ p ∈ before, k.stateOf p = some .ready) : TracksWhoRuns k := by
  have current : k.procs.currProcess = curr := last.current
  obtain ⟨block, exist, printed⟩ := printAllPID_eq last
  have found := exist curr (by simp)
  have stateOf : ∀ q ∈ before ++ [curr], k.stateOf q = some (block q).state :=
    fun q member => congrArg (Option.map Pcb.state) (exist q member)
  constructor
  · rw [current]
    exact running
  · intro nodes ring p member other
    rw [ring.unique last.queue.ring] at member
    rcases List.mem_append.mp member with early | late
    · exact ready p early
    · exact absurd ((List.mem_singleton.mp late).trans current.symm) other
  · rw [List.map_append] at printed
    refine ⟨_, _, _, [], printed, ⟨block curr, ?_, rfl⟩, ?_, ?_⟩
    · rw [current]
      exact found
    · have isRunning : (block curr).state = .running :=
        Option.some.inj ((stateOf curr (by simp)).symm.trans running)
      change (block curr).state.status = _
      rw [isRunning]
      rfl
    · intro line member
      rw [List.append_nil] at member
      obtain ⟨p, early, rfl⟩ := List.mem_map.mp member
      have isReady : (block p).state = .ready :=
        Option.some.inj ((stateOf p (List.mem_append_left _ early)).symm.trans
          (ready p early))
      change (block p).state.status = _
      rw [isReady]
      rfl

end Listing

/-! ## What the operations do to the states -/

/-- Only the states of these processes have changed. -/
def StatesBut (changed : Word → Prop) (k after : Kernel) : Prop :=
  ∀ p, ¬ changed p → after.stateOf p = k.stateOf p

/-- Processes that exist keep their state, and that of a new one is not
set. -/
structure NewUnset (k after : Kernel) : Prop where
  kept : ∀ p state, k.stateOf p = some state → after.stateOf p = some state
  fresh : ∀ p, k.stateOf p = none →
    after.stateOf p = none ∨ after.stateOf p = some .unset

section States

variable {k after : Kernel} {p : Word} {changed : Word → Prop}

theorem stateOf_put {t : Procs} {pcb : Pcb} {q : Word} :
    ((t.put p pcb).pcb q).map Pcb.state =
      if q = p then some pcb.state else (t.pcb q).map Pcb.state := by
  by_cases same : q = p
  · rw [same, put_same, if_pos rfl]
    rfl
  · rw [put_of_ne same, if_neg same]

theorem statesBut_of_procs (same : after.procs.pcb = k.procs.pcb) :
    StatesBut changed k after := by
  intro p _
  unfold Kernel.stateOf
  rw [same]

theorem statesBut_storePcb {update : Pcb → Pcb}
    (allowed : changed p ∨ ∀ pcb, (update pcb).state = pcb.state) :
    Keeps (StatesBut changed) (storePcb p update) := by
  intro k _ next returned
  have stored : Yields AnyFault (storePcb p update) k fun _ next =>
      StatesBut changed k next := by
    refine yields_storePcb.mpr fun pcb found q unchanged => ?_
    unfold Kernel.stateOf
    rw [stateOf_put]
    split
    · next same =>
        subst same
        rw [found, allowed.resolve_left unchanged]
        rfl
    · rfl
  exact yields_anyFault.mp stored _ _ returned

theorem statesBut (changed : Word → Prop) : Quiet (StatesBut changed) where
  refl := fun _ _ _ => rfl
  trans := fun _ _ _ first second p unchanged =>
    (second p unchanged).trans (first p unchanged)
  storePcb := fun untouched =>
    statesBut_storePcb (Or.inr fun pcb => (untouched pcb).2)
  kmallocRecord := fun size k value next returned => by
    have allocated : Yields AnyFault (kmallocRecord size) k fun _ next =>
        StatesBut changed k next :=
      yields_kmallocRecord fun _ _ _ _ => statesBut_of_procs rfl
    exact yields_anyFault.mp allocated _ _ returned
  runPaging := fun program =>
    keeps_zoom (show Keeps (fun _ _ => True) program from
      fun _ _ _ _ => trivial) fun _ _ _ => statesBut_of_procs rfl

theorem statesBut_setGlobals {update : Procs → Procs}
    (same : ∀ t, (update t).pcb = t.pcb) :
    Keeps (StatesBut changed) (setGlobals update) :=
  keeps_modify fun k => statesBut_of_procs (same k.procs)

theorem StatesBut.newUnset (same : StatesBut (fun _ => False) k after) :
    NewUnset k after where
  kept := fun p _ here => (same p not_false).trans here
  fresh := fun p absent => Or.inl ((same p not_false).trans absent)

theorem newUnset : Quiet NewUnset where
  refl := fun k => ((statesBut _).refl k).newUnset
  trans := fun first second third before later => by
    constructor
    · exact fun p _ here => later.kept p _ (before.kept p _ here)
    · intro p absent
      rcases before.fresh p absent with still | unset
      · exact later.fresh p still
      · exact Or.inr (later.kept p .unset unset)
  storePcb := fun untouched k value next returned =>
    ((statesBut _).storePcb untouched k value next returned).newUnset
  kmallocRecord := fun size k value next returned =>
    ((statesBut _).kmallocRecord size k value next returned).newUnset
  runPaging := fun program k value next returned =>
    ((statesBut _).runPaging program k value next returned).newUnset

theorem newUnset_storePcb {update : Pcb → Pcb}
    (same : ∀ pcb, (update pcb).state = pcb.state) :
    Keeps NewUnset (storePcb p update) := fun k value next returned =>
  (statesBut_storePcb (Or.inr same) k value next returned).newUnset

theorem newUnset_setGlobals {update : Procs → Procs}
    (same : ∀ t, (update t).pcb = t.pcb) :
    Keeps NewUnset (setGlobals update) := fun k value next returned =>
  (statesBut_setGlobals same k value next returned).newUnset

/-- A new block was no control block, and is the only one that changes. -/
theorem newPcb_eq_ok {addr : Word} (returned : newPcb k = .ok (addr, after)) :
    k.stateOf addr = none ∧ after.stateOf addr = some .unset ∧
      StatesBut (fun p => p = addr) k after := by
  have ends : Yields AnyFault newPcb k fun addr after =>
      k.stateOf addr = none ∧ after.stateOf addr = some .unset ∧
        StatesBut (fun p => p = addr) k after := by
    refine yields_newPcb fun addr frames paging _ fresh => ⟨?_, ?_, ?_⟩
    · exact congrArg (Option.map Pcb.state) fresh
    · unfold Kernel.stateOf
      rw [stateOf_put, if_pos rfl]
    · intro p other
      unfold Kernel.stateOf
      rw [stateOf_put, if_neg other]
  exact yields_anyFault.mp ends _ _ returned

theorem newUnset_newPcb : Keeps NewUnset newPcb := by
  intro k addr next returned
  obtain ⟨absent, unset, others⟩ := newPcb_eq_ok returned
  constructor
  · intro p state here
    have other : p ≠ addr := by
      rintro rfl
      rw [absent] at here
      cases here
    exact (others p other).trans here
  · intro p none
    by_cases same : p = addr
    · exact Or.inr (same ▸ unset)
    · exact Or.inl ((others p same).trans none)

theorem newUnset_getNextProcessID : Keeps NewUnset getNextProcessID := by
  unfold getNextProcessID
  refine newUnset.bind newUnset.globals fun t => ?_
  dsimp only
  split
  · exact newUnset.bind (newUnset_setGlobals fun _ => rfl) fun _ =>
      newUnset.pure _
  · exact newUnset.pure _

theorem newUnset_copyParentStructure (parentProc : Word) :
    Keeps NewUnset (copyParentStructure parentProc) := by
  unfold copyParentStructure
  refine newUnset.bind newUnset_newPcb fun childPcb => ?_
  refine newUnset.bind newUnset_getNextProcessID fun pid => ?_
  refine newUnset.bind newUnset.globals fun t => ?_
  refine newUnset.bind (newUnset.derefPcb _) fun curr => ?_
  refine newUnset.bind (newUnset_storePcb fun _ => rfl) fun _ => ?_
  refine newUnset.bind (newUnset_storePcb fun _ => rfl) fun _ => ?_
  refine newUnset.bind (newUnset.runPaging _) fun cr3Addr => ?_
  refine newUnset.bind (newUnset_storePcb fun _ => rfl) fun _ => ?_
  refine newUnset.bind newUnset.get fun k => ?_
  refine newUnset.bind (newUnset_storePcb fun _ => rfl) fun _ => ?_
  refine newUnset.bind (newUnset.runPaging _) fun _ => ?_
  refine newUnset.bind (newUnset_storePcb fun _ => rfl) fun _ => ?_
  refine newUnset.bind (newUnset.kmallocRecord _) fun _ => ?_
  refine newUnset.bind (newUnset.derefMm _) fun mm => ?_
  refine newUnset.bind (newUnset_storePcb fun _ => rfl) fun _ => ?_
  refine newUnset.bind (newUnset.copyVmas _ _ _) fun _ => ?_
  refine newUnset.bind (newUnset.derefPcb _) fun parent => ?_
  refine newUnset.bind (newUnset.derefPcb _) fun child => ?_
  refine newUnset.bind (newUnset.copyKernelStack _ _) fun _ => ?_
  refine newUnset.bind newUnset.globals fun t => ?_
  refine newUnset.bind (newUnset_storePcb fun _ => rfl) fun _ => ?_
  refine newUnset.bind (newUnset.derefPcb _) fun _ => ?_
  exact newUnset.bind (newUnset.runPaging _) fun _ => newUnset.pure _

/-- No statement of a fork sets the state of the child. -/
theorem newUnset_forkChild : Keeps NewUnset forkChild := by
  unfold forkChild
  refine newUnset.bind newUnset.globals fun t => ?_
  refine newUnset.bind (newUnset_copyParentStructure _) fun cPcb => ?_
  refine newUnset.bind newUnset.globals fun t => ?_
  refine newUnset.bind (newUnset.derefPcb _) fun curr => ?_
  refine newUnset.bind (newUnset_storePcb fun _ => rfl) fun _ => ?_
  refine newUnset.bind (newUnset_storePcb fun _ => rfl) fun _ => ?_
  exact newUnset.bind (newUnset.derefPcb _) fun child => newUnset.pure _

/-- The process that `switch_to_ring3` starts runs, and the first one is
ready. -/
theorem switchToRing3_eq_ok {proc : Word}
    (other : proc ≠ k.procs.firstProcess)
    (returned : switchToRing3 proc k = .ok ((), after)) :
    after.stateOf proc = some .running ∧
      after.stateOf k.procs.firstProcess = some .ready := by
  have ends : Yields AnyFault (switchToRing3 proc) k fun _ after =>
      after.stateOf proc = some .running ∧
        after.stateOf k.procs.firstProcess = some .ready := by
    unfold switchToRing3
    rw [yields_bind, yields_globals, yields_bind, yields_derefPcb]
    intro curr _
    rw [yields_bind, yields_setGlobals, yields_bind, yields_derefPcb]
    intro next _
    rw [yields_bind, yields_setGlobals, yields_bind, yields_storePcb]
    intro started _
    rw [yields_bind, yields_globals, yields_bind, yields_get, yields_bind,
      yields_storePcb]
    intro first _
    rw [yields_bind, yields_setGlobals, yields_bind, yields_storePcb]
    intro again againFound
    rw [yields_bind, yields_derefPcb]
    intro pcb _
    rw [yields_bind, yields_runPaging, setCR3, yields_modify, yields_modify]
    have isReady : again.state = .ready := by
      have same := Option.some.inj (againFound.symm.trans put_same)
      rw [same]
    unfold Kernel.stateOf
    constructor
    · apply (stateOf_put.trans (if_neg other)).trans
      apply (stateOf_put.trans (if_neg other)).trans
      exact stateOf_put.trans (if_pos rfl)
    · apply (stateOf_put.trans (if_pos rfl)).trans
      exact congrArg some isReady
  exact yields_anyFault.mp ends _ _ returned

theorem statesBut_execveSwitchToRing3 {proc : Word} (set : changed proc) :
    Keeps (StatesBut changed) (execveSwitchToRing3 proc) := by
  have quiet := statesBut changed
  unfold execveSwitchToRing3
  refine quiet.bind (statesBut_storePcb (Or.inl set)) fun _ => ?_
  refine quiet.bind (statesBut_setGlobals fun _ => rfl) fun _ => ?_
  refine quiet.bind (quiet.derefPcb _) fun pcb => ?_
  exact quiet.bind (quiet.runPaging _) fun _ =>
    keeps_modify fun _ => statesBut_of_procs rfl

theorem execveSwitchToRing3_eq_ok {proc : Word}
    (returned : execveSwitchToRing3 proc k = .ok ((), after)) :
    after.procs.currProcess = proc ∧
      after.stateOf proc = some .running := by
  have ends : Yields AnyFault (execveSwitchToRing3 proc) k fun _ after =>
      after.procs.currProcess = proc ∧
        after.stateOf proc = some .running := by
    unfold execveSwitchToRing3
    rw [yields_bind, yields_storePcb]
    intro started _
    rw [yields_bind, yields_setGlobals, yields_bind, yields_derefPcb]
    intro pcb _
    rw [yields_bind, yields_runPaging, setCR3, yields_modify, yields_modify]
    exact ⟨rfl, stateOf_put.trans (if_pos rfl)⟩
  exact yields_anyFault.mp ends _ _ returned

theorem statesBut_findBefore {target : Word} (fuel : Nat) :
    ∀ pointer, Keeps (StatesBut changed) (findBefore target fuel pointer) := by
  have quiet := statesBut changed
  induction fuel with
  | zero => exact fun _ => keeps_throw _
  | succ fuel inductionHypothesis =>
      intro pointer
      rw [findBefore]
      exact quiet.bind (quiet.derefPcb _) fun pcb =>
        keeps_ite _ (inductionHypothesis _) (quiet.pure _)

theorem statesBut_loadNewImage {userPcb : Word} (fuel : Nat)
    (file : List Byte) (set : changed userPcb) :
    Keeps (StatesBut changed) (loadNewImage fuel userPcb file) := by
  have quiet := statesBut changed
  unfold loadNewImage
  refine quiet.bind (quiet.strcpyTo _ _) fun name => ?_
  refine quiet.bind quiet.globals fun t => ?_
  refine quiet.bind (quiet.derefPcb _) fun curr => ?_
  refine quiet.bind (statesBut_storePcb (Or.inl set)) fun _ => ?_
  refine quiet.bind (quiet.runPaging _) fun cr3Addr => ?_
  refine quiet.bind (statesBut_storePcb (Or.inl set)) fun _ => ?_
  refine quiet.bind (quiet.makeUserSpace _ _) fun _ => ?_
  exact quiet.bind quiet.get fun _ => quiet.loadBinaries _ _ _

theorem statesBut_replaceProcess {userPcb : Word} (fuel : Nat)
    (set : changed userPcb) :
    Keeps (StatesBut changed) (replaceProcess fuel userPcb) := by
  have quiet := statesBut changed
  have links : ∀ {p link : Word}, Keeps (StatesBut changed)
      (storePcb p fun pcb => { pcb with nextProc := link }) :=
    statesBut_storePcb (Or.inr fun _ => rfl)
  unfold replaceProcess
  refine quiet.bind quiet.globals fun t => ?_
  refine quiet.bind (quiet.derefPcb _) fun first => ?_
  refine quiet.bind (quiet.runPaging _) fun _ => ?_
  refine quiet.bind (statesBut_storePcb (Or.inl set)) fun _ => ?_
  refine quiet.bind (statesBut_findBefore _ _) fun pointer => ?_
  refine quiet.bind links fun _ => ?_
  refine quiet.bind (quiet.derefPcb _) fun curr => ?_
  refine quiet.bind links fun _ => ?_
  split
  · exact quiet.bind links fun _ => statesBut_setGlobals fun _ => rfl
  · exact quiet.bind (statesBut_findBefore _ _) fun last =>
      quiet.bind links fun _ => links

theorem statesBut_enterImage {userPcb : Word} {argc : Int}
    {args : Nat → Byte} (set : changed userPcb) :
    Keeps (StatesBut changed) (enterImage userPcb argc args) := by
  have quiet := statesBut changed
  unfold enterImage
  refine quiet.bind (quiet.derefPcb _) fun user => ?_
  refine quiet.bind (quiet.runPaging _) fun _ => ?_
  refine quiet.bind (quiet.runPaging _) fun _ => ?_
  refine quiet.bind (quiet.runPaging _) fun _ => ?_
  exact quiet.bind (statesBut_storePcb (Or.inl set)) fun _ =>
    statesBut_execveSwitchToRing3 set

theorem enterImage_eq_ok {userPcb : Word} {argc : Int} {args : Nat → Byte}
    (returned : enterImage userPcb argc args k = .ok ((), after)) :
    after.procs.currProcess = userPcb ∧
      after.stateOf userPcb = some .running := by
  obtain ⟨user, _, -, rest⟩ := bind_eq_ok_iff.mp returned
  obtain ⟨_, _, -, rest⟩ := bind_eq_ok_iff.mp rest
  obtain ⟨_, _, -, rest⟩ := bind_eq_ok_iff.mp rest
  obtain ⟨_, _, -, rest⟩ := bind_eq_ok_iff.mp rest
  obtain ⟨_, _, -, entered⟩ := bind_eq_ok_iff.mp rest
  exact execveSwitchToRing3_eq_ok entered

/-- The new image runs, and the processes that existed keep their states. -/
theorem execve_states {fuel : Nat} {stale : Nat → Byte}
    {filename argv : Word}
    (returned : SbuUnix.execve fuel stale filename argv k =
      .ok (true, after)) :
    after.stateOf after.procs.currProcess = some .running ∧
      ∀ p, (k.stateOf p).isSome → after.stateOf p = k.stateOf p := by
  obtain ⟨userPcb, placed, made, rest⟩ := bind_eq_ok_iff.mp returned
  obtain ⟨absent, -, others⟩ := newPcb_eq_ok made
  have quiet := statesBut fun p => p = userPcb
  obtain ⟨⟨file, argc, args⟩, read, wasRead, rest⟩ := bind_eq_ok_iff.mp rest
  obtain ⟨loaded, image, wasLoaded, rest⟩ := bind_eq_ok_iff.mp rest
  cases loaded with
  | false => cases rest
  | true =>
      obtain ⟨_, linked, wasLinked, rest⟩ := bind_eq_ok_iff.mp rest
      obtain ⟨_, entered, wasEntered, rest⟩ := bind_eq_ok_iff.mp rest
      cases rest
      obtain ⟨current, running⟩ := enterImage_eq_ok wasEntered
      rw [current]
      refine ⟨running, fun p present => ?_⟩
      have other : ¬ p = userPcb := by
        rintro rfl
        rw [absent] at present
        cases present
      have entering :=
        @statesBut_enterImage (fun p => p = userPcb) _ _ _ rfl _ _ _ wasEntered
      have linking :=
        @statesBut_replaceProcess (fun p => p = userPcb) _ fuel rfl _ _ _
          wasLinked
      have loading :=
        @statesBut_loadNewImage (fun p => p = userPcb) _ fuel file rfl _ _ _
          wasLoaded
      have reading := quiet.readArguments _ _ _ _ _ _ _ wasRead
      rw [entering p other, linking p other, loading p other,
        reading p other, others p other]

theorem statesBut_findPrevTask {pid : BitVec 32} (fuel : Nat) :
    ∀ pointer, Keeps (StatesBut changed) (findPrevTask pid fuel pointer) := by
  have quiet := statesBut changed
  induction fuel with
  | zero => exact fun _ => keeps_throw _
  | succ fuel inductionHypothesis =>
      intro pointer
      rw [findPrevTask]
      refine quiet.bind (quiet.derefPcb _) fun prev => ?_
      exact quiet.bind (quiet.derefPcb _) fun next =>
        keeps_ite _ (inductionHypothesis _) (quiet.pure _)

/-- Only the process that leaves the ring is stopped. -/
theorem leaveRing_states {fuel : Nat} {prevTask : Word}
    (returned : leaveRing fuel k = .ok (prevTask, after)) :
    StatesBut (fun p => p = k.procs.currProcess) k after := by
  have quiet := statesBut fun p => p = k.procs.currProcess
  have links : ∀ {p link : Word},
      Keeps (StatesBut fun p => p = k.procs.currProcess)
        (storePcb p fun pcb => { pcb with nextProc := link }) :=
    statesBut_storePcb (Or.inr fun _ => rfl)
  unfold leaveRing at returned
  obtain ⟨t, _, here, rest⟩ := bind_eq_ok_iff.mp returned
  cases here
  refine (?_ : Keeps _ _) _ _ _ rest
  refine quiet.bind (statesBut_storePcb (Or.inl rfl)) fun _ => ?_
  refine quiet.bind (quiet.derefPcb _) fun curr => ?_
  refine quiet.bind (statesBut_findPrevTask _ _) fun prevTask => ?_
  refine quiet.bind quiet.globals fun t => ?_
  refine quiet.bind links fun _ => ?_
  refine quiet.bind (quiet.releaseProcesses _ _ _) fun _ => ?_
  refine quiet.bind (statesBut_setGlobals fun _ => rfl) fun _ => ?_
  refine quiet.bind links fun _ => ?_
  refine quiet.bind (quiet.releaseProcesses _ _ _) fun _ => ?_
  refine quiet.bind (statesBut_setGlobals fun _ => rfl) fun _ => ?_
  refine quiet.bind (quiet.derefPcb _) fun curr => ?_
  refine quiet.bind (quiet.runPaging _) fun _ => ?_
  refine quiet.bind (quiet.runPaging _) fun _ => ?_
  exact quiet.bind (statesBut_setGlobals fun _ => rfl) fun _ => quiet.pure _

theorem statesBut_userSwitchTask (current next : Word) :
    Keeps (StatesBut changed) (userSwitchTask current next) := by
  have quiet := statesBut changed
  unfold userSwitchTask
  refine quiet.bind (quiet.derefPcb _) fun pcb => ?_
  refine quiet.bind (quiet.runPaging _) fun _ => ?_
  refine quiet.bind quiet.get fun _ => ?_
  refine quiet.bind (quiet.storePcb fun _ => ⟨rfl, rfl⟩) fun _ => ?_
  exact quiet.bind (quiet.derefPcb _) fun _ =>
    keeps_modify fun _ => statesBut_of_procs rfl

end States

/-! ## A first process starts -/

/-- The kernel thread is the current process. -/
structure InKernelThread (w : View) : Prop where
  null : w.slot 0 = none
  current : w.curr = w.first
  thread : w.HasPid 1 w.first

/-- `create_user_process` and `switch_to_ring3`. -/
def startUser (fuel : Nat) (filename : List Byte) : KernelM Unit := do
  let userProcess ← createUserProcess fuel filename
  switchToRing3 userProcess

section Start

variable {k after : Kernel} {fuel : Nat}

theorem lastBehind_create {w : View} {caller : Slot} {addr cr3 : Word}
    {frames : List Nat} (alone : InKernelThread w)
    (known : w.slot w.curr = some caller) (block : PcbBlock addr frames)
    (fresh : w.slot addr = none) :
    LastBehind [w.first] addr (w.create caller addr cr3 frames) := by
  have different : w.first ≠ addr := by
    rw [← alone.current]
    exact ne_of_slot known fresh
  have kept : w.Keeps Slot.pid (w.create caller addr cr3 frames) :=
    View.keeps_create (fun _ _ _ => rfl) known fresh
  have toUser : (w.create caller addr cr3 frames).next w.first = addr := by
    rw [← alone.current]
    exact (View.next_put_of_ne (alone.current ▸ different)).trans
      View.next_put_same
  have back : (w.create caller addr cr3 frames).next addr = w.first :=
    View.next_put_same.trans alone.current
  constructor
  · constructor
    · have absent := alone.null
      have notCurr := (ne_of_slot known alone.null).symm
      rw [← View.put_of_ne notCurr, ← View.put_of_ne block.ne_zero] at absent
      exact absent
    · refine ⟨⟨rfl, toUser, back⟩, ?_, by simp⟩
      simpa using different
    · intro p member
      rcases List.mem_cons.mp member with rfl | member
      · rw [← alone.current]
        exact kept.isSome (Option.isSome_of_mem known)
      · rw [List.mem_singleton.mp member]
        exact Option.isSome_of_mem View.put_same
    · exact List.mem_cons_of_mem _ (List.mem_cons_self ..)
  · rfl
  · exact List.cons_ne_nil _ _
  · exact alone.thread.keeps kept

/-- A process that starts runs, behind the kernel thread. -/
theorem InKernelThread.start {filename : List Byte}
    (alone : InKernelThread k.procs.view)
    (started : startUser fuel filename k = .ok ((), after)) :
    ∃ addr, LastBehind [k.procs.firstProcess] addr after.procs.view ∧
      after.stateOf addr = some .running ∧
      after.stateOf k.procs.firstProcess = some .ready := by
  obtain ⟨caller, known⟩ : ∃ caller, k.procs.view.slot k.procs.view.curr =
      some caller := by
    obtain ⟨slot, found, -⟩ := alone.thread
    exact ⟨slot, alone.current ▸ found⟩
  obtain ⟨userProcess, between, created, switched⟩ :=
    bind_eq_ok_iff.mp started
  have makes : Yields AnyFault (createUserProcess fuel filename) k
      fun userProcess between =>
        ∀ after, switchToRing3 userProcess between = .ok ((), after) →
          ∃ addr, LastBehind [k.procs.firstProcess] addr after.procs.view ∧
            after.stateOf addr = some .running ∧
            after.stateOf k.procs.firstProcess = some .ready := by
    refine after_createUserProcess known ?_ ?_ k rfl
    · intro addr cr3 frames block fresh between view after switched
      have last : LastBehind [k.procs.view.first] addr
          (k.procs.view.create caller addr cr3 frames) :=
        lastBehind_create alone known block fresh
      have first : between.procs.firstProcess = k.procs.firstProcess :=
        congrArg View.first view
      have apart : addr ≠ between.procs.firstProcess := by
        rw [first]
        exact last.ne_first
      have same : After (switchToRing3 addr) between.procs.view
          fun _ after => after.procs.view = between.procs.view := by
        refine after_switchToRing3 fun _ next nextView => ?_
        rw [nextView, view]
        rfl
      have kept := yields_anyFault.mp (same between rfl) _ _ switched
      obtain ⟨running, ready⟩ := switchToRing3_eq_ok apart switched
      rw [first] at ready
      rw [kept, view]
      exact ⟨addr, last, running, ready⟩
    · intro addr slot frames block _ between view after switched
      have stops : After (switchToRing3 0) between.procs.view
          fun _ _ => False := by
        refine after_switchToRing3 fun present _ _ => ?_
        have absent : (k.procs.view.put addr slot).slot 0 = none := by
          rw [View.put_of_ne block.ne_zero, alone.null]
        rw [view] at present
        change ((k.procs.view.put addr slot).slot 0).isSome at present
        rw [absent] at present
        cases present
      exact absurd (yields_anyFault.mp (stops between rfl) _ _ switched)
        not_false
  exact yields_anyFault.mp makes _ _ created after switched

end Start

/-! ## Runs -/

/-- A call of the current process. -/
inductive Turn where
  | fork
  | wait (pid : Word)
  | execve (stale : Nat → Byte) (filename argv : Word)
  | exit

def Turn.serve (fuel : Nat) : Turn → KernelM Unit
  | .fork => do
      let _ ← forkChild
  | .wait pid => do
      let _ ← SbuUnix.wait pid
  | .execve stale filename argv => do
      let _ ← SbuUnix.execve fuel stale filename argv
  | .exit => sysExit fuel

/-- The pids differ; a wait finds its process, and an image loads. -/
def Turn.Succeeds (fuel : Nat) : Turn → Kernel → Prop
  | .fork, _ => True
  | .wait pid, k => ∃ after, SbuUnix.wait pid k = .ok (true, after)
  | .execve stale filename argv, k =>
      ∃ after, SbuUnix.execve fuel stale filename argv k = .ok (true, after)
  | .exit, k => ∀ nodes, Ring k.procs.view.next k.procs.view.first nodes →
      k.procs.view.PidsDistinct nodes

/-- What has led to the current process: it was started, it has forked and
not waited yet, or its child has exited. -/
inductive Phase where
  | started
  | forked
  | resumed
  deriving DecidableEq

/-- The phase after a call, and how many processes wait for a child.  There
is none where a call is out of order: a process that has forked waits. -/
def Turn.leads : Turn → Nat × Phase → Option (Nat × Phase)
  | .wait _, (waiting, .forked) => some (waiting + 1, .started)
  | _, (_, .forked) => none
  | .wait _, _ => none
  | .fork, (waiting, _) => some (waiting, .forked)
  | .execve _ _ _, (waiting, _) => some (waiting, .started)
  | .exit, (waiting + 1, _) => some (waiting, .resumed)
  | .exit, (0, _) => some (0, .started)

/-- The phase after calls in nested order. -/
def leadTo : List Turn → Nat × Phase → Option (Nat × Phase)
  | [], stage => some stage
  | turn :: rest, stage => (turn.leads stage).bind (leadTo rest)

/-- The processes that wait are ready.  The current one runs, but it is ready
when its child has exited; the state of a child that nothing has waited for is
not set. -/
def StatesAt (k : Kernel) : Nat × Phase → Prop
  | (waiting, .started) => ∃ before curr,
      LastBehind before curr k.procs.view ∧ before.length = waiting + 1 ∧
        (∀ p ∈ before, k.stateOf p = some .ready) ∧
        k.stateOf curr = some .running
  | (waiting, .resumed) => ∃ before curr,
      LastBehind before curr k.procs.view ∧ before.length = waiting + 1 ∧
        (∀ p ∈ before, k.stateOf p = some .ready) ∧
        k.stateOf curr = some .ready
  | (waiting, .forked) => ∃ before curr child,
      ForkedBehind before curr child k.procs.view ∧
        before.length = waiting + 1 ∧
        (∀ p ∈ before, k.stateOf p = some .ready) ∧
        k.stateOf child = some .unset

section Runs

variable {k after : Kernel} {fuel waiting : Nat} {phase : Phase}
variable {before : List Word} {curr : Word}

theorem stateOf_isSome_iff {k : Kernel} {p : Word} :
    (k.stateOf p).isSome ↔ (k.procs.view.slot p).isSome := by
  unfold Kernel.stateOf Procs.view
  rw [Option.isSome_map, Option.isSome_map]

/-- Nobody runs who should not, exactly where the current process has not
forked or come back. -/
theorem StatesAt.tracks_iff (states : StatesAt k (waiting, phase)) :
    TracksWhoRuns k ↔ phase = .started := by
  cases phase with
  | started =>
      obtain ⟨before, curr, last, -, ready, running⟩ := states
      exact iff_of_true (last.tracks running ready) rfl
  | resumed =>
      obtain ⟨before, curr, last, -, -, ready⟩ := states
      apply iff_of_false _ nofun
      intro tracks
      have running := tracks.running
      have current : k.procs.currProcess = curr := last.current
      rw [current, ready] at running
      cases running
  | forked =>
      obtain ⟨before, curr, child, forked, -, -, unset⟩ := states
      apply iff_of_false _ nofun
      intro tracks
      have other : child ≠ k.procs.currProcess := by
        have current : k.procs.currProcess = curr := forked.current
        have nodup := forked.queue.ring.nodup
        rw [current]
        rintro rfl
        simp [List.nodup_append] at nodup
      have ready := tracks.ready _ forked.queue.ring child (by simp) other
      rw [unset] at ready
      cases ready

theorem derefPcb_eq_ok {p : Word} {pcb : Pcb}
    (returned : derefPcb p k = .ok (pcb, after)) :
    k.procs.pcb p = some pcb ∧ k = after := by
  have ends : Yields AnyFault (derefPcb p) k fun pcb after =>
      k.procs.pcb p = some pcb ∧ k = after :=
    yields_derefPcb.mpr fun _ found => ⟨found, rfl⟩
  exact yields_anyFault.mp ends _ _ returned

theorem LastBehind.parent_ne_first {w : View} {parent : Word}
    (last : LastBehind (before ++ [parent]) curr w) (nonempty : before ≠ []) :
    parent ≠ w.first := by
  obtain ⟨rest, split⟩ := last.head
  cases before with
  | nil => exact absurd rfl nonempty
  | cons head more =>
      have isHead : head = w.first := (List.cons.inj split).1
      have distinct := last.queue.ring.nodup
      rw [← isHead]
      rintro rfl
      simp at distinct

theorem LastBehind.current_notMem {w : View} (last : LastBehind before curr w) :
    curr ∉ before := by
  intro member
  have apart := (List.nodup_append.mp last.queue.ring.nodup).2.2
  exact apart curr member curr (List.mem_singleton_self _) rfl

/-- A fork. -/
theorem StatesAt.fork {pid : BitVec 32} (before : List Word) (curr : Word)
    (last : LastBehind before curr k.procs.view)
    (depth : before.length = waiting + 1)
    (ready : ∀ p ∈ before, k.stateOf p = some .ready)
    (forked : forkChild k = .ok (pid, after)) :
    StatesAt after (waiting, .forked) := by
  obtain ⟨child, absent, behind⟩ := last.fork forked
  have states := newUnset_forkChild _ _ _ forked
  refine ⟨before, curr, child, behind, depth, ?_, ?_⟩
  · exact fun p member => states.kept p _ (ready p member)
  · have present : (after.stateOf child).isSome :=
      stateOf_isSome_iff.mpr (behind.queue.exist child (by simp))
    have none : k.stateOf child = none := by
      rw [← Option.not_isSome_iff_eq_none, stateOf_isSome_iff, absent]
      exact Bool.false_ne_true
    rcases states.fresh child none with gone | unset
    · rw [gone] at present
      cases present
    · exact unset

theorem wait_states {pid : Word} {caller next : Pcb}
    (found : k.procs.pcb k.procs.currProcess = some caller)
    (nextFound : k.procs.pcb caller.nextProc = some next)
    (other : caller.nextProc ≠ k.procs.currProcess)
    (returned : SbuUnix.wait pid k = .ok (true, after)) :
    after.stateOf caller.nextProc = some .running ∧
      after.stateOf k.procs.currProcess = some .ready ∧
      StatesBut (fun p => p = k.procs.currProcess ∨ p = caller.nextProc) k
        after := by
  have nextHere : (k.procs.put k.procs.currProcess
      (waiting k.procs caller)).pcb caller.nextProc = some next := by
    rw [put_of_ne other, nextFound]
  obtain ⟨last, lastFound, run⟩ := wait_eq pid found nextHere
  have isLast : last.state = .ready := by
    have same := lastFound
    unfold stepped at same
    change (Procs.put _ _ _).pcb _ = _ at same
    rw [put_of_ne (Ne.symm other), put_same] at same
    rw [← Option.some.inj same]
    rfl
  rw [run] at returned
  split at returned
  · cases returned
    unfold StatesBut Kernel.stateOf
    refine ⟨?_, ?_, fun p unchanged => ?_⟩
    · apply (stateOf_put.trans (if_neg other)).trans
      exact stateOf_put.trans (if_pos rfl)
    · apply (stateOf_put.trans (if_pos rfl)).trans
      exact congrArg some isLast
    · apply (stateOf_put.trans (if_neg fun same =>
        unchanged (Or.inl same))).trans
      apply (stateOf_put.trans (if_neg fun same =>
        unchanged (Or.inr same))).trans
      exact stateOf_put.trans (if_neg fun same => unchanged (Or.inl same))
  · cases returned

theorem StatesAt.wait {pid : Word} {child : Word}
    (behind : ForkedBehind before curr child k.procs.view)
    (depth : before.length = waiting + 1)
    (ready : ∀ p ∈ before, k.stateOf p = some .ready)
    (waited : SbuUnix.wait pid k = .ok (true, after)) :
    StatesAt after (waiting + 1, .started) := by
  have last := behind.wait waited
  have pcbOf : ∀ p ∈ before ++ [curr, child], ∃ pcb,
      k.procs.pcb p = some pcb := by
    intro p member
    obtain ⟨slot, found⟩ :=
      Option.isSome_iff_exists.mp (behind.queue.exist p member)
    obtain ⟨pcb, here, -⟩ := exists_of_view_slot found
    exact ⟨pcb, here⟩
  obtain ⟨caller, found⟩ := pcbOf curr (by simp)
  obtain ⟨next, nextFound⟩ := pcbOf child (by simp)
  have current : k.procs.currProcess = curr := behind.current
  have link : caller.nextProc = child :=
    (View.next_of_slot (view_slot found)).symm.trans behind.next_eq
  have distinct := behind.queue.ring.nodup
  have other : child ≠ curr := by
    rintro rfl
    simp [List.nodup_append] at distinct
  rw [← link] at nextFound
  rw [← current] at found
  obtain ⟨running, callerReady, others⟩ := wait_states found nextFound
    (by rw [link, current]; exact other) waited
  rw [link] at running others
  rw [current] at callerReady others
  refine ⟨before ++ [curr], child, last, ?_, ?_, running⟩
  · rw [List.length_append, depth, List.length_singleton]
  · intro p member
    rcases List.mem_append.mp member with early | late
    · have apart := (List.nodup_append.mp distinct).2.2 p early
      have unchanged : ¬ (p = curr ∨ p = child) := by
        rintro (same | same)
        · exact apart curr (by simp) same
        · exact apart child (by simp) same
      exact (others p unchanged).trans (ready p early)
    · rw [List.mem_singleton.mp late]
      exact callerReady

theorem StatesAt.execve {stale : Nat → Byte} {filename argv : Word}
    (last : LastBehind before curr k.procs.view)
    (depth : before.length = waiting + 1)
    (ready : ∀ p ∈ before, k.stateOf p = some .ready)
    (replaced : SbuUnix.execve fuel stale filename argv k =
      .ok (true, after)) :
    StatesAt after (waiting, .started) := by
  obtain ⟨image, imageLast⟩ := last.execve replaced
  obtain ⟨running, kept⟩ := execve_states replaced
  have current : after.procs.currProcess = image := imageLast.current
  rw [current] at running
  refine ⟨before, image, imageLast, depth, fun p member => ?_, running⟩
  have here := ready p member
  rw [kept p (Option.isSome_of_mem here), here]

/-- The caller of `sys_exit` is the last node, so the one before it goes
on. -/
theorem LastBehind.leaveRing {parent prevTask : Word}
    (last : LastBehind (before ++ [parent]) curr k.procs.view)
    (distinct : k.procs.view.PidsDistinct ((before ++ [parent]) ++ [curr]))
    (left : SbuUnix.leaveRing fuel k = .ok (prevTask, after)) :
    prevTask = parent ∧ after.procs.view = k.procs.view.leave parent := by
  obtain ⟨caller, known⟩ :=
    Option.isSome_iff_exists.mp last.queue.running.current
  have ends : Yields AnyFault (SbuUnix.leaveRing fuel) k fun prevTask after =>
      prevTask = parent ∧ after.procs.view = k.procs.view.leave parent := by
    refine after_leaveRing known (fun prev between search _ view => ?_) k rfl
    obtain ⟨member, behind⟩ := last.queue.prevTask distinct known search
    obtain ⟨front, split⟩ := last.split member (behind.trans last.current)
    have same : parent = prev :=
      List.singleton_inj.mp (List.append_inj' split rfl).2
    rw [same]
    exact ⟨rfl, view⟩
  exact yields_anyFault.mp ends _ _ left

theorem StatesAt.exit (last : LastBehind before curr k.procs.view)
    (depth : before.length = waiting + 2)
    (ready : ∀ p ∈ before, k.stateOf p = some .ready)
    (distinct : k.procs.view.PidsDistinct (before ++ [curr]))
    (exited : sysExit fuel k = .ok ((), after)) :
    StatesAt after (waiting, .resumed) := by
  rcases List.eq_nil_or_concat before with none | ⟨front, parent, split⟩
  · rw [none] at depth
    cases depth
  rw [List.concat_eq_append] at split
  subst split
  rw [List.length_append, List.length_singleton] at depth
  have nonempty : front ≠ [] := by
    rintro rfl
    cases depth
  have apart : PidsApart .exit k := fun nodes ring =>
    ring.unique last.queue.ring ▸ distinct
  obtain ⟨parentLast, -⟩ := last.exit nonempty apart exited
  have current : k.procs.currProcess = curr := last.current
  obtain ⟨prevTask, between, left, rest⟩ := bind_eq_ok_iff.mp exited
  obtain ⟨isParent, view⟩ := last.leaveRing distinct left
  subst isParent
  obtain ⟨prev, _, deref, rest⟩ := bind_eq_ok_iff.mp rest
  obtain ⟨found, rfl⟩ := derefPcb_eq_ok deref
  have goesOn : prev.pid ≠ 1 := by
    intro isFirst
    have slot := view_slot found
    rw [view] at slot
    have has : k.procs.view.HasPid 1 prevTask :=
      isFirst ▸ View.hasPid_of_leave slot
    exact last.parent_ne_first nonempty (distinct.eq (by simp)
      last.queue.ring.first_mem has last.thread)
  rw [if_neg goesOn] at rest
  have stops := leaveRing_states left
  rw [current] at stops
  have switches : StatesBut (fun p => p = curr) between after :=
    statesBut_userSwitchTask _ _ _ _ _ rest
  have kept : ∀ p ∈ front ++ [prevTask], after.stateOf p = some .ready := by
    intro p member
    have other : ¬ p = curr := by
      rintro rfl
      exact last.current_notMem member
    rw [switches p other, stops p other, ready p member]
  exact ⟨front, prevTask, parentLast, by omega,
    fun p member => kept p (List.mem_append_left _ member),
    kept prevTask (by simp)⟩

/-- Behind the kernel thread, a new process starts. -/
theorem StatesAt.restart {thread : Word}
    (last : LastBehind [thread] curr k.procs.view)
    (distinct : k.procs.view.PidsDistinct ([thread] ++ [curr]))
    (exited : sysExit fuel k = .ok ((), after)) :
    StatesAt after (0, .started) := by
  have isFirst : k.procs.view.first = thread := last.queue.ring.chain.1
  obtain ⟨prevTask, between, left, rest⟩ := bind_eq_ok_iff.mp exited
  obtain ⟨isThread, view⟩ :=
    LastBehind.leaveRing (show LastBehind ([] ++ [thread]) _ _ from last)
      distinct left
  subst isThread
  obtain ⟨prev, _, deref, rest⟩ := bind_eq_ok_iff.mp rest
  obtain ⟨found, rfl⟩ := derefPcb_eq_ok deref
  have pid : prev.pid = 1 := by
    have slot := view_slot found
    rw [view] at slot
    obtain ⟨own, ownFound, ownPid⟩ := View.hasPid_of_leave slot
    obtain ⟨thread, threadFound, threadPid⟩ := last.thread
    rw [isFirst, ownFound] at threadFound
    cases threadFound
    exact ownPid.symm.trans threadPid
  rw [if_pos pid] at rest
  rw [bind_of_ok (storePcb_eq found)] at rest
  obtain ⟨_, back, wasBack, schedules⟩ := bind_eq_ok_iff.mp rest
  have backView := sameView_userSwitchBack _ _ _ _ wasBack
  unfold SameView at backView
  rw [view_put, view] at backView
  have absent : (k.procs.view.leave prevTask).slot 0 = none :=
    View.leave_none last.queue.null
  have present : (k.procs.view.leave prevTask).slot prevTask =
      some prev.slot := by
    rw [← view]
    exact view_slot found
  have alone : InKernelThread back.procs.view := by
    rw [backView]
    constructor
    · rw [View.put_of_ne (ne_of_slot present absent).symm, absent]
    · exact isFirst.symm
    · refine ⟨{ prev.slot with initKernel := prevTask + 4096 - 8 }, ?_, pid⟩
      change (View.put _ _ _).slot k.procs.view.first = _
      rw [isFirst]
      exact View.put_same
  obtain ⟨addr, startLast, running, ready⟩ := alone.start schedules
  exact ⟨_, addr, startLast, rfl,
    fun p member => List.mem_singleton.mp member ▸ ready, running⟩

theorem StatesAt.step {turn : Turn} {next : Nat × Phase}
    (states : StatesAt k (waiting, phase))
    (leads : turn.leads (waiting, phase) = some next)
    (succeeds : turn.Succeeds fuel k)
    (served : turn.serve fuel k = .ok ((), after)) : StatesAt after next := by
  cases phase with
  | forked =>
      obtain ⟨before, curr, child, behind, depth, ready, -⟩ := states
      cases turn with
      | wait pid =>
          cases leads
          obtain ⟨waited, ran⟩ := succeeds
          have same : after = waited := by
            rw [Turn.serve, bind_of_ok ran] at served
            cases served
            rfl
          rw [same]
          exact StatesAt.wait behind depth ready ran
      | _ => cases leads
  | _ =>
      -- in both phases the processes before the current one are ready
      obtain ⟨before, curr, last, depth, ready, -⟩ := states
      cases turn with
      | wait pid => cases leads
      | fork =>
          cases leads
          obtain ⟨pid, _, forked, ends⟩ := bind_eq_ok_iff.mp served
          cases ends
          exact StatesAt.fork before curr last depth ready forked
      | execve stale filename argv =>
          cases leads
          obtain ⟨replaced, ran⟩ := succeeds
          have same : after = replaced := by
            rw [Turn.serve, bind_of_ok ran] at served
            cases served
            rfl
          rw [same]
          exact StatesAt.execve last depth ready ran
      | exit =>
          have distinct := succeeds _ last.queue.ring
          cases waiting with
          | succ waiting =>
              cases leads
              exact StatesAt.exit last depth ready distinct served
          | zero =>
              cases leads
              obtain ⟨thread, rfl⟩ := List.length_eq_one_iff.mp depth
              exact StatesAt.restart last distinct served

theorem StatesAt.run {turns : List Turn} :
    ∀ {k : Kernel} {stage last : Nat × Phase}, StatesAt k stage →
      leadTo turns stage = some last →
        EachMeets (Turn.serve fuel) (Turn.Succeeds fuel) turns k →
          runAll (Turn.serve fuel) turns k = .ok ((), after) →
            StatesAt after last := by
  induction turns with
  | nil =>
      intro k stage last states nested _ ran
      cases nested
      cases ran
      exact states
  | cons turn rest inductionHypothesis =>
      intro k stage last states nested succeed ran
      obtain ⟨waiting, phase⟩ := stage
      obtain ⟨between, leads, later⟩ := Option.bind_eq_some_iff.mp nested
      obtain ⟨_, middle, served, goesOn⟩ := bind_eq_ok_iff.mp ran
      exact inductionHypothesis (states.step leads succeed.1 served) later
        (succeed.2 middle served) goesOn

theorem InKernelThread.statesAt {filename : List Byte}
    (alone : InKernelThread k.procs.view)
    (started : startUser fuel filename k = .ok ((), after)) :
    StatesAt after (0, .started) := by
  obtain ⟨addr, last, running, ready⟩ := alone.start started
  exact ⟨_, addr, last, rfl,
    fun p member => List.mem_singleton.mp member ▸ ready, running⟩

end Runs

/-! ## One child -/

/-- A first process forks, waits for the child, and the child exits. -/
def forkWaitExit : KernelM (Kernel × Bool × Kernel) := do
  createKernelThread
  let thread ← get
  startUser 20 initName
  let _ ← forkChild
  let left ← SbuUnix.wait 3
  let child ← get
  sysExit 20
  pure (thread, left, child)

theorem exists_forkWaitExit :
    ∃ k start forked child after,
      InKernelThread k.procs.view ∧
        startUser 20 initName k = .ok ((), start) ∧
        Turn.serve 20 .fork start = .ok ((), forked) ∧
        SbuUnix.wait 3 forked = .ok (true, child) ∧
        Turn.exit.Succeeds 20 child ∧
        Turn.serve 20 .exit child = .ok ((), after) := by
  have ends : shown
      (fun states _ => decide (
        (states.1.procs.pcb 0).isNone ∧
          states.1.procs.currProcess = states.1.procs.firstProcess ∧
          (states.1.procs.view.slot states.1.procs.firstProcess).map Slot.pid =
            some 1 ∧
          states.2.1 = true ∧
          RingThrough
            [0xFFFFFFFF80001000, 0xFFFFFFFF80006000, 0xFFFFFFFF80018000]
              states.2.2.procs.view))
      (forkWaitExit bootMachine.kernel) = some true := by
    decide +kernel
  obtain ⟨⟨thread, left, child⟩, after, ran, seen⟩ := exists_of_shown ends
  rw [decide_eq_true_eq] at seen
  obtain ⟨null, current, pid, isLeft, ring⟩ := seen
  obtain ⟨_, _, -, ran⟩ := bind_eq_ok_iff.mp ran
  obtain ⟨_, _, here, ran⟩ := bind_eq_ok_iff.mp ran
  cases here
  obtain ⟨_, start, started, ran⟩ := bind_eq_ok_iff.mp ran
  obtain ⟨_, forked, wasForked, ran⟩ := bind_eq_ok_iff.mp ran
  obtain ⟨_, _, wasWaited, ran⟩ := bind_eq_ok_iff.mp ran
  obtain ⟨_, _, here, ran⟩ := bind_eq_ok_iff.mp ran
  cases here
  obtain ⟨_, ended, exited, ran⟩ := bind_eq_ok_iff.mp ran
  cases ran
  subst isLeft
  refine ⟨thread, start, forked, child, after, ?_, started, ?_, wasWaited, ?_,
    exited⟩
  · constructor
    · exact congrArg (Option.map Pcb.slot) (Option.isNone_iff_eq_none.mp null)
    · exact current
    · exact Option.map_eq_some_iff.mp pid
  · exact bind_eq_ok_iff.mpr ⟨_, forked, wasForked, rfl⟩
  · exact (ring.pidsApart : PidsApart .exit child)

end SbuUnix
