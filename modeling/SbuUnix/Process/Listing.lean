import SbuUnix.Console.Formatted
import SbuUnix.Console.Clock
import SbuUnix.Process.TaskStates

/-!
# `ps`

`print_allPID` with its calls of `kprintf`.  Along every run that keeps the
ring, a user process that asks for the list gets one row for every live
process, in the order of the ring, behind what the screen showed before.
-/

namespace SbuUnix

open Outcome Links

/-! ## The calls of `kprintf` -/

/-- `"PID\tPPID\tProcess\tStatus\n"` -/
def listingHeader : List Byte :=
  [0x50, 0x49, 0x44, 0x09, 0x50, 0x50, 0x49, 0x44, 0x09, 0x50, 0x72, 0x6F,
    0x63, 0x65, 0x73, 0x73, 0x09, 0x53, 0x74, 0x61, 0x74, 0x75, 0x73, 0x0A]

/-- `"Ready"` -/
def readyText : List Byte := [0x52, 0x65, 0x61, 0x64, 0x79]

/-- `"Running"` -/
def runningText : List Byte := [0x52, 0x75, 0x6E, 0x6E, 0x69, 0x6E, 0x67]

def headerCall : PrintCall where
  fuel := 50
  string := fun i => listingHeader.getD i 0
  args := fun _ => ⟨0, fun _ => 0⟩

/-- `kprintf("%d\t%d\t%s", proc->pid, proc->ppid, proc->p_name)` -/
def rowCall (proc : Pcb) : PrintCall where
  fuel := proc.pName.length + 50
  string := fun i =>
    [0x25, 0x64, 0x09, 0x25, 0x64, 0x09, 0x25, 0x73].getD i 0
  args := fun n =>
    [⟨proc.pid.signExtend 64, fun _ => 0⟩,
      ⟨proc.ppid.signExtend 64, fun _ => 0⟩].getD n
        ⟨0, fun i => proc.pName.getD i 0⟩

/-- `kprintf("\t%s\n", text)` -/
def statusCall (text : List Byte) : PrintCall where
  fuel := text.length + 50
  string := fun i => [0x09, 0x25, 0x73, 0x0A].getD i 0
  args := fun _ => ⟨0, fun i => text.getD i 0⟩

/-! ## The loop -/

/-- The kernel, and the screen it prints on. -/
structure Listing where
  kernel : Kernel
  terminal : Terminal

abbrev ListingM := StateT Listing (Except Fault)

def readKernel {α : Type} (program : KernelM α) : ListingM α :=
  zoom Listing.kernel (fun kernel l => { l with kernel }) program

def printOn (call : PrintCall) : ListingM Unit :=
  zoom Listing.terminal (fun terminal l => { l with terminal }) call.run

/-- The calls for one process. -/
def showProcess (proc : Pcb) : ListingM Unit := do
  printOn (rowCall proc)
  if proc.state = .ready then
    printOn (statusCall readyText)
  else if proc.state = .running then
    printOn (statusCall runningText)
  else
    pure ()

/-- The loop of `print_allPID`. -/
def showProcesses (first : Word) : Nat → Word → ListingM Unit
  | 0, _ => throw .outOfFuel
  | fuel + 1, p => do
      let proc ← readKernel (derefPcb p)
      if proc.nextProc ≠ first then
        showProcess proc
        let next ← readKernel (derefPcb proc.nextProc)
        if next.nextProc = first then
          showProcess next
        showProcesses first fuel proc.nextProc
      else
        pure ()

def showAllPID (fuel : Nat) : ListingM Unit := do
  printOn headerCall
  let t ← readKernel globals
  showProcesses t.firstProcess fuel t.firstProcess

/-! ## Rows -/

/-- The row of a process; for a state that is neither it ends behind the
name. -/
def Pcb.row (proc : Pcb) : List Byte :=
  decimalNumeral proc.pid.toNat ++ 0x09 ::
    (decimalNumeral proc.ppid.toNat ++ 0x09 ::
      (proc.pName ++
        if proc.state = .ready then
          0x09 :: (readyText ++ [0x0A])
        else if proc.state = .running then
          0x09 :: (runningText ++ [0x0A])
        else
          []))

/-- Ids that are no negative numbers, and a name on one line. -/
structure Pcb.Printable (proc : Pcb) : Prop where
  pid : proc.pid.toNat < 2 ^ 31
  ppid : proc.ppid.toNat < 2 ^ 31
  noNul : 0 ∉ proc.pName
  oneLine : 0x0A ∉ proc.pName

section Rows

variable {proc : Pcb} {t : Terminal} {before : List Byte} {k : Kernel}

theorem newlinesFollowed_of_oneLine {s : List Byte} (oneLine : 0x0A ∉ s) :
    NewlinesFollowed s := by
  induction s with
  | nil => trivial
  | cons char rest inductionHypothesis =>
      rw [List.mem_cons, not_or] at oneLine
      exact (newlinesFollowed_cons (Ne.symm oneLine.1)).mpr
        (inductionHypothesis oneLine.2)

/-- An id as the argument of `"%d"`. -/
theorem partShows_id {args : Nat → PrintArg} {n : Nat} {id : BitVec 32}
    (small : id.toNat < 2 ^ 31) (isId : (args n).value = id.signExtend 64) :
    PartShows args n .int (n + 1) (decimalNumeral id.toNat) := by
  apply PartShows.int id.toNat small
  rw [isId, BitVec.ofNat_toNat, BitVec.setWidth_eq, setWidth_signExtend]

theorem kernelPrints_header : KernelPrints headerCall listingHeader :=
  kernelPrints_plain (textAt_getD (by decide)) (by decide) (by decide)
    (by decide)

theorem kernelPrints_row (printable : proc.Printable) :
    KernelPrints (rowCall proc) (decimalNumeral proc.pid.toNat ++
      ([0x09] ++ (decimalNumeral proc.ppid.toNat ++
        ([0x09] ++ (proc.pName ++ []))))) := by
  have pidDigits := @decimalNumeral_length_le 9 _
    (Nat.lt_of_lt_of_le printable.pid (by decide))
  have ppidDigits := @decimalNumeral_length_le 9 _
    (Nat.lt_of_lt_of_le printable.ppid (by decide))
  refine ⟨[.int, .plain 0x09, .int, .plain 0x09, .string],
    textAt_getD (by decide), ?_,
    .cons (partShows_id printable.pid rfl)
      (.cons (.plain 0x09 (by decide))
        (.cons (partShows_id printable.ppid rfl)
          (.cons (.plain 0x09 (by decide))
            (.cons (.string (.whole (textAt_getD printable.noNul)
              (newlinesFollowed_of_oneLine printable.oneLine)))
              (.nil 3))))), ?_⟩
  · intro byte member
    simp only [List.mem_cons, Part.plain.injEq, reduceCtorEq, false_or,
      List.not_mem_nil, or_false] at member
    rcases member with rfl | rfl <;> decide
  · simp only [List.length_append, List.length_cons, List.length_nil, rowCall]
    omega

theorem kernelPrints_status (text : List Byte) (noNul : 0 ∉ text)
    (oneLine : 0x0A ∉ text) :
    KernelPrints (statusCall text)
      ([0x09] ++ (text ++ ([0x0A] ++ []))) := by
  refine ⟨[.plain 0x09, .string, .plain 0x0A], textAt_getD (by decide), ?_,
    .cons (.plain 0x09 (by decide))
      (.cons (.string (.whole (textAt_getD noNul)
        (newlinesFollowed_of_oneLine oneLine)))
        (.cons (.plain 0x0A (by decide)) (.nil 1))), ?_⟩
  · intro byte member
    simp only [List.mem_cons, Part.plain.injEq, reduceCtorEq, false_or,
      List.not_mem_nil, or_false] at member
    rcases member with rfl | rfl <;> decide
  · simp only [List.length_append, List.length_cons, List.length_nil,
      statusCall]
    omega

/-- A call adds its text, and leaves the kernel as it is. -/
theorem printOn_prints {call : PrintCall} {text : List Byte}
    (prints : KernelPrints call text) (window : WindowOn t before) :
    ∃ next, printOn call ⟨k, t⟩ = .ok ((), ⟨k, next⟩) ∧
      WindowOn next (before ++ text) := by
  obtain ⟨next, printed, shows⟩ := prints.run window
  refine ⟨next, ?_, shows⟩
  unfold printOn zoom
  rw [printed]

theorem readKernel_eq {α : Type} {program : KernelM α} {value : α}
    (returned : program k = .ok (value, k)) :
    readKernel program ⟨k, t⟩ = .ok (value, ⟨k, t⟩) := by
  unfold readKernel zoom
  rw [returned]

theorem showProcess_prints (printable : proc.Printable)
    (window : WindowOn t before) :
    ∃ next, showProcess proc ⟨k, t⟩ = .ok ((), ⟨k, next⟩) ∧
      WindowOn next (before ++ proc.row) := by
  obtain ⟨between, row, shows⟩ :=
    printOn_prints (k := k) (kernelPrints_row printable) window
  rw [showProcess, bind_of_ok row]
  by_cases isReady : proc.state = .ready
  · obtain ⟨next, status, last⟩ := printOn_prints (k := k)
      (kernelPrints_status readyText (by decide) (by decide)) shows
    rw [if_pos isReady, status]
    refine ⟨next, rfl, ?_⟩
    rw [Pcb.row, if_pos isReady]
    simpa using last
  · rw [if_neg isReady]
    by_cases isRunning : proc.state = .running
    · obtain ⟨next, status, last⟩ := printOn_prints (k := k)
        (kernelPrints_status runningText (by decide) (by decide)) shows
      rw [if_pos isRunning, status]
      refine ⟨next, rfl, ?_⟩
      rw [Pcb.row, if_neg isReady, if_pos isRunning]
      simpa using last
    · rw [if_neg isRunning]
      refine ⟨between, rfl, ?_⟩
      rw [Pcb.row, if_neg isReady, if_neg isRunning]
      simpa using shows

end Rows

/-! ## The whole list -/

section Listing

variable {k : Kernel} {first : Word} {block : Word → Pcb}

/-- From a process on, every process of the ring is printed once: each pass
prints its own, and the last pass the last one as well. -/
theorem showProcesses_prints {rest : List Word} :
    ∀ {p : Word} {t : Terminal} {before : List Byte},
      Chain k.procs.view.next (k.procs.view.next p) rest first →
        rest ≠ [] → first ∉ rest →
          (∀ q ∈ p :: rest, k.procs.pcb q = some (block q) ∧
            (block q).Printable) → WindowOn t before →
              ∃ next, showProcesses first (rest.length + 1) p ⟨k, t⟩ =
                  .ok ((), ⟨k, next⟩) ∧
                WindowOn next (before ++
                  (p :: rest).flatMap fun q => (block q).row) := by
  induction rest with
  | nil => exact fun _ nonempty => absurd rfl nonempty
  | cons second more inductionHypothesis =>
      intro p t before chain _ notFirst exist window
      have found := exist p List.mem_cons_self
      have nextFound := exist second
        (List.mem_cons_of_mem _ List.mem_cons_self)
      have link : ∀ q pcb, k.procs.pcb q = some pcb →
          k.procs.view.next q = pcb.nextProc := fun q pcb here =>
        View.next_of_slot (view_slot here)
      have toSecond : (block p).nextProc = second :=
        (link p _ found.1).symm.trans chain.1
      have goesOn : second ≠ first := by
        intro same
        exact notFirst (same ▸ List.mem_cons_self)
      obtain ⟨between, printed, shows⟩ :=
        showProcess_prints (k := k) found.2 window
      rw [List.length_cons, showProcesses,
        bind_of_ok (readKernel_eq (derefPcb_eq found.1)), toSecond,
        if_pos goesOn, bind_of_ok printed,
        bind_of_ok (readKernel_eq (derefPcb_eq nextFound.1))]
      cases more with
      | nil =>
          have ends : (block second).nextProc = first :=
            (link second _ nextFound.1).symm.trans chain.2
          obtain ⟨last, lastPrinted, lastShows⟩ :=
            showProcess_prints (k := k) nextFound.2 shows
          have stops : showProcesses first 1 second ⟨k, last⟩ =
              .ok ((), ⟨k, last⟩) := by
            rw [showProcesses,
              bind_of_ok (readKernel_eq (derefPcb_eq nextFound.1)), ends,
              if_neg (not_not.mpr rfl)]
            rfl
          rw [if_pos ends, bind_of_ok lastPrinted]
          refine ⟨last, stops, ?_⟩
          simpa using lastShows
      | cons third others =>
          have passes : (block second).nextProc ≠ first := by
            have toThird : (block second).nextProc = third :=
              (link second _ nextFound.1).symm.trans chain.2.1
            rw [toThird]
            intro same
            exact notFirst
              (same ▸ List.mem_cons_of_mem _ List.mem_cons_self)
          obtain ⟨last, later, lastShows⟩ := inductionHypothesis chain.2
            (List.cons_ne_nil _ _)
            (fun member => notFirst (List.mem_cons_of_mem _ member))
            (fun q member => exist q (List.mem_cons_of_mem _ member)) shows
          rw [if_neg passes]
          refine ⟨last, later, ?_⟩
          rw [List.flatMap_cons, ← List.append_assoc]
          exact lastShows

/-- The list of a ring of two processes or more. -/
theorem showAllPID_prints {nodes : List Word} {t : Terminal}
    {before : List Byte}
    (ring : Ring k.procs.view.next k.procs.firstProcess nodes)
    (several : 2 ≤ nodes.length)
    (exist : ∀ q ∈ nodes, k.procs.pcb q = some (block q) ∧
      (block q).Printable) (window : WindowOn t before) :
    ∃ next, showAllPID nodes.length ⟨k, t⟩ = .ok ((), ⟨k, next⟩) ∧
      WindowOn next (before ++ listingHeader ++
        nodes.flatMap fun q => (block q).row) := by
  obtain ⟨rest, rfl⟩ := ring.eq_cons
  have others : rest ≠ [] := by
    intro empty
    rw [empty, List.length_singleton] at several
    omega
  obtain ⟨between, header, shows⟩ :=
    printOn_prints (k := k) kernelPrints_header window
  obtain ⟨next, printed, last⟩ := showProcesses_prints ring.chain.2 others
    (List.nodup_cons.mp ring.nodup).1 exist shows
  refine ⟨next, ?_, last⟩
  have reads : globals k = .ok (k.procs, k) := rfl
  rw [showAllPID, bind_of_ok header, bind_of_ok (readKernel_eq reads)]
  exact printed

end Listing

/-- The row of a process, by its address. -/
def Kernel.row (k : Kernel) (p : Word) : List Byte :=
  ((k.procs.pcb p).map Pcb.row).getD []

/-- Every live process has a row that fits on the screen as it should. -/
def printableRows (t : Tracked) : Bool :=
  t.live.all fun p => (t.kernel.procs.pcb p).all fun pcb =>
    decide (pcb.pid.toNat < 2 ^ 31) && decide (pcb.ppid.toNat < 2 ^ 31) &&
      !pcb.pName.contains 0 && !pcb.pName.contains 0x0A

theorem printable_of_rows {t : Tracked} (rows : printableRows t = true)
    (p : Word) (live : p ∈ t.live) (pcb : Pcb)
    (found : t.kernel.procs.pcb p = some pcb) : pcb.Printable := by
  have here := List.all_eq_true.mp rows p live
  rw [found] at here
  simp only [Option.all_some, Bool.and_eq_true, decide_eq_true_eq,
    Bool.not_eq_true', List.contains_eq_mem, decide_eq_false_iff_not] at here
  exact ⟨here.1.1.1, here.1.1.2, here.1.2, here.2⟩

end SbuUnix
