import Mathlib.Data.List.Basic
import Mathlib.Logic.Function.Basic

/-!
# Flat memories kept in pages

A memory is a function from addresses to values.  It is kept in pages, of
which those that were never touched may be missing and read as blank.
`Kept` relates the pages of many processes to their memories; it says what
touching a page, a store, a fork and the end of a process must do to the
pages, each seen by every process.
-/

namespace PagedMemory

/-- How addresses fall into pages. -/
structure Layout (Addr Path Page Value : Type) where
  pageOf : Addr → Path
  load : Page → Addr → Value
  store : Page → Addr → Value → Page
  blank : Page
  load_store_same : ∀ page address value,
    load (store page address value) address = value
  load_store_of_ne : ∀ page {address other} value,
    pageOf other = pageOf address → other ≠ address →
      load (store page address value) other = load page other

/-- The memory of a process and the pages it has touched. -/
structure Process (Addr Path Value : Type) where
  memory : Addr → Value
  touched : Path → Prop

/-- What processes do with their memories. -/
inductive Call (Addr Value : Type) where
  | read (who : Nat) (address : Addr)
  | write (who : Nat) (address : Addr) (value : Value)
  | fork (who : Nat)
  | release (who : Nat)

/-- The processes in order of creation; `none` has been released. -/
abbrev Processes (Addr Path Value : Type) :=
  List (Option (Process Addr Path Value))

variable {Addr Path Page Value : Type}
variable (layout : Layout Addr Path Page Value)

/-- The process with this number is there. -/
def Live (processes : Processes Addr Path Value) (who : Nat)
    (process : Process Addr Path Value) : Prop :=
  processes[who]? = some (some process)

/-- The process after touching the page of an address. -/
def Process.touch (process : Process Addr Path Value) (address : Addr) :
    Process Addr Path Value :=
  { process with
    touched := fun path =>
      path = layout.pageOf address ∨ process.touched path }

def Process.put [DecidableEq Addr] (process : Process Addr Path Value)
    (address : Addr) (value : Value) : Process Addr Path Value :=
  { process with memory := Function.update process.memory address value }

/-- One call, on flat memories of their own. -/
def flatCall [DecidableEq Addr] : Call Addr Value →
    Processes Addr Path Value → Option Value × Processes Addr Path Value
  | .read who address, processes =>
      (processes[who]?.join.map fun process => process.memory address,
        processes.modify who fun process =>
          process.map fun process => process.touch layout address)
  | .write who address value, processes =>
      (none, processes.modify who fun process =>
        process.map fun process =>
          (process.touch layout address).put address value)
  | .fork who, processes => (none, processes ++ [processes[who]?.join])
  | .release who, processes => (none, processes.set who none)

/-- The values that the reads of a run return. -/
def flatRun [DecidableEq Addr] :
    List (Call Addr Value) → Processes Addr Path Value → List Value
  | [], _ => []
  | first :: rest, processes =>
      (flatCall layout first processes).1.toList ++
        flatRun rest (flatCall layout first processes).2

/-- A process that is there uses pages it has touched or addresses that
`grows` lets it touch. -/
def Legal (grows : Nat → Addr → Prop) :
    Call Addr Value → Processes Addr Path Value → Prop
  | .read who address, processes => ∃ process, Live processes who process ∧
      (process.touched (layout.pageOf address) ∨ grows who address)
  | .write who address _, processes =>
      ∃ process, Live processes who process ∧
        (process.touched (layout.pageOf address) ∨ grows who address)
  | .fork who, processes => ∃ process, Live processes who process
  | .release who, processes => ∃ process, Live processes who process

def LegalRun [DecidableEq Addr] (grows : Nat → Addr → Prop) :
    List (Call Addr Value) → Processes Addr Path Value → Prop
  | [], _ => True
  | first :: rest, processes =>
      Legal layout grows first processes ∧
        LegalRun grows rest (flatCall layout first processes).2

/-- The memory that pages hold. -/
def Layout.flat (pages : Path → Option Page) : Addr → Value :=
  fun address => layout.load
    ((pages (layout.pageOf address)).getD layout.blank) address

/-- The pages `view who` of each process hold its memory, and those it has
touched are there. -/
structure Kept (view : Nat → Path → Option Page)
    (processes : Processes Addr Path Value) : Prop where
  flat : ∀ {who process}, Live processes who process →
    layout.flat (view who) = process.memory
  there : ∀ {who process}, Live processes who process → ∀ address,
    process.touched (layout.pageOf address) →
      (view who (layout.pageOf address)).isSome = true

/-- Of the processes that are there, one sees a page anew. -/
structure Rewrites (processes : Processes Addr Path Value)
    (view next : Nat → Path → Option Page) (who : Nat) (path : Path)
    (page : Page) : Prop where
  here : next who path = some page
  away : ∀ {other process}, Live processes other process → ∀ address,
    ¬ (other = who ∧ layout.pageOf address = path) →
      next other (layout.pageOf address) =
        view other (layout.pageOf address)

section Lists

variable {layout} {processes : Processes Addr Path Value} {who other : Nat}
variable {process : Process Addr Path Value}

theorem Live.lt (live : Live processes who process) :
    who < processes.length :=
  (List.getElem?_eq_some_iff.mp live).1

theorem Live.unique {second : Process Addr Path Value}
    (live : Live processes who process)
    (secondLive : Live processes who second) : process = second :=
  Option.some.inj (Option.some.inj (live.symm.trans secondLive))

theorem Live.join (live : Live processes who process) :
    processes[who]?.join = some process := by
  rw [Live] at live
  rw [live]
  rfl

/-- A process that is there after an update was there before it. -/
theorem live_modify_iff
    {update : Process Addr Path Value → Process Addr Path Value} :
    Live (processes.modify who fun process => process.map update) other
        process ↔
      ∃ before, Live processes other before ∧
        process = if who = other then update before else before := by
  rw [Live, List.getElem?_modify]
  by_cases same : who = other
  · simp only [if_pos same, Live]
    cases found : processes[other]? with
    | none => simp
    | some slot =>
        cases slot with
        | none => simp
        | some before => simp [eq_comm]
  · simp only [if_neg same, Live]
    simp

theorem live_append_iff {child : Process Addr Path Value} :
    Live (processes ++ [some child]) other process ↔
      Live processes other process ∨
        other = processes.length ∧ process = child := by
  rw [Live, List.getElem?_append]
  split
  · next inside =>
    constructor
    · exact Or.inl
    · rintro (live | ⟨atEnd, _⟩)
      · exact live
      · omega
  · next beyond =>
    constructor
    · intro found
      obtain ⟨last, _⟩ := List.getElem?_eq_some_iff.mp found
      have atEnd : other = processes.length := by
        rw [List.length_singleton] at last
        omega
      subst atEnd
      rw [Nat.sub_self] at found
      exact Or.inr ⟨rfl, (Option.some.inj (Option.some.inj found)).symm⟩
    · rintro (live | ⟨rfl, rfl⟩)
      · exact absurd live.lt beyond
      · rw [Nat.sub_self]
        rfl

theorem live_set_none_iff :
    Live (processes.set who none) other process ↔
      other ≠ who ∧ Live processes other process := by
  rw [Live, List.getElem?_set]
  by_cases same : who = other
  · rw [if_pos same]
    constructor
    · intro found
      split at found <;> cases found
    · rintro ⟨different, _⟩
      exact absurd same.symm different
  · rw [if_neg same]
    exact ⟨fun live => ⟨fun equal => same equal.symm, live⟩, And.right⟩

end Lists

section Kept

variable {layout} {view next : Nat → Path → Option Page}
variable {processes : Processes Addr Path Value} {who : Nat}
variable {process : Process Addr Path Value} {address : Addr}

theorem Kept.load (kept : Kept layout view processes)
    (live : Live processes who process) :
    layout.load ((view who (layout.pageOf address)).getD layout.blank)
      address = process.memory address :=
  congrFun (kept.flat live) address

/-- Pages that agree hold the same memory. -/
theorem Layout.flat_congr {pages other : Path → Option Page}
    (same : ∀ address, other (layout.pageOf address) =
      pages (layout.pageOf address)) :
    layout.flat other = layout.flat pages := by
  funext address
  rw [Layout.flat, Layout.flat, same]

/-- What has been touched is there after one more page is. -/
theorem Kept.there_modify (kept : Kept layout view processes) {page : Page}
    (update : Process Addr Path Value → Process Addr Path Value)
    (rewrites : Rewrites layout processes view next who
      (layout.pageOf address) page)
    (touches : ∀ before, (update before).touched =
      (before.touch layout address).touched) {other : Nat}
    (live : Live (processes.modify who fun process => process.map update)
      other process) (position : Addr)
    (touched : process.touched (layout.pageOf position)) :
    (next other (layout.pageOf position)).isSome = true := by
  obtain ⟨before, liveBefore, same⟩ := live_modify_iff.mp live
  by_cases inside : other = who ∧
      layout.pageOf position = layout.pageOf address
  · rw [inside.1, inside.2, rewrites.here]
    rfl
  · rw [rewrites.away liveBefore position inside]
    apply kept.there liveBefore
    rw [same] at touched
    by_cases isWho : who = other
    · rw [if_pos isWho, touches] at touched
      rcases touched with here | already
      · exact absurd ⟨isWho.symm, here⟩ inside
      · exact already
    · rw [if_neg isWho] at touched
      exact touched

/-- A touched page is there, and reads as before. -/
theorem Kept.touch [DecidableEq Addr] (kept : Kept layout view processes)
    (rewrites : Rewrites layout processes view next who
      (layout.pageOf address)
      ((view who (layout.pageOf address)).getD layout.blank)) :
    Kept layout next (flatCall layout (.read who address) processes).2 := by
  constructor
  · intro other process live
    obtain ⟨before, liveBefore, same⟩ := live_modify_iff.mp live
    have sameMemory : process.memory = before.memory := by
      rw [same, apply_ite Process.memory]
      exact ite_self _
    rw [sameMemory, ← kept.flat liveBefore]
    funext position
    by_cases inside : other = who ∧
        layout.pageOf position = layout.pageOf address
    · rw [Layout.flat, Layout.flat, inside.1, inside.2, rewrites.here]
      rfl
    · rw [Layout.flat, Layout.flat,
        rewrites.away liveBefore position inside]
  · intro other process live
    exact kept.there_modify (fun before => before.touch layout address)
      rewrites (fun _ => rfl) live

/-- A store to a page is a store to the memory. -/
theorem Kept.put [DecidableEq Addr] (kept : Kept layout view processes)
    {value : Value}
    (rewrites : Rewrites layout processes view next who
      (layout.pageOf address)
      (layout.store ((view who (layout.pageOf address)).getD layout.blank)
        address value)) :
    Kept layout next
      (flatCall layout (.write who address value) processes).2 := by
  constructor
  · intro other process live
    obtain ⟨before, liveBefore, same⟩ := live_modify_iff.mp live
    funext position
    by_cases isWho : who = other
    · subst isWho
      rw [same, if_pos rfl]
      show _ = Function.update before.memory address value position
      by_cases here : position = address
      · rw [here, Function.update_self, Layout.flat, rewrites.here]
        exact layout.load_store_same _ _ _
      · rw [Function.update_of_ne here, ← kept.load liveBefore,
          Layout.flat]
        by_cases inside : layout.pageOf position = layout.pageOf address
        · rw [inside, rewrites.here]
          exact layout.load_store_of_ne _ _ inside here
        · rw [rewrites.away liveBefore position fun both => inside both.2]
    · rw [same, if_neg isWho, Layout.flat, rewrites.away liveBefore position
        fun both => isWho both.1.symm]
      exact kept.load liveBefore
  · intro other process live
    exact kept.there_modify
      (fun before => (before.touch layout address).put address value)
      rewrites (fun _ => rfl) live

/-- The new process of a fork sees what its parent sees. -/
theorem Kept.fork [DecidableEq Addr] (kept : Kept layout view processes)
    (live : Live processes who process)
    (same : ∀ {other before}, Live processes other before → ∀ address,
      next other (layout.pageOf address) =
        view other (layout.pageOf address))
    (copied : ∀ address, next processes.length (layout.pageOf address) =
      view who (layout.pageOf address)) :
    Kept layout next
      (flatCall layout (.fork who : Call Addr Value) processes).2 := by
  rw [flatCall, live.join]
  constructor
  · intro other after liveAfter
    rcases live_append_iff.mp liveAfter with old | ⟨rfl, rfl⟩
    · rw [Layout.flat_congr (same old)]
      exact kept.flat old
    · rw [Layout.flat_congr copied]
      exact kept.flat live
  · intro other after liveAfter position touched
    rcases live_append_iff.mp liveAfter with old | ⟨rfl, rfl⟩
    · rw [same old]
      exact kept.there old position touched
    · rw [copied]
      exact kept.there live position touched

/-- The end of a process is seen by no other. -/
theorem Kept.release [DecidableEq Addr] (kept : Kept layout view processes)
    (same : ∀ {other before}, Live processes other before → other ≠ who →
      ∀ address, next other (layout.pageOf address) =
        view other (layout.pageOf address)) :
    Kept layout next
      (flatCall layout (.release who : Call Addr Value) processes).2 := by
  constructor
  · intro other after liveAfter
    obtain ⟨different, old⟩ := live_set_none_iff.mp liveAfter
    rw [Layout.flat_congr (same old different)]
    exact kept.flat old
  · intro other after liveAfter position touched
    obtain ⟨different, old⟩ := live_set_none_iff.mp liveAfter
    rw [same old different]
    exact kept.there old position touched

end Kept

end PagedMemory
