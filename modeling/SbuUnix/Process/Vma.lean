import SbuUnix.Paging.Mapping

/-!
# Memory areas of a process

`sys/vma.c`.  The list that hangs from `mm->vma` is a Lean list; a node is
named by the address `kmalloc` returned for it, which is how the loader and
`init_mmap` reach it again after it has been linked in.
-/

namespace SbuUnix

open Outcome

/-- The values of `vma->type`; cleared memory reads as `TEXT`. -/
inductive VmaType where
  | text
  | data
  | heap
  | stack
  | undef
  deriving DecidableEq, Repr

structure Vma where
  addr : Word
  vmStart : Word := 0
  vmEnd : Word := 0
  type : VmaType := .text
  flags : Word := 0
  file : Word := 0
  fileStart : Word := 0
  fileSize : Word := 0
  deriving DecidableEq, Repr

structure MmStruct where
  codeStart : Word := 0
  codeEnd : Word := 0
  vma : List Vma := []
  vmaCount : Word := 0
  mmapStartAddr : Word := 0
  mmapEndAddr : Word := 0
  mmapAllocAddr : Word := 0
  deriving DecidableEq, Repr

/-- The loop of `add_mmstruct`: after the first node whose successor starts
at or above the end of the new one, or after the last node. -/
def insertAfter (vma : Vma) : List Vma → List Vma
  | [] => []
  | [curr] => [curr, vma]
  | curr :: next :: rest =>
      if vma.vmEnd ≤ next.vmStart then
        curr :: vma :: next :: rest
      else
        curr :: insertAfter vma (next :: rest)

/-- `add_mmstruct`, with `none` for its `-1`.  Only an empty or inverted
range is refused: the `return -1` after the loop is not reached. -/
def addMmstruct (mm : MmStruct) (vma : Vma) : Option MmStruct :=
  if vma.vmEnd ≤ vma.vmStart then
    none
  else
    let inserted :=
      match mm.vma with
      | [] => [vma]
      | first :: rest =>
          if vma.vmEnd ≤ first.vmEnd then
            vma :: first :: rest
          else
            insertAfter vma (first :: rest)
    some { mm with vma := inserted, vmaCount := mm.vmaCount + 1 }

/-- A store to fields of the node at an address. -/
def updateVma (addr : Word) (update : Vma → Vma) (vmas : List Vma) :
    List Vma :=
  vmas.map fun vma => if vma.addr = addr then update vma else vma

/-- `vma->vm_next = NULL` for the node at an address: what followed it is no
longer on the list. -/
def cutAfter (addr : Word) : List Vma → List Vma
  | [] => []
  | vma :: rest => if vma.addr = addr then [vma] else vma :: cutAfter addr rest

/-! ## Freeing the pages of a list -/

/-- The inner loop of `free_vma`; `fuel` bounds its passes. -/
def freeRange : Nat → Word → Word → Word → PagingM Unit
  | 0, _, _, _ => throw .outOfFuel
  | fuel + 1, physfree, endAddr, cr3Addr =>
      if physfree < endAddr then do
        freePage physfree cr3Addr
        freeRange fuel (physfree + 4096) endAddr cr3Addr
      else
        pure ()

/-- `free_vma`, on the list of the `mm` it is given. -/
def freeVma (fuel : Nat) (cr3Addr : Word) : List Vma → PagingM Unit
  | [] => pure ()
  | curr :: rest => do
      freeRange fuel curr.vmStart curr.vmEnd cr3Addr
      freeVma fuel cr3Addr rest

/-! ## The lists -/

/-- Insertion adds the new node and keeps all others. -/
theorem mem_insertAfter (vma other : Vma) :
    ∀ {vmas : List Vma}, vmas ≠ [] →
      (other ∈ insertAfter vma vmas ↔ other = vma ∨ other ∈ vmas)
  | [], nonempty => absurd rfl nonempty
  | [curr], _ => by
      simp [insertAfter, or_comm]
  | curr :: next :: rest, _ => by
      rw [insertAfter]
      split
      · simp only [List.mem_cons]
        tauto
      · simp only [List.mem_cons,
          mem_insertAfter vma other (List.cons_ne_nil next rest)]
        tauto

/-- `add_mmstruct` accepts exactly the nonempty ranges, and adds the node. -/
theorem addMmstruct_eq_none_iff {mm : MmStruct} {vma : Vma} :
    addMmstruct mm vma = none ↔ vma.vmEnd ≤ vma.vmStart := by
  unfold addMmstruct
  split
  · next refused => simpa using refused
  · next accepted => simpa using accepted

/-- The first branch: no node, or one that does not end before the new
one. -/
theorem addMmstruct_front {mm : MmStruct} {vma : Vma}
    (range : ¬ vma.vmEnd ≤ vma.vmStart)
    (front : ∀ first ∈ mm.vma.head?, vma.vmEnd ≤ first.vmEnd) :
    addMmstruct mm vma = some
      { mm with vma := vma :: mm.vma, vmaCount := mm.vmaCount + 1 } := by
  rw [addMmstruct, if_neg range]
  cases nodes : mm.vma with
  | nil => rfl
  | cons first rest =>
      have here : vma.vmEnd ≤ first.vmEnd := front first (by simp [nodes])
      dsimp only
      rw [if_pos here]

theorem addMmstruct_behind {mm : MmStruct} {vma first : Vma}
    {rest : List Vma} (range : ¬ vma.vmEnd ≤ vma.vmStart)
    (nodes : mm.vma = first :: rest) (behind : ¬ vma.vmEnd ≤ first.vmEnd) :
    addMmstruct mm vma = some
      { mm with
        vma := insertAfter vma (first :: rest)
        vmaCount := mm.vmaCount + 1 } := by
  rw [addMmstruct, if_neg range, nodes]
  dsimp only
  rw [if_neg behind]

theorem range_of_addMmstruct {mm added : MmStruct} {vma : Vma}
    (accepted : addMmstruct mm vma = some added) : vma.vmStart < vma.vmEnd := by
  apply BitVec.not_le.mp
  intro refused
  rw [addMmstruct_eq_none_iff.mpr refused] at accepted
  cases accepted

theorem vmaCount_of_addMmstruct {mm added : MmStruct} {vma : Vma}
    (accepted : addMmstruct mm vma = some added) :
    added.vmaCount = mm.vmaCount + 1 := by
  have range := BitVec.not_le.mpr (range_of_addMmstruct accepted)
  rw [addMmstruct, if_neg range] at accepted
  rw [← Option.some.inj accepted]

theorem mem_addMmstruct {mm added : MmStruct} {vma other : Vma}
    (accepted : addMmstruct mm vma = some added) :
    other ∈ added.vma ↔ other = vma ∨ other ∈ mm.vma := by
  unfold addMmstruct at accepted
  split at accepted
  · cases accepted
  · cases accepted
    cases nodes : mm.vma with
    | nil => simp
    | cons first rest =>
        dsimp only
        split
        · rw [List.mem_cons]
        · exact mem_insertAfter vma other (List.cons_ne_nil _ _)

/-- The loop of `add_mmstruct` puts the new node somewhere behind the
first. -/
theorem exists_split_insertAfter (vma : Vma) :
    ∀ {vmas : List Vma}, vmas ≠ [] →
      ∃ before after, before ≠ [] ∧ vmas = before ++ after ∧
        insertAfter vma vmas = before ++ vma :: after
  | [], nonempty => absurd rfl nonempty
  | [curr], _ => ⟨[curr], [], by simp, rfl, rfl⟩
  | curr :: next :: rest, _ => by
      rw [insertAfter]
      split
      · exact ⟨[curr], next :: rest, by simp, rfl, rfl⟩
      · obtain ⟨before, after, _, parts, inserted⟩ :=
          exists_split_insertAfter vma (List.cons_ne_nil next rest)
        exact ⟨curr :: before, after, by simp, by rw [parts]; rfl,
          by rw [inserted]; rfl⟩

/-- `add_mmstruct` keeps the old nodes in their order. -/
theorem exists_split_addMmstruct {mm added : MmStruct} {vma : Vma}
    (accepted : addMmstruct mm vma = some added) :
    ∃ before after, mm.vma = before ++ after ∧
      added.vma = before ++ vma :: after := by
  unfold addMmstruct at accepted
  split at accepted
  · cases accepted
  · cases accepted
    cases nodes : mm.vma with
    | nil => exact ⟨[], [], rfl, rfl⟩
    | cons first rest =>
        dsimp only
        split
        · exact ⟨[], first :: rest, rfl, rfl⟩
        · obtain ⟨before, after, _, parts, inserted⟩ :=
            exists_split_insertAfter vma (List.cons_ne_nil first rest)
          exact ⟨before, after, parts, inserted⟩

/-- A range behind all others goes to the end of the list. -/
theorem insertAfter_append {vma : Vma} :
    ∀ {vmas : List Vma}, vmas ≠ [] →
      (∀ other ∈ vmas, ¬ vma.vmEnd ≤ other.vmStart) →
        insertAfter vma vmas = vmas ++ [vma]
  | [], nonempty, _ => absurd rfl nonempty
  | [curr], _, _ => rfl
  | curr :: next :: rest, _, behind => by
      rw [insertAfter, if_neg (behind next (by simp)),
        insertAfter_append (List.cons_ne_nil next rest)
          fun other member => behind other (List.mem_cons_of_mem _ member)]
      rfl

theorem addMmstruct_append {mm : MmStruct} {vma : Vma}
    (some : mm.vma ≠ []) (range : vma.vmStart < vma.vmEnd)
    (behind : ∀ other ∈ mm.vma,
      other.vmStart < other.vmEnd ∧ other.vmEnd ≤ vma.vmStart) :
    addMmstruct mm vma = .some
      { mm with vma := mm.vma ++ [vma], vmaCount := mm.vmaCount + 1 } := by
  obtain ⟨first, rest, nodes⟩ := List.exists_cons_of_ne_nil some
  have ends : ¬ vma.vmEnd ≤ first.vmEnd := by
    have before := (behind first (by simp [nodes])).2
    simp only [BitVec.lt_def, BitVec.le_def] at *
    omega
  rw [addMmstruct_behind (BitVec.not_le.mpr range) nodes ends, ← nodes,
    insertAfter_append some]
  intro other member
  have before := behind other member
  simp only [BitVec.lt_def, BitVec.le_def] at *
  omega

/-! ## Order -/

/-- The ranges of two nodes have no byte in common. -/
def Vma.Apart (vma other : Vma) : Prop :=
  vma.vmEnd ≤ other.vmStart ∨ other.vmEnd ≤ vma.vmStart

/-- Nonempty ranges in increasing order that do not overlap. -/
structure Tidy (vmas : List Vma) : Prop where
  sorted : vmas.Pairwise fun vma other => vma.vmStart < other.vmStart
  nonempty : ∀ vma ∈ vmas, vma.vmStart < vma.vmEnd
  apart : vmas.Pairwise Vma.Apart

/-- In a tidy list every range ends before the later ones start. -/
theorem tidy_iff {vmas : List Vma} :
    Tidy vmas ↔ (∀ vma ∈ vmas, vma.vmStart < vma.vmEnd) ∧
      vmas.Pairwise fun vma other => vma.vmEnd ≤ other.vmStart := by
  constructor
  · intro tidy
    refine ⟨tidy.nonempty, ?_⟩
    apply (tidy.sorted.and tidy.apart).imp_of_mem
    intro vma other _ member both
    have later := tidy.nonempty other member
    rcases both with ⟨before, apart | apart⟩
    · exact apart
    · simp only [BitVec.lt_def, BitVec.le_def] at *
      omega
  · rintro ⟨nonempty, ordered⟩
    refine ⟨ordered.imp_of_mem ?_, nonempty, ordered.imp Or.inl⟩
    intro vma other member _ before
    have range := nonempty vma member
    simp only [BitVec.lt_def, BitVec.le_def] at *
    omega

/-- The loop of `add_mmstruct` keeps the order of a list that starts before
the new node. -/
theorem pairwise_insertAfter {vma : Vma} :
    ∀ {first : Vma} {rest : List Vma}, Tidy (first :: rest) →
      (∀ other ∈ first :: rest, vma.Apart other) →
        vma.vmStart < vma.vmEnd → first.vmEnd ≤ vma.vmStart →
          (insertAfter vma (first :: rest)).Pairwise
            fun vma other => vma.vmEnd ≤ other.vmStart
  | first, [], _, _, _, after => by
      simpa [insertAfter] using after
  | first, next :: rest, tidy, apart, nonempty, after => by
      obtain ⟨ranges, ordered⟩ := tidy_iff.mp tidy
      obtain ⟨beforeAll, orderedRest⟩ := List.pairwise_cons.mp ordered
      have tidyRest : Tidy (next :: rest) :=
        tidy_iff.mpr ⟨fun other member =>
          ranges other (List.mem_cons_of_mem _ member), orderedRest⟩
      rw [insertAfter]
      by_cases here : vma.vmEnd ≤ next.vmStart
      · rw [if_pos here]
        refine List.pairwise_cons.mpr ⟨?_, List.pairwise_cons.mpr ⟨?_,
          orderedRest⟩⟩
        · intro other member
          rcases List.mem_cons.mp member with rfl | old
          · exact after
          · exact beforeAll other old
        · intro other member
          rcases List.mem_cons.mp member with rfl | old
          · exact here
          · have beyond := (List.pairwise_cons.mp orderedRest).1 other old
            have range := ranges next (by simp)
            simp only [BitVec.lt_def, BitVec.le_def] at *
            omega
      · rw [if_neg here]
        have afterNext : next.vmEnd ≤ vma.vmStart :=
          (apart next (by simp)).resolve_left here
        refine List.pairwise_cons.mpr ⟨?_, pairwise_insertAfter tidyRest
          (fun other member => apart other (List.mem_cons_of_mem _ member))
          nonempty afterNext⟩
        intro other member
        rcases (mem_insertAfter vma other (List.cons_ne_nil _ _)).mp member with
          rfl | old
        · exact after
        · exact beforeAll other old

/-- `add_mmstruct` keeps a list tidy when the new range is apart from all. -/
theorem Tidy.addMmstruct {mm added : MmStruct} {vma : Vma}
    (tidy : Tidy mm.vma) (apart : ∀ other ∈ mm.vma, vma.Apart other)
    (accepted : addMmstruct mm vma = some added) : Tidy added.vma := by
  have nonempty := range_of_addMmstruct accepted
  obtain ⟨ranges, ordered⟩ := tidy_iff.mp tidy
  refine tidy_iff.mpr ⟨?_, ?_⟩
  · intro other member
    rcases (mem_addMmstruct accepted).mp member with rfl | old
    · exact nonempty
    · exact ranges other old
  · have range : ¬ vma.vmEnd ≤ vma.vmStart := BitVec.not_le.mpr nonempty
    cases nodes : mm.vma with
    | nil =>
        rw [addMmstruct_front range (by simp [nodes])] at accepted
        cases accepted
        simp [nodes]
    | cons first rest =>
        by_cases front : vma.vmEnd ≤ first.vmEnd
        · rw [addMmstruct_front range (by simpa [nodes] using front)]
            at accepted
          cases accepted
          rw [nodes] at ranges ordered apart ⊢
          refine List.pairwise_cons.mpr ⟨?_, ordered⟩
          have before : vma.vmEnd ≤ first.vmStart := by
            rcases apart first (by simp) with before | after
            · exact before
            · simp only [BitVec.lt_def, BitVec.le_def] at *
              omega
          intro other member
          rcases List.mem_cons.mp member with rfl | old
          · exact before
          · have beyond := (List.pairwise_cons.mp ordered).1 other old
            have range := ranges first (by simp)
            simp only [BitVec.lt_def, BitVec.le_def] at *
            omega
        · rw [addMmstruct_behind range nodes front] at accepted
          cases accepted
          rw [nodes] at tidy apart ranges
          apply pairwise_insertAfter tidy apart nonempty
          rcases apart first (by simp) with before | after
          · have range := ranges first (by simp)
            simp only [BitVec.lt_def, BitVec.le_def] at *
            omega
          · exact after

end SbuUnix
