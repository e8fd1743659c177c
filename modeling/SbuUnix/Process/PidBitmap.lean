import SbuUnix.Process.Identity

/-!
# The map of process identities

What one call of `get_next_processID` does to any map.  The bit that it sets
is computed as an `int`: bit 31 comes with all the bits above it, and the
upper half of the map is never reached by a shift.
-/

namespace SbuUnix

open Outcome

/-- The lowest clear bit of a map. -/
structure LowestClear (map : Word) (i : Nat) : Prop where
  inMap : i < 64
  clear : map.getLsbD i = false
  lowest : ∀ j < i, map.getLsbD j = true

/-- The kernel with another map. -/
def Kernel.withProcessID (k : Kernel) (map : Word) : Kernel :=
  { k with procs := { k.procs with processID := map } }

/-- A call returns the identity of the lowest clear bit and sets that bit
alone, and changes nothing when the map is full. -/
structure TakesLowest (k : Kernel) : Prop where
  lowest : ∀ i, LowestClear k.procs.processID i →
    getNextProcessID k = .ok (BitVec.ofNat 32 (i + 1),
      k.withProcessID (k.procs.processID ||| BitVec.twoPow 64 i))
  full : k.procs.processID = BitVec.allOnes 64 →
    getNextProcessID k = .ok (-1, k)

/-- The shift sets the lowest clear bit of a map and no other one. -/
def SetsLowest (map : Word) : Prop :=
  ∀ i, LowestClear map i →
    i < 31 ∨ (i = 31 ∧ ∀ j, 31 < j → j < 64 → map.getLsbD j = true) ∨ i = 63

/-- `n` calls in a row, with what they return. -/
def getNextProcessIDs : Nat → KernelM (List (BitVec 32))
  | 0 => pure []
  | n + 1 => do
      let pid ← getNextProcessID
      let pids ← getNextProcessIDs n
      pure (pid :: pids)

/-! ## One call -/

theorem getNextProcessID_eq (k : Kernel) :
    getNextProcessID k = .ok ((takeID k.procs.processID).1,
      k.withProcessID (takeID k.procs.processID).2) := by
  rw [getNextProcessID, takeID,
    bind_of_ok (show globals k = .ok (k.procs, k) from rfl)]
  cases (List.range maxProcessCount).find? fun i =>
      (k.procs.processID >>> i) &&& 1 = 0 with
  | none => rfl
  | some i => rfl

theorem shifted_and_one (map : Word) (i : Nat) :
    (map >>> i) &&& 1 = 0 ↔ map.getLsbD i = false := by
  have bits : ∀ j, ((map >>> i) &&& 1).getLsbD j =
      (map.getLsbD (i + j) && decide (j = 0)) := by
    intro j
    simp [BitVec.getLsbD_one]
  constructor
  · intro isZero
    have first := bits 0
    rw [isZero] at first
    simpa using first.symm
  · intro clear
    apply BitVec.eq_of_getLsbD_eq
    intro j _
    rw [bits]
    by_cases first : j = 0
    · simp [first, clear]
    · simp [first]

theorem takeID_of_lowest {map : Word} {i : Nat} (found : LowestClear map i) :
    takeID map = (BitVec.ofNat 32 (i + 1), map ||| idBit i) := by
  have search : ((List.range maxProcessCount).find? fun i =>
      (map >>> i) &&& 1 = 0) = some i := by
    rw [List.find?_range_eq_some]
    simp only [decide_eq_true_eq, shifted_and_one, Bool.not_eq_true',
      decide_eq_false_iff_not]
    refine ⟨found.clear, List.mem_range.mpr found.inMap, ?_⟩
    intro j below
    rw [found.lowest j below]
    decide
  unfold takeID
  rw [search]

theorem takeID_full : takeID (BitVec.allOnes 64) = (-1, BitVec.allOnes 64) := by
  decide +kernel

/-- The sign of the `int` fills the upper half. -/
theorem idBit_getLsbD (i : Nat) {j : Nat} (small : j < 64) :
    (idBit i).getLsbD j = decide (j = i % 32 ∨ i % 32 = 31 ∧ 31 < j) := by
  have inside : i % 32 < 32 := Nat.mod_lt i (by decide)
  have shifted : idBit i = (BitVec.twoPow 32 (i % 32)).signExtend 64 := rfl
  rw [shifted, BitVec.getLsbD_signExtend, BitVec.msb_twoPow,
    BitVec.getLsbD_twoPow]
  by_cases lower : j < 32
  · rw [if_pos lower]
    simp only [small, inside, decide_true, Bool.true_and, decide_eq_decide]
    omega
  · rw [if_neg lower]
    simp only [small, inside, decide_true, Bool.true_and, decide_eq_decide]
    omega

/-- Where the `int` that is shifted sets one bit. -/
theorem or_idBit_iff {map : Word} {i : Nat} (found : LowestClear map i) :
    map ||| idBit i = map ||| BitVec.twoPow 64 i ↔
      i < 31 ∨ (i = 31 ∧ ∀ j, 31 < j → j < 64 → map.getLsbD j = true) ∨
        i = 63 := by
  have inMap := found.inMap
  have bits : map ||| idBit i = map ||| BitVec.twoPow 64 i ↔
      ∀ j < 64, map.getLsbD j = false →
        ((j = i % 32 ∨ i % 32 = 31 ∧ 31 < j) ↔ i = j) := by
    rw [BitVec.eq_of_getLsbD_eq_iff]
    apply forall_congr'
    intro j
    apply imp_congr_right
    intro small
    rw [BitVec.getLsbD_or, BitVec.getLsbD_or, idBit_getLsbD i small,
      BitVec.getLsbD_twoPow]
    cases map.getLsbD j with
    | false =>
        simp only [Bool.false_or, inMap, decide_true, Bool.true_and,
          forall_const, decide_eq_decide]
    | true => simp
  rw [bits]
  constructor
  · intro agrees
    by_cases low : i < 31
    · exact Or.inl low
    by_cases signBit : i = 31
    · refine Or.inr (Or.inl ⟨signBit, fun j above small => ?_⟩)
      by_contra notSet
      rw [Bool.not_eq_true] at notSet
      have same := (agrees j small notSet).mp (Or.inr (by omega))
      omega
    · have own := (agrees i inMap found.clear).mpr rfl
      omega
  · rintro (low | ⟨rfl, set⟩ | rfl) j small clear
    · omega
    · constructor
      · rintro (same | ⟨-, above⟩)
        · exact same.symm
        · rw [set j above small] at clear
          cases clear
      · intro same
        exact Or.inl same.symm
    · rcases Nat.lt_or_ge j 63 with below | last
      · rw [found.lowest j below] at clear
        cases clear
      · omega

/-- A call does what it should exactly on the maps whose lowest clear bit the
shift sets. -/
theorem takesLowest_iff (k : Kernel) :
    TakesLowest k ↔ SetsLowest k.procs.processID := by
  constructor
  · intro takes i found
    have returned := takes.lowest i found
    rw [getNextProcessID_eq, takeID_of_lowest found] at returned
    injection returned with results
    injection results with _ kernels
    have maps := congrArg (fun k : Kernel => k.procs.processID) kernels
    exact (or_idBit_iff found).mp maps
  · intro sets
    constructor
    · intro i found
      rw [getNextProcessID_eq, takeID_of_lowest found]
      dsimp only
      rw [(or_idBit_iff found).mpr (sets i found)]
    · intro full
      rw [getNextProcessID_eq, full, takeID_full, ← full]
      rfl

/-! ## Calls in a row -/

/-- What the `n`th call returns, from an empty map on. -/
def nthID (n : Nat) : BitVec 32 :=
  if n ≤ 32 then BitVec.ofNat 32 n else -1

theorem takeID_nth (n : Nat) :
    takeID (usedIDs n) = (nthID (n + 1), usedIDs (n + 1)) := by
  rcases Nat.lt_or_ge n 32 with room | full
  · rw [takeID_usedIDs n room, nthID, if_pos (Nat.succ_le_of_lt room)]
  · rw [usedIDs, if_neg (by omega), takeID_full, nthID, if_neg (by omega),
      usedIDs, if_neg (by omega)]

/-- The map before the calls says which ones have been made. -/
theorem getNextProcessIDs_eq (n : Nat) :
    ∀ (used : Nat) (k : Kernel), k.procs.processID = usedIDs used →
      getNextProcessIDs n k = .ok ((List.range' (used + 1) n).map nthID,
        k.withProcessID (usedIDs (used + n))) := by
  induction n with
  | zero =>
      intro used k map
      show Except.ok ([], k) = Except.ok ([], k.withProcessID (usedIDs used))
      rw [← map]
      rfl
  | succ n inductionHypothesis =>
      intro used k map
      have first : getNextProcessID k = .ok (nthID (used + 1),
          k.withProcessID (usedIDs (used + 1))) := by
        rw [getNextProcessID_eq, map, takeID_nth]
      have later := inductionHypothesis (used + 1)
        (k.withProcessID (usedIDs (used + 1))) rfl
      show (getNextProcessID k >>= fun result =>
        getNextProcessIDs n result.2 >>= fun more =>
          pure (result.1 :: more.1, more.2)) = _
      rw [first]
      show (getNextProcessIDs n (k.withProcessID (usedIDs (used + 1))) >>= _) =
        _
      rw [later, Nat.add_assoc used 1 n, Nat.add_comm 1 n]
      rfl

theorem nthIDs_eq_iff (n : Nat) :
    (List.range' 1 n).map nthID = (List.range' 1 n).map (BitVec.ofNat 32) ↔
      n ≤ 32 := by
  rw [List.map_inj_left]
  constructor
  · intro same
    by_contra many
    have late := same 33 (List.mem_range'_1.mpr (by omega))
    exact absurd late (by decide)
  · intro few id member
    rw [List.mem_range'_1] at member
    exact if_pos (by omega)

/-- The identities of the lowest clear bits come from every map on which the
shift sets them; from the empty map on, that is true of 32 calls. -/
theorem getNextProcessID_lowest_iff (k : Kernel) :
    (TakesLowest k ↔ SetsLowest k.procs.processID) ∧
      (k.procs.processID = 0 → ∀ n, ∃ pids after,
        getNextProcessIDs n k = .ok (pids, after) ∧
          (pids = (List.range' 1 n).map (BitVec.ofNat 32) ↔ n ≤ 32)) := by
  refine ⟨takesLowest_iff k, fun empty n => ?_⟩
  exact ⟨_, _, getNextProcessIDs_eq n 0 k empty, nthIDs_eq_iff n⟩

/-- A kernel with a map of identities and no process. -/
def kernelOf (map : Word) : Kernel where
  paging :=
    { mem := fun _ _ => 0
      freeMap := fun _ => 0
      cr3 := 0 }
  procs :=
    { pcb := fun _ => none
      processID := map }

/-- Behind 31 identities the next one takes all that are left, and call 33
from the empty map on finds none. -/
theorem not_takesLowest :
    ¬ TakesLowest (kernelOf (usedIDs 31)) ∧
      getNextProcessID (kernelOf (usedIDs 31)) =
        .ok (32, kernelOf (BitVec.allOnes 64)) ∧
      ∃ after, getNextProcessIDs 33 (kernelOf 0) =
        .ok ((List.range' 1 32).map (BitVec.ofNat 32) ++ [-1], after) := by
  refine ⟨?_, rfl, _, getNextProcessIDs_eq 33 0 (kernelOf 0) rfl⟩
  rw [takesLowest_iff]
  intro sets
  have lowest : LowestClear (usedIDs 31) 31 := ⟨by decide, by decide, by decide⟩
  rcases sets 31 lowest with below | ⟨-, set⟩ | above
  · omega
  · exact absurd (set 32 (by decide) (by decide)) (by decide)
  · omega

end SbuUnix
