import SbuUnix.Library.Outcome

/-!
# Programs that run out of a resource

`Meters meter program ideal` compares a program that fails when a resource is
used up with an ideal one that takes as much of it as it likes and counts.
The program does what the ideal one does as long as the budget covers that,
and otherwise stops with the one failure.
-/

namespace Outcome

/-- How a state of the ideal program stands for a state of the program. -/
structure Meter (σ τ ε : Type) where
  budget : Nat
  taken : τ → Nat
  state : τ → σ
  failure : ε

variable {σ τ ε α β : Type} {meter : Meter σ τ ε}

def Meters (meter : Meter σ τ ε) (program : StateT σ (Except ε) α)
    (ideal : StateM τ α) : Prop :=
  ∀ start, meter.taken start ≤ meter.taken (ideal start).2 ∧
    (meter.taken start ≤ meter.budget →
      program (meter.state start) =
        if meter.taken (ideal start).2 ≤ meter.budget then
          .ok ((ideal start).1, meter.state (ideal start).2)
        else
          .error meter.failure)

/-- A program that takes the resource, by its two ways to end. -/
theorem meters_of {program : StateT σ (Except ε) α} {ideal : StateM τ α}
    (more : ∀ start, meter.taken start ≤ meter.taken (ideal start).2)
    (returns : ∀ start, meter.taken (ideal start).2 ≤ meter.budget →
      program (meter.state start) =
        .ok ((ideal start).1, meter.state (ideal start).2))
    (fails : ∀ start, meter.taken start ≤ meter.budget →
      meter.budget < meter.taken (ideal start).2 →
        program (meter.state start) = .error meter.failure) :
    Meters meter program ideal := by
  intro start
  refine ⟨more start, fun within => ?_⟩
  by_cases covered : meter.taken (ideal start).2 ≤ meter.budget
  · rw [if_pos covered, returns start covered]
  · rw [if_neg covered, fails start within (Nat.not_le.mp covered)]

theorem meters_pure (value : α) :
    Meters meter (pure value : StateT σ (Except ε) α) (pure value) := by
  intro start
  refine ⟨Nat.le_refl _, fun within => ?_⟩
  exact (if_pos within).symm

theorem meters_bind {program : StateT σ (Except ε) α}
    {rest : α → StateT σ (Except ε) β} {ideal : StateM τ α}
    {idealRest : α → StateM τ β} (first : Meters meter program ideal)
    (second : ∀ value, Meters meter (rest value) (idealRest value)) :
    Meters meter (program >>= rest) (ideal >>= idealRest) := by
  intro start
  obtain ⟨firstMore, runs⟩ := first start
  obtain ⟨secondMore, runsOn⟩ := second (ideal start).1 (ideal start).2
  refine ⟨Nat.le_trans firstMore secondMore, fun within => ?_⟩
  have ran := runs within
  by_cases covered : meter.taken (ideal start).2 ≤ meter.budget
  · rw [if_pos covered] at ran
    rw [bind_of_ok ran, runsOn covered]
    rfl
  · rw [if_neg covered] at ran
    have short : ¬ meter.taken ((ideal >>= idealRest) start).2 ≤
        meter.budget :=
      fun all => covered (Nat.le_trans secondMore all)
    rw [if_neg short]
    simp only [bind, StateT.bind, Except.bind, ran]

/-- Reading the state; the rest depends on what is read. -/
theorem meters_get {rest : σ → StateT σ (Except ε) β}
    {idealRest : τ → StateM τ β}
    (same : ∀ ledger, Meters meter (rest (meter.state ledger))
      (idealRest ledger)) :
    Meters meter (get >>= rest) (get >>= idealRest) :=
  fun start => same start start

theorem meters_modify {update : σ → σ} {idealUpdate : τ → τ}
    (takesNone : ∀ ledger,
      meter.taken (idealUpdate ledger) = meter.taken ledger)
    (same : ∀ ledger,
      meter.state (idealUpdate ledger) = update (meter.state ledger)) :
    Meters meter (modify update : StateT σ (Except ε) PUnit)
      (modify idealUpdate) := by
  intro start
  refine ⟨Nat.le_of_eq (takesNone start).symm, fun within => ?_⟩
  have covered : meter.taken (idealUpdate start) ≤ meter.budget :=
    takesNone start ▸ within
  change Except.ok (PUnit.unit, update (meter.state start)) =
    if meter.taken (idealUpdate start) ≤ meter.budget then
      Except.ok (PUnit.unit, meter.state (idealUpdate start))
    else
      Except.error meter.failure
  rw [if_pos covered, same start]

theorem meters_ite (condition : Prop) [Decidable condition]
    {first second : StateT σ (Except ε) α} {idealFirst idealSecond : StateM τ α}
    (holds : Meters meter first idealFirst)
    (fails : Meters meter second idealSecond) :
    Meters meter (if condition then first else second)
      (if condition then idealFirst else idealSecond) := by
  split
  · exact holds
  · exact fails

/-- A covered run ends where the ideal one does. -/
theorem Meters.returns {program : StateT σ (Except ε) α} {ideal : StateM τ α}
    (meters : Meters meter program ideal) {start : τ}
    (covered : meter.taken (ideal start).2 ≤ meter.budget) :
    program (meter.state start) =
      .ok ((ideal start).1, meter.state (ideal start).2) := by
  obtain ⟨more, runs⟩ := meters start
  rw [runs (Nat.le_trans more covered), if_pos covered]

theorem Meters.fails {program : StateT σ (Except ε) α} {ideal : StateM τ α}
    (meters : Meters meter program ideal) {start : τ}
    (within : meter.taken start ≤ meter.budget)
    (short : meter.budget < meter.taken (ideal start).2) :
    program (meter.state start) = .error meter.failure := by
  rw [(meters start).2 within, if_neg (Nat.not_le.mpr short)]

end Outcome
