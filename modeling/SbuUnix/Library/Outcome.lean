import Mathlib.Control.Monad.Basic
import Mathlib.Tactic.Common

/-!
# Outcomes of programs over a state that can fail

`Yields allowed program state post` says that `program`, started in `state`,
either stops with one of the `allowed` failures or returns a value and a
state that satisfy `post`.  It is the weakest precondition of total programs
over `StateT σ (Except ε)`, so one proof of `Yields` gives both that no other
failure happens and what holds on return.
-/

namespace Outcome

universe u

variable {σ ε α β : Type u} {allowed : ε → Prop}

/-- Every way `program` can end in from `state` is an allowed failure or a
return that satisfies `post`. -/
def Yields (allowed : ε → Prop) (program : StateT σ (Except ε) α)
    (state : σ) (post : α → σ → Prop) : Prop :=
  match program state with
  | .ok (value, next) => post value next
  | .error failure => allowed failure

theorem yields_of_ok
    {program : StateT σ (Except ε) α} {state next : σ} {value : α}
    {post : α → σ → Prop}
    (yields : Yields allowed program state post)
    (returned : program state = .ok (value, next)) :
    post value next := by
  simpa only [Yields, returned] using yields

/-- What a program yields, it also returned. -/
theorem Yields.returned
    {program : StateT σ (Except ε) α} {state : σ} {post : α → σ → Prop}
    (yields : Yields allowed program state post) :
    Yields allowed program state fun value next =>
      program state = .ok (value, next) ∧ post value next := by
  unfold Yields at yields ⊢
  cases ending : program state with
  | ok result =>
      rw [ending] at yields
      exact ⟨rfl, yields⟩
  | error failure =>
      rw [ending] at yields
      exact yields

/-- A program that does not stop with an allowed failure returns. -/
theorem Yields.returns
    {program : StateT σ (Except ε) α} {state : σ} {post : α → σ → Prop}
    (yields : Yields allowed program state post)
    (noFailure : ∀ failure, allowed failure →
      program state ≠ .error failure) :
    ∃ value next, program state = .ok (value, next) ∧ post value next := by
  unfold Yields at yields
  cases ending : program state with
  | ok result =>
      rw [ending] at yields
      exact ⟨result.1, result.2, rfl, yields⟩
  | error failure =>
      rw [ending] at yields
      exact absurd ending (noFailure failure yields)

/-- A program whose run is known. -/
theorem yields_iff_of_ok
    {program : StateT σ (Except ε) α} {state next : σ} {value : α}
    {post : α → σ → Prop}
    (returned : program state = .ok (value, next)) :
    Yields allowed program state post ↔ post value next := by
  simp only [Yields, returned]

/-- Runs that are equal end alike. -/
theorem yields_congr
    {program other : StateT σ (Except ε) α} {state otherState : σ}
    {post : α → σ → Prop} (same : program state = other otherState) :
    Yields allowed program state post ↔
      Yields allowed other otherState post := by
  simp only [Yields, same]

theorem Yields.mono
    {program : StateT σ (Except ε) α} {state : σ}
    {post weaker : α → σ → Prop}
    (yields : Yields allowed program state post)
    (implied : ∀ value next, post value next → weaker value next) :
    Yields allowed program state weaker := by
  unfold Yields at yields ⊢
  split
  · next value next returned =>
      rw [returned] at yields
      exact implied value next yields
  · next failure failed =>
      rw [failed] at yields
      exact yields

/-- Further failures may be allowed. -/
theorem Yields.weaken {more : ε → Prop}
    {program : StateT σ (Except ε) α} {state : σ} {post : α → σ → Prop}
    (yields : Yields allowed program state post)
    (implied : ∀ failure, allowed failure → more failure) :
    Yields more program state post := by
  unfold Yields at yields ⊢
  split
  · next value next returned =>
      rw [returned] at yields
      exact yields
  · next failure failed =>
      rw [failed] at yields
      exact implied failure yields

theorem yields_pure (value : α) (state : σ) {post : α → σ → Prop} :
    Yields allowed (pure value) state post ↔ post value state :=
  Iff.rfl

theorem yields_throw (failure : ε) (state : σ) {post : α → σ → Prop} :
    Yields allowed (throw failure : StateT σ (Except ε) α) state post ↔
      allowed failure :=
  Iff.rfl

theorem yields_get (state : σ) {post : σ → σ → Prop} :
    Yields allowed (get : StateT σ (Except ε) σ) state post ↔
      post state state :=
  Iff.rfl

theorem yields_modify
    {τ : Type} {failures : Type} {allowed : failures → Prop}
    (update : τ → τ) (state : τ) {post : PUnit → τ → Prop} :
    Yields allowed (modify update : StateT τ (Except failures) PUnit)
        state post ↔
      post ⟨⟩ (update state) :=
  Iff.rfl

/-- Sequencing: run the first program, then the second from wherever the
first one returned. -/
theorem yields_bind
    (program : StateT σ (Except ε) α) (rest : α → StateT σ (Except ε) β)
    (state : σ) {post : β → σ → Prop} :
    Yields allowed (program >>= rest) state post ↔
      Yields allowed program state fun value next =>
        Yields allowed (rest value) next post := by
  unfold Yields
  simp only [bind, StateT.bind, Except.bind]
  cases program state with
  | ok result => rfl
  | error failure => rfl

theorem yields_ite
    (condition : Prop) [Decidable condition]
    (first second : StateT σ (Except ε) α) (state : σ)
    {post : α → σ → Prop} :
    Yields allowed (if condition then first else second) state post ↔
      (condition → Yields allowed first state post) ∧
        (¬ condition → Yields allowed second state post) := by
  by_cases holds : condition <;> simp [holds]

/-- A sequence without state that returned. -/
theorem exists_of_bind_ok {first : Except ε α} {rest : α → Except ε β}
    {value : β} (returned : (first >>= rest) = .ok value) :
    ∃ middle, first = .ok middle ∧ rest middle = .ok value := by
  cases first with
  | error failure => cases returned
  | ok middle => exact ⟨middle, rfl, returned⟩

/-- A returned sequence splits at the point between its two programs. -/
theorem bind_eq_ok_iff
    {program : StateT σ (Except ε) α} {rest : α → StateT σ (Except ε) β}
    {state next : σ} {value : β} :
    (program >>= rest) state = .ok (value, next) ↔
      ∃ middle between,
        program state = .ok (middle, between) ∧
          rest middle between = .ok (value, next) := by
  simp only [bind, StateT.bind, Except.bind]
  cases program state with
  | ok result =>
      constructor
      · intro returned
        exact ⟨result.1, result.2, rfl, returned⟩
      · rintro ⟨middle, between, first, second⟩
        cases first
        exact second
  | error failure =>
      simp

/-- Running past a program whose outcome is known. -/
theorem bind_of_ok
    {program : StateT σ (Except ε) α} {rest : α → StateT σ (Except ε) β}
    {state next : σ} {value : α}
    (returned : program state = .ok (value, next)) :
    (program >>= rest) state = rest value next := by
  simp only [bind, StateT.bind, Except.bind, returned]

section Zoom

variable {τ : Type u}

/-- A program over a part of the state: `view` reads the part and `update`
puts it back. -/
def zoom (view : τ → σ) (update : σ → τ → τ)
    (program : StateT σ (Except ε) α) : StateT τ (Except ε) α :=
  fun state =>
    match program (view state) with
    | .ok (value, part) => .ok (value, update part state)
    | .error failure => .error failure

theorem yields_zoom {view : τ → σ} {update : σ → τ → τ}
    (program : StateT σ (Except ε) α) (state : τ) {post : α → τ → Prop} :
    Yields allowed (zoom view update program) state post ↔
      Yields allowed program (view state) fun value part =>
        post value (update part state) := by
  simp only [Yields, zoom]
  cases program (view state) with
  | ok result => rfl
  | error failure => rfl

end Zoom

section Loops

/-- `for (i = 0; i < count; i++) body(i);` -/
def forUpto {σ ε : Type} :
    Nat → (Nat → StateT σ (Except ε) Unit) → StateT σ (Except ε) Unit
  | 0, _ => pure ()
  | count + 1, body => do
      forUpto count body
      body count

@[simp]
theorem forUpto_zero {σ ε : Type} (body : Nat → StateT σ (Except ε) Unit) :
    forUpto 0 body = pure () :=
  rfl

theorem forUpto_succ {σ ε : Type} (count : Nat)
    (body : Nat → StateT σ (Except ε) Unit) :
    forUpto (count + 1) body = forUpto count body >>= fun _ => body count :=
  rfl

-- Loops of 512 passes are not to be unrolled while statements are checked.
attribute [irreducible] forUpto

/-- A counted loop establishes whatever its body carries from each index to
the next one. -/
theorem yields_forUpto
    {σ ε : Type} {allowed : ε → Prop}
    {body : Nat → StateT σ (Except ε) Unit}
    (invariant : Nat → σ → Prop) {state : σ} (count : Nat)
    (initially : invariant 0 state)
    (step : ∀ index, index < count → ∀ current, invariant index current →
      Yields allowed (body index) current fun _ next =>
        invariant (index + 1) next) :
    Yields allowed (forUpto count body) state fun _ next =>
      invariant count next := by
  induction count with
  | zero =>
      rw [forUpto_zero, yields_pure]
      exact initially
  | succ count inductionHypothesis =>
      rw [forUpto_succ, yields_bind]
      refine (inductionHypothesis fun index below =>
        step index (Nat.lt_succ_of_lt below)).mono ?_
      intro _ current holds
      exact step count (Nat.lt_succ_self count) current holds

end Loops

section Keeps

variable {σ ε α β τ : Type} {relation : σ → σ → Prop}

/-- Every run that returns leads to a related state. -/
def Keeps (relation : σ → σ → Prop) (program : StateT σ (Except ε) α) :
    Prop :=
  ∀ state value next, program state = .ok (value, next) → relation state next

theorem Keeps.yields {allowed : ε → Prop} {program : StateT σ (Except ε) α}
    (keeps : Keeps relation program) {state : σ} {post : α → σ → Prop}
    (yields : Yields allowed program state post) :
    Yields allowed program state fun value next =>
      relation state next ∧ post value next :=
  yields.returned.mono fun value next ending =>
    ⟨keeps state value next ending.1, ending.2⟩

theorem keeps_pure (reflexive : ∀ state, relation state state) (value : α) :
    Keeps relation (pure value : StateT σ (Except ε) α) := by
  intro state _ next returned
  cases returned
  exact reflexive state

theorem keeps_throw (failure : ε) :
    Keeps relation (throw failure : StateT σ (Except ε) α) := by
  intro state value next returned
  cases returned

theorem keeps_get (reflexive : ∀ state, relation state state) :
    Keeps relation (get : StateT σ (Except ε) σ) := by
  intro state _ next returned
  cases returned
  exact reflexive state

theorem keeps_modify {update : σ → σ}
    (updated : ∀ state, relation state (update state)) :
    Keeps relation (modify update : StateT σ (Except ε) PUnit) := by
  intro state _ next returned
  cases returned
  exact updated state

theorem keeps_bind
    (transitive : ∀ first second third,
      relation first second → relation second third → relation first third)
    {program : StateT σ (Except ε) α} {rest : α → StateT σ (Except ε) β}
    (first : Keeps relation program)
    (second : ∀ value, Keeps relation (rest value)) :
    Keeps relation (program >>= rest) := by
  intro state value next returned
  obtain ⟨middle, between, ran, continued⟩ := bind_eq_ok_iff.mp returned
  exact transitive state between next (first state middle between ran)
    (second middle between value next continued)

theorem keeps_ite (condition : Prop) [Decidable condition]
    {first second : StateT σ (Except ε) α}
    (holds : Keeps relation first) (fails : Keeps relation second) :
    Keeps relation (if condition then first else second) := by
  split
  · exact holds
  · exact fails

/-- What every pass of a counted loop keeps, the whole loop keeps. -/
theorem keeps_forUpto
    (reflexive : ∀ state, relation state state)
    (transitive : ∀ first second third,
      relation first second → relation second third → relation first third)
    {body : Nat → StateT σ (Except ε) Unit}
    (step : ∀ index, Keeps relation (body index)) (count : Nat) :
    Keeps relation (forUpto count body) := by
  induction count with
  | zero =>
      rw [forUpto_zero]
      exact keeps_pure reflexive ()
  | succ count inductionHypothesis =>
      rw [forUpto_succ]
      exact keeps_bind transitive inductionHypothesis fun _ => step count

theorem keeps_zoom {view : τ → σ} {update : σ → τ → τ}
    {whole : τ → τ → Prop} {program : StateT σ (Except ε) α}
    (keeps : Keeps relation program)
    (lifted : ∀ state part, relation (view state) part →
      whole state (update part state)) :
    Keeps whole (zoom view update program) := by
  intro state value next returned
  unfold zoom at returned
  cases ending : program (view state) with
  | ok result =>
      rw [ending] at returned
      cases returned
      exact lifted state _ (keeps _ _ _ ending)
  | error failure =>
      rw [ending] at returned
      cases returned

end Keeps

section Stops

variable {σ ε α β τ : Type} {allowed : ε → Prop}

/-- From no state does the program stop with another failure. -/
def StopsOnly (allowed : ε → Prop) (program : StateT σ (Except ε) α) : Prop :=
  ∀ state, Yields allowed program state fun _ _ => True

theorem StopsOnly.yields {program : StateT σ (Except ε) α}
    (stops : StopsOnly allowed program) {state : σ} {post : α → σ → Prop}
    (holds : ∀ value next, program state = .ok (value, next) →
      post value next) :
    Yields allowed program state post :=
  (stops state).returned.mono fun value next ending =>
    holds value next ending.1

/-- What is known of the runs that return is all that is left to know. -/
theorem StopsOnly.strengthen {more : ε → Prop}
    {program : StateT σ (Except ε) α} (stops : StopsOnly allowed program)
    {state : σ} {post : α → σ → Prop}
    (yields : Yields more program state post) :
    Yields allowed program state post :=
  stops.yields fun _ _ returned => yields_of_ok yields returned

theorem stopsOnly_pure (value : α) :
    StopsOnly allowed (pure value : StateT σ (Except ε) α) :=
  fun _ => trivial

theorem stopsOnly_throw {failure : ε} (permitted : allowed failure) :
    StopsOnly allowed (throw failure : StateT σ (Except ε) α) :=
  fun _ => permitted

theorem stopsOnly_get :
    StopsOnly allowed (get : StateT σ (Except ε) σ) :=
  fun _ => trivial

theorem stopsOnly_modify {update : σ → σ} :
    StopsOnly allowed (modify update : StateT σ (Except ε) PUnit) :=
  fun _ => trivial

theorem stopsOnly_bind {program : StateT σ (Except ε) α}
    {rest : α → StateT σ (Except ε) β} (first : StopsOnly allowed program)
    (second : ∀ value, StopsOnly allowed (rest value)) :
    StopsOnly allowed (program >>= rest) := by
  intro state
  rw [yields_bind]
  apply (first state).mono
  exact fun value next _ => second value next

theorem stopsOnly_ite (condition : Prop) [Decidable condition]
    {first second : StateT σ (Except ε) α} (holds : StopsOnly allowed first)
    (fails : StopsOnly allowed second) :
    StopsOnly allowed (if condition then first else second) := by
  split
  · exact holds
  · exact fails

theorem stopsOnly_forUpto {body : Nat → StateT σ (Except ε) Unit}
    (passes : ∀ index, StopsOnly allowed (body index)) (count : Nat) :
    StopsOnly allowed (forUpto count body) :=
  fun _ => yields_forUpto (fun _ _ => True) count trivial
    fun index _ current _ => passes index current

theorem stopsOnly_zoom {view : τ → σ} {update : σ → τ → τ}
    {program : StateT σ (Except ε) α} (stops : StopsOnly allowed program) :
    StopsOnly allowed (zoom view update program) := by
  intro state
  rw [yields_zoom]
  exact stops (view state)

end Stops

section Runs

variable {σ ε ι : Type}

/-- One operation after the other. -/
def runAll (serve : ι → StateT σ (Except ε) Unit) :
    List ι → StateT σ (Except ε) Unit
  | [] => pure ()
  | operation :: rest => do
      serve operation
      runAll serve rest

/-- Every operation of a run meets a condition on the state it starts in. -/
def EachMeets (serve : ι → StateT σ (Except ε) Unit)
    (condition : ι → σ → Prop) : List ι → σ → Prop
  | [], _ => True
  | operation :: rest, state =>
      condition operation state ∧
        ∀ next, serve operation state = .ok ((), next) →
          EachMeets serve condition rest next

/-- What every step that meets the condition keeps, every run of such steps
keeps. -/
theorem runAll_keeps
    {serve : ι → StateT σ (Except ε) Unit} {condition : ι → σ → Prop}
    {invariant : σ → Prop}
    (step : ∀ operation state next, invariant state →
      condition operation state →
        serve operation state = .ok ((), next) → invariant next)
    (operations : List ι) :
    ∀ state next, invariant state →
      EachMeets serve condition operations state →
        runAll serve operations state = .ok ((), next) → invariant next := by
  induction operations with
  | nil =>
      intro state next holds _ returned
      cases returned
      exact holds
  | cons operation rest inductionHypothesis =>
      intro state next holds meets returned
      obtain ⟨_, between, first, second⟩ := bind_eq_ok_iff.mp returned
      exact inductionHypothesis between next
        (step operation state between holds meets.1 first)
        (meets.2 between first) second

/-- A run whose steps end well or with an allowed failure while the invariant
holds, and keep it. -/
theorem yields_runAll
    {allowed : ε → Prop} {serve : ι → StateT σ (Except ε) Unit}
    {condition : ι → σ → Prop} {invariant : σ → Prop} :
    ∀ {operations : List ι} {state : σ},
      (∀ operation ∈ operations, ∀ state, invariant state →
        condition operation state →
          Yields allowed (serve operation) state fun _ next =>
            invariant next) →
        invariant state → EachMeets serve condition operations state →
          Yields allowed (runAll serve operations) state fun _ next =>
            invariant next := by
  intro operations
  induction operations with
  | nil => exact fun _ holds _ => holds
  | cons operation rest inductionHypothesis =>
      intro state step holds meets
      apply (yields_bind _ _ state).mpr
      have first := step operation (List.mem_cons_self ..) state holds meets.1
      apply first.returned.mono
      rintro _ next ⟨returned, holdsNext⟩
      exact inductionHypothesis
        (fun other member => step other (List.mem_cons_of_mem _ member))
        holdsNext (meets.2 next returned)

/-- A run of two parts passes through a state between them. -/
theorem runAll_append {serve : ι → StateT σ (Except ε) Unit}
    {condition : ι → σ → Prop} {first second : List ι} {next : σ} :
    ∀ {state : σ}, EachMeets serve condition (first ++ second) state →
      runAll serve (first ++ second) state = .ok ((), next) →
        ∃ between, EachMeets serve condition first state ∧
          runAll serve first state = .ok ((), between) ∧
            EachMeets serve condition second between ∧
              runAll serve second between = .ok ((), next) := by
  induction first with
  | nil => exact fun meets returned => ⟨_, trivial, rfl, meets, returned⟩
  | cons operation rest inductionHypothesis =>
      intro state meets returned
      obtain ⟨_, between, ran, continued⟩ := bind_eq_ok_iff.mp returned
      obtain ⟨last, -, later, secondMeets, secondRan⟩ :=
        inductionHypothesis (meets.2 between ran) continued
      refine ⟨last, ⟨meets.1, fun other ranOther => ?_⟩,
        bind_eq_ok_iff.mpr ⟨(), between, ran, later⟩, secondMeets, secondRan⟩
      rw [ran] at ranOther
      cases ranOther
      exact (inductionHypothesis (meets.2 _ ran) continued).elim
        fun _ parts => parts.1

end Runs

section Endings

variable {σ ε α β : Type}

/-- What `read` shows of the value and the state that a run ends with. -/
def shown (read : α → σ → β) : Except ε (α × σ) → Option β
  | .ok (value, state) => some (read value state)
  | .error _ => none

theorem exists_of_shown {read : α → σ → β} {ending : Except ε (α × σ)}
    {seen : β} (known : shown read ending = some seen) :
    ∃ value state, ending = .ok (value, state) ∧ read value state = seen := by
  cases ending with
  | ok result =>
      cases known
      exact ⟨result.1, result.2, rfl, rfl⟩
  | error failure => cases known

theorem shown_of_ok {read : α → σ → β} {ending : Except ε (α × σ)}
    {seen : β} {value : α} {state : σ}
    (known : shown read ending = some seen)
    (returned : ending = .ok (value, state)) : read value state = seen := by
  rw [returned] at known
  exact Option.some.inj known

end Endings

end Outcome
