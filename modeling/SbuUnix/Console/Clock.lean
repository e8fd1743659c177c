import SbuUnix.Console.Timer
import SbuUnix.Libc.Decimal

/-!
# The clock in row 24

`kprintf_timer` writes the time since boot from column 55 on and fills the
rest of the row, and one cell behind it, with blanks, so that nothing of an
earlier time stays.
-/

namespace SbuUnix

/-- The time as it is to be shown. -/
def clockText (seconds : Nat) : List Byte :=
  [0x54, 0x69, 0x6D, 0x65, 0x20, 0x73, 0x69, 0x6E, 0x63, 0x65, 0x20, 0x62,
    0x6F, 0x6F, 0x74, 0x3A, 0x20] ++
  decimalNumeral (seconds / 3600) ++ [0x3A] ++
  decimalNumeral (seconds % 3600 / 60) ++ [0x3A] ++
  decimalNumeral (seconds % 60)

/-- The 26 cells from column 55 of row 24 on hold the time and blanks. -/
structure ShowsClock (t : Terminal) (seconds : Nat) : Prop where
  char : ∀ i < 26,
    t.video (3950 + 2 * i) = (clockText seconds).getD i 0x20
  colour : ∀ i < 26, t.video (3950 + 2 * i + 1) = colour

/-- All other cells are as before. -/
def OnlyClock (t next : Terminal) : Prop :=
  ∀ index, index < 3950 ∨ 4002 ≤ index → next.video index = t.video index

/-! ## The text -/

theorem timerText_natCast (seconds : Nat) :
    timerText seconds = clockText seconds := by
  have hours : (seconds : Int).tdiv 3600 = (seconds / 3600 : Nat) := rfl
  have minutes : ((seconds : Int).tmod 3600).tdiv 60 =
      (seconds % 3600 / 60 : Nat) := rfl
  have rest : ((seconds : Int).tmod 3600).tmod 60 =
      (seconds % 3600 % 60 : Nat) := rfl
  unfold timerText clockText
  rw [hours, minutes, rest, strtoint_natCast, strtoint_natCast,
    strtoint_natCast, Nat.mod_mod_of_dvd seconds (by decide)]

theorem decimalNumeral_length_le {digits value : Nat} :
    value < 10 ^ (digits + 1) →
      (decimalNumeral value).length ≤ digits + 1 := by
  induction digits generalizing value with
  | zero =>
      intro small
      by_cases zero : value = 0
      · rw [zero]
        decide
      · rw [decimalNumeral_digit (by omega) (by omega)]
        exact Nat.le_refl 1
  | succ digits inductionHypothesis =>
      intro small
      by_cases large : 9 < value
      · have less : value / 10 < 10 ^ (digits + 1) := by
          rw [Nat.div_lt_iff_lt_mul (by decide), ← Nat.pow_succ]
          exact small
        have front := inductionHypothesis less
        rw [decimalNumeral_step large, List.length_append,
          List.length_singleton]
        omega
      · by_cases zero : value = 0
        · rw [zero, show decimalNumeral 0 = [0x30] from rfl,
            List.length_singleton]
          omega
        · rw [decimalNumeral_digit (by omega) (by omega),
            List.length_singleton]
          omega

/-- With up to 999 hours the text fits the 26 cells. -/
theorem clockText_length_le {seconds : Nat} (small : seconds < 3600000) :
    (clockText seconds).length ≤ 26 := by
  have hours := @decimalNumeral_length_le 2 (seconds / 3600) (by omega)
  have minutes := @decimalNumeral_length_le 1 (seconds % 3600 / 60) (by omega)
  have rest := @decimalNumeral_length_le 1 (seconds % 60) (by omega)
  simp only [clockText, List.length_append, List.length_cons,
    List.length_nil]
  omega

/-! ## The row -/

section Row

theorem putTimerText_outside (text : List Byte) :
    ∀ {x index : Nat} {t : Terminal},
      index < x + 3840 ∨ x + 2 * text.length + 3840 ≤ index →
        (putTimerText text x t).video index = t.video index := by
  induction text with
  | nil => exact fun _ => rfl
  | cons char rest inductionHypothesis =>
      intro x index t outside
      rw [List.length_cons] at outside
      rw [putTimerText, inductionHypothesis (by omega), Terminal.put_video,
        if_neg (by omega), Terminal.put_video, if_neg (by omega)]

/-- Every character goes to its cell, with the colour behind it. -/
theorem putTimerText_cell (text : List Byte) :
    ∀ {x : Nat} {t : Terminal}, ∀ i (inside : i < text.length),
      (putTimerText text x t).video (x + 3840 + 2 * i) = text[i] ∧
        (putTimerText text x t).video (x + 3840 + 2 * i + 1) = colour := by
  induction text with
  | nil => exact fun i inside => absurd inside (Nat.not_lt_zero i)
  | cons char rest inductionHypothesis =>
      intro x t i inside
      cases i with
      | zero =>
          constructor
          · rw [putTimerText, putTimerText_outside rest (by omega),
              Terminal.put_video, if_neg (by omega), Terminal.put_video,
              if_pos (by omega)]
            rfl
          · rw [putTimerText, putTimerText_outside rest (by omega),
              Terminal.put_video, if_pos (by omega)]
      | succ i =>
          rw [List.length_cons] at inside
          obtain ⟨here, behind⟩ := @inductionHypothesis (x + 2)
            ((t.put (x + 24 * 160) char).put (x + 1 + 24 * 160) colour) i
            (by omega)
          rw [show x + 3840 + 2 * (i + 1) = x + 2 + 3840 + 2 * i by omega]
          exact ⟨here, behind⟩

theorem kprintfTimer_showsClock {seconds : Nat} (small : seconds < 3600000)
    (t : Terminal) :
    ShowsClock (kprintfTimer seconds t) seconds ∧
      OnlyClock t (kprintfTimer seconds t) := by
  have length := clockText_length_le small
  have filled : (162 - (110 + 2 * (clockText seconds).length)) / 2 =
      26 - (clockText seconds).length := by omega
  unfold kprintfTimer
  simp only [timerText_natCast, filled]
  have total : (clockText seconds ++ List.replicate
      (26 - (clockText seconds).length) 0x20).length = 26 := by
    rw [List.length_append, List.length_replicate]
    omega
  refine ⟨⟨?_, ?_⟩, ?_⟩
  · intro i inside
    rw [(putTimerText_cell _ i (by omega)).1]
    by_cases text : i < (clockText seconds).length
    · rw [List.getElem_append_left text, List.getD_eq_getElem _ _ text]
    · rw [List.getElem_append_right (by omega), List.getElem_replicate,
        List.getD_eq_default _ _ (by omega)]
  · intro i inside
    exact (putTimerText_cell _ i (by omega)).2
  · intro index outside
    apply putTimerText_outside
    rw [total]
    omega

end Row

/-! ## The ticks -/

theorem OnlyClock.trans {first second third : Terminal}
    (before : OnlyClock first second) (after : OnlyClock second third) :
    OnlyClock first third :=
  fun index outside => (after index outside).trans (before index outside)

/-- One tick: a full second is shown, and otherwise the screen stays. -/
theorem timerHandler_screen {timer : Timer} {count : Nat}
    (next : int32 (timer.timerTic + 1) = (count : Nat)) :
    (timerHandler timer).screen =
      if count % 1000 = 0 then
        kprintfTimer (count / 1000 : Nat) timer.screen
      else
        timer.screen := by
  have seconds : ((count : Nat) : Int).tdiv 1000 = (count / 1000 : Nat) := rfl
  have full : ((count : Nat) : Int).tmod 1000 = 0 ↔ count % 1000 = 0 := by
    rw [Int.tmod_eq_emod_of_nonneg (by omega)]
    omega
  simp only [timerHandler, next, full, seconds]
  split <;> rfl

/-- From the first second on, until the ticks overflow, the clock shows the
full seconds since boot, and no other cell has changed. -/
theorem ticks_showsClock (screen : Terminal) {count : Nat}
    (second : 1000 ≤ count) (noOverflow : count < 2 ^ 31) :
    ShowsClock (ticks count { screen }).screen (count / 1000) ∧
      OnlyClock screen (ticks count { screen }).screen := by
  have run : ∀ count < 2 ^ 31,
      (1000 ≤ count →
        ShowsClock (ticks count { screen }).screen (count / 1000)) ∧
          OnlyClock screen (ticks count { screen }).screen := by
    intro count
    induction count with
    | zero =>
        exact fun _ => ⟨fun impossible => absurd impossible (by decide),
          fun _ _ => rfl⟩
    | succ count inductionHypothesis =>
        intro small
        obtain ⟨shown, only⟩ := inductionHypothesis (by omega)
        have next : int32 ((ticks count { screen }).timerTic + 1) =
            (count + 1 : Nat) := by
          rw [(ticks_counts screen count (by omega)).1]
          exact int32_of_small small
        rw [ticks, timerHandler_screen next]
        by_cases full : (count + 1) % 1000 = 0
        · rw [if_pos full]
          have clock := kprintfTimer_showsClock
            (show (count + 1) / 1000 < 3600000 by omega)
            (ticks count { screen }).screen
          exact ⟨fun _ => clock.1, only.trans clock.2⟩
        · rw [if_neg full,
            show (count + 1) / 1000 = count / 1000 by omega]
          exact ⟨fun _ => shown (by omega), only⟩
  obtain ⟨shows, only⟩ := run count noOverflow
  exact ⟨shows second, only⟩

/-- A minute and a second. -/
theorem ticks_showsClock_minute :
    ShowsClock (ticks 61000 { screen := { video := fun _ => 0 } }).screen
        (61000 / 1000) ∧
      OnlyClock { video := fun _ => 0 }
        (ticks 61000 { screen := { video := fun _ => 0 } }).screen :=
  ticks_showsClock { video := fun _ => 0 } (by decide) (by decide)

end SbuUnix
