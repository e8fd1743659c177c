import SbuUnix.Console.Screen
import SbuUnix.Tarfs.Strings

/-!
# The timer

`sys/timer.c`, with `kprintf_timer` of `sys/kprintf.c`.  `current_sec` is
taken modulo 60 by the handler, and `sleep` compares it with a sum that is
not.
-/

namespace SbuUnix

/-- The globals of `sys/timer.c`, and the screen that shows the time. -/
structure Timer where
  timerTic : Int := 0
  currentSec : Int := 0
  screen : Terminal

/-! ## The handler -/

/-- `"Time since boot: "` and the three numbers. -/
def timerText (time : Int) : List Byte :=
  [0x54, 0x69, 0x6D, 0x65, 0x20, 0x73, 0x69, 0x6E, 0x63, 0x65, 0x20, 0x62,
    0x6F, 0x6F, 0x74, 0x3A, 0x20] ++
  strtoint (time.tdiv 3600) ++ [0x3A] ++
  strtoint ((time.tmod 3600).tdiv 60) ++ [0x3A] ++
  strtoint ((time.tmod 3600).tmod 60)

/-- The stores for characters of row 24, from column `x` on. -/
def putTimerText : List Byte → Nat → Terminal → Terminal
  | [], _, t => t
  | char :: rest, x, t =>
      putTimerText rest (x + 2)
        ((t.put (x + 24 * 160) char).put (x + 1 + 24 * 160) colour)

/-- `kprintf_timer`, which fills the row with blanks as long as
`x <= 160`. -/
def kprintfTimer (time : Int) (t : Terminal) : Terminal :=
  let text := timerText time
  let x := 110 + 2 * text.length
  putTimerText (text ++ List.replicate ((162 - x) / 2) 0x20) 110 t

/-- `timer_handler`, without the two `outb`. -/
def timerHandler (timer : Timer) : Timer :=
  let timerTic := int32 (timer.timerTic + 1)
  if timerTic.tmod 1000 = 0 then
    { timerTic
      currentSec := ((timerTic.tdiv 1000).tmod 3600).tmod 60
      screen := kprintfTimer (timerTic.tdiv 1000) timer.screen }
  else
    { timer with timerTic }

/-- The timer after `count` ticks. -/
def ticks : Nat → Timer → Timer
  | 0, timer => timer
  | count + 1, timer => timerHandler (ticks count timer)

/-! ## `sleep` -/

/-- The loop `while (current_sec < ti)` with a test before every tick; the
number of ticks after which it is left. -/
def sleepLoop (ti : Int) : Nat → Timer → Option Nat
  | 0, _ => none
  | fuel + 1, timer =>
      if timer.currentSec < ti then
        (sleepLoop ti fuel (timerHandler timer)).map (· + 1)
      else
        some 0

def sleep (val : Int) (fuel : Nat) (timer : Timer) : Option Nat :=
  sleepLoop (int32 (timer.currentSec + val)) fuel timer

/-- `sleep(val)` is left within `val + 1` seconds, and not before `val - 1`
seconds. -/
structure EndsOnTime (timer : Timer) (val : Nat) : Prop where
  ends : ∃ count ≤ 1000 * (val + 1),
    sleep val (count + 1) timer = some count
  lasts : 1 ≤ val → ∀ fuel count, sleep val fuel timer = some count →
    1000 * (val - 1) ≤ count

/-! ## The seconds -/

theorem timerHandler_timerTic (timer : Timer) :
    (timerHandler timer).timerTic = int32 (timer.timerTic + 1) := by
  simp only [timerHandler]
  split <;> rfl

theorem timerHandler_currentSec (timer : Timer) :
    (timerHandler timer).currentSec =
      if (int32 (timer.timerTic + 1)).tmod 1000 = 0 then
        (((int32 (timer.timerTic + 1)).tdiv 1000).tmod 3600).tmod 60
      else
        timer.currentSec := by
  simp only [timerHandler]
  split <;> rfl

theorem second_eq (count : Nat) :
    (((count : Int).tdiv 1000).tmod 3600).tmod 60 =
      (count / 1000 % 60 : Nat) := by
  have sameCast : (((count : Int).tdiv 1000).tmod 3600).tmod 60 =
      (count / 1000 % 3600 % 60 : Nat) := rfl
  rw [sameCast]
  omega

/-- While the ticks fit an `int` they are counted, and the second is the one
of the last full 1000 ticks. -/
theorem ticks_counts (screen : Terminal) :
    ∀ count < 2 ^ 31,
      (ticks count { screen }).timerTic = count ∧
        (ticks count { screen }).currentSec = (count / 1000 % 60 : Nat) := by
  intro count
  induction count with
  | zero => exact fun _ => ⟨rfl, rfl⟩
  | succ count inductionHypothesis =>
      intro small
      obtain ⟨tics, sec⟩ := inductionHypothesis (by omega)
      have next : int32 ((ticks count { screen }).timerTic + 1) =
          (count + 1 : Nat) := by
        rw [tics]
        exact int32_of_small small
      rw [ticks, timerHandler_timerTic, timerHandler_currentSec, next, sec,
        second_eq, Int.tmod_eq_emod_of_nonneg (by omega)]
      refine ⟨rfl, ?_⟩
      split <;> omega

/-- The second never passes 59, with or without an overflow of the ticks. -/
theorem timerHandler_currentSec_le {timer : Timer}
    (before : timer.currentSec ≤ 59) :
    (timerHandler timer).currentSec ≤ 59 := by
  rw [timerHandler_currentSec]
  split
  · exact Int.le_of_lt_add_one (Int.tmod_lt_of_pos _ (by decide))
  · exact before

theorem ticks_timerHandler (count : Nat) (timer : Timer) :
    ticks count (timerHandler timer) = ticks (count + 1) timer := by
  induction count with
  | zero => rfl
  | succ count inductionHypothesis =>
      rw [ticks, inductionHypothesis]
      rfl

theorem ticks_add (first second : Nat) (timer : Timer) :
    ticks second (ticks first timer) = ticks (first + second) timer := by
  induction second with
  | zero => rfl
  | succ second inductionHypothesis =>
      rw [ticks, inductionHypothesis]
      rfl

/-! ## The loop -/

/-- The loop is left at the first tick with a second that is not below
`ti`. -/
theorem sleepLoop_eq_some {ti : Int} :
    ∀ {fuel : Nat} {timer : Timer} {count : Nat},
      sleepLoop ti fuel timer = some count →
        ti ≤ (ticks count timer).currentSec := by
  intro fuel
  induction fuel with
  | zero =>
      intro timer count left
      cases left
  | succ fuel inductionHypothesis =>
      intro timer count left
      rw [sleepLoop] at left
      split at left
      · obtain ⟨rest, later, rfl⟩ := Option.map_eq_some_iff.mp left
        have reached := inductionHypothesis later
        rwa [ticks_timerHandler] at reached
      · rename_i reached
        cases left
        exact Int.not_lt.mp reached

theorem exists_sleepLoop {ti : Int} :
    ∀ {last : Nat} {timer : Timer}, ti ≤ (ticks last timer).currentSec →
      ∃ count ≤ last, sleepLoop ti (count + 1) timer = some count := by
  intro last
  induction last with
  | zero =>
      intro timer reached
      exact ⟨0, Nat.le_refl _, if_neg (Int.not_lt.mpr reached)⟩
  | succ last inductionHypothesis =>
      intro timer reached
      by_cases waits : timer.currentSec < ti
      · rw [← ticks_timerHandler] at reached
        obtain ⟨count, early, left⟩ := inductionHypothesis reached
        exact ⟨count + 1, by omega, by rw [sleepLoop, if_pos waits, left]; rfl⟩
      · exact ⟨0, Nat.zero_le _, if_neg waits⟩

/-- A target behind second 59 is never reached. -/
theorem sleepLoop_never {ti : Int} (late : 59 < ti) :
    ∀ {fuel : Nat} {timer : Timer}, timer.currentSec ≤ 59 →
      sleepLoop ti fuel timer = none := by
  intro fuel
  induction fuel with
  | zero => exact fun _ => rfl
  | succ fuel inductionHypothesis =>
      intro timer small
      rw [sleepLoop, if_pos (Int.lt_of_le_of_lt small late),
        inductionHypothesis (timerHandler_currentSec_le small)]
      rfl

/-- `sleep` ends on time exactly when the second in which it starts and the
duration stay within a minute. -/
theorem sleep_endsOnTime_iff {screen : Terminal} {t val : Nat}
    (noOverflow : t + 1000 * (val + 1) < 2 ^ 31) :
    EndsOnTime (ticks t { screen }) val ↔ t / 1000 % 60 + val ≤ 59 := by
  have start := (ticks_counts screen t (by omega)).2
  have target : int32 ((ticks t { screen }).currentSec + val) =
      (t / 1000 % 60 + val : Nat) := by
    rw [start]
    exact int32_add (by omega)
  constructor
  · rintro ⟨⟨count, -, left⟩, -⟩
    by_contra late
    rw [sleep, target,
      sleepLoop_never (by omega) (by rw [start]; omega)] at left
    cases left
  · intro within
    constructor
    · have reached := (ticks_counts screen (t + 1000 * val) (by omega)).2
      rw [← ticks_add] at reached
      obtain ⟨count, early, left⟩ := exists_sleepLoop
        (show ((t / 1000 % 60 + val : Nat) : Int) ≤
          (ticks (1000 * val) (ticks t { screen })).currentSec by
            rw [reached]; omega)
      exact ⟨count, by omega, by rw [sleep, target]; exact left⟩
    · intro positive fuel count left
      rw [sleep, target] at left
      have reached := sleepLoop_eq_some left
      by_contra early
      rw [ticks_add, (ticks_counts screen (t + count) (by omega)).2] at reached
      omega

theorem sleep_endsOnTime_ten :
    (3000 + 1000 * (10 + 1) < 2 ^ 31) ∧
      (EndsOnTime (ticks 3000 { screen := { video := fun _ => 0 } }) 10 ↔
        3000 / 1000 % 60 + 10 ≤ 59) :=
  ⟨by decide, sleep_endsOnTime_iff (by decide)⟩

/-- A sleep of one second that starts in second 59 waits for second 60. -/
theorem not_endsOnTime_lastSecond :
    ¬ EndsOnTime (ticks 59000 { screen := { video := fun _ => 0 } }) 1 := by
  intro onTime
  obtain ⟨count, -, left⟩ := onTime.ends
  have start := (ticks_counts { video := fun _ => 0 } 59000 (by decide)).2
  rw [sleep, start, sleepLoop_never (by decide) (by rw [start]; decide)] at left
  cases left

end SbuUnix
