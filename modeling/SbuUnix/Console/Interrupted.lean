import SbuUnix.Console.StringPaths
import SbuUnix.Console.Timer
import SbuUnix.Library.Accesses

/-!
# The console under timer interrupts

`kprintf` and `clear_console` by their accesses to the screen and the cursor,
which are `volatile`.  The gate of the timer keeps further interrupts away, so
that its handler runs as a whole, between two of these accesses.  It writes
row 24; the text stays above.
-/

namespace SbuUnix

open Accesses Accesses.Program Lines Outcome

/-! ## The accesses -/

/-- The globals of `sys/kprintf.c` and `sys/timer.c` that both sides use. -/
inductive ConsoleLoc where
  | video (index : Nat)
  | xPos
  | yPos
  | timerTic
  | currentSec
  deriving DecidableEq

@[reducible]
def ConsoleLoc.Val : ConsoleLoc → Type
  | .video _ => Byte
  | .xPos | .yPos => Nat
  | .timerTic | .currentSec => Int

abbrev ConsoleMem := (loc : ConsoleLoc) → loc.Val

abbrev ConsoleM := Accesses.Program ConsoleLoc ConsoleLoc.Val

namespace ConsoleM

/-- `x_pos++` -/
def nextX : ConsoleM Nat := do
  let x ← readLoc .xPos
  writeLoc .xPos (x + 1)
  pure x

/-- `video[x_pos++ + (y_pos * 160)] = byte` -/
def putNext (byte : Byte) : ConsoleM Unit := do
  let x ← nextX
  let y ← readLoc .yPos
  writeLoc (.video (x + y * 160)) byte

def putCell (char : Byte) : ConsoleM Unit := do
  putNext char
  putNext colour

def memcpyy (source target n : Nat) : ConsoleM Unit :=
  (List.range (n / 2)).forM fun i => do
    let byte ← readLoc (.video (source + i))
    writeLoc (.video (target + i)) byte

def updateScreen : ConsoleM Unit :=
  (List.range 23).forM fun y => memcpyy ((y + 1) * 160) (y * 160) 320

def scroll : ConsoleM Unit := do
  let y ← readLoc .yPos
  if y = 23 then
    updateScreen
    let y ← readLoc .yPos
    writeLoc .yPos (y - 1)

/-- `y_pos++` -/
def nextY : ConsoleM Unit := do
  let y ← readLoc .yPos
  writeLoc .yPos (y + 1)

def wrap : ConsoleM Unit := do
  let x ← readLoc .xPos
  if x = 160 then
    writeLoc .xPos 0
    nextY

def newline : ConsoleM Unit := do
  nextY
  writeLoc .xPos 0
  scroll

def putChar (char : Byte) : ConsoleM Unit := do
  wrap
  scroll
  putCell char

def putArgument (char : Byte) : ConsoleM Unit := do
  let x ← readLoc .xPos
  if x = 160 then
    wrap
    scroll
  if char ≠ 0x0A then
    putCell char
  else
    newline

def perform : Action → ConsoleM Unit
  | .newline => newline
  | .home => writeLoc .xPos 0
  | .visible byte => putChar byte
  | .argument byte => putArgument byte

def kprintf (call : PrintCall) : ConsoleM (Except Fault Unit) :=
  match call.actions with
  | .ok actions => do
      actions.forM perform
      pure (.ok ())
  | .error failure => pure (.error failure)

/-- The loop over the columns of a row. -/
def clearRow (y : Nat) : ConsoleM Unit :=
  (List.range 80).forM fun x => do
    writeLoc (.video (2 * x + y * 160)) 0x20
    writeLoc (.video (2 * x + 1 + y * 160)) colour

/-- The 84 dashes of `clear_console`. -/
def dashes : List Byte := List.replicate 84 0x2D

/-- `clear_console`, without the load of CR3. -/
def clearConsole : ConsoleM Unit := do
  (List.range 100).forM fun _ => dashes.forM putChar
  (List.range 24).forM clearRow
  writeLoc .xPos 0
  writeLoc .yPos 0

end ConsoleM

namespace Terminal

/-- The loop over the columns of a row, on a terminal. -/
def clearRow (t : Terminal) (y : Nat) : Terminal :=
  (List.range 80).foldl
    (fun t x => (t.put (2 * x + y * 160) 0x20).put (2 * x + 1 + y * 160) colour)
    t

/-- `clear_console` on a terminal. -/
def clearConsole (t : Terminal) : Terminal :=
  let t := (List.range 100).foldl
    (fun t _ => ConsoleM.dashes.foldl putChar t) t
  { (List.range 24).foldl clearRow t with
    xPos := 0
    yPos := 0 }

end Terminal

/-- What the code reads of the memory as a screen. -/
def terminalOf (mem : ConsoleMem) : Terminal where
  video index := mem (.video index)
  xPos := mem .xPos
  yPos := mem .yPos

def timerOf (mem : ConsoleMem) : Timer where
  timerTic := mem .timerTic
  currentSec := mem .currentSec
  screen := terminalOf mem

/-- `timer_handler` on the memory. -/
def timerInterrupt (mem : ConsoleMem) : ConsoleMem
  | .video index => (timerHandler (timerOf mem)).screen.video index
  | .xPos => mem .xPos
  | .yPos => mem .yPos
  | .timerTic => (timerHandler (timerOf mem)).timerTic
  | .currentSec => (timerHandler (timerOf mem)).currentSec

/-! ## The locations of the timer -/

/-- Row 24, what follows it, and the globals of `sys/timer.c`. -/
def timerOwn : Set ConsoleLoc
  | .video index => 3840 ≤ index
  | .xPos | .yPos => False
  | .timerTic | .currentSec => True

/-- The globals of the timer and row 24 are the same. -/
structure SameTimer (first second : Timer) : Prop where
  timerTic : first.timerTic = second.timerTic
  currentSec : first.currentSec = second.currentSec
  video : ∀ index, 3840 ≤ index →
    first.screen.video index = second.screen.video index

section Handler

theorem putTimerText_video (text : List Byte) :
    ∀ {x index : Nat} {t : Terminal}, index < 3840 →
      (putTimerText text x t).video index = t.video index := by
  induction text with
  | nil => exact fun _ => rfl
  | cons char rest inductionHypothesis =>
      intro x index t above
      rw [putTimerText, inductionHypothesis above, Terminal.put_video,
        if_neg (by omega), Terminal.put_video, if_neg (by omega)]

/-- What is written to row 24 does not depend on what stood there. -/
theorem putTimerText_congr (text : List Byte) :
    ∀ {x : Nat} {first second : Terminal},
      (∀ index, 3840 ≤ index → first.video index = second.video index) →
        ∀ index, 3840 ≤ index →
          (putTimerText text x first).video index =
            (putTimerText text x second).video index := by
  induction text with
  | nil => exact fun same => same
  | cons char rest inductionHypothesis =>
      intro x first second same
      apply inductionHypothesis
      intro index below
      rw [Terminal.put_video, Terminal.put_video, Terminal.put_video,
        Terminal.put_video, same index below]

theorem timerHandler_video_of_lt (timer : Timer) {index : Nat}
    (above : index < 3840) :
    (timerHandler timer).screen.video index = timer.screen.video index := by
  simp only [timerHandler]
  split
  · exact putTimerText_video _ above
  · rfl

/-- The handler looks at the globals of the timer and at row 24 only. -/
theorem SameTimer.timerHandler {first second : Timer}
    (same : SameTimer first second) :
    SameTimer (timerHandler first) (timerHandler second) := by
  constructor
  · rw [timerHandler_timerTic, timerHandler_timerTic, same.timerTic]
  · rw [timerHandler_currentSec, timerHandler_currentSec, same.timerTic,
      same.currentSec]
  · intro index under
    simp only [SbuUnix.timerHandler, same.timerTic]
    split
    · exact putTimerText_congr _ same.video index under
    · exact same.video index under

theorem confined_timerInterrupt :
    Accesses.Confined timerOwn timerInterrupt := by
  constructor
  · intro mem loc outside
    cases loc with
    | video index =>
        exact timerHandler_video_of_lt _ (Nat.lt_of_not_le outside)
    | xPos => rfl
    | yPos => rfl
    | timerTic => exact absurd trivial outside
    | currentSec => exact absurd trivial outside
  · intro first second same loc member
    have before : SameTimer (timerOf first) (timerOf second) :=
      ⟨same .timerTic trivial, same .currentSec trivial,
        fun index under => same (.video index) under⟩
    have after := before.timerHandler
    cases loc with
    | video index => exact after.video index member
    | xPos => exact member.elim
    | yPos => exact member.elim
    | timerTic => exact after.timerTic
    | currentSec => exact after.currentSec

/-- The interrupts one after the other are ticks of the timer. -/
theorem fireAll_timerInterrupt (fired : List Unit) :
    ∀ {mem : ConsoleMem} {timer : Timer}, SameTimer (timerOf mem) timer →
      SameTimer (timerOf (fireAll (fun _ => timerInterrupt) fired mem))
        (ticks fired.length timer) := by
  induction fired with
  | nil => exact fun same => same
  | cons irq rest inductionHypothesis =>
      intro mem timer same
      have next : SameTimer (timerOf (timerInterrupt mem))
          (timerHandler timer) :=
        ⟨same.timerHandler.timerTic, same.timerHandler.currentSec,
          same.timerHandler.video⟩
      rw [List.length_cons, ← ticks_timerHandler]
      exact inductionHypothesis next

end Handler

/-! ## What the accesses do -/

/-- The memory holds the video memory and the cursor of a terminal. -/
structure Shows (mem : ConsoleMem) (t : Terminal) : Prop where
  video : ∀ index, mem (.video index) = t.video index
  xPos : mem .xPos = t.xPos
  yPos : mem .yPos = t.yPos

section Programs

variable {mem : ConsoleMem} {t : Terminal}

/-- The program does to the memory what a function does to a terminal, and
keeps away from the locations of the timer. -/
def Does (program : ConsoleM Unit) (mem : ConsoleMem) (t : Terminal) : Prop :=
  Leaves timerOwn program mem fun _ next => Shows next t

theorem shows_update_xPos (shows : Shows mem t) (column : Nat) :
    Shows (Function.update mem .xPos column) { t with xPos := column } := by
  constructor
  · intro index
    exact (Function.update_of_ne (by simp) _ _).trans (shows.video index)
  · exact Function.update_self ..
  · exact (Function.update_of_ne (by simp) _ _).trans shows.yPos

theorem shows_update_yPos (shows : Shows mem t) (row : Nat) :
    Shows (Function.update mem .yPos row) { t with yPos := row } := by
  constructor
  · intro index
    exact (Function.update_of_ne (by simp) _ _).trans (shows.video index)
  · exact (Function.update_of_ne (by simp) _ _).trans shows.xPos
  · exact Function.update_self ..

theorem shows_update_video (shows : Shows mem t) (place : Nat) (byte : Byte) :
    Shows (Function.update mem (.video place) byte) (t.put place byte) := by
  constructor
  · intro index
    rw [Terminal.put_video]
    by_cases here : index = place
    · rw [if_pos here, here, Function.update_self]
    · rw [if_neg here, Function.update_of_ne (by simpa using here)]
      exact shows.video index
  · exact (Function.update_of_ne (by simp) _ _).trans shows.xPos
  · exact (Function.update_of_ne (by simp) _ _).trans shows.yPos

theorem video_notMem {index : Nat} (above : index < 3840) :
    ConsoleLoc.video index ∉ timerOwn :=
  Nat.not_le_of_lt above

namespace ConsoleM

theorem does_putNext (shows : Shows mem t) (byte : Byte)
    (above : t.xPos + t.yPos * 160 < 3840) :
    Does (putNext byte) mem
      { t.put (t.xPos + t.yPos * 160) byte with xPos := t.xPos + 1 } := by
  have moved := shows_update_xPos shows (t.xPos + 1)
  unfold Does putNext nextX
  simp only [leaves_bind, leaves_readLoc, leaves_writeLoc, leaves_pure]
  rw [shows.xPos, moved.yPos]
  exact ⟨id, id, id, video_notMem above, shows_update_video moved _ byte⟩

theorem does_putCell (shows : Shows mem t) (char : Byte)
    (above : t.xPos + 1 + t.yPos * 160 < 3840) :
    Does (putCell char) mem (t.putCell t.yPos char colour) := by
  unfold Does putCell
  rw [leaves_bind]
  apply (does_putNext shows char (by omega)).mono
  intro _ next shown
  exact does_putNext shown colour above

theorem does_forM {ι : Type} {pass : ι → ConsoleM PUnit}
    {step : Terminal → ι → Terminal} {items : List ι}
    (each : ∀ item ∈ items, ∀ mem t, Shows mem t →
      Does (pass item) mem (step t item)) (shows : Shows mem t) :
    Does (items.forM pass) mem (items.foldl step t) := by
  apply leaves_forM (fun before mem => Shows mem (before.foldl step t)) ?_ shows
  intro before item inside mem shown
  rw [List.foldl_append]
  exact each item inside mem _ shown

theorem does_memcpyy {source target n : Nat} (shows : Shows mem t)
    (read : source + n / 2 ≤ 3840) (written : target + n / 2 ≤ 3840) :
    Does (memcpyy source target n) mem (t.memcpyy source target n) := by
  unfold memcpyy Terminal.memcpyy
  apply does_forM (fun i inside mem t shown => ?_) shows
  have small := List.mem_range.mp inside
  unfold Does
  simp only [leaves_bind, leaves_readLoc, leaves_writeLoc]
  rw [shown.video]
  exact ⟨video_notMem (by omega), video_notMem (by omega),
    shows_update_video shown _ _⟩

theorem does_updateScreen (shows : Shows mem t) :
    Does updateScreen mem t.updateScreen := by
  unfold updateScreen Terminal.updateScreen
  apply does_forM (fun y inside mem t shown => ?_) shows
  have small := List.mem_range.mp inside
  exact does_memcpyy shown (by omega) (by omega)

theorem does_scroll (shows : Shows mem t) : Does scroll mem t.scroll := by
  unfold Does scroll Terminal.scroll
  rw [leaves_bind, leaves_readLoc, shows.yPos]
  refine ⟨id, ?_⟩
  by_cases full : t.yPos = 23
  · rw [if_pos full, if_pos full, leaves_bind]
    apply (does_updateScreen shows).mono
    intro _ next shown
    rw [leaves_bind, leaves_readLoc, leaves_writeLoc, shown.yPos]
    exact ⟨id, id, shows_update_yPos shown _⟩
  · rw [if_neg full, if_neg full]
    exact leaves_pure.mpr shows

theorem does_nextY (shows : Shows mem t) :
    Does nextY mem { t with yPos := t.yPos + 1 } := by
  unfold Does nextY
  rw [leaves_bind, leaves_readLoc, leaves_writeLoc, shows.yPos]
  exact ⟨id, id, shows_update_yPos shows _⟩

theorem does_wrap (shows : Shows mem t) : Does wrap mem t.wrap := by
  unfold Does wrap Terminal.wrap
  rw [leaves_bind, leaves_readLoc, shows.xPos]
  refine ⟨id, ?_⟩
  by_cases full : t.xPos = 160
  · rw [if_pos full, if_pos full, leaves_bind, leaves_writeLoc]
    exact ⟨id, does_nextY (shows_update_xPos shows 0)⟩
  · rw [if_neg full, if_neg full]
    exact leaves_pure.mpr shows

theorem does_newline (shows : Shows mem t) : Does newline mem t.newline := by
  unfold Does newline Terminal.newline
  rw [leaves_bind]
  apply (does_nextY shows).mono
  intro _ next shown
  rw [leaves_bind, leaves_writeLoc]
  exact ⟨id, does_scroll (shows_update_xPos shown 0)⟩

/-- A cell in the row of the cursor, above row 23. -/
theorem does_putCell_inside (shows : Shows mem t) (inside : Inside t)
    (room : t.xPos < 160) (char : Byte) :
    Does (putCell char) mem (t.putCell t.yPos char colour) := by
  have row := inside.2
  have even := inside.1.even
  exact does_putCell shows char (by omega)

theorem does_wrap_scroll (shows : Shows mem t) :
    Leaves timerOwn wrap mem fun _ next => Does scroll next t.wrap.scroll :=
  (does_wrap shows).mono fun _ _ shown => does_scroll shown

theorem does_putChar (shows : Shows mem t) (inside : Inside t)
    (char : Byte) : Does (putChar char) mem (t.putChar char) := by
  unfold Does putChar Terminal.putChar
  simp only [leaves_bind]
  apply (does_wrap_scroll shows).mono
  intro _ _ scrolled
  apply scrolled.mono
  intro _ next shown
  exact does_putCell_inside shown inside.wrap_scroll.1 inside.wrap_scroll.2
    char

/-- The character, when the row has room for it. -/
theorem does_argumentCell (shows : Shows mem t) (inside : Inside t)
    (room : t.xPos < 160) (char : Byte) :
    Does (if char ≠ 0x0A then putCell char else newline) mem
      (if char ≠ 0x0A then t.putCell t.yPos char colour else t.newline) := by
  by_cases visible : char ≠ 0x0A
  · rw [if_pos visible, if_pos visible]
    exact does_putCell_inside shows inside room char
  · rw [if_neg visible, if_neg visible]
    exact does_newline shows

theorem does_putArgument (shows : Shows mem t) (inside : Inside t)
    (char : Byte) : Does (putArgument char) mem (t.putArgument char) := by
  have even := inside.1.even
  have column := inside.1.column
  unfold Does putArgument
  rw [leaves_bind, leaves_readLoc, shows.xPos]
  refine ⟨id, ?_⟩
  by_cases full : t.xPos = 160
  · rw [if_pos full, putArgument_of_full full]
    simp only [leaves_bind]
    apply (does_wrap_scroll shows).mono
    intro _ _ scrolled
    apply scrolled.mono
    intro _ next shown
    exact does_argumentCell shown inside.wrap_scroll.1 inside.wrap_scroll.2
      char
  · rw [if_neg full, putArgument_of_room full]
    exact does_argumentCell shows inside (by omega) char

/-- One step: an action leaves what it leaves without accesses in between. -/
theorem does_perform (shows : Shows mem t) (inside : Inside t)
    (action : Action) : Does (perform action) mem (action.perform t) := by
  cases action with
  | newline => exact does_newline shows
  | home => exact leaves_writeLoc.mpr ⟨id, shows_update_xPos shows 0⟩
  | visible byte => exact does_putChar shows inside byte
  | argument byte => exact does_putArgument shows inside byte

theorem does_performAll (actions : List Action) :
    ∀ {mem : ConsoleMem} {t : Terminal}, Shows mem t → Inside t →
      Does (actions.forM perform) mem (actions.foldl Action.perform t) := by
  induction actions with
  | nil => exact fun shows _ => leaves_pure.mpr shows
  | cons action rest inductionHypothesis =>
      intro mem t shows inside
      change Leaves timerOwn (perform action >>= fun _ => rest.forM perform)
        mem _
      rw [leaves_bind]
      apply (does_perform shows inside action).mono
      intro _ next shown
      exact inductionHypothesis shown (inside.perform action)

theorem does_clearRow (shows : Shows mem t) {y : Nat} (above : y < 24) :
    Does (clearRow y) mem (t.clearRow y) := by
  unfold clearRow Terminal.clearRow
  apply does_forM (fun x inside mem t shown => ?_) shows
  have small := List.mem_range.mp inside
  unfold Does
  rw [leaves_bind, leaves_writeLoc, leaves_writeLoc]
  exact ⟨video_notMem (by omega), video_notMem (by omega),
    shows_update_video (shows_update_video shown _ _) _ _⟩

/-- The dashes are visible characters. -/
theorem does_dashes (chars : List Byte) :
    ∀ {mem : ConsoleMem} {t : Terminal}, Shows mem t → Inside t →
      Leaves timerOwn (chars.forM putChar) mem fun _ next =>
        Shows next (chars.foldl Terminal.putChar t) ∧
          Inside (chars.foldl Terminal.putChar t) := by
  induction chars with
  | nil => exact fun shows inside => leaves_pure.mpr ⟨shows, inside⟩
  | cons char rest inductionHypothesis =>
      intro mem t shows inside
      change Leaves timerOwn (putChar char >>= fun _ => rest.forM putChar)
        mem _
      rw [leaves_bind]
      apply (does_putChar shows inside char).mono
      intro _ next shown
      exact inductionHypothesis shown (inside.perform (.visible char))

theorem does_dashLines (lines : List Nat) :
    ∀ {mem : ConsoleMem} {t : Terminal}, Shows mem t → Inside t →
      Does (lines.forM fun _ => dashes.forM putChar) mem
        (lines.foldl (fun t _ => dashes.foldl Terminal.putChar t) t) := by
  induction lines with
  | nil => exact fun shows _ => leaves_pure.mpr shows
  | cons line rest inductionHypothesis =>
      intro mem t shows inside
      change Leaves timerOwn (dashes.forM putChar >>= fun _ =>
        rest.forM fun _ => dashes.forM putChar) mem _
      rw [leaves_bind]
      apply (does_dashes dashes shows inside).mono
      intro _ next holds
      exact inductionHypothesis holds.1 holds.2

theorem does_clearRows (shows : Shows mem t) :
    Does ((List.range 24).forM clearRow) mem
      ((List.range 24).foldl Terminal.clearRow t) :=
  does_forM (fun _ inside _ _ shown =>
    does_clearRow shown (List.mem_range.mp inside)) shows

theorem does_home (shows : Shows mem t) :
    Does (do writeLoc .xPos 0; writeLoc .yPos 0) mem
      { t with
        xPos := 0
        yPos := 0 } := by
  unfold Does
  rw [leaves_bind, leaves_writeLoc, leaves_writeLoc]
  exact ⟨id, id, shows_update_yPos (shows_update_xPos shows 0) 0⟩

theorem does_clearConsole (shows : Shows mem t) (inside : Inside t) :
    Does clearConsole mem t.clearConsole := by
  unfold Does clearConsole
  rw [leaves_bind]
  apply (does_dashLines _ shows inside).mono
  intro _ dashed shown
  rw [leaves_bind]
  apply (does_clearRows shown).mono
  intro _ next cleared
  exact does_home cleared

end ConsoleM

end Programs

/-! ## The log -/

/-- The call prints a text, as its format or as the argument of `"%s"`. -/
inductive Prints (call : PrintCall) (text : List Byte) : Prop
  | format (isText : TextAt call.string 0 text) (noDirective : 0x25 ∉ text)
      (noReturn : 0x0D ∉ text) (enough : text.length < call.fuel)
  | argument (format : call.string = stringFormat)
      (isText : TextAt (call.args 0).text 0 text)
      (followed : NewlinesFollowed text) (noReturn : 0x0D ∉ text)
      (enough : text.length + 2 < call.fuel)

/-- A call of `kprintf` that prints a text. -/
structure PrintedText where
  call : PrintCall
  text : List Byte
  prints : Prints call text

inductive ScreenCall where
  | print (printed : PrintedText)
  | clear

/-- What has been printed since the screen was cleared. -/
def ScreenCall.log (before : List Byte) : ScreenCall → List Byte
  | .print printed => before ++ printed.text
  | .clear => []

def ConsoleM.serve : ScreenCall → ConsoleM (Except Fault Unit)
  | .print printed => kprintf printed.call
  | .clear => do
      clearConsole
      pure (.ok ())

def ConsoleM.serveAll : List ScreenCall → ConsoleM (Except Fault Unit)
  | [] => pure (.ok ())
  | call :: rest => do
      match ← serve call with
      | .ok () => serveAll rest
      | .error failure => pure (.error failure)

theorem Prints.noReturn {call : PrintCall} {text : List Byte}
    (prints : Prints call text) : 0x0D ∉ text := by
  cases prints with
  | format _ _ noReturn _ => exact noReturn
  | argument _ _ _ noReturn _ => exact noReturn

theorem Prints.actions_eq {call : PrintCall} {text : List Byte}
    (prints : Prints call text) :
    call.actions = .ok (text.map textAction) := by
  cases prints with
  | format isText noDirective _ enough =>
      exact (formatActions_eq isText noDirective enough).1
  | argument format isText followed noReturn enough =>
      obtain ⟨fuel, rest⟩ : ∃ less, call.fuel = less + 2 :=
        ⟨call.fuel - 2, by omega⟩
      have acts := argumentActions_of_followed followed noReturn
      have read := (stringActions_eq isText
        (show text.length < fuel + 1 by omega) acts).1
      unfold PrintCall.actions
      rw [format, rest, formatActions, if_pos (by decide),
        if_neg (by decide)]
      change ((stringActions (fuel + 1) (call.args 0).text 0 >>=
        fun actions => pure (0 + 1, actions)) >>= fun result => _) = _
      rw [read]
      exact congrArg Except.ok (List.append_nil _)

/-- Any character but a carriage return extends the log. -/
theorem WindowOn.textAction {t : Terminal} {before : List Byte}
    (window : WindowOn t before) {char : Byte} (noReturn : char ≠ 0x0D) :
    WindowOn ((textAction char).perform t) (before ++ [char]) := by
  by_cases newline : char = 0x0A
  · rw [← putText_eq]
    exact window.putText (Or.inl newline)
  · obtain ⟨done, last, lines, shows⟩ := window
    obtain ⟨earlier, line, next, extended⟩ := shows.putChar char
    rw [textAction_of_plain newline noReturn]
    refine ⟨earlier, line, ?_, next⟩
    rw [← extended]
    exact linesOf_concat (by decide) newline lines

theorem WindowOn.textActions {text : List Byte} :
    ∀ {t : Terminal} {before : List Byte}, WindowOn t before →
      0x0D ∉ text →
        WindowOn ((text.map SbuUnix.textAction).foldl Action.perform t)
          (before ++ text) := by
  induction text with
  | nil =>
      intro t before window _
      simpa using window
  | cons char rest inductionHypothesis =>
      intro t before window noReturn
      rw [List.mem_cons, not_or] at noReturn
      have first := window.textAction (Ne.symm noReturn.1)
      simpa using inductionHypothesis first noReturn.2

/-- The cursor of a window is above row 23. -/
theorem WindowOn.inside {t : Terminal} {log : List Byte}
    (window : WindowOn t log) (written : ∀ index ∈ t.written, index < 160 * 25) :
    Inside t := by
  obtain ⟨done, last, -, shows⟩ := window
  have row := shows.row
  have column := shows.column
  have width := shows.current.width
  exact ⟨⟨by omega, by omega, by omega, written⟩, by omega⟩

namespace Terminal

variable {t : Terminal}

/-- The cells of a row are blank, and the other rows as before. -/
theorem clearRow_video (y index : Nat) :
    (t.clearRow y).video index =
      if y * 160 ≤ index ∧ index < y * 160 + 160 then
        if index % 2 = 0 then 0x20 else colour
      else
        t.video index := by
  have columns : ∀ count ≤ 80,
      ((List.range count).foldl (fun t x =>
        (t.put (2 * x + y * 160) 0x20).put (2 * x + 1 + y * 160) colour)
          t).video index =
        if y * 160 ≤ index ∧ index < y * 160 + 2 * count then
          if index % 2 = 0 then 0x20 else colour
        else
          t.video index := by
    intro count small
    induction count with
    | zero => exact (if_neg (by omega)).symm
    | succ count inductionHypothesis =>
        rw [List.range_succ, List.foldl_append, List.foldl_cons,
          List.foldl_nil, put_video, put_video, inductionHypothesis (by omega)]
        by_cases char : index = 2 * count + y * 160
        · rw [if_neg (by omega), if_pos char, if_pos (by omega),
            if_pos (by omega)]
        · by_cases byte : index = 2 * count + 1 + y * 160
          · rw [if_pos byte, if_pos (by omega), if_neg (by omega)]
          · rw [if_neg byte, if_neg char]
            by_cases before : y * 160 ≤ index ∧ index < y * 160 + 2 * count
            · rw [if_pos before]
              exact (if_pos ⟨by omega, by omega⟩).symm
            · rw [if_neg before, if_neg (by omega)]
  exact columns 80 (Nat.le_refl 80)

/-- All rows that are cleared are blank. -/
theorem clearRows_video (rows index : Nat) :
    ((List.range rows).foldl clearRow t).video index =
      if index < rows * 160 then
        if index % 2 = 0 then 0x20 else colour
      else
        t.video index := by
  induction rows with
  | zero => exact (if_neg (by omega)).symm
  | succ rows inductionHypothesis =>
      rw [List.range_succ, List.foldl_append, List.foldl_cons, List.foldl_nil,
        clearRow_video, inductionHypothesis]
      by_cases last : rows * 160 ≤ index ∧ index < rows * 160 + 160
      · rw [if_pos last]
        exact (if_pos (by omega)).symm
      · rw [if_neg last]
        by_cases above : index < rows * 160
        · rw [if_pos above]
          exact (if_pos (by omega)).symm
        · rw [if_neg above, if_neg (by omega)]

end Terminal

/-- From the first cell, above a blank row 23, the log is empty. -/
theorem windowOn_nil {t : Terminal} (column : t.xPos = 0) (row : t.yPos = 0)
    (blank : BlankRow t 23) : WindowOn t [] := by
  refine ⟨[], [], linesOf_nil 80 0x0A, row, column, ?_, ?_, blank⟩
  · rw [row]
    exact nofun
  · exact ⟨Nat.zero_le _, nofun, nofun⟩

theorem windowOn_clearConsole (t : Terminal) :
    WindowOn t.clearConsole [] := by
  unfold Terminal.clearConsole
  apply windowOn_nil (Eq.refl 0) (Eq.refl 0)
  intro i small
  simp only [Terminal.clearRows_video]
  rw [if_pos (by omega), if_pos (by omega)]

/-! ## Runs -/

/-- The memory shows a log. -/
def LogOn (log : List Byte) (mem : ConsoleMem) : Prop :=
  ∃ t, Shows mem t ∧ WindowOn t log ∧ t.written = []

theorem logOn_of_shows {mem : ConsoleMem} {t : Terminal} {log : List Byte}
    (shows : Shows mem t) (window : WindowOn t log) : LogOn log mem := by
  obtain ⟨done, last, lines, shown⟩ := window
  refine ⟨{ t with written := [] }, ⟨shows.video, shows.xPos, shows.yPos⟩,
    ⟨done, last, lines, ?_⟩, rfl⟩
  have line : ∀ {row line}, ShowsLine t row line →
      ShowsLine { t with written := [] } row line :=
    fun shows => ⟨shows.width, shows.char, shows.colour⟩
  refine ⟨shown.row, shown.column, ?_, line shown.current, shown.blank⟩
  intro r below
  obtain ⟨earlier, found, showsLine⟩ := shown.above r below
  exact ⟨earlier, found, line showsLine⟩

/-- One call, by its accesses. -/
theorem leaves_serve (call : ScreenCall) {log : List Byte} {mem : ConsoleMem}
    (before : LogOn log mem) :
    Leaves timerOwn (ConsoleM.serve call) mem fun ended next =>
      ended = .ok () ∧ LogOn (call.log log) next := by
  obtain ⟨t, shows, window, written⟩ := before
  have inside : Inside t := by
    apply window.inside
    rw [written]
    exact nofun
  cases call with
  | print printed =>
      change Leaves timerOwn (ConsoleM.kprintf printed.call) mem _
      unfold ConsoleM.kprintf
      rw [printed.prints.actions_eq]
      dsimp only
      rw [leaves_bind]
      apply (ConsoleM.does_performAll _ shows inside).mono
      intro _ next shown
      exact leaves_pure.mpr ⟨rfl, logOn_of_shows shown
        (window.textActions printed.prints.noReturn)⟩
  | clear =>
      change Leaves timerOwn
        (ConsoleM.clearConsole >>= fun _ => pure (Except.ok ())) mem _
      rw [leaves_bind]
      apply (ConsoleM.does_clearConsole shows inside).mono
      intro _ next shown
      exact leaves_pure.mpr ⟨rfl,
        logOn_of_shows shown (windowOn_clearConsole t)⟩

theorem leaves_serveAll (calls : List ScreenCall) :
    ∀ {log : List Byte} {mem : ConsoleMem}, LogOn log mem →
      Leaves timerOwn (ConsoleM.serveAll calls) mem fun ended next =>
        ended = .ok () ∧ LogOn (calls.foldl ScreenCall.log log) next := by
  induction calls with
  | nil => exact fun before => leaves_pure.mpr ⟨rfl, before⟩
  | cons call rest inductionHypothesis =>
      intro log mem before
      unfold ConsoleM.serveAll
      rw [leaves_bind]
      apply (leaves_serve call before).mono
      rintro ended next ⟨rfl, logged⟩
      exact inductionHypothesis logged

/-- The rows of the log lie above row 24. -/
theorem ShowsLog.congr {t next : Terminal} {log : List Byte}
    (shows : ShowsLog t log) (column : next.xPos = t.xPos)
    (row : next.yPos = t.yPos)
    (same : ∀ index < 3840, next.video index = t.video index) :
    ShowsLog next log := by
  have upTo := shows.row
  constructor
  · rw [row, upTo]
  · rw [column]
    exact shows.column
  · intro r below
    rw [row] at below ⊢
    obtain ⟨line, found, shown⟩ := shows.rows r below
    refine ⟨line, found, shown.congr ?_⟩
    intro i small
    exact same _ (by omega)
  · intro i small
    rw [same _ (by omega)]
    exact shows.blank i small

/-- `kprintf("%s", "a")` -/
def printedA : PrintedText where
  call :=
    { fuel := 4
      string := stringFormat
      args := stringArg fun i => [0x61].getD i 0 }
  text := [0x61]
  prints := .argument rfl (textAt_getD (by decide))
    (show (0x61 : Byte) ≠ 0x0A by decide) (by decide) (by decide)

/-- Blanks, with the cursor in the first cell. -/
def blankMem : ConsoleMem
  | .video _ => 0x20
  | .xPos | .yPos => (0 : Nat)
  | .timerTic | .currentSec => (0 : Int)

end SbuUnix
