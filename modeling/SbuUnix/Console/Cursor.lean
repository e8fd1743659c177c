import SbuUnix.Console.Keyboard

/-!
# Where the cursor stands

A row is left in two steps, a new row and a scroll when it is row 23, which is
tested with `==`.  A key wraps a full row 22 without the scroll, so that the
next character finds the cursor on row 23; from there a new row leads to row
24, and the rows grow without bound.
-/

namespace SbuUnix

open Outcome

/-! ## What a call prints -/

/-- What `kprintf` does for one character. -/
inductive Action where
  | newline
  | home
  | visible (byte : Byte)
  | argument (byte : Byte)

def Action.perform (t : Terminal) : Action → Terminal
  | .newline => t.newline
  | .home => { t with xPos := 0 }
  | .visible byte => t.putChar byte
  | .argument byte => t.putArgument byte

def textAction (char : Byte) : Action :=
  if char = 0x0A then .newline else if char = 0x0D then .home
  else .visible char

/-- The actions for a string. -/
def stringActions : Nat → (Nat → Byte) → Nat → Except Fault (List Action)
  | 0, _, _ => throw .outOfFuel
  | fuel + 1, text, i =>
      if text i ≠ 0 then
        if text i = 0x0A then do
          let rest ← stringActions fuel text (i + 2)
          pure (.newline :: .visible (text (i + 1)) :: rest)
        else do
          let rest ← stringActions fuel text (i + 1)
          pure (.visible (text i) :: rest)
      else
        pure []

/-- The actions for a conversion, with the number of the next argument. -/
def conversionActions (fuel : Nat) (conversion : Byte) (args : Nat → PrintArg)
    (n : Nat) : Except Fault (Nat × List Action) :=
  if conversion = 0x63 then
    pure (n + 1, [.argument ((args n).value.setWidth 8)])
  else if conversion = 0x73 then do
    let actions ← stringActions fuel (args n).text 0
    pure (n + 1, actions)
  else if conversion = 0x64 then
    pure (n + 1, (strtoint ((args n).value.setWidth 32).toInt).map .visible)
  else if conversion = 0x78 then do
    let digits ←
      convertHex2String (((args n).value.setWidth 32).signExtend 64)
    pure (n + 1, digits.map .visible)
  else if conversion = 0x70 then do
    let digits ← convertPointerAddress2String (args n).value
    pure (n + 1, digits.map .visible)
  else
    pure (n, [])

/-- The actions for a format. -/
def formatActions : Nat → (Nat → Byte) → (Nat → PrintArg) → Nat → Nat →
    Except Fault (List Action)
  | 0, _, _, _, _ => throw .outOfFuel
  | fuel + 1, string, args, i, n =>
      if string i ≠ 0 then
        if string i ≠ 0x25 then do
          let rest ← formatActions fuel string args (i + 1) n
          pure (textAction (string i) :: rest)
        else do
          let (n, actions) ← conversionActions fuel (string (i + 1)) args n
          let rest ← formatActions fuel string args (i + 2) n
          pure (actions ++ rest)
      else
        pure []

def PrintCall.actions (call : PrintCall) : Except Fault (List Action) :=
  formatActions call.fuel call.string call.args 0 0

/-- A program that performs the actions of a list. -/
def Performs (actions : Except Fault (List Action)) (t : Terminal) :
    Except Fault Terminal :=
  actions.map fun list => list.foldl Action.perform t

theorem putText_eq (t : Terminal) (char : Byte) :
    t.putText char = (textAction char).perform t := by
  unfold Terminal.putText textAction
  split_ifs <;> rfl

theorem printNumber_eq (digits : List Byte) (t : Terminal) :
    printNumber digits t = (digits.map .visible).foldl Action.perform t := by
  unfold printNumber
  rw [List.foldl_map]
  rfl

theorem printString_eq {text : Nat → Byte} (fuel : Nat) :
    ∀ i t, printString fuel text i t =
      Performs (stringActions fuel text i) t := by
  induction fuel with
  | zero => exact fun _ _ => rfl
  | succ fuel inductionHypothesis =>
      intro i t
      unfold printString stringActions
      by_cases more : text i ≠ 0
      · rw [if_pos more, if_pos more]
        by_cases newline : text i = 0x0A
        · rw [if_pos newline, if_pos newline, inductionHypothesis]
          cases stringActions fuel text (i + 2) <;> rfl
        · rw [if_neg newline, if_neg newline, inductionHypothesis]
          cases stringActions fuel text (i + 1) <;> rfl
      · rw [if_neg more, if_neg more]
        rfl

theorem printConversion_eq (fuel : Nat) (conversion : Byte)
    (args : Nat → PrintArg) (n : Nat) (t : Terminal) :
    printConversion fuel conversion args n t =
      (conversionActions fuel conversion args n).map fun result =>
        (result.1, result.2.foldl Action.perform t) := by
  unfold printConversion conversionActions
  simp only [printNumber_eq, printString_eq]
  split_ifs
  · rfl
  · cases stringActions fuel (args n).text 0 <;> rfl
  · rfl
  · cases convertHex2String (((args n).value.setWidth 32).signExtend 64) <;>
      rfl
  · cases convertPointerAddress2String (args n).value <;> rfl
  · rfl

theorem kprintfFrom_eq {string : Nat → Byte} {args : Nat → PrintArg}
    (fuel : Nat) :
    ∀ i n t, kprintfFrom fuel string args i n t =
      Performs (formatActions fuel string args i n) t := by
  induction fuel with
  | zero => exact fun _ _ _ => rfl
  | succ fuel inductionHypothesis =>
      intro i n t
      unfold kprintfFrom formatActions
      by_cases more : string i ≠ 0
      · rw [if_pos more, if_pos more]
        by_cases text : string i ≠ 0x25
        · rw [if_pos text, if_pos text, inductionHypothesis, putText_eq]
          cases formatActions fuel string args (i + 1) n <;> rfl
        · rw [if_neg text, if_neg text, printConversion_eq]
          cases conversionActions fuel (string (i + 1)) args n with
          | error failure => rfl
          | ok result =>
              apply (inductionHypothesis (i + 2) result.1
                (result.2.foldl Action.perform t)).trans
              change _ = Performs
                (formatActions fuel string args (i + 2) result.1 >>=
                  fun rest => pure (result.2 ++ rest)) t
              cases formatActions fuel string args (i + 2) result.1 with
              | error failure => rfl
              | ok rest => exact congrArg Except.ok List.foldl_append.symm
      · rw [if_neg more, if_neg more]
        rfl

theorem PrintCall.run_eq (call : PrintCall) (t : Terminal) :
    call.run t = call.actions.map fun actions =>
      ((), actions.foldl Action.perform t) := by
  unfold PrintCall.run kprintf
  rw [kprintfFrom_eq]
  unfold PrintCall.actions
  cases formatActions call.fuel call.string call.args 0 0 <;> rfl

/-! ## One action -/

/-- The cursor and all stores so far are on the screen. -/
structure CursorSafe (t : Terminal) : Prop where
  even : t.xPos % 2 = 0
  column : t.xPos ≤ 160
  row : t.yPos ≤ 23
  written : ∀ index ∈ t.written, index < 160 * 25

/-- The cursor has left the rows for good. -/
def Lost (t : Terminal) : Prop :=
  24 ≤ t.yPos

/-- The cursor is above row 23. -/
def Inside (t : Terminal) : Prop :=
  CursorSafe t ∧ t.yPos ≤ 22

theorem CursorSafe.not_lost {t : Terminal} (safe : CursorSafe t) :
    ¬ Lost t := by
  have row := safe.row
  unfold Lost
  omega

/-- A store in the row of the cursor, or in one of the last rows. -/
theorem CursorSafe.putCell {t : Terminal} (safe : CursorSafe t)
    (room : t.xPos < 160) {row : Nat} (onScreen : row ≤ 24)
    (char byte : Byte) : CursorSafe (t.putCell row char byte) := by
  have even := safe.even
  constructor
  · rw [Terminal.putCell_xPos]
    omega
  · rw [Terminal.putCell_xPos]
    omega
  · exact safe.row
  · rw [Terminal.putCell_written]
    intro index stored
    simp only [List.mem_cons] at stored
    rcases stored with rfl | rfl | before
    · omega
    · omega
    · exact safe.written index before

/-- `y_pos++` and the test for row 23. -/
theorem inside_scroll_of_inside {t : Terminal} (inside : Inside t)
    {column : Nat} (even : column % 2 = 0) (upTo : column ≤ 160) :
    Inside { t with xPos := column, yPos := t.yPos + 1 }.scroll := by
  have row := inside.2
  unfold Terminal.scroll
  by_cases full : t.yPos + 1 = 23
  · rw [if_pos full]
    refine ⟨⟨?_, ?_, ?_, ?_⟩, ?_⟩
    · simpa using even
    · simpa using upTo
    · simp only [Terminal.updateScreen_yPos]
      omega
    · intro index stored
      rcases Terminal.updateScreen_written
        { t with xPos := column, yPos := t.yPos + 1 } stored with
        before | above
      · exact inside.1.written index before
      · omega
    · simp only [Terminal.updateScreen_yPos]
      omega
  · rw [if_neg full]
    exact ⟨⟨even, upTo, by simp only; omega, inside.1.written⟩,
      by simp only; omega⟩

theorem Inside.putCell {t : Terminal} (inside : Inside t)
    (room : t.xPos < 160) (char byte : Byte) :
    Inside (t.putCell t.yPos char byte) :=
  ⟨inside.1.putCell room (by have row := inside.2; omega) char byte,
    inside.2⟩

theorem Inside.newline {t : Terminal} (inside : Inside t) :
    Inside t.newline :=
  inside_scroll_of_inside inside rfl (by decide)

/-- A full row is left before the next character. -/
theorem Inside.wrap_scroll {t : Terminal} (inside : Inside t) :
    Inside t.wrap.scroll ∧ t.wrap.scroll.xPos < 160 := by
  have even := inside.1.even
  have column := inside.1.column
  have row := inside.2
  unfold Terminal.wrap
  by_cases full : t.xPos = 160
  · rw [if_pos full]
    refine ⟨inside_scroll_of_inside inside rfl (by decide), ?_⟩
    unfold Terminal.scroll
    split
    · rw [Terminal.updateScreen_xPos]
      exact Nat.zero_lt_succ 159
    · exact Nat.zero_lt_succ 159
  · have above : t.yPos ≠ 23 := by omega
    rw [if_neg full, Terminal.scroll, if_neg above]
    exact ⟨inside, by omega⟩

theorem putArgument_of_full {t : Terminal} (full : t.xPos = 160)
    (byte : Byte) :
    t.putArgument byte =
      if byte ≠ 0x0A then
        t.wrap.scroll.putCell t.wrap.scroll.yPos byte colour
      else
        t.wrap.scroll.newline := by
  unfold Terminal.putArgument
  rw [if_pos full]

theorem putArgument_of_room {t : Terminal} (room : t.xPos ≠ 160)
    (byte : Byte) :
    t.putArgument byte =
      if byte ≠ 0x0A then t.putCell t.yPos byte colour else t.newline := by
  unfold Terminal.putArgument
  rw [if_neg room]

/-- Above row 23 every action keeps the cursor above row 23. -/
theorem Inside.perform {t : Terminal} (inside : Inside t)
    (action : Action) : Inside (action.perform t) := by
  cases action with
  | newline => exact inside.newline
  | home =>
      exact ⟨⟨rfl, Nat.zero_le _, inside.1.row, inside.1.written⟩, inside.2⟩
  | visible byte =>
      have room := inside.wrap_scroll
      exact room.1.putCell room.2 byte colour
  | argument byte =>
      have even := inside.1.even
      have column := inside.1.column
      have next : ∀ t : Terminal, Inside t → t.xPos < 160 →
          Inside (if byte ≠ 0x0A then t.putCell t.yPos byte colour
            else t.newline) := by
        intro t insideNext room
        split
        · exact insideNext.putCell room byte colour
        · exact insideNext.newline
      rw [Action.perform]
      by_cases full : t.xPos = 160
      · rw [putArgument_of_full full]
        have room := inside.wrap_scroll
        exact next _ room.1 room.2
      · rw [putArgument_of_room full]
        exact next t inside (by omega)

theorem Inside.foldl (actions : List Action) :
    ∀ {t : Terminal}, Inside t → Inside (actions.foldl Action.perform t) := by
  induction actions with
  | nil => exact id
  | cons action rest inductionHypothesis =>
      exact fun inside => inductionHypothesis (inside.perform action)

/-- No scroll happens below row 23. -/
theorem Lost.scroll {t : Terminal} (lost : Lost t) : Lost t.scroll := by
  unfold Lost at lost
  rw [Terminal.scroll, if_neg (by omega)]
  exact lost

theorem Lost.wrap {t : Terminal} (lost : Lost t) : Lost t.wrap := by
  unfold Lost at lost
  unfold Terminal.wrap
  split
  · exact Nat.le_succ_of_le lost
  · exact lost

theorem Lost.newline {t : Terminal} (lost : Lost t) : Lost t.newline := by
  apply Lost.scroll
  exact Nat.le_succ_of_le lost

theorem Lost.perform {t : Terminal} (lost : Lost t) (action : Action) :
    Lost (action.perform t) := by
  cases action with
  | newline => exact lost.newline
  | home => exact lost
  | visible byte => exact lost.wrap.scroll
  | argument byte =>
      rw [Action.perform]
      by_cases full : t.xPos = 160
      · rw [putArgument_of_full full]
        split
        · exact lost.wrap.scroll
        · exact lost.wrap.scroll.newline
      · rw [putArgument_of_room full]
        split
        · exact lost
        · exact lost.newline

theorem Lost.foldl (actions : List Action) :
    ∀ {t : Terminal}, Lost t → Lost (actions.foldl Action.perform t) := by
  induction actions with
  | nil => exact id
  | cons action rest inductionHypothesis =>
      exact fun lost => inductionHypothesis (lost.perform action)

/-! ## From row 23 -/

/-- The actions leave row 23 by a scroll, or not at all: the first character
that looks at the row comes before the row is full and before any `'\n'`. -/
def SafeFrom : Nat → List Action → Prop
  | _, [] => True
  | _, .newline :: _ => False
  | _, .home :: rest => SafeFrom 0 rest
  | column, .visible _ :: _ => column ≠ 160
  | column, .argument byte :: rest =>
      column ≠ 160 ∧ byte ≠ 0x0A ∧ SafeFrom (column + 2) rest

theorem CursorSafe.lost_newline {t : Terminal} (last : t.yPos = 23) :
    Lost t.newline := by
  apply Lost.scroll
  exact Nat.le_of_eq (congrArg Nat.succ last).symm

theorem CursorSafe.lost_wrap {t : Terminal} (last : t.yPos = 23)
    (full : t.xPos = 160) : Lost t.wrap := by
  rw [Terminal.wrap, if_pos full]
  exact Nat.le_of_eq (congrArg Nat.succ last).symm

/-- The scroll of row 23. -/
theorem CursorSafe.scroll {t : Terminal} (safe : CursorSafe t) :
    Inside t.scroll ∧ t.scroll.xPos = t.xPos := by
  have row := safe.row
  unfold Terminal.scroll
  by_cases full : t.yPos = 23
  · rw [if_pos full]
    refine ⟨⟨⟨?_, ?_, ?_, ?_⟩, ?_⟩, ?_⟩
    · simpa using safe.even
    · simpa using safe.column
    · simp only [Terminal.updateScreen_yPos]
      omega
    · intro index stored
      rcases Terminal.updateScreen_written t stored with before | above
      · exact safe.written index before
      · omega
    · simp only [Terminal.updateScreen_yPos]
      omega
    · simp only [Terminal.updateScreen_xPos]
  · rw [if_neg full]
    exact ⟨⟨safe, by omega⟩, rfl⟩

theorem CursorSafe.foldl_of_safeFrom :
    ∀ {actions : List Action} {t : Terminal}, CursorSafe t → t.yPos = 23 →
      SafeFrom t.xPos actions →
        CursorSafe (actions.foldl Action.perform t) := by
  intro actions
  induction actions with
  | nil => exact fun safe _ _ => safe
  | cons action rest inductionHypothesis =>
      intro t safe last safeFrom
      have even := safe.even
      have column := safe.column
      cases action with
      | newline => exact absurd safeFrom id
      | home =>
          exact inductionHypothesis
            ⟨rfl, Nat.zero_le _, safe.row, safe.written⟩ last safeFrom
      | visible byte =>
          have notFull : t.xPos ≠ 160 := safeFrom
          have inside := safe.scroll
          have cell : Inside (t.putChar byte) := by
            rw [Terminal.putChar, Terminal.wrap, if_neg notFull]
            exact inside.1.putCell (by omega) byte colour
          exact (cell.foldl rest).1
      | argument byte =>
          obtain ⟨notFull, noNewline, others⟩ := safeFrom
          have cell : t.putArgument byte = t.putCell t.yPos byte colour := by
            rw [putArgument_of_room notFull, if_pos noNewline]
          rw [List.foldl_cons, Action.perform, cell]
          exact inductionHypothesis
            (safe.putCell (by omega) (by omega) byte colour) last others

theorem CursorSafe.lost_of_not_safeFrom :
    ∀ {actions : List Action} {t : Terminal}, CursorSafe t → t.yPos = 23 →
      ¬ SafeFrom t.xPos actions →
        Lost (actions.foldl Action.perform t) := by
  intro actions
  induction actions with
  | nil => exact fun _ _ unsafeFrom => absurd trivial unsafeFrom
  | cons action rest inductionHypothesis =>
      intro t safe last unsafeFrom
      have even := safe.even
      have column := safe.column
      cases action with
      | newline => exact (lost_newline last).foldl rest
      | home =>
          exact inductionHypothesis
            ⟨rfl, Nat.zero_le _, safe.row, safe.written⟩ last unsafeFrom
      | visible byte =>
          have full : t.xPos = 160 := not_not.mp unsafeFrom
          have cell : Lost (t.putChar byte) := (lost_wrap last full).scroll
          exact cell.foldl rest
      | argument byte =>
          by_cases full : t.xPos = 160
          · have cell : Lost (t.putArgument byte) := by
              rw [putArgument_of_full full]
              split
              · exact (lost_wrap last full).scroll
              · exact (lost_wrap last full).scroll.newline
            exact cell.foldl rest
          · by_cases newline : byte = 0x0A
            · have cell : Lost (t.putArgument byte) := by
                rw [putArgument_of_room full, if_neg (not_not.mpr newline)]
                exact lost_newline last
              exact cell.foldl rest
            · have cell :
                  t.putArgument byte = t.putCell t.yPos byte colour := by
                rw [putArgument_of_room full, if_pos newline]
              rw [List.foldl_cons, Action.perform, cell]
              exact inductionHypothesis
                (safe.putCell (by omega) (by omega) byte colour) last
                fun others => unsafeFrom ⟨full, newline, others⟩

/-! ## A key -/

/-- The characters that `kb_handler` hands to `kprintf_kb`. -/
def Produced (ch : Byte) : Prop :=
  ch ∈ keyboardMap ∨ ch ∈ keyboardUpperMap ∨
    ch ∈ [0x48, 0x4B, 0x50, 0x4D, 0x68, 0x3F]

instance (ch : Byte) : Decidable (Produced ch) :=
  inferInstanceAs (Decidable (_ ∨ _))

/-- The characters with a control sequence of their own are not among them. -/
theorem Produced.plain :
    ∀ ch : Byte, Produced ch → ch ≠ 30 ∧ ch ≠ 31 := by
  have absent : ¬ Produced 30 ∧ ¬ Produced 31 := by
    decide +kernel
  intro ch produced
  constructor
  · intro isUp
    exact absent.1 (isUp ▸ produced)
  · intro isDown
    exact absent.2 (isDown ▸ produced)

/-- The scroll before the wrap, which leaves a full row 22 for row 23. -/
theorem CursorSafe.scroll_wrap {t : Terminal} (safe : CursorSafe t) :
    CursorSafe t.scroll.wrap ∧ t.scroll.wrap.xPos < 160 ∧
      (t.scroll.wrap.yPos = 23 ↔ t.xPos = 160 ∧ 22 ≤ t.yPos) := by
  obtain ⟨inside, column⟩ := safe.scroll
  have row : t.scroll.yPos = if t.yPos = 23 then 22 else t.yPos := by
    unfold Terminal.scroll
    split
    · simp only [Terminal.updateScreen_yPos]
      omega
    · rfl
  have oldRow := safe.row
  have even := inside.1.even
  have upTo := inside.1.column
  have above := inside.2
  unfold Terminal.wrap
  by_cases full : t.scroll.xPos = 160
  · rw [if_pos full]
    refine ⟨⟨rfl, Nat.zero_le _, ?_, inside.1.written⟩, ?_, ?_⟩
    · exact Nat.succ_le_succ above
    · exact Nat.zero_lt_succ 159
    · rw [← column]
      split at row <;> simp only <;> omega
  · rw [if_neg full]
    exact ⟨inside.1, by omega, by omega⟩

theorem kprintfKb_newline (t : Terminal) :
    kprintfKb 0x0A t = t.scroll.wrap.newline := by
  unfold kprintfKb
  exact if_pos rfl

theorem kprintfKb_yPos {ch : Byte} (other : ch ≠ 0x0A) (t : Terminal) :
    (kprintfKb ch t).yPos = t.scroll.wrap.yPos := by
  unfold kprintfKb
  rw [if_neg other]
  by_cases control : t.scroll.wrap.control
  · rw [if_pos control]
    split <;> rfl
  · rw [if_neg control]
    split_ifs <;> rfl

/-- Every character but `'\n'` goes to the row of the cursor, or to row 24. -/
theorem CursorSafe.kprintfKb {t : Terminal} (safe : CursorSafe t) {ch : Byte}
    (produced : Produced ch) (other : ch ≠ 0x0A) :
    CursorSafe (kprintfKb ch t) := by
  obtain ⟨wrapped, room, -⟩ := safe.scroll_wrap
  have cell : ∀ row ≤ 24, ∀ char byte,
      CursorSafe (t.scroll.wrap.putCell row char byte) :=
    fun row onScreen char byte => wrapped.putCell room onScreen char byte
  have row := Nat.le_succ_of_le wrapped.row
  have plain := Produced.plain ch produced
  unfold SbuUnix.kprintfKb
  rw [if_neg other]
  by_cases control : t.scroll.wrap.control
  · rw [if_pos control]
    by_cases back : ch = 0x68 ∧
        t.scroll.wrap.globalX + 2 ≤ t.scroll.wrap.xPos
    · rw [if_pos back]
      -- the cell before the cursor, which stays there
      have even := wrapped.even
      have left : CursorSafe
          { t.scroll.wrap with xPos := t.scroll.wrap.xPos - 2 } :=
        ⟨by simp only; omega, by simp only; omega, wrapped.row,
          wrapped.written⟩
      have blank := left.putCell (by simp only; omega) row 0x20 (colour + 1)
      refine ⟨?_, ?_, blank.row, blank.written⟩
      · simp only [Terminal.putCell_xPos]
        omega
      · simp only [Terminal.putCell_xPos]
        omega
    · rw [if_neg back]
      exact wrapped
  · rw [if_neg control]
    by_cases shift : t.scroll.wrap.shift
    · rw [if_pos shift]
      split
      · exact cell 24 (Nat.le_refl _) _ _
      · exact cell _ row _ _
    · rw [if_neg shift, if_neg plain.1, if_neg plain.2]
      exact cell _ row _ _

/-! ## Runs -/

/-- A call of `kprintf`, or of `kprintf_kb` with the flags of the moment. -/
inductive ConsoleCall where
  | print (call : PrintCall)
  | key (control shift : Bool) (ch : { ch : Byte // Produced ch })

def ConsoleCall.serve : ConsoleCall → StateT Terminal (Except Fault) Unit
  | .print call => call.run
  | .key control shift ch => fun t =>
      pure ((), kprintfKb ch { t with control := control, shift := shift })

/-- Text that meets the cursor on row 23 leaves that row by a scroll, and
`'\n'` is not typed behind a full row 22. -/
def ConsoleCall.Scrolls : ConsoleCall → Terminal → Prop
  | .print call, t => t.yPos = 23 →
      ∀ actions, call.actions = .ok actions → SafeFrom t.xPos actions
  | .key _ _ ch, t => ¬ (ch.val = 0x0A ∧ t.xPos = 160 ∧ 22 ≤ t.yPos)

theorem ConsoleCall.run_of_serve {call : PrintCall} {t next : Terminal}
    (served : call.run t = .ok ((), next)) :
    ∃ actions, call.actions = .ok actions ∧
      next = actions.foldl Action.perform t := by
  rw [PrintCall.run_eq] at served
  cases printed : call.actions with
  | error failure =>
      rw [printed] at served
      cases served
  | ok actions =>
      rw [printed] at served
      cases served
      exact ⟨actions, rfl, rfl⟩

/-- A call that meets the condition keeps the cursor on the screen. -/
theorem ConsoleCall.safe_of_scrolls {call : ConsoleCall} {t next : Terminal}
    (safe : CursorSafe t) (scrolls : call.Scrolls t)
    (served : call.serve t = .ok ((), next)) : CursorSafe next := by
  cases call with
  | print call =>
      obtain ⟨actions, printed, rfl⟩ := run_of_serve served
      by_cases last : t.yPos = 23
      · exact safe.foldl_of_safeFrom last (scrolls last actions printed)
      · have row := safe.row
        have inside : Inside t := ⟨safe, by omega⟩
        exact (inside.foldl actions).1
  | key control shift ch =>
      cases served
      have flagged : CursorSafe { t with control := control, shift := shift } :=
        ⟨safe.even, safe.column, safe.row, safe.written⟩
      by_cases newline : ch.val = 0x0A
      · obtain ⟨wrapped, -, last⟩ := flagged.scroll_wrap
        have above : _ ≠ 23 := fun full => scrolls ⟨newline, last.mp full⟩
        have row := wrapped.row
        have inside : Inside (Terminal.wrap (Terminal.scroll
            { t with control := control, shift := shift })) :=
          ⟨wrapped, by omega⟩
        rw [newline, kprintfKb_newline]
        exact inside.newline.1
      · exact flagged.kprintfKb ch.property newline

/-- A call that does not meet it loses the cursor. -/
theorem ConsoleCall.lost_of_not_scrolls {call : ConsoleCall}
    {t next : Terminal} (safe : CursorSafe t) (falls : ¬ call.Scrolls t)
    (served : call.serve t = .ok ((), next)) : Lost next := by
  cases call with
  | print call =>
      obtain ⟨actions, printed, rfl⟩ := run_of_serve served
      simp only [Scrolls, not_forall] at falls
      obtain ⟨last, others, same, unsafeFrom⟩ := falls
      obtain rfl : actions = others := Except.ok.inj (printed.symm.trans same)
      exact safe.lost_of_not_safeFrom last unsafeFrom
  | key control shift ch =>
      cases served
      obtain ⟨newline, full⟩ := not_not.mp falls
      have flagged : CursorSafe { t with control := control, shift := shift } :=
        ⟨safe.even, safe.column, safe.row, safe.written⟩
      rw [newline, kprintfKb_newline]
      exact CursorSafe.lost_newline (flagged.scroll_wrap.2.2.mpr full)

/-- A lost cursor does not come back. -/
theorem ConsoleCall.lost_of_lost {call : ConsoleCall} {t next : Terminal}
    (lost : Lost t) (served : call.serve t = .ok ((), next)) : Lost next := by
  cases call with
  | print call =>
      obtain ⟨actions, -, rfl⟩ := run_of_serve served
      exact lost.foldl actions
  | key control shift ch =>
      cases served
      have flagged : Lost { t with control := control, shift := shift } := lost
      have wrapped := flagged.scroll.wrap
      by_cases newline : ch.val = 0x0A
      · rw [newline, kprintfKb_newline]
        exact wrapped.newline
      · rw [Lost, kprintfKb_yPos newline]
        exact wrapped

theorem lost_runAll {calls : List ConsoleCall} :
    ∀ {t next : Terminal}, Lost t →
      runAll ConsoleCall.serve calls t = .ok ((), next) → Lost next := by
  induction calls with
  | nil =>
      intro t next lost returned
      cases returned
      exact lost
  | cons call rest inductionHypothesis =>
      intro t next lost returned
      obtain ⟨_, between, first, others⟩ := bind_eq_ok_iff.mp returned
      exact inductionHypothesis (ConsoleCall.lost_of_lost lost first) others

/-- The cursor stays on the screen as long as every call meets the condition,
and no longer. -/
theorem cursorSafe_runAll_iff {calls : List ConsoleCall} :
    ∀ {t next : Terminal}, CursorSafe t →
      runAll ConsoleCall.serve calls t = .ok ((), next) →
        (CursorSafe next ↔
          EachMeets ConsoleCall.serve ConsoleCall.Scrolls calls t) := by
  induction calls with
  | nil =>
      intro t next safe returned
      cases returned
      exact iff_of_true safe trivial
  | cons call rest inductionHypothesis =>
      intro t next safe returned
      obtain ⟨_, between, first, others⟩ := bind_eq_ok_iff.mp returned
      by_cases scrolls : call.Scrolls t
      · have safeBetween := ConsoleCall.safe_of_scrolls safe scrolls first
        rw [inductionHypothesis safeBetween others]
        refine ⟨fun meets => ⟨scrolls, ?_⟩, fun meets => meets.2 _ first⟩
        intro other served
        rw [first] at served
        cases served
        exact meets
      · have lost := ConsoleCall.lost_of_not_scrolls safe scrolls first
        exact iff_of_false
          (fun safeNext => safeNext.not_lost (lost_runAll lost others))
          fun meets => scrolls meets.1

/-- Row 22 is filled, and the Enter key typed behind it. -/
def fullRowThenEnter : List ConsoleCall :=
  [.print ⟨103, fun i => if i < 22 then 0x0A else if i < 102 then 0x61 else 0,
      fun _ => ⟨0, fun _ => 0⟩⟩,
    .key false false ⟨0x0A, by decide⟩]

end SbuUnix
