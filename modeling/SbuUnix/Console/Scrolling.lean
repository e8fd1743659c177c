import SbuUnix.Console.Screen
import SbuUnix.Library.Lines
import SbuUnix.Library.Outcome

/-!
# The screen is the end of a log

A call of `kprintf` with a text that has no conversion writes the text behind
all that was printed before.  The screen shows the last lines of it: the
cursor stays on the last of them, at most on row 22, and row 23 below it
remains as it was.
-/

namespace SbuUnix

open Lines Outcome

/-- A character that `kprintf` prints as it stands, or a `'\n'`. -/
def Literal (char : Byte) : Prop :=
  char = 0x0A ∨ 0x20 ≤ char ∧ char ≤ 0x7E ∧ char ≠ 0x25

instance (char : Byte) : Decidable (Literal char) :=
  inferInstanceAs (Decidable (_ ∨ _))

/-- The format of the call is the text, without conversions. -/
structure LiteralCall (call : PrintCall) (text : List Byte) : Prop where
  fuel : text.length < call.fuel
  literal : ∀ char ∈ text, Literal char
  bytes : ∀ i (inside : i < text.length), call.string i = text[i]
  nul : call.string text.length = 0

/-- The lines of all that was printed. -/
def logLines (text : List Byte) : List (List Byte) :=
  linesOf 80 0x0A text

/-- The cells of a row, up to the length of the line. -/
structure ShowsLine (t : Terminal) (row : Nat) (line : List Byte) : Prop where
  width : line.length ≤ 80
  char : ∀ i (inside : i < line.length),
    t.video (row * 160 + 2 * i) = (line)[i]
  colour : ∀ i < line.length, t.video (row * 160 + 2 * i + 1) = colour

/-- No character stands in the row. -/
def BlankRow (t : Terminal) (row : Nat) : Prop :=
  ∀ i < 80, t.video (row * 160 + 2 * i) = 0x20

/-- The screen after a text that was printed from its first cell on. -/
structure ShowsLog (t : Terminal) (text : List Byte) : Prop where
  row : t.yPos = min ((logLines text).length - 1) 22
  column : ∃ last, (logLines text).getLast? = some last ∧
    t.xPos = 2 * last.length
  rows : ∀ r ≤ t.yPos, ∃ line,
    (logLines text)[(logLines text).length - 1 - t.yPos + r]? = some line ∧
      ShowsLine t r line
  blank : BlankRow t 23

/-! ## One character -/

/-- The window on the lines `done ++ [last]`. -/
structure Window (t : Terminal) (done : List (List Byte)) (last : List Byte) :
    Prop where
  row : t.yPos = min done.length 22
  column : t.xPos = 2 * last.length
  above : ∀ r < t.yPos, ∃ line,
    done[done.length - t.yPos + r]? = some line ∧ ShowsLine t r line
  current : ShowsLine t t.yPos last
  blank : BlankRow t 23

theorem ShowsLine.congr {t next : Terminal} {row nextRow : Nat}
    {line : List Byte} (shows : ShowsLine t row line)
    (same : ∀ i < 160,
      next.video (nextRow * 160 + i) = t.video (row * 160 + i)) :
    ShowsLine next nextRow line := by
  have short := shows.width
  constructor
  · exact short
  · intro i inside
    rw [same (2 * i) (by omega)]
    exact shows.char i inside
  · intro i inside
    rw [Nat.add_assoc, same (2 * i + 1) (by omega), ← Nat.add_assoc]
    exact shows.colour i inside

/-- A new row below the last line, by a scroll when there is none. -/
theorem Window.newline {t : Terminal} {done : List (List Byte)}
    {last : List Byte} (window : Window t done last) :
    Window t.newline (done ++ [last]) [] := by
  have row := window.row
  unfold Terminal.newline Terminal.scroll
  by_cases full : t.yPos + 1 = 23
  · -- every row moves up, and the row of the cursor is new
    rw [if_pos full]
    constructor
    · simp only [Terminal.updateScreen_yPos, List.length_append,
        List.length_singleton]
      omega
    · simp only [Terminal.updateScreen_xPos, List.length_nil]
    · intro r below
      simp only [Terminal.updateScreen_yPos] at below ⊢
      have moved : ∀ line, ShowsLine t (r + 1) line →
          ShowsLine
            { ({ t with xPos := 0, yPos := t.yPos + 1 } :
                Terminal).updateScreen with yPos := t.yPos + 1 - 1 }
            r line := by
        intro line shows
        apply shows.congr
        intro i small
        simp only [Terminal.updateScreen_video]
        rw [if_pos (by omega)]
        congr 1
        omega
      by_cases lastRow : r + 1 = t.yPos
      · refine ⟨last, ?_, moved last (lastRow ▸ window.current)⟩
        rw [List.length_append, List.length_singleton,
          show done.length + 1 - (t.yPos + 1 - 1) + r = done.length by omega]
        exact List.getElem?_concat_length
      · obtain ⟨line, found, shows⟩ := window.above (r + 1) (by omega)
        refine ⟨line, ?_, moved line shows⟩
        rw [List.length_append, List.length_singleton,
          show done.length + 1 - (t.yPos + 1 - 1) + r =
            done.length - t.yPos + (r + 1) by omega,
          List.getElem?_append_left (by omega)]
        exact found
    · exact ⟨Nat.zero_le _, nofun, nofun⟩
    · intro i small
      simp only [Terminal.updateScreen_video]
      rw [if_neg (by omega)]
      exact window.blank i small
  · rw [if_neg full]
    constructor
    · simp only [List.length_append, List.length_singleton]
      omega
    · rfl
    · intro r below
      simp only at below ⊢
      by_cases lastRow : r = t.yPos
      · refine ⟨last, ?_, ?_⟩
        · rw [List.length_append, List.length_singleton,
            show done.length + 1 - (t.yPos + 1) + r = done.length by omega]
          exact List.getElem?_concat_length
        · subst lastRow
          exact ⟨window.current.width, window.current.char,
            window.current.colour⟩
      · obtain ⟨line, found, shows⟩ := window.above r (by omega)
        refine ⟨line, ?_, shows.width, shows.char, shows.colour⟩
        rw [List.length_append, List.length_singleton,
          show done.length + 1 - (t.yPos + 1) + r =
            done.length - t.yPos + r by omega,
          List.getElem?_append_left (by omega)]
        exact found
    · exact ⟨Nat.zero_le _, nofun, nofun⟩
    · exact window.blank

/-- A cell behind the last line, where the row has room. -/
theorem Window.putCell {t : Terminal} {done : List (List Byte)}
    {last : List Byte} (window : Window t done last) (char : Byte)
    (room : last.length < 80) :
    Window (t.putCell t.yPos char colour) done (last ++ [char]) := by
  have row := window.row
  have column := window.column
  have other : ∀ index,
      index < t.yPos * 160 + 2 * last.length ∨
        t.yPos * 160 + 160 ≤ index →
        (t.putCell t.yPos char colour).video index = t.video index := by
    intro index apart
    rw [Terminal.putCell_video, if_neg (by omega), if_neg (by omega)]
  constructor
  · exact row
  · simp only [Terminal.putCell_xPos, List.length_append,
      List.length_singleton]
    omega
  · intro r below
    obtain ⟨line, found, shows⟩ := window.above r below
    refine ⟨line, found, shows.congr ?_⟩
    intro i small
    rw [Terminal.putCell_yPos] at below
    exact other _ (by omega)
  · rw [Terminal.putCell_yPos]
    constructor
    · simp only [List.length_append, List.length_singleton]
      omega
    · intro i inside
      simp only [List.length_append, List.length_singleton] at inside
      by_cases new : i = last.length
      · subst new
        rw [List.getElem_concat_length rfl, Terminal.putCell_video,
          if_neg (by omega), if_pos (by omega)]
      · rw [List.getElem_append_left (by omega), other _ (by omega)]
        exact window.current.char i (by omega)
    · intro i inside
      simp only [List.length_append, List.length_singleton] at inside
      by_cases new : i = last.length
      · rw [Terminal.putCell_video, if_pos (by omega)]
      · rw [other _ (by omega)]
        exact window.current.colour i (by omega)
  · intro i small
    rw [other _ (by omega)]
    exact window.blank i small

/-- Where the row is full, the character opens a row. -/
theorem putChar_of_full {t : Terminal} (full : t.xPos = 160) (char : Byte) :
    t.putChar char = t.newline.putCell t.newline.yPos char colour := by
  unfold Terminal.putChar Terminal.newline Terminal.wrap
  rw [if_pos full]

theorem putChar_of_room {t : Terminal} (room : t.xPos ≠ 160)
    (below : t.yPos ≠ 23) (char : Byte) :
    t.putChar char = t.putCell t.yPos char colour := by
  unfold Terminal.putChar Terminal.wrap Terminal.scroll
  rw [if_neg room, if_neg below]

/-- A character other than `'\n'` extends the log as it extends the lines of a
text. -/
theorem Window.putChar {t : Terminal} {done : List (List Byte)}
    {last : List Byte} (window : Window t done last) (char : Byte) :
    ∃ earlier line, Window (t.putChar char) earlier line ∧
      extend 80 done last char = earlier ++ [line] := by
  have row := window.row
  have column := window.column
  unfold extend
  by_cases full : last.length = 80
  · rw [if_pos full, putChar_of_full (by omega)]
    exact ⟨done ++ [last], [char],
      window.newline.putCell char (by decide), rfl⟩
  · have width := window.current.width
    rw [if_neg full, putChar_of_room (by omega) (by omega)]
    exact ⟨done, last ++ [char], window.putCell char (by omega), rfl⟩

/-! ## A text -/

/-- The window on the lines of a text. -/
def WindowOn (t : Terminal) (text : List Byte) : Prop :=
  ∃ done last, logLines text = done ++ [last] ∧ Window t done last

/-- A character of a text that has no conversion. -/
theorem WindowOn.putText {t : Terminal} {text : List Byte}
    (window : WindowOn t text) {char : Byte} (literal : Literal char) :
    WindowOn (t.putText char) (text ++ [char]) := by
  obtain ⟨done, last, lines, shows⟩ := window
  unfold Terminal.putText
  by_cases newline : char = 0x0A
  · rw [if_pos newline, newline]
    refine ⟨done ++ [last], [], ?_, shows.newline⟩
    rw [logLines, linesOf_concat_separator, ← logLines, lines]
  · have printable := literal.resolve_left newline
    have noReturn : char ≠ 0x0D := by
      rintro rfl
      exact absurd printable.1 (by decide)
    rw [if_neg newline, if_neg noReturn]
    obtain ⟨earlier, line, next, extended⟩ := shows.putChar char
    refine ⟨earlier, line, ?_, next⟩
    rw [← extended]
    exact linesOf_concat (by decide) newline lines

theorem WindowOn.foldl {text : List Byte} :
    ∀ {t : Terminal} {before : List Byte}, WindowOn t before →
      (∀ char ∈ text, Literal char) →
        WindowOn (text.foldl Terminal.putText t) (before ++ text) := by
  induction text with
  | nil =>
      intro t before window _
      simpa using window
  | cons char rest inductionHypothesis =>
      intro t before window literal
      have first := window.putText (literal char (List.mem_cons_self ..))
      simpa using inductionHypothesis first
        fun other member => literal other (List.mem_cons_of_mem _ member)

theorem Literal.plain {char : Byte} (literal : Literal char) :
    char ≠ 0 ∧ char ≠ 0x25 := by
  rcases literal with rfl | printable
  · decide
  · refine ⟨?_, printable.2.2⟩
    rintro rfl
    exact absurd printable.1 (by decide)

theorem LiteralCall.run {call : PrintCall} {text before : List Byte}
    (literal : LiteralCall call text) {t : Terminal}
    (window : WindowOn t before) :
    ∃ next, call.run t = .ok ((), next) ∧
      WindowOn next (before ++ text) := by
  refine ⟨_, ?_, window.foldl literal.literal⟩
  unfold PrintCall.run kprintf
  rw [kprintfFrom_text literal.fuel
    (fun char member => (literal.literal char member).plain)]
  · rfl
  · intro k inside
    rw [Nat.zero_add]
    exact literal.bytes k inside
  · rw [Nat.zero_add]
    exact literal.nul

theorem runAll_literal {calls : List PrintCall} {texts : List (List Byte)}
    (literal : List.Forall₂ LiteralCall calls texts) :
    ∀ {t : Terminal} {before : List Byte}, WindowOn t before →
      ∃ next, runAll PrintCall.run calls t = .ok ((), next) ∧
        WindowOn next (before ++ texts.flatten) := by
  induction literal with
  | nil =>
      intro t before window
      exact ⟨t, rfl, by simpa using window⟩
  | cons first _ inductionHypothesis =>
      intro t before window
      obtain ⟨between, printed, shows⟩ := first.run window
      obtain ⟨next, others, last⟩ := inductionHypothesis shows
      refine ⟨next, ?_, by simpa using last⟩
      exact bind_eq_ok_iff.mpr ⟨(), between, printed, others⟩

/-! ## The log -/

theorem WindowOn.showsLog {t : Terminal} {text : List Byte}
    (window : WindowOn t text) : ShowsLog t text := by
  obtain ⟨done, last, lines, shows⟩ := window
  have count : (logLines text).length - 1 = done.length := by
    rw [lines, List.length_append]
    rfl
  have row := shows.row
  constructor
  · rw [count]
    exact row
  · exact ⟨last, by rw [lines, List.getLast?_concat], shows.column⟩
  · intro r upTo
    rw [count, lines]
    by_cases lastRow : r = t.yPos
    · refine ⟨last, ?_, lastRow ▸ shows.current⟩
      rw [show done.length - t.yPos + r = done.length by omega]
      exact List.getElem?_concat_length
    · obtain ⟨line, found, showsLine⟩ := shows.above r (by omega)
      refine ⟨line, ?_, showsLine⟩
      rw [List.getElem?_append_left (by omega)]
      exact found
  · exact shows.blank

/-- From the first cell of a screen whose row 23 is blank, calls of `kprintf`
with literal texts end, and the screen shows the last lines of all the text. -/
theorem showsLog_runAll {calls : List PrintCall} {texts : List (List Byte)}
    (literal : List.Forall₂ LiteralCall calls texts) {t : Terminal}
    (column : t.xPos = 0) (row : t.yPos = 0) (blank : BlankRow t 23) :
    ∃ next, runAll PrintCall.run calls t = .ok ((), next) ∧
      ShowsLog next texts.flatten := by
  have empty : WindowOn t [] := by
    refine ⟨[], [], linesOf_nil 80 0x0A, ?_, column, ?_, ?_, blank⟩
    · exact row
    · rw [row]
      exact nofun
    · exact ⟨Nat.zero_le _, nofun, nofun⟩
  obtain ⟨next, printed, shows⟩ := runAll_literal literal empty
  exact ⟨next, printed, shows.showsLog⟩

/-- Two calls, of which the first one ends with a `'\n'`. -/
theorem showsLog_runAll_two :
    ∃ next : Terminal, ShowsLog next [0x61, 0x0A, 0x62] := by
  have bytes : ∀ text : List Byte, ∀ i (inside : i < text.length),
      text.getD i 0 = text[i] := by
    intro text i inside
    exact List.getD_eq_getElem _ _ inside
  obtain ⟨next, -, shows⟩ := @showsLog_runAll
    [⟨3, fun i => [0x61, 0x0A].getD i 0, fun _ => ⟨0, fun _ => 0⟩⟩,
      ⟨2, fun i => [0x62].getD i 0, fun _ => ⟨0, fun _ => 0⟩⟩]
    [[0x61, 0x0A], [0x62]]
    (.cons ⟨by decide, by decide, bytes _, rfl⟩
      (.cons ⟨by decide, by decide, bytes _, rfl⟩ .nil))
    { video := fun _ => 0x20 } rfl rfl (fun _ _ => rfl)
  exact ⟨next, shows⟩

end SbuUnix
