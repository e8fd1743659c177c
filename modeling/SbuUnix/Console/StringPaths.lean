import SbuUnix.Console.Cursor
import SbuUnix.Console.Scrolling
import SbuUnix.Libc.Strings

/-!
# The two string paths of `kprintf`

A string is printed as the format or as the argument of `%s`.  The loop of
`%s` prints the character behind a `'\n'` without a look at it, so that
another `'\n'` becomes a glyph and the NUL is passed.
-/

namespace SbuUnix

/-! ## The bytes that the loops read -/

/-- The indices at which the loop of the case `'s'` reads its string. -/
def stringReads : Nat → (Nat → Byte) → Nat → List Nat
  | 0, _, _ => []
  | fuel + 1, text, i =>
      if text i ≠ 0 then
        if text i = 0x0A then
          i :: (i + 1) :: stringReads fuel text (i + 2)
        else
          i :: stringReads fuel text (i + 1)
      else
        [i]

/-- The indices at which `kprintf` reads its format. -/
def formatReads : Nat → (Nat → Byte) → Nat → List Nat
  | 0, _, _ => []
  | fuel + 1, string, i =>
      if string i ≠ 0 then
        if string i ≠ 0x25 then
          i :: formatReads fuel string (i + 1)
        else
          i :: (i + 1) :: formatReads fuel string (i + 2)
      else
        [i]

/-- The format `"%s"` -/
def stringFormat (i : Nat) : Byte :=
  [0x25, 0x73].getD i 0

/-- The string as an argument. -/
def stringArg (text : Nat → Byte) (_ : Nat) : PrintArg :=
  ⟨0, text⟩

/-- The video memory and the cursor are the same. -/
def SameScreen (first second : Terminal) : Prop :=
  first.video = second.video ∧ first.xPos = second.xPos ∧
    first.yPos = second.yPos

/-- `kprintf("%s", s)` and `kprintf(s)` leave the same screen, and read
nothing behind the NUL at index `len`. -/
structure PathsAgree (fuel : Nat) (text : Nat → Byte) (len : Nat)
    (args : Nat → PrintArg) (t : Terminal) : Prop where
  same : ∃ byArgument byFormat,
    kprintf fuel stringFormat (stringArg text) t = .ok byArgument ∧
      kprintf fuel text args t = .ok byFormat ∧
        SameScreen byArgument byFormat
  argumentInside : ∀ i ∈ stringReads (fuel - 1) text 0, i ≤ len
  formatInside : ∀ i ∈ formatReads fuel text 0, i ≤ len

/-! ## What a string makes the loops do -/

/-- The actions of the case `'s'`, unless it passes the NUL. -/
def argumentActions : List Byte → Option (List Action)
  | [] => some []
  | char :: rest =>
      if char = 0x0A then
        match rest with
        | [] => none
        | next :: rest =>
            (argumentActions rest).map fun actions =>
              .newline :: .visible next :: actions
      else
        (argumentActions rest).map fun actions => .visible char :: actions

section Actions

variable {text : Nat → Byte}

/-- A string that does not pass its NUL. -/
theorem stringActions_eq {s : List Byte} :
    ∀ {actions : List Action} {fuel i : Nat}, TextAt text i s →
      s.length < fuel → argumentActions s = some actions →
        stringActions fuel text i = .ok actions ∧
          ∀ j ∈ stringReads fuel text i, j ≤ i + s.length := by
  fun_induction argumentActions s with
  | case1 =>
      intro actions fuel i isText enough acts
      obtain ⟨fuel, rfl⟩ := Nat.exists_eq_add_of_lt enough
      cases acts
      have nul := textAt_nil.mp isText
      simp [stringActions, stringReads, nul]
      rfl
  | case2 =>
      intro actions fuel i _ _ acts
      cases acts
  | case3 next rest inductionHypothesis =>
      intro actions fuel i isText enough acts
      obtain ⟨fuel, rfl⟩ : ∃ less, fuel = less + 1 := ⟨fuel - 1, by omega⟩
      obtain ⟨notNul, first, behind⟩ := textAt_cons.mp isText
      obtain ⟨_, second, later⟩ := textAt_cons.mp behind
      obtain ⟨more, restActs, rfl⟩ := Option.map_eq_some_iff.mp acts
      simp only [List.length_cons] at enough ⊢
      have short : rest.length < fuel := by omega
      obtain ⟨returned, inside⟩ := inductionHypothesis later short restActs
      rw [stringActions, stringReads, first, if_pos notNul, if_pos rfl,
        if_pos notNul, if_pos rfl, second, returned]
      refine ⟨rfl, fun j member => ?_⟩
      rcases List.mem_cons.mp member with rfl | behindFirst
      · omega
      rcases List.mem_cons.mp behindFirst with rfl | read
      · omega
      have bound := inside j read
      omega
  | case4 char rest notNewline inductionHypothesis =>
      intro actions fuel i isText enough acts
      obtain ⟨fuel, rfl⟩ : ∃ less, fuel = less + 1 := ⟨fuel - 1, by omega⟩
      obtain ⟨notNul, first, later⟩ := textAt_cons.mp isText
      obtain ⟨more, restActs, rfl⟩ := Option.map_eq_some_iff.mp acts
      simp only [List.length_cons] at enough ⊢
      have short : rest.length < fuel := by omega
      obtain ⟨returned, inside⟩ := inductionHypothesis later short restActs
      rw [stringActions, stringReads, first, if_pos notNul,
        if_neg notNewline, if_pos notNul, if_neg notNewline, returned]
      refine ⟨rfl, fun j member => ?_⟩
      rcases List.mem_cons.mp member with rfl | read
      · omega
      have bound := inside j read
      omega

/-- A string that passes its NUL. -/
theorem exists_stringReads {s : List Byte} :
    ∀ {fuel i : Nat}, TextAt text i s → s.length < fuel →
      argumentActions s = none →
        ∃ j ∈ stringReads fuel text i, i + s.length < j := by
  fun_induction argumentActions s with
  | case1 =>
      intro fuel i _ _ passes
      cases passes
  | case2 =>
      intro fuel i isText enough _
      obtain ⟨notNul, first, -⟩ := textAt_cons.mp isText
      rw [List.length_singleton] at enough
      obtain ⟨fuel, rfl⟩ : ∃ less, fuel = less + 1 + 1 :=
        ⟨fuel - 2, by omega⟩
      refine ⟨i + 2, ?_, by simp⟩
      rw [stringReads, first, if_pos notNul, if_pos rfl, stringReads]
      split
      · split <;> simp
      · simp
  | case3 next rest inductionHypothesis =>
      intro fuel i isText enough passes
      obtain ⟨fuel, rfl⟩ : ∃ less, fuel = less + 1 := ⟨fuel - 1, by omega⟩
      obtain ⟨notNul, first, behind⟩ := textAt_cons.mp isText
      obtain ⟨_, second, later⟩ := textAt_cons.mp behind
      simp only [List.length_cons] at enough ⊢
      have short : rest.length < fuel := by omega
      obtain ⟨j, read, beyond⟩ := inductionHypothesis later short
        (Option.map_eq_none_iff.mp passes)
      refine ⟨j, ?_, by omega⟩
      rw [stringReads, first, if_pos notNul, if_pos rfl]
      exact List.mem_cons_of_mem _ (List.mem_cons_of_mem _ read)
  | case4 char rest notNewline inductionHypothesis =>
      intro fuel i isText enough passes
      obtain ⟨fuel, rfl⟩ : ∃ less, fuel = less + 1 := ⟨fuel - 1, by omega⟩
      obtain ⟨notNul, first, later⟩ := textAt_cons.mp isText
      simp only [List.length_cons] at enough ⊢
      have short : rest.length < fuel := by omega
      obtain ⟨j, read, beyond⟩ := inductionHypothesis later short
        (Option.map_eq_none_iff.mp passes)
      refine ⟨j, ?_, by omega⟩
      rw [stringReads, first, if_pos notNul, if_neg notNewline]
      exact List.mem_cons_of_mem _ read

theorem formatActions_eq {args : Nat → PrintArg} {s : List Byte} :
    ∀ {fuel i : Nat}, TextAt text i s → 0x25 ∉ s → s.length < fuel →
      formatActions fuel text args i 0 = .ok (s.map textAction) ∧
        ∀ j ∈ formatReads fuel text i, j ≤ i + s.length := by
  induction s with
  | nil =>
      intro fuel i isText _ enough
      obtain ⟨fuel, rfl⟩ := Nat.exists_eq_add_of_lt enough
      have nul := textAt_nil.mp isText
      simp [formatActions, formatReads, nul]
      rfl
  | cons char rest inductionHypothesis =>
      intro fuel i isText plain enough
      obtain ⟨fuel, rfl⟩ : ∃ less, fuel = less + 1 := ⟨fuel - 1, by omega⟩
      obtain ⟨notNul, first, later⟩ := textAt_cons.mp isText
      rw [List.mem_cons, not_or] at plain
      rw [List.length_cons] at enough ⊢
      have short : rest.length < fuel := by omega
      obtain ⟨returned, inside⟩ := inductionHypothesis later plain.2 short
      rw [formatActions, formatReads, first, if_pos notNul,
        if_pos (Ne.symm plain.1), if_pos notNul, if_pos (Ne.symm plain.1),
        returned]
      refine ⟨rfl, fun j member => ?_⟩
      rcases List.mem_cons.mp member with rfl | read
      · omega
      have bound := inside j read
      omega

theorem byArgument_eq {s : List Byte} {actions : List Action} {fuel : Nat}
    {t : Terminal} (isText : TextAt text 0 s) (short : s.length < fuel)
    (acts : argumentActions s = some actions) :
    kprintf (fuel + 1) stringFormat (stringArg text) t =
      .ok (actions.foldl Action.perform t) := by
  have printed : printString fuel text 0 t =
      .ok (actions.foldl Action.perform t) := by
    rw [printString_eq, (stringActions_eq isText short acts).1]
    rfl
  obtain ⟨fuel, rfl⟩ : ∃ less, fuel = less + 1 := ⟨fuel - 1, by omega⟩
  rw [kprintf, kprintfFrom, if_pos (by decide), if_neg (by decide)]
  show ((printString (fuel + 1) text 0 t >>= fun t => pure (0 + 1, t)) >>=
    fun result => _) = _
  rw [printed]
  rfl

/-- What the two calls do, for a string without conversions. -/
theorem pathsAgree_iff {args : Nat → PrintArg} {s : List Byte} {fuel : Nat}
    {t : Terminal} (isText : TextAt text 0 s) (plain : 0x25 ∉ s)
    (enough : s.length + 1 < fuel) :
    PathsAgree fuel text s.length args t ↔
      ∃ actions, argumentActions s = some actions ∧
        SameScreen (actions.foldl Action.perform t)
          ((s.map textAction).foldl Action.perform t) := by
  obtain ⟨fuel, rfl⟩ : ∃ less, fuel = less + 1 := ⟨fuel - 1, by omega⟩
  have fits : s.length < fuel + 1 := by omega
  have formatted : formatActions (fuel + 1) text args 0 0 =
      .ok (s.map textAction) :=
    (formatActions_eq isText plain fits).1
  have formatInside : ∀ j ∈ formatReads (fuel + 1) text 0,
      j ≤ 0 + s.length :=
    (@formatActions_eq _ args _ _ _ isText plain fits).2
  have byFormat : kprintf (fuel + 1) text args t =
      .ok ((s.map textAction).foldl Action.perform t) := by
    rw [kprintf, kprintfFrom_eq, formatted]
    rfl
  have short : s.length < fuel := by omega
  constructor
  · rintro ⟨⟨viaArgument, viaFormat, printed, formatPrinted, same⟩,
      argumentInside, -⟩
    cases acts : argumentActions s with
    | none =>
        obtain ⟨j, read, beyond⟩ := exists_stringReads isText short acts
        have bound := argumentInside j read
        omega
    | some actions =>
        refine ⟨actions, rfl, ?_⟩
        rw [byArgument_eq isText short acts] at printed
        rw [byFormat] at formatPrinted
        cases printed
        cases formatPrinted
        exact same
  · rintro ⟨actions, acts, same⟩
    constructor
    · exact ⟨_, _, byArgument_eq isText short acts, byFormat, same⟩
    · intro j read
      have bound := (stringActions_eq isText short acts).2 j read
      omega
    · intro j read
      have bound := formatInside j read
      omega

end Actions

/-! ## Strings without a doubled newline -/

/-- Behind every newline stands a character that is none. -/
def NewlinesFollowed : List Byte → Prop
  | [] => True
  | [char] => char ≠ 0x0A
  | char :: next :: rest =>
      (char = 0x0A → next ≠ 0x0A) ∧ NewlinesFollowed (next :: rest)

theorem textAction_of_plain {char : Byte} (notNewline : char ≠ 0x0A)
    (notReturn : char ≠ 0x0D) : textAction char = .visible char := by
  rw [textAction, if_neg notNewline, if_neg notReturn]

theorem NewlinesFollowed.tail {char : Byte} {rest : List Byte}
    (followed : NewlinesFollowed (char :: rest)) : NewlinesFollowed rest := by
  cases rest with
  | nil => exact trivial
  | cons next rest => exact followed.2

/-- The case `'s'` then does what the format does. -/
theorem argumentActions_of_followed {s : List Byte} :
    NewlinesFollowed s → 0x0D ∉ s →
      argumentActions s = some (s.map textAction) := by
  fun_induction argumentActions s with
  | case1 => exact fun _ _ => rfl
  | case2 =>
      intro followed _
      exact absurd rfl followed
  | case3 next rest inductionHypothesis =>
      intro followed plain
      rw [List.mem_cons, List.mem_cons, not_or, not_or] at plain
      rw [inductionHypothesis followed.tail.tail plain.2.2, List.map_cons,
        List.map_cons,
        textAction_of_plain (followed.1 rfl) (Ne.symm plain.2.1)]
      rfl
  | case4 char rest notNewline inductionHypothesis =>
      intro followed plain
      rw [List.mem_cons, not_or] at plain
      rw [inductionHypothesis followed.tail plain.2, List.map_cons,
        textAction_of_plain notNewline (Ne.symm plain.1)]
      rfl

theorem newlinesFollowed_cons {char : Byte} {rest : List Byte}
    (notNewline : char ≠ 0x0A) :
    NewlinesFollowed (char :: rest) ↔ NewlinesFollowed rest := by
  cases rest with
  | nil => exact iff_of_true notNewline trivial
  | cons next rest =>
      exact and_iff_right fun newline => absurd newline notNewline

/-! ## The glyph of a doubled newline -/

/-- Otherwise it passes the NUL, or prints a newline as a glyph. -/
theorem exists_glyph {s : List Byte} :
    ∀ {actions : List Action}, ¬ NewlinesFollowed s →
      argumentActions s = some actions →
        ∃ front back,
          actions = front ++ .newline :: .visible 0x0A :: back := by
  fun_induction argumentActions s with
  | case1 => exact fun broken => absurd trivial broken
  | case2 =>
      intro actions _ acts
      cases acts
  | case3 next rest inductionHypothesis =>
      intro actions broken acts
      obtain ⟨more, restActs, rfl⟩ := Option.map_eq_some_iff.mp acts
      by_cases doubled : next = 0x0A
      · rw [doubled]
        exact ⟨[], more, rfl⟩
      · have later : ¬ NewlinesFollowed rest := fun followed =>
          broken ⟨fun _ => doubled,
            (newlinesFollowed_cons doubled).mpr followed⟩
        obtain ⟨front, back, rfl⟩ := inductionHypothesis later restActs
        exact ⟨.newline :: .visible next :: front, back, rfl⟩
  | case4 char rest notNewline inductionHypothesis =>
      intro actions broken acts
      obtain ⟨more, restActs, rfl⟩ := Option.map_eq_some_iff.mp acts
      rw [newlinesFollowed_cons notNewline] at broken
      obtain ⟨front, back, rfl⟩ := inductionHypothesis broken restActs
      exact ⟨.visible char :: front, back, rfl⟩

/-- The actions of a string are as many newlines and characters. -/
def newlineCount (actions : List Action) : Nat :=
  actions.countP fun action => action matches .newline

def visibleCount (actions : List Action) : Nat :=
  actions.countP fun action => action matches .visible _

@[simp]
theorem newlineCount_newline (rest : List Action) :
    newlineCount (.newline :: rest) = newlineCount rest + 1 :=
  List.countP_cons_of_pos rfl

@[simp]
theorem newlineCount_visible (byte : Byte) (rest : List Action) :
    newlineCount (.visible byte :: rest) = newlineCount rest :=
  List.countP_cons_of_neg Bool.false_ne_true

@[simp]
theorem visibleCount_newline (rest : List Action) :
    visibleCount (.newline :: rest) = visibleCount rest :=
  List.countP_cons_of_neg Bool.false_ne_true

@[simp]
theorem visibleCount_visible (byte : Byte) (rest : List Action) :
    visibleCount (.visible byte :: rest) = visibleCount rest + 1 :=
  List.countP_cons_of_pos rfl

theorem newlineCount_append (front back : List Action) :
    newlineCount (front ++ back) = newlineCount front + newlineCount back :=
  List.countP_append

theorem visibleCount_append (front back : List Action) :
    visibleCount (front ++ back) = visibleCount front + visibleCount back :=
  List.countP_append

/-- An action of a string. -/
inductive Action.Plain : Action → Prop where
  | newline : Plain .newline
  | visible (byte : Byte) : Plain (.visible byte)

theorem argumentActions_counts {s : List Byte} :
    ∀ {actions : List Action}, argumentActions s = some actions →
      newlineCount actions ≤ s.count 0x0A ∧
        visibleCount actions ≤ s.length ∧ ∀ action ∈ actions, action.Plain := by
  fun_induction argumentActions s with
  | case1 =>
      intro actions acts
      cases acts
      simp [newlineCount, visibleCount]
  | case2 =>
      intro actions acts
      cases acts
  | case3 next rest inductionHypothesis =>
      intro actions acts
      obtain ⟨more, restActs, rfl⟩ := Option.map_eq_some_iff.mp acts
      obtain ⟨newlines, visibles, plain⟩ := inductionHypothesis restActs
      simp only [newlineCount_newline, newlineCount_visible,
        visibleCount_newline, visibleCount_visible, List.count_cons_self,
        List.count_cons, List.length_cons, List.forall_mem_cons]
      exact ⟨by omega, by omega, .newline, .visible next, plain⟩
  | case4 char rest notNewline inductionHypothesis =>
      intro actions acts
      obtain ⟨more, restActs, rfl⟩ := Option.map_eq_some_iff.mp acts
      obtain ⟨newlines, visibles, plain⟩ := inductionHypothesis restActs
      simp only [newlineCount_visible, visibleCount_visible,
        List.count_cons, List.length_cons, List.forall_mem_cons]
      exact ⟨by omega, by omega, .visible char, plain⟩

/-- The cursor is on a cell above row 23, or behind the last one of a row. -/
structure OnRows (t : Terminal) : Prop where
  even : t.xPos % 2 = 0
  column : t.xPos ≤ 160
  row : t.yPos ≤ 22

namespace OnRows

variable {t : Terminal}

/-- A newline goes to the next row, or moves all rows up. -/
theorem newline_eq (on : OnRows t) :
    t.newline.xPos = 0 ∧
      if t.yPos = 22 then
        t.newline.yPos = 22 ∧ ∀ other < 23 * 160,
          t.newline.video other = t.video (other + 160)
      else
        t.newline.yPos = t.yPos + 1 ∧ t.newline.video = t.video := by
  have row := on.row
  unfold Terminal.newline Terminal.scroll
  by_cases last : t.yPos = 22
  · rw [if_pos (by simp only [last]), if_pos last]
    refine ⟨by simp, by simp [last], fun other above => ?_⟩
    simp only [Terminal.updateScreen_video]
    rw [if_pos above]
  · rw [if_neg (by simp only; omega), if_neg last]
    exact ⟨rfl, rfl, rfl⟩

theorem newline (on : OnRows t) : OnRows t.newline := by
  obtain ⟨column, moved⟩ := on.newline_eq
  have row := on.row
  constructor
  · rw [column]
  · omega
  · split at moved
    · omega
    · omega

theorem putChar (on : OnRows t) (char : Byte) : OnRows (t.putChar char) := by
  have even := on.even
  have row := on.row
  by_cases full : t.xPos = 160
  · have start := on.newline_eq.1
    rw [putChar_of_full full]
    constructor
    · rw [Terminal.putCell_xPos, start]
    · rw [Terminal.putCell_xPos, start]
      decide
    · exact on.newline.row
  · have column := on.column
    rw [putChar_of_room full (by omega)]
    constructor
    · rw [Terminal.putCell_xPos]
      omega
    · rw [Terminal.putCell_xPos]
      omega
    · exact row

theorem perform (on : OnRows t) {action : Action} (plain : action.Plain) :
    OnRows (action.perform t) := by
  cases plain with
  | newline => exact on.newline
  | visible byte => exact on.putChar byte

theorem foldl {actions : List Action} :
    ∀ {t : Terminal}, OnRows t → (∀ action ∈ actions, action.Plain) →
      OnRows (actions.foldl Action.perform t) := by
  induction actions with
  | nil => exact fun on _ => on
  | cons action rest inductionHypothesis =>
      intro t on plain
      rw [List.forall_mem_cons] at plain
      exact inductionHypothesis (on.perform plain.1) plain.2

end OnRows

/-- A newline stands as a glyph in the first cell of a row at or above the
cursor, and the rows that are still to come do not move it off the screen. -/
structure GlyphStays (t : Terminal) (row newlines visibles : Nat) :
    Prop where
  on : OnRows t
  glyph : t.video (row * 160) = 0x0A
  above : row < t.yPos ∨ row = t.yPos ∧ 2 ≤ t.xPos
  room : t.yPos + newlines + (t.xPos / 2 + visibles - 1) / 80 ≤ row + 22

namespace GlyphStays

variable {t : Terminal} {row newlines visibles : Nat}

/-- The glyph stays with its row, which a scroll moves up. -/
theorem nextRow (on : OnRows t) (glyph : t.video (row * 160) = 0x0A)
    (above : row < t.yPos ∨ row = t.yPos ∧ 2 ≤ t.xPos)
    (room : t.yPos + newlines + 1 + (visibles - 1) / 80 ≤ row + 22) :
    ∃ next, GlyphStays t.newline next newlines visibles := by
  obtain ⟨column, moved⟩ := on.newline_eq
  have below := on.row
  by_cases last : t.yPos = 22
  · rw [if_pos last] at moved
    refine ⟨row - 1, on.newline, ?_, by omega, ?_⟩
    · rw [moved.2 _ (by omega), ← glyph]
      congr 1
      omega
    · rw [moved.1, column]
      omega
  · rw [if_neg last] at moved
    refine ⟨row, on.newline, ?_, by omega, ?_⟩
    · rw [moved.2, glyph]
    · rw [moved.1, column]
      omega

theorem newline (stays : GlyphStays t row (newlines + 1) visibles) :
    ∃ next, GlyphStays t.newline next newlines visibles := by
  obtain ⟨on, glyph, above, room⟩ := stays
  have fewer : (visibles - 1) / 80 ≤ (t.xPos / 2 + visibles - 1) / 80 :=
    Nat.div_le_div_right (by omega)
  exact nextRow on glyph above (by omega)

/-- A character behind the glyph. -/
theorem putCell {t : Terminal} {row newlines visibles : Nat}
    (on : OnRows t) (room : t.xPos < 160)
    (glyph : t.video (row * 160) = 0x0A)
    (above : row < t.yPos ∨ row = t.yPos ∧ 2 ≤ t.xPos)
    (budget : t.yPos + newlines + (t.xPos / 2 + visibles) / 80 ≤ row + 22)
    (char : Byte) :
    GlyphStays (t.putCell t.yPos char colour) row newlines visibles := by
  have even := on.even
  refine ⟨⟨?_, ?_, on.row⟩, ?_, ?_, ?_⟩
  · rw [Terminal.putCell_xPos]
    omega
  · rw [Terminal.putCell_xPos]
    omega
  · rw [Terminal.putCell_video, if_neg (by omega), if_neg (by omega), glyph]
  · rw [Terminal.putCell_xPos, Terminal.putCell_yPos]
    omega
  · rw [Terminal.putCell_xPos, Terminal.putCell_yPos]
    omega

theorem putChar (stays : GlyphStays t row newlines (visibles + 1))
    (char : Byte) :
    ∃ next, GlyphStays (t.putChar char) next newlines visibles := by
  obtain ⟨on, glyph, above, room⟩ := stays
  have below := on.row
  by_cases full : t.xPos = 160
  · rw [full] at room
    obtain ⟨next, onNext, nextGlyph, nextAbove, nextRoom⟩ :=
      nextRow on glyph above
        (show t.yPos + newlines + 1 + (visibles + 1 - 1) / 80 ≤ row + 22 by
          omega)
    have column := on.newline_eq.1
    rw [putChar_of_full full]
    exact ⟨next, putCell onNext (by omega) nextGlyph nextAbove (by omega) char⟩
  · have column := on.column
    rw [putChar_of_room full (by omega)]
    exact ⟨row, putCell on (by omega) glyph above (by omega) char⟩

theorem foldl {actions : List Action} :
    ∀ {t : Terminal} {row : Nat}, (∀ action ∈ actions, action.Plain) →
      GlyphStays t row (newlineCount actions) (visibleCount actions) →
        ∃ next, GlyphStays (actions.foldl Action.perform t) next 0 0 := by
  induction actions with
  | nil => exact fun {t row} _ stays => ⟨row, stays⟩
  | cons action rest inductionHypothesis =>
      intro t row plain stays
      rw [List.forall_mem_cons] at plain
      cases plain.1 with
      | newline =>
          rw [newlineCount_newline, visibleCount_newline] at stays
          obtain ⟨next, later⟩ := stays.newline
          exact inductionHypothesis plain.2 later
      | visible byte =>
          rw [newlineCount_visible, visibleCount_visible] at stays
          obtain ⟨next, later⟩ := stays.putChar byte
          exact inductionHypothesis plain.2 later

/-- The glyph that is printed behind a newline. -/
theorem start (on : OnRows t) (room : newlines + visibles / 80 ≤ 22) :
    ∃ row, GlyphStays (t.newline.putChar 0x0A) row newlines visibles := by
  have onNext := on.newline
  have column := on.newline_eq.1
  have below := onNext.row
  rw [putChar_of_room (by omega) (by omega)]
  refine ⟨t.newline.yPos, ⟨?_, ?_, below⟩, ?_, ?_, ?_⟩
  · rw [Terminal.putCell_xPos, column]
  · rw [Terminal.putCell_xPos, column]
    decide
  · rw [Terminal.putCell_video, if_neg (by omega), if_pos (by omega)]
  · rw [Terminal.putCell_xPos, Terminal.putCell_yPos, column]
    omega
  · rw [Terminal.putCell_xPos, Terminal.putCell_yPos, column]
    omega

end GlyphStays

/-- No newline stands as a glyph on the rows of the screen. -/
def NoGlyph (t : Terminal) : Prop :=
  ∀ index < 24 * 160, t.video index ≠ 0x0A

namespace NoGlyph

variable {t : Terminal}

theorem scroll (noGlyph : NoGlyph t) : NoGlyph t.scroll := by
  intro index inside
  unfold Terminal.scroll
  split
  · simp only [Terminal.updateScreen_video]
    split
    · exact noGlyph _ (by omega)
    · exact noGlyph index inside
  · exact noGlyph index inside

theorem wrap (noGlyph : NoGlyph t) : NoGlyph t.wrap := by
  intro index inside
  unfold Terminal.wrap
  split
  · exact noGlyph index inside
  · exact noGlyph index inside

theorem putChar (noGlyph : NoGlyph t) {char : Byte} (other : char ≠ 0x0A) :
    NoGlyph (t.putChar char) := by
  intro index inside
  unfold Terminal.putChar
  rw [Terminal.putCell_video]
  split
  · decide
  · split
    · exact other
    · exact noGlyph.wrap.scroll index inside

theorem newline (noGlyph : NoGlyph t) : NoGlyph t.newline := by
  have moved : NoGlyph { t with xPos := 0, yPos := t.yPos + 1 } := noGlyph
  exact moved.scroll

/-- The format prints no newline as a glyph. -/
theorem foldl_text {s : List Byte} :
    ∀ {t : Terminal}, NoGlyph t →
      NoGlyph ((s.map textAction).foldl Action.perform t) := by
  induction s with
  | nil => exact fun noGlyph => noGlyph
  | cons char rest inductionHypothesis =>
      intro t noGlyph
      apply inductionHypothesis
      unfold textAction
      split
      · exact noGlyph.newline
      · split
        · exact noGlyph
        · rename_i notNewline _
          exact noGlyph.putChar notNewline

end NoGlyph

/-- A newline before the NUL is taken together with it. -/
theorem argumentActions_passes {front : List Byte} :
    NewlinesFollowed front → argumentActions (front ++ [0x0A]) = none := by
  fun_induction argumentActions front with
  | case1 => exact fun _ => rfl
  | case2 => exact fun followed => absurd rfl followed
  | case3 next rest inductionHypothesis =>
      intro followed
      exact Option.map_eq_none_iff.mpr (inductionHypothesis followed.tail.tail)
  | case4 char rest notNewline inductionHypothesis =>
      intro followed
      have step : argumentActions (char :: (rest ++ [0x0A])) =
          (argumentActions (rest ++ [0x0A])).map
            fun actions => .visible char :: actions := by
        rw [argumentActions.eq_def]
        exact if_neg notNewline
      rw [List.cons_append, step]
      exact Option.map_eq_none_iff.mpr (inductionHypothesis followed.tail)

/-! ## The two paths -/

/-- Where a newline is doubled, and the rows behind it stay on the screen, the
two paths leave different screens or the first one passes the NUL. -/
theorem not_sameScreen_of_doubled {s : List Byte} {actions : List Action}
    {t : Terminal} (broken : ¬ NewlinesFollowed s)
    (acts : argumentActions s = some actions)
    (few : s.count 0x0A + s.length / 80 ≤ 22) (on : OnRows t)
    (noGlyph : NoGlyph t) :
    ¬ SameScreen (actions.foldl Action.perform t)
      ((s.map textAction).foldl Action.perform t) := by
  obtain ⟨front, back, rfl⟩ := exists_glyph broken acts
  obtain ⟨newlines, visibles, plain⟩ := argumentActions_counts acts
  rw [List.forall_mem_append, List.forall_mem_cons, List.forall_mem_cons]
    at plain
  rw [newlineCount_append, newlineCount_newline, newlineCount_visible]
    at newlines
  rw [visibleCount_append, visibleCount_newline, visibleCount_visible]
    at visibles
  have onFront := on.foldl plain.1
  obtain ⟨row, stays⟩ := GlyphStays.start onFront
    (show newlineCount back + visibleCount back / 80 ≤ 22 by omega)
  obtain ⟨last, shown⟩ := stays.foldl plain.2.2.2
  rintro ⟨video, -, -⟩
  have below := shown.on.row
  have above := shown.above
  rw [List.foldl_append] at video
  exact noGlyph.foldl_text (last * 160) (by omega)
    ((congrFun video (last * 160)).symm.trans shown.glyph)

/-- The two paths agree on a string whose newlines are followed by other
characters.  A newline before the NUL is read past it, and a doubled one is
seen as long as it stays on the screen. -/
theorem kprintf_pathsAgree {text : Nat → Byte} {args : Nat → PrintArg}
    {s : List Byte} {fuel : Nat} (isText : TextAt text 0 s)
    (noDirective : 0x25 ∉ s) (noReturn : 0x0D ∉ s)
    (enough : s.length + 1 < fuel) :
    (NewlinesFollowed s → ∀ t, PathsAgree fuel text s.length args t) ∧
      (s.count 0x0A + s.length / 80 ≤ 22 → ∀ t, OnRows t → NoGlyph t →
        PathsAgree fuel text s.length args t → NewlinesFollowed s) ∧
      ∀ front, s = front ++ [0x0A] → NewlinesFollowed front →
        ∀ t, ¬ PathsAgree fuel text s.length args t := by
  refine ⟨?_, ?_, ?_⟩
  · intro followed t
    exact (pathsAgree_iff isText noDirective enough).mpr
      ⟨_, argumentActions_of_followed followed noReturn, rfl, rfl, rfl⟩
  · intro few t on noGlyph agree
    obtain ⟨actions, acts, same⟩ :=
      (pathsAgree_iff isText noDirective enough).mp agree
    by_contra broken
    exact not_sameScreen_of_doubled broken acts few on noGlyph same
  · intro front isLast followed t agree
    obtain ⟨actions, acts, -⟩ :=
      (pathsAgree_iff isText noDirective enough).mp agree
    rw [isLast, argumentActions_passes followed] at acts
    cases acts

/-- A screen of blanks. -/
def blankScreen : Terminal where
  video := fun _ => 0x20

theorem kprintf_pathsAgree_twoLines :
    PathsAgree 5 (fun i => [0x61, 0x0A, 0x62].getD i 0) 3
      (stringArg fun _ => 0) blankScreen := by
  have isText : TextAt (fun i => [0x61, 0x0A, 0x62].getD i 0) 0
      [0x61, 0x0A, 0x62] :=
    textAt_getD (by decide)
  have followed : NewlinesFollowed [0x61, 0x0A, 0x62] :=
    ⟨by decide, by decide, show (0x62 : Byte) ≠ 0x0A by decide⟩
  exact (kprintf_pathsAgree isText (by decide) (by decide) (by decide)).1
    followed blankScreen

/-- Of a newline alone, `%s` prints the NUL as well and reads on. -/
theorem not_pathsAgree_newline :
    ¬ PathsAgree 3 (fun i => [0x0A].getD i 0) 1 (stringArg fun _ => 0)
      blankScreen := by
  intro agree
  have bound := agree.argumentInside 2 (by decide)
  omega

end SbuUnix
