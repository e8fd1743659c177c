import SbuUnix.Console.Formatted

/-!
# A session at the console

Programs print, ask for the prompt and read lines, and keys are pressed at any
time, also before a program reads.  The screen shows what was printed and what
was typed, one behind the other; Backspace takes back what stands behind the
prompt.  Every line that is read is what the keys since the line before have
edited.  The flags of the handler follow the shift keys as long as only one
of them is used at a time, no arrow is pressed with it, and Control not at
all; and no key is shown from the end of a full row 22.
-/

namespace SbuUnix

open Outcome

/-! ## The session -/

/-- The keyboard with its screen, the array `result` of every program, and
the lines that were read, which are not in the source. -/
structure Session where
  keyboard : Keyboard
  results : Nat → Memory
  lines : List (List Byte) := []

/-- `kprintf("<%s>", curr_process->curr_dir)` -/
def promptCall (fuel : Nat) (currDir : Memory) : PrintCall where
  fuel := fuel
  string := fun i => [0x3C, 0x25, 0x73, 0x3E].getD i 0
  args := stringArg currDir

inductive SessionStep where
  | print (printing : Printing)
  | getcwd (fuel : Nat) (currDir : Memory)
  | key (scancode : Byte)
  | scanf (arriving : List Byte)

def SessionStep.serve : SessionStep → StateT Session (Except Fault) Unit
  | .print printing => fun s => do
      let printed ← printing.serve ⟨s.keyboard.terminal, s.results⟩
      pure ((), { s with
        keyboard := { s.keyboard with terminal := printed.2.terminal }
        results := printed.2.results })
  | .getcwd fuel currDir => fun s => do
      let printed ← (promptCall fuel currDir).run s.keyboard.terminal
      -- `global_x = x_pos`
      let terminal := { printed.2 with globalX := printed.2.xPos }
      pure ((), { s with keyboard := { s.keyboard with terminal } })
  | .key scancode => fun s => do
      let handled ← keyboardInterrupt scancode s.keyboard
      pure ((), { s with keyboard := handled.2 })
  | .scanf arriving => fun s => do
      let read ← SbuUnix.scanf arriving s.keyboard
      pure ((), { s with
        keyboard := read.2
        lines := s.lines ++ [read.1] })

/-! ## The transcript -/

/-- `kprintf_kb` leaves a full row before it looks at the character. -/
def Sheet.wrap (sheet : Sheet) : Sheet :=
  if sheet.last.length = 80 then
    ⟨sheet.done ++ [sheet.last], []⟩
  else
    sheet

/-- The last character of the last line, behind the prompt. -/
def Sheet.erase (sheet : Sheet) (mark : Nat) : Sheet :=
  if mark < sheet.last.length then
    ⟨sheet.done, sheet.last.dropLast⟩
  else
    sheet

/-- What is on the screen, the length of the prompt, what is typed, and what
was read. -/
structure Transcript where
  sheet : Sheet := {}
  mark : Nat := 0
  editing : Editing := {}
  lines : List (List Byte) := []

/-- The keys that show something, or leave a full row. -/
def Echoed (scancode : Byte) : Prop :=
  HasCharacter scancode ∨ scancode ∈ [0x48, 0x4B, 0x50, 0x4D, 0x0E, 0x53]

instance (scancode : Byte) : Decidable (Echoed scancode) :=
  inferInstanceAs (Decidable (_ ∨ _))

def Transcript.echo (v : Transcript) (scancode : Byte) : Sheet :=
  if HasCharacter scancode then
    v.sheet.wrap.put (v.editing.character scancode)
  else if scancode = 0x0E then
    v.sheet.wrap.erase v.mark
  else if Echoed scancode then
    v.sheet.wrap
  else
    v.sheet

def Transcript.key (v : Transcript) (scancode : Byte) : Transcript :=
  { v with
    sheet := v.echo scancode
    editing := v.editing.key scancode }

def Transcript.keys (v : Transcript) (scancodes : List Byte) : Transcript :=
  scancodes.foldl Transcript.key v

def Transcript.print (v : Transcript) (text : List Byte) : Transcript :=
  { v with sheet := v.sheet.print text }

/-- The prompt, which Backspace does not reach. -/
def Transcript.prompt (v : Transcript) (name : List Byte) : Transcript :=
  let shown := v.print (0x3C :: (name ++ [0x3E]))
  { shown with mark := shown.sheet.last.length }

/-- A line, of the keys up to Enter. -/
def Transcript.read (v : Transcript) (typed : List Byte) : Transcript :=
  let entered := v.keys (typed ++ [0x1C])
  { entered with
    editing := { entered.editing with pending := [] }
    lines := v.lines ++ [(v.keys typed).editing.pending] }

/-- The condition on a key. -/
structure PlainKey (v : Transcript) (scancode : Byte) : Prop where
  noControl : scancode ≠ 0x1D
  character : Typed scancode → HasCharacter scancode
  inside : Typed scancode → v.editing.held →
    scancode.toNat < keyboardUpperMap.length
  released : (scancode = 0xAA → v.editing.right = false) ∧
    (scancode = 0xB6 → v.editing.left = false)
  arrow : scancode ∈ [0x48, 0x4B, 0x50, 0x4D] → v.editing.held = false
  room : v.editing.pending.length < 200
  row : Echoed scancode → v.sheet.last.length = 80 →
    v.sheet.done.length < 22

/-- Every key of a sequence meets the condition. -/
def PlainKeys : Transcript → List Byte → Prop
  | _, [] => True
  | v, scancode :: rest =>
      PlainKey v scancode ∧ PlainKeys (v.key scancode) rest

/-- A step of the session and what it adds to the transcript. -/
inductive Transcript.Step : Transcript → SessionStep → Transcript → Prop
  | print {v : Transcript} {printing : Printing} {text : List Byte}
      (prints : printing.Prints text) :
      Step v (.print printing) (v.print text)
  | getcwd {v : Transcript} {fuel : Nat} {currDir : Memory}
      {name : List Byte} (shows : StringShows currDir name)
      (enough : name.length + 5 < fuel) :
      Step v (.getcwd fuel currDir) (v.prompt name)
  | key {v : Transcript} {scancode : Byte} (plain : PlainKey v scancode) :
      Step v (.key scancode) (v.key scancode)
  | scanf {v : Transcript} {typed : List Byte} (noEnter : 0x1C ∉ typed)
      (plain : PlainKeys v (typed ++ [0x1C])) :
      Step v (.scanf (typed ++ [0x1C])) (v.read typed)

inductive Transcript.Run : Transcript → List SessionStep → Transcript → Prop
  | nil (v : Transcript) : Run v [] v
  | cons {v between last : Transcript} {step : SessionStep}
      {steps : List SessionStep} (first : Step v step between)
      (others : Run between steps last) : Run v (step :: steps) last

/-! ## What the screen shows -/

/-- A window depends on the cells and the cursor. -/
theorem Window.congr {t next : Terminal} {done : List (List Byte)}
    {last : List Byte} (window : Window t done last)
    (video : next.video = t.video) (column : next.xPos = t.xPos)
    (row : next.yPos = t.yPos) : Window next done last := by
  have line : ∀ {row line}, ShowsLine t row line →
      ShowsLine next row line :=
    fun shows => ⟨shows.width, video ▸ shows.char, video ▸ shows.colour⟩
  constructor
  · exact row.trans window.row
  · exact column.trans window.column
  · intro r below
    rw [row] at below ⊢
    obtain ⟨earlier, found, shows⟩ := window.above r below
    exact ⟨earlier, found, line shows⟩
  · rw [row]
    exact line window.current
  · intro i small
    rw [video]
    exact window.blank i small

/-- The cursor comes to a row that is not full, and not to row 23. -/
theorem Window.scroll_wrap {t : Terminal} {sheet : Sheet}
    (window : Window t sheet.done sheet.last)
    (room : sheet.last.length = 80 → sheet.done.length < 22) :
    Window t.scroll.wrap sheet.wrap.done sheet.wrap.last ∧
      sheet.wrap.last.length < 80 := by
  have row := window.row
  have column := window.column
  have width := window.current.width
  have same : t.scroll = t := if_neg (by omega)
  rw [same]
  unfold Terminal.wrap Sheet.wrap
  by_cases full : sheet.last.length = 80
  · rw [if_pos full, if_pos (by omega)]
    have opened := window.newline
    have above : ¬ t.yPos + 1 = 23 := by
      have bound := room full
      omega
    unfold Terminal.newline Terminal.scroll at opened
    rw [if_neg above] at opened
    exact ⟨opened, Nat.zero_lt_succ 79⟩
  · rw [if_neg full, if_neg (by omega)]
    exact ⟨window, by omega⟩

/-- The last character is taken back; its cell gets another colour. -/
theorem Window.erase {t : Terminal} {done : List (List Byte)}
    {last : List Byte} (window : Window t done last)
    (present : 0 < last.length) (char byte : Byte) {next : Terminal}
    (isNext : next = { t with xPos := t.xPos - 2 }.putCell t.yPos char byte) :
    Window { next with xPos := next.xPos - 2 } done last.dropLast := by
  have row := window.row
  have column := window.column
  have width := window.current.width
  have other : ∀ index,
      index < t.yPos * 160 + 2 * (last.length - 1) ∨
        t.yPos * 160 + 160 ≤ index →
        next.video index = t.video index := by
    intro index apart
    rw [isNext, Terminal.putCell_video, if_neg (by simp only; omega),
      if_neg (by simp only; omega)]
  have nextRow : next.yPos = t.yPos := by
    rw [isNext]
    rfl
  constructor
  · exact nextRow.trans row
  · simp only [isNext, Terminal.putCell_xPos, List.length_dropLast]
    omega
  · intro r below
    simp only [nextRow] at below ⊢
    obtain ⟨line, found, shows⟩ := window.above r below
    refine ⟨line, found, shows.congr ?_⟩
    intro i small
    exact other _ (by omega)
  · simp only [nextRow]
    constructor
    · rw [List.length_dropLast]
      omega
    · intro i inside
      rw [List.length_dropLast] at inside
      rw [List.getElem_dropLast]
      simp only
      rw [other _ (by omega)]
      exact window.current.char i (by omega)
    · intro i inside
      rw [List.length_dropLast] at inside
      simp only
      rw [other _ (by omega)]
      exact window.current.colour i (by omega)
  · intro i small
    simp only
    rw [other _ (by omega)]
    exact window.blank i small

/-! ## `kprintf_kb` -/

section Echo

variable {t : Terminal} {sheet : Sheet}

theorem kprintfKb_keys (ch : Byte) (t : Terminal) :
    (kprintfKb ch t).keys = t.keys := by
  have wrapped : t.scroll.wrap.keys = t.keys :=
    t.scroll.wrap_keys.trans t.scroll_keys
  unfold kprintfKb
  by_cases newline : ch = 0x0A
  · rw [if_pos newline]
    exact (Terminal.scroll_keys _).trans wrapped
  rw [if_neg newline]
  by_cases control : t.scroll.wrap.control
  · rw [if_pos control]
    split <;> exact wrapped
  · rw [if_neg control]
    split_ifs <;> exact wrapped

/-- A character of one of the tables. -/
theorem Window.typed (window : Window t sheet.done sheet.last)
    (room : sheet.last.length = 80 → sheet.done.length < 22)
    (noControl : t.control = false) {ch : Byte}
    (plain : ch ≠ 0x10 ∧ ch ≠ 30 ∧ ch ≠ 31) :
    Window (kprintfKb ch t) (sheet.wrap.put ch).done
      (sheet.wrap.put ch).last := by
  obtain ⟨wrapped, short⟩ := window.scroll_wrap room
  have control : t.scroll.wrap.control = false :=
    (congrArg Prod.fst (t.scroll.wrap_keys.trans t.scroll_keys)).trans
      noControl
  unfold kprintfKb Sheet.put
  by_cases newline : ch = 0x0A
  · rw [if_pos newline, if_pos newline]
    exact wrapped.newline
  · rw [if_neg newline, if_neg newline, control, if_neg Bool.false_ne_true,
      if_neg plain.1, if_neg plain.2.1, if_neg plain.2.2, ite_self,
      if_neg (by omega)]
    exact wrapped.putCell ch short

/-- Backspace. -/
theorem Window.back (window : Window t sheet.done sheet.last)
    (room : sheet.last.length = 80 → sheet.done.length < 22)
    (control : t.control = true) {mark : Nat}
    (isMark : t.globalX = 2 * mark) :
    Window (kprintfKb 0x68 t) (sheet.wrap.erase mark).done
      (sheet.wrap.erase mark).last := by
  obtain ⟨wrapped, short⟩ := window.scroll_wrap room
  have kept := t.scroll.wrap_keys.trans t.scroll_keys
  have controlKept : t.scroll.wrap.control = true :=
    (congrArg Prod.fst kept).trans control
  have markKept : t.scroll.wrap.globalX = 2 * mark :=
    (congrArg (fun keys => keys.2.2) kept).trans isMark
  have column := wrapped.column
  unfold kprintfKb Sheet.erase
  rw [if_neg (by decide), if_pos controlKept]
  by_cases behind : mark < sheet.wrap.last.length
  · rw [if_pos ⟨rfl, by omega⟩, if_pos behind]
    exact wrapped.erase (by omega) _ _ rfl
  · rw [if_neg (by omega), if_neg behind]
    exact wrapped

/-- An arrow, or the Delete key. -/
theorem Window.unseen (window : Window t sheet.done sheet.last)
    (room : sheet.last.length = 80 → sheet.done.length < 22)
    (control : t.control = true) {ch : Byte}
    (other : ch ≠ 0x0A ∧ ch ≠ 0x68) :
    Window (kprintfKb ch t) sheet.wrap.done sheet.wrap.last := by
  obtain ⟨wrapped, -⟩ := window.scroll_wrap room
  have controlKept : t.scroll.wrap.control = true :=
    (congrArg Prod.fst (t.scroll.wrap_keys.trans t.scroll_keys)).trans
      control
  unfold kprintfKb
  rw [if_neg other.1, if_pos controlKept,
    if_neg fun back => other.2 back.1]
  exact wrapped

end Echo

/-! ## One key -/

/-- The screen and the flags agree with the transcript. -/
structure Displays (t : Terminal) (v : Transcript) : Prop where
  window : Window t v.sheet.done v.sheet.last
  keys : t.keys = (false, v.editing.held, 2 * v.mark)

section Displays

variable {t : Terminal} {v : Transcript} (displays : Displays t v)

include displays

theorem Displays.control : t.control = false :=
  congrArg Prod.fst displays.keys

theorem Displays.held : t.shift = v.editing.held :=
  congrArg (fun keys => keys.2.1) displays.keys

theorem Displays.globalX : t.globalX = 2 * v.mark :=
  congrArg (fun keys => keys.2.2) displays.keys

end Displays

/-- No table has one of the characters that `kprintf_kb` looks for. -/
theorem shifted_plain : ∀ scancode : Byte, HasCharacter scancode →
    shifted scancode ≠ 0x10 ∧ shifted scancode ≠ 30 ∧
      shifted scancode ≠ 31 := by
  decide +kernel

theorem keyboardMap_plain : ∀ scancode : Byte,
    keyboardMap.getD scancode.toNat 0 ≠ 0x10 ∧
      keyboardMap.getD scancode.toNat 0 ≠ 30 ∧
        keyboardMap.getD scancode.toNat 0 ≠ 31 := by
  decide +kernel

theorem Editing.character_plain (e : Editing) {scancode : Byte}
    (has : HasCharacter scancode) :
    e.character scancode ≠ 0x10 ∧ e.character scancode ≠ 30 ∧
      e.character scancode ≠ 31 := by
  unfold Editing.character
  split
  · exact shifted_plain scancode has
  · exact keyboardMap_plain scancode

/-- What the condition says of the flags that the handler finds. -/
theorem PlainKey.agrees {v : Transcript} {scancode : Byte}
    (plain : PlainKey v scancode) {k : Keyboard}
    (displays : Displays k.terminal v) :
    KeyAgrees scancode k v.editing := by
  intro typed
  have flags : (k.terminal.shift ∨ k.terminal.control ↔ v.editing.held) := by
    rw [displays.held, displays.control]
    exact or_iff_left Bool.false_ne_true
  exact ⟨plain.character typed,
    fun set => plain.inside typed (flags.mp set), Or.inl flags⟩

/-- A key with a character. -/
theorem Displays.typed {k next : Keyboard} {v : Transcript}
    {scancode : Byte} (displays : Displays k.terminal v)
    (plain : PlainKey v scancode) (typed : Typed scancode)
    (handled : dispatchKey scancode k = .ok ((), next)) :
    Displays next.terminal (v.key scancode) := by
  have has := plain.character typed
  have agrees := plain.agrees displays typed
  have held : (v.editing.key scancode).held = v.editing.held := by
    have apart := typed.2
    simp only [List.mem_cons, List.not_mem_nil, or_false, not_or] at apart
    have low := typed.1
    unfold Editing.key
    rw [if_neg (by tauto), if_neg (by tauto),
      if_neg (by rintro rfl; exact absurd low (by decide)),
      if_neg (by rintro rfl; exact absurd low (by decide)),
      if_neg (by tauto), if_pos has]
    rfl
  rw [dispatchKey_of_typed typed, typeKey] at handled
  simp only [agrees.get] at handled
  by_cases room : k.count < 200
  · rw [if_pos room] at handled
    cases handled
    constructor
    · change Window _ (v.echo scancode).done (v.echo scancode).last
      unfold Transcript.echo
      rw [if_pos has]
      exact displays.window.typed (plain.row (Or.inl has))
        displays.control (v.editing.character_plain has)
    · change (kprintfKb _ _).keys = (false, (v.editing.key scancode).held, _)
      rw [held, kprintfKb_keys]
      exact displays.keys
  · rw [if_neg room] at handled
    cases handled

section Special

variable {v : Transcript} {scancode : Byte}

theorem Transcript.echo_of_not_echoed (silent : ¬ Echoed scancode) :
    v.echo scancode = v.sheet := by
  have noBackspace : scancode ≠ 0x0E := by
    rintro rfl
    exact silent (by decide)
  unfold Transcript.echo
  rw [if_neg fun has => silent (Or.inl has), if_neg noBackspace,
    if_neg silent]

theorem Transcript.echo_of_echoed (special : ¬ Typed scancode)
    (other : scancode ≠ 0x0E) (echoed : Echoed scancode) :
    v.echo scancode = v.sheet.wrap := by
  unfold Transcript.echo
  rw [if_neg fun has => special has.1, if_neg other, if_pos echoed]

/-- The keys that are neither typed nor Backspace nor one of the shift keys. -/
theorem Editing.key_of_ignored {e : Editing} (special : ¬ Typed scancode)
    (other : scancode ∉ [0x2A, 0x36, 0xAA, 0xB6, 0x0E]) :
    e.key scancode = e := by
  simp only [List.mem_cons, List.not_mem_nil, or_false, not_or] at other
  unfold Editing.key
  rw [if_neg other.1, if_neg other.2.1, if_neg other.2.2.1,
    if_neg other.2.2.2.1, if_neg other.2.2.2.2,
    if_neg fun has => special has.1]

/-- A key that shows nothing. -/
theorem Displays.silent {t next : Terminal} (displays : Displays t v)
    (silent : ¬ Echoed scancode)
    (same : next.video = t.video ∧ next.xPos = t.xPos ∧ next.yPos = t.yPos)
    (control : next.control = false)
    (held : next.shift = (v.editing.key scancode).held)
    (mark : next.globalX = t.globalX) : Displays next (v.key scancode) := by
  constructor
  · change Window next (v.echo scancode).done (v.echo scancode).last
    rw [Transcript.echo_of_not_echoed silent]
    exact displays.window.congr same.1 same.2.1 same.2.2
  · exact Prod.ext control (Prod.ext held (mark.trans displays.globalX))

/-- An arrow, or the Delete key: it leaves a full row, and the flags are
those of the shift keys behind it. -/
theorem Displays.unseen {t next : Terminal} (displays : Displays t v)
    (plain : PlainKey v scancode)
    (arrow : scancode ∈ [0x48, 0x4B, 0x50, 0x4D, 0x53]) (char : Byte)
    (other : char ≠ 0x0A ∧ char ≠ 0x68) (shift : Bool)
    (isNext : next =
      { kprintfKb char { t with control := true, shift } with
        control := false
        shift := v.editing.held }) :
    Displays next (v.key scancode) := by
  have facts : ∀ key ∈ ([0x48, 0x4B, 0x50, 0x4D, 0x53] : List Byte),
      ¬ Typed key ∧ key ≠ 0x0E ∧ Echoed key ∧
        key ∉ ([0x2A, 0x36, 0xAA, 0xB6, 0x0E] : List Byte) := by
    decide
  obtain ⟨special, noBackspace, echoed, ignored⟩ := facts scancode arrow
  have window : Window { t with control := true, shift } v.sheet.done
      v.sheet.last :=
    displays.window.congr rfl rfl rfl
  have unseen := window.unseen (plain.row echoed) rfl other
  have kept := kprintfKb_keys char { t with control := true, shift }
  constructor
  · change Window next (v.echo scancode).done (v.echo scancode).last
    rw [Transcript.echo_of_echoed special noBackspace echoed, isNext]
    exact unseen.congr rfl rfl rfl
  · change next.keys = (false, (v.editing.key scancode).held, 2 * v.mark)
    rw [Editing.key_of_ignored special ignored, isNext]
    refine Prod.ext rfl (Prod.ext rfl ?_)
    exact (congrArg (fun keys => keys.2.2) kept).trans displays.globalX

/-- Backspace. -/
theorem Displays.back {t : Terminal} (displays : Displays t v)
    (plain : PlainKey v 0x0E) :
    Displays
      { kprintfKb 0x68 { t with control := true } with control := false }
      (v.key 0x0E) := by
  have window : Window { t with control := true } v.sheet.done v.sheet.last :=
    displays.window.congr rfl rfl rfl
  have erased := window.back (plain.row (by decide)) rfl displays.globalX
  have kept := kprintfKb_keys 0x68 { t with control := true }
  constructor
  · change Window _ (v.echo 0x0E).done (v.echo 0x0E).last
    unfold Transcript.echo
    rw [if_neg (by decide), if_pos rfl]
    exact erased.congr rfl rfl rfl
  · have held : (kprintfKb 0x68 { t with control := true }).shift =
        v.editing.held :=
      (congrArg (fun keys => keys.2.1) kept).trans displays.held
    have mark : (kprintfKb 0x68 { t with control := true }).globalX =
        2 * v.mark :=
      (congrArg (fun keys => keys.2.2) kept).trans displays.globalX
    exact Prod.ext rfl (Prod.ext held mark)

/-- The keys that are not typed, in the order of the tests. -/
theorem Displays.special {k next : Keyboard}
    (displays : Displays k.terminal v) (plain : PlainKey v scancode)
    (special : ¬ Typed scancode)
    (handled : dispatchKey scancode k = .ok ((), next)) :
    Displays next.terminal (v.key scancode) := by
  unfold dispatchKey at handled
  by_cases shiftDown : scancode = 0x2A ∨ scancode = 0x36
  · rw [if_pos shiftDown] at handled
    cases handled
    rcases shiftDown with rfl | rfl
    · exact displays.silent (by decide) ⟨rfl, rfl, rfl⟩ displays.control rfl
        rfl
    · exact displays.silent (by decide) ⟨rfl, rfl, rfl⟩ displays.control
        (Bool.or_true v.editing.left).symm rfl
  rw [if_neg shiftDown] at handled
  by_cases shiftUp : scancode = 0xAA ∨ scancode = 0xB6
  · rw [if_pos shiftUp] at handled
    cases handled
    rcases shiftUp with rfl | rfl
    · exact displays.silent (by decide) ⟨rfl, rfl, rfl⟩ displays.control
        (plain.released.1 rfl).symm rfl
    · have released : (v.editing.key 0xB6).held = false := by
        change (v.editing.left || false) = false
        rw [plain.released.2 rfl]
        rfl
      exact displays.silent (by decide) ⟨rfl, rfl, rfl⟩ displays.control
        released.symm rfl
  rw [if_neg shiftUp, if_neg plain.noControl] at handled
  by_cases controlUp : scancode = 0x9D
  · rw [if_pos controlUp] at handled
    cases handled
    subst controlUp
    refine displays.silent (by decide) ⟨rfl, rfl, rfl⟩ rfl ?_ rfl
    rw [Editing.key_of_ignored special (by decide)]
    exact displays.held
  rw [if_neg controlUp] at handled
  by_cases arrow : scancode = 0x48 ∨ scancode = 0x4B ∨ scancode = 0x50 ∨
      scancode = 0x4D
  · rw [if_pos arrow] at handled
    cases handled
    have isArrow : scancode ∈ ([0x48, 0x4B, 0x50, 0x4D] : List Byte) := by
      simp only [List.mem_cons, List.not_mem_nil, or_false]
      exact arrow
    have chars : ∀ key ∈ ([0x48, 0x4B, 0x50, 0x4D] : List Byte),
        key ∈ ([0x48, 0x4B, 0x50, 0x4D, 0x53] : List Byte) ∧
          key ≠ 0x0A ∧ key ≠ 0x68 := by
      decide
    obtain ⟨unseen, char⟩ := chars scancode isArrow
    apply displays.unseen plain unseen scancode char true
    rw [plain.arrow isArrow]
    rfl
  rw [if_neg arrow] at handled
  by_cases backspace : scancode = 0x0E
  · rw [if_pos backspace] at handled
    cases handled
    subst backspace
    exact displays.back plain
  rw [if_neg backspace] at handled
  by_cases delete : scancode = 0x53
  · rw [if_pos delete] at handled
    cases handled
    subst delete
    apply displays.unseen plain (by decide) 0x3F (by decide)
      k.terminal.shift
    have kept := kprintfKb_keys 0x3F { k.terminal with control := true }
    rw [← (congrArg (fun keys => keys.2.1) kept).trans displays.held]
    rfl
  rw [if_neg delete] at handled
  by_cases above : 127 < scancode
  · rw [if_pos above] at handled
    cases handled
    have facts : ∀ key : Byte, 127 < key → ¬ (key = 0xAA ∨ key = 0xB6) →
        ¬ Echoed key ∧
          key ∉ ([0x2A, 0x36, 0xAA, 0xB6, 0x0E] : List Byte) := by
      decide +kernel
    obtain ⟨silent, ignored⟩ := facts scancode above shiftUp
    refine displays.silent silent ⟨rfl, rfl, rfl⟩ displays.control ?_ rfl
    rw [Editing.key_of_ignored special ignored]
    exact displays.held
  · refine absurd ⟨BitVec.not_lt.mp above, ?_⟩ special
    have noControl := plain.noControl
    simp only [List.mem_cons, List.not_mem_nil, or_false]
    tauto

end Special

/-- The interrupt for a key does to the buffer, the flags and the screen what
the key does to the transcript. -/
theorem Displays.key {scancode : Byte} {k : Keyboard} {v : Transcript}
    (displays : Displays k.terminal v) (follows : Follows k v.editing)
    (plain : PlainKey v scancode) :
    ∃ next, keyboardInterrupt scancode k = .ok ((), next) ∧
      Displays next.terminal (v.key scancode) ∧
        Follows next (v.key scancode).editing ∧
          next.inputDone =
            if scancode = 0x1C then false else k.inputDone := by
  obtain ⟨next, handled, followsNext, done⟩ :=
    follows.key (plain.agrees displays) plain.room
  refine ⟨next, handled, ?_, followsNext, done⟩
  rw [keyboardInterrupt_eq] at handled
  generalize found : { k with
    inputDone := if scancode = 0x1C then false else k.inputDone } =
      entered at handled
  have shown : Displays entered.terminal v := by
    rw [← found]
    exact displays
  by_cases typed : Typed scancode
  · exact shown.typed plain typed handled
  · exact shown.special plain typed handled

/-! ## A line -/

theorem Transcript.keys_cons (v : Transcript) (scancode : Byte)
    (rest : List Byte) :
    v.keys (scancode :: rest) = (v.key scancode).keys rest :=
  rfl

theorem Transcript.keys_concat (v : Transcript) (scancodes : List Byte)
    (scancode : Byte) :
    v.keys (scancodes ++ [scancode]) = (v.keys scancodes).key scancode :=
  List.foldl_append

/-- `scanf` waits up to the Enter key. -/
theorem Displays.waitInput {typed : List Byte} :
    ∀ {k : Keyboard} {v : Transcript}, Displays k.terminal v →
      Follows k v.editing → k.inputDone = true → 0x1C ∉ typed →
        PlainKeys v (typed ++ [0x1C]) →
          (∃ next, waitInput (typed ++ [0x1C]) k = .ok ((), next) ∧
            Displays next.terminal (v.keys (typed ++ [0x1C])) ∧
              Follows next (v.keys (typed ++ [0x1C])).editing) ∧
            (v.keys typed).editing.pending.length < 200 := by
  induction typed with
  | nil =>
      intro k v displays follows waiting _ plain
      obtain ⟨next, handled, displaysNext, followsNext, done⟩ :=
        displays.key follows plain.1
      refine ⟨⟨next, ?_, displaysNext, followsNext⟩, plain.1.room⟩
      refine bind_eq_ok_iff.mpr ⟨k, k, rfl, ?_⟩
      rw [if_pos waiting]
      refine bind_eq_ok_iff.mpr ⟨(), next, handled, ?_⟩
      rw [if_pos rfl] at done
      unfold SbuUnix.waitInput
      rw [done]
      rfl
  | cons scancode rest inductionHypothesis =>
      intro k v displays follows waiting noEnter plain
      rw [List.mem_cons, not_or] at noEnter
      obtain ⟨between, handled, displaysBetween, followsBetween, done⟩ :=
        displays.key follows plain.1
      rw [if_neg (Ne.symm noEnter.1)] at done
      obtain ⟨⟨next, waited, shown⟩, room⟩ :=
        inductionHypothesis displaysBetween followsBetween
          (done.trans waiting) noEnter.2 plain.2
      refine ⟨⟨next, ?_, shown⟩, room⟩
      refine bind_eq_ok_iff.mpr ⟨k, k, rfl, ?_⟩
      rw [if_pos waiting]
      exact bind_eq_ok_iff.mpr ⟨(), between, handled, waited⟩

/-- The end of `scanf` does not touch the screen. -/
theorem takeLine_terminal {k next : Keyboard} {line : List Byte}
    (taken : takeLine k = .ok (line, next)) :
    next.terminal = k.terminal := by
  unfold takeLine at taken
  by_cases nothing : k.count = 0
  · rw [if_pos nothing] at taken
    cases taken
  · rw [if_neg nothing] at taken
    obtain ⟨read, _, taken⟩ := exists_of_bind_ok taken
    obtain ⟨pressed, _, taken⟩ := exists_of_bind_ok taken
    cases taken
    rfl

/-! ## The session follows its transcript -/

structure Session.Shows (s : Session) (v : Transcript) : Prop where
  displays : Displays s.keyboard.terminal v
  follows : Follows s.keyboard v.editing
  clean : ∀ who, CleanResult (s.results who)
  lines : s.lines = v.lines

theorem EmptyBuffer.follows {k : Keyboard} (empty : EmptyBuffer k)
    {e : Editing} (nothing : e.pending = []) : Follows k e := by
  constructor
  · rw [empty.count, nothing]
    rfl
  · rw [nothing]
    exact fun i inside => absurd inside (Nat.not_lt_zero i)
  · rw [nothing]
    exact fun char member => absurd member List.not_mem_nil

/-- `kprintf("<%s>", …)` -/
theorem kernelPrints_prompt {fuel : Nat} {currDir : Memory}
    {name : List Byte} (shows : StringShows currDir name)
    (enough : name.length + 5 < fuel) :
    KernelPrints (promptCall fuel currDir)
      (0x3C :: (name ++ [0x3E])) := by
  refine ⟨[.plain 0x3C, .string, .plain 0x3E], textAt_getD (by decide), ?_,
    ?_, ?_⟩
  · intro byte member
    simp only [List.mem_cons, Part.plain.injEq, reduceCtorEq,
      List.not_mem_nil, or_false, false_or] at member
    rcases member with rfl | rfl <;> decide
  · have directory : PartShows (promptCall fuel currDir).args 0 .string 1
        name :=
      .string shows
    have closing : FormatShows (promptCall fuel currDir).args
        [.plain 0x3E] 1 ([0x3E] ++ []) :=
      .cons (.plain 0x3E (by decide)) (.nil 1)
    exact .cons (.plain 0x3C (by decide)) (.cons directory closing)
  · simp only [List.length_cons, List.length_append, List.length_nil]
    change _ < fuel
    omega

/-- One step. -/
theorem Transcript.Step.serve {v next : Transcript} {step : SessionStep}
    (stepped : Transcript.Step v step next) {s : Session}
    (shows : s.Shows v) :
    ∃ after, step.serve s = .ok ((), after) ∧ after.Shows next := by
  have screen := shows.displays
  cases stepped with
  | @print printing text prints =>
      obtain ⟨printed, served, clean, keys, window⟩ :=
        prints.serve (p := ⟨s.keyboard.terminal, s.results⟩) shows.clean
          screen.window
      refine ⟨{ s with
        keyboard := { s.keyboard with terminal := printed.terminal }
        results := printed.results }, ?_,
        ⟨window, keys.trans screen.keys⟩, ?_, clean, shows.lines⟩
      · change (printing.serve _ >>= _) = _
        rw [served]
        rfl
      · exact ⟨shows.follows.count, shows.follows.bytes,
          shows.follows.present⟩
  | @getcwd fuel currDir name isName enough =>
      obtain ⟨printed, served, keys, window⟩ :=
        (kernelPrints_prompt isName enough).puts screen.window
      refine ⟨{ s with
        keyboard := { s.keyboard with
          terminal := { printed with globalX := printed.xPos } } }, ?_,
        ⟨window.congr rfl rfl rfl, ?_⟩, ?_, shows.clean, shows.lines⟩
      · change ((promptCall fuel currDir).run _ >>= _) = _
        rw [served]
        rfl
      · have kept := keys.trans screen.keys
        have control : printed.control = false := congrArg Prod.fst kept
        have held : printed.shift = v.editing.held :=
          congrArg (fun keys => keys.2.1) kept
        exact Prod.ext control (Prod.ext held window.column)
      · exact ⟨shows.follows.count, shows.follows.bytes,
          shows.follows.present⟩
  | @key scancode plain =>
      obtain ⟨pressed, handled, displays, follows, -⟩ :=
        screen.key shows.follows plain
      refine ⟨{ s with keyboard := pressed }, ?_, displays, follows,
        shows.clean, shows.lines⟩
      change (keyboardInterrupt scancode s.keyboard >>= _) = _
      rw [handled]
      rfl
  | @scanf typed noEnter plain =>
      have waiting : Displays
          ({ s.keyboard with inputDone := true } : Keyboard).terminal v :=
        screen
      have followsWaiting : Follows { s.keyboard with inputDone := true }
          v.editing :=
        ⟨shows.follows.count, shows.follows.bytes, shows.follows.present⟩
      obtain ⟨⟨entered, waited, displays, follows⟩, room⟩ :=
        waiting.waitInput followsWaiting rfl noEnter plain
      rw [Transcript.keys_concat] at follows
      obtain ⟨last, taken, empty⟩ := follows.takeLine room
      have terminal := takeLine_terminal taken
      refine ⟨{ s with
        keyboard := last
        lines := s.lines ++ [(v.keys typed).editing.pending] }, ?_,
        ⟨?_, ?_⟩, empty.follows rfl, shows.clean, ?_⟩
      · have read : SbuUnix.scanf (typed ++ [0x1C]) s.keyboard =
            .ok ((v.keys typed).editing.pending, last) := by
          refine bind_eq_ok_iff.mpr ⟨(), _, rfl, ?_⟩
          exact bind_eq_ok_iff.mpr ⟨(), entered, waited, taken⟩
        change (SbuUnix.scanf (typed ++ [0x1C]) s.keyboard >>= _) = _
        rw [read]
        rfl
      · change Window last.terminal _ _
        rw [terminal]
        exact displays.window
      · change last.terminal.keys = _
        rw [terminal]
        exact displays.keys
      · rw [shows.lines]
        rfl

/-- A whole session. -/
theorem Transcript.Run.serve {v last : Transcript}
    {steps : List SessionStep} (run : Transcript.Run v steps last) :
    ∀ {s : Session}, s.Shows v →
      ∃ after, runAll SessionStep.serve steps s = .ok ((), after) ∧
        after.Shows last := by
  induction run with
  | nil v => exact fun shows => ⟨_, rfl, shows⟩
  | cons first _ inductionHypothesis =>
      intro s shows
      obtain ⟨between, served, showsBetween⟩ := first.serve shows
      obtain ⟨after, others, showsAfter⟩ := inductionHypothesis showsBetween
      refine ⟨after, ?_, showsAfter⟩
      exact bind_eq_ok_iff.mpr ⟨(), between, served, others⟩

/-- The directory `/`. -/
def rootDirectory : Memory :=
  fun place => [0x2F].getD place 0

/-- `l` is typed before the program reads, then `a`, Backspace and `s`. -/
def commandSteps : List SessionStep :=
  [.getcwd 8 rootDirectory, .key 0x26, .scanf ([0x1E, 0x0E, 0x1F] ++ [0x1C])]

def commandTranscript : Transcript :=
  ((({} : Transcript).prompt [0x2F]).key 0x26).read [0x1E, 0x0E, 0x1F]

theorem run_command : Transcript.Run {} commandSteps commandTranscript := by
  have directory : StringShows rootDirectory [0x2F] :=
    .whole (textAt_getD (by decide)) (show (0x2F : Byte) ≠ 0x0A by decide)
  have letter : PlainKey (({} : Transcript).prompt [0x2F]) 0x26 :=
    ⟨by decide, by decide, by decide, by decide, by decide, by decide,
      by decide⟩
  refine .cons (.getcwd directory (by decide)) (.cons (.key letter)
    (.cons (.scanf (by decide) ?_) (.nil _)))
  refine ⟨?_, ?_, ?_, ?_, trivial⟩
  all_goals exact ⟨by decide, by decide, by decide, by decide, by decide,
    by decide, by decide⟩

example : commandTranscript.lines = [[0x6C, 0x73]] ∧
    commandTranscript.sheet.done = [[0x3C, 0x2F, 0x3E, 0x6C, 0x73]] := by
  decide +kernel

end SbuUnix
