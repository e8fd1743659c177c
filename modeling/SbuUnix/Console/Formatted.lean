import SbuUnix.Console.Hexadecimal
import SbuUnix.Console.Interrupted
import SbuUnix.Libc.Decimal
import SbuUnix.Libc.Formats

/-!
# All that is printed goes to the log

`kprintf` with any of its conversions, and `printf` of the programs, whose
text system call 1 hands to `kprintf` as the argument of `"%s"`.  The kernel
and all programs write to one log, in the order of their calls.  A string
whose last character is a `'\n'` takes its NUL to the screen.
-/

namespace SbuUnix

open Lines Outcome

/-! ## What the conversions print -/

/-- A part of a format of `kprintf`. -/
inductive Part where
  | plain (byte : Byte)
  | char
  | string
  | int
  | hex
  | pointer
  deriving DecidableEq

/-- The part as it stands in the format. -/
def Part.text : Part → List Byte
  | .plain byte => [byte]
  | .char => [0x25, 0x63]
  | .string => [0x25, 0x73]
  | .int => [0x25, 0x64]
  | .hex => [0x25, 0x78]
  | .pointer => [0x25, 0x70]

/-- What the case `'s'` prints.  Behind a `'\n'` it prints the next byte, the
NUL of the string where nothing else comes; then the byte behind must be one
as well. -/
inductive StringShows (text : Nat → Byte) : List Byte → Prop
  | whole {s : List Byte} (isText : TextAt text 0 s)
      (followed : NewlinesFollowed s) : StringShows text s
  | line {s : List Byte} (isText : TextAt text 0 (s ++ [0x0A]))
      (followed : NewlinesFollowed s) (ends : text (s.length + 2) = 0) :
      StringShows text (s ++ [0x0A, 0])

/-- The text of a part with the argument that it takes, and the number of the
next argument. -/
inductive PartShows (args : Nat → PrintArg) (n : Nat) :
    Part → Nat → List Byte → Prop
  | plain (byte : Byte) (noReturn : byte ≠ 0x0D) :
      PartShows args n (.plain byte) n [byte]
  | char (byte : Byte) (value : (args n).value.setWidth 8 = byte)
      (notNewline : byte ≠ 0x0A) : PartShows args n .char (n + 1) [byte]
  | string {s : List Byte} (shows : StringShows (args n).text s) :
      PartShows args n .string (n + 1) s
  | int (value : Nat) (small : value < 2 ^ 31)
      (isValue : (args n).value.setWidth 32 = BitVec.ofNat 32 value) :
      PartShows args n .int (n + 1) (decimalNumeral value)
  | hex (value : BitVec 32) (isValue : (args n).value.setWidth 32 = value)
      (positive : 0 < value.toInt) :
      PartShows args n .hex (n + 1) (hexNumeral value.toNat)
  | pointer : PartShows args n .pointer (n + 1)
      (0x30 :: 0x78 :: hexNumeral (args n).value.toNat)

/-- The text of a format with its arguments. -/
inductive FormatShows (args : Nat → PrintArg) :
    List Part → Nat → List Byte → Prop
  | nil (n : Nat) : FormatShows args [] n []
  | cons {part : Part} {parts : List Part} {n next : Nat}
      {output rest : List Byte} (first : PartShows args n part next output)
      (later : FormatShows args parts next rest) :
      FormatShows args (part :: parts) n (output ++ rest)

/-- A call of `kprintf` with the text that it prints. -/
structure KernelPrints (call : PrintCall) (text : List Byte) : Prop where
  shows : ∃ parts, TextAt call.string 0 (parts.flatMap Part.text) ∧
    (∀ byte, .plain byte ∈ parts → byte ≠ 0x25) ∧
      FormatShows call.args parts 0 text ∧
        parts.length + text.length < call.fuel

/-! ## The lines of the screen -/

/-- The lines above the cursor, and the last one. -/
structure Sheet where
  done : List (List Byte) := []
  last : List Byte := []

/-- One more character of a text. -/
def Sheet.put (sheet : Sheet) (char : Byte) : Sheet :=
  if char = 0x0A then
    ⟨sheet.done ++ [sheet.last], []⟩
  else if sheet.last.length = 80 then
    ⟨sheet.done ++ [sheet.last], [char]⟩
  else
    ⟨sheet.done, sheet.last ++ [char]⟩

def Sheet.print (sheet : Sheet) (text : List Byte) : Sheet :=
  text.foldl Sheet.put sheet

theorem Sheet.print_append (sheet : Sheet) (text more : List Byte) :
    sheet.print (text ++ more) = (sheet.print text).print more :=
  List.foldl_append

/-- The lines of a log are extended as the log is. -/
theorem Sheet.logLines_print {text : List Byte} :
    ∀ {sheet : Sheet} {before : List Byte},
      logLines before = sheet.done ++ [sheet.last] →
        logLines (before ++ text) =
          (sheet.print text).done ++ [(sheet.print text).last] := by
  induction text with
  | nil =>
      intro sheet before lines
      rw [List.append_nil]
      exact lines
  | cons char rest inductionHypothesis =>
      intro sheet before lines
      have first : logLines (before ++ [char]) =
          (sheet.put char).done ++ [(sheet.put char).last] := by
        unfold put
        by_cases newline : char = 0x0A
        · rw [if_pos newline, newline, logLines, linesOf_concat_separator]
          exact congrArg (fun lines => lines ++ [[]]) lines
        · rw [if_neg newline, logLines,
            linesOf_concat (by decide) newline lines, extend]
          split <;> rfl
      have later := inductionHypothesis first
      rw [List.append_assoc] at later
      exact later

/-! ## What actions add to it -/

/-- The actions write a text behind all that was printed before. -/
def Adds (actions : List Action) (text : List Byte) : Prop :=
  ∀ (t : Terminal) (sheet : Sheet), Window t sheet.done sheet.last →
    Window (actions.foldl Action.perform t) (sheet.print text).done
      (sheet.print text).last

theorem adds_nil : Adds [] [] :=
  fun _ _ window => window

theorem Adds.append {first second : List Action} {text more : List Byte}
    (adds : Adds first text) (addsMore : Adds second more) :
    Adds (first ++ second) (text ++ more) := by
  intro t sheet window
  rw [List.foldl_append, Sheet.print_append]
  exact addsMore _ _ (adds t sheet window)

theorem adds_visible {byte : Byte} (notNewline : byte ≠ 0x0A) :
    Adds [.visible byte] [byte] := by
  intro t sheet window
  obtain ⟨earlier, line, next, extended⟩ := window.putChar byte
  have same : sheet.print [byte] = ⟨earlier, line⟩ := by
    change sheet.put byte = _
    unfold extend at extended
    unfold Sheet.put
    rw [if_neg notNewline]
    by_cases full : sheet.last.length = 80
    · rw [if_pos full] at extended ⊢
      obtain ⟨rfl, isLine⟩ := List.append_inj' extended rfl
      rw [List.singleton_inj.mp isLine]
    · rw [if_neg full] at extended ⊢
      obtain ⟨rfl, isLine⟩ := List.append_inj' extended rfl
      rw [List.singleton_inj.mp isLine]
  rw [same]
  exact next

theorem adds_newline : Adds [.newline] [0x0A] :=
  fun _ _ window => window.newline

theorem adds_digits {digits : List Byte} (noNewline : 0x0A ∉ digits) :
    Adds (digits.map .visible) digits := by
  induction digits with
  | nil => exact adds_nil
  | cons digit rest inductionHypothesis =>
      rw [List.mem_cons, not_or] at noNewline
      exact (adds_visible (Ne.symm noNewline.1)).append
        (inductionHypothesis noNewline.2)

theorem adds_textAction {byte : Byte} (noReturn : byte ≠ 0x0D) :
    Adds [textAction byte] [byte] := by
  by_cases newline : byte = 0x0A
  · rw [newline]
    exact adds_newline
  · rw [textAction_of_plain newline noReturn]
    exact adds_visible newline

/-- Above row 23 the case `'c'` prints as any other. -/
theorem adds_argument {byte : Byte} (notNewline : byte ≠ 0x0A) :
    Adds [.argument byte] [byte] := by
  intro t sheet window
  have same : t.putArgument byte = t.putChar byte := by
    have row := window.row
    by_cases full : t.xPos = 160
    · rw [putArgument_of_full full, if_pos notNewline]
      rfl
    · rw [putArgument_of_room full, if_pos notNewline,
        putChar_of_room full (by omega)]
  have added := adds_visible notNewline t sheet window
  rw [List.foldl_cons, List.foldl_nil] at added ⊢
  rw [Action.perform, same]
  exact added

/-- A string without a doubled `'\n'`. -/
theorem adds_argumentActions {s : List Byte} :
    ∀ {actions : List Action}, NewlinesFollowed s →
      argumentActions s = some actions → Adds actions s := by
  fun_induction argumentActions s with
  | case1 =>
      intro actions _ acts
      cases acts
      exact adds_nil
  | case2 =>
      intro actions _ acts
      cases acts
  | case3 next rest inductionHypothesis =>
      intro actions followed acts
      obtain ⟨more, restActs, rfl⟩ := Option.map_eq_some_iff.mp acts
      have later := inductionHypothesis followed.tail.tail restActs
      exact adds_newline.append
        ((adds_visible (followed.1 rfl)).append later)
  | case4 char rest notNewline inductionHypothesis =>
      intro actions followed acts
      obtain ⟨more, restActs, rfl⟩ := Option.map_eq_some_iff.mp acts
      exact (adds_visible notNewline).append
        (inductionHypothesis followed.tail restActs)

/-- Such a string passes no NUL. -/
theorem exists_argumentActions {s : List Byte} :
    NewlinesFollowed s → ∃ actions, argumentActions s = some actions := by
  fun_induction argumentActions s with
  | case1 => exact fun _ => ⟨[], rfl⟩
  | case2 => exact fun followed => absurd rfl followed
  | case3 next rest inductionHypothesis =>
      intro followed
      obtain ⟨actions, acts⟩ := inductionHypothesis followed.tail.tail
      exact ⟨_, congrArg (Option.map _) acts⟩
  | case4 char rest notNewline inductionHypothesis =>
      intro followed
      obtain ⟨actions, acts⟩ := inductionHypothesis followed.tail
      exact ⟨_, congrArg (Option.map _) acts⟩

/-! ## What the loops do -/

section Loops

variable {text : Nat → Byte}

/-- A string whose last character is a `'\n'`, with two NULs behind it. -/
theorem stringActions_line {s : List Byte} :
    ∀ {actions : List Action} {fuel i : Nat},
      TextAt text i (s ++ [0x0A]) → text (i + s.length + 2) = 0 →
        s.length + 1 < fuel → NewlinesFollowed s →
          argumentActions s = some actions →
            stringActions fuel text i =
              .ok (actions ++ [.newline, .visible 0]) := by
  fun_induction argumentActions s with
  | case1 =>
      intro actions fuel i isText ends enough _ acts
      obtain ⟨fuel, rfl⟩ : ∃ less, fuel = less + 2 := ⟨fuel - 2, by
        rw [List.length_nil] at enough
        omega⟩
      cases acts
      obtain ⟨notNul, first, behind⟩ := textAt_cons.mp isText
      have nul := textAt_nil.mp behind
      have stops : text (i + 2) = 0 := ends
      rw [stringActions, first, if_pos notNul, if_pos rfl, stringActions,
        if_neg (not_not.mpr stops), nul]
      rfl
  | case2 => exact fun _ _ _ followed => absurd rfl followed
  | case3 next rest inductionHypothesis =>
      intro actions fuel i isText ends enough followed acts
      obtain ⟨fuel, rfl⟩ : ∃ less, fuel = less + 1 := ⟨fuel - 1, by omega⟩
      obtain ⟨notNul, first, behind⟩ := textAt_cons.mp isText
      obtain ⟨_, second, later⟩ := textAt_cons.mp behind
      obtain ⟨more, restActs, rfl⟩ := Option.map_eq_some_iff.mp acts
      simp only [List.length_cons] at enough ends
      rw [stringActions, first, if_pos notNul, if_pos rfl, second,
        inductionHypothesis later
          (by rw [← ends]; congr 1; omega) (by omega) followed.tail.tail
          restActs]
      rfl
  | case4 char rest notNewline inductionHypothesis =>
      intro actions fuel i isText ends enough followed acts
      obtain ⟨fuel, rfl⟩ : ∃ less, fuel = less + 1 := ⟨fuel - 1, by omega⟩
      obtain ⟨notNul, first, later⟩ := textAt_cons.mp isText
      obtain ⟨more, restActs, rfl⟩ := Option.map_eq_some_iff.mp acts
      simp only [List.length_cons] at enough ends
      rw [stringActions, first, if_pos notNul, if_neg notNewline,
        inductionHypothesis later
          (by rw [← ends]; congr 1; omega) (by omega) followed.tail
          restActs]
      rfl

theorem StringShows.actions {s : List Byte} (shows : StringShows text s)
    {fuel : Nat} (enough : s.length < fuel) :
    ∃ actions, stringActions fuel text 0 = .ok actions ∧
      Adds actions s := by
  cases shows with
  | whole isText followed =>
      obtain ⟨actions, acts⟩ := exists_argumentActions followed
      exact ⟨actions, (stringActions_eq isText enough acts).1,
        adds_argumentActions followed acts⟩
  | line isText followed ends =>
      obtain ⟨actions, acts⟩ := exists_argumentActions followed
      rw [List.length_append] at enough
      refine ⟨_, stringActions_line isText ?_ ?_ followed acts, ?_⟩
      · rw [Nat.zero_add]
        exact ends
      · simp only [List.length_cons, List.length_nil] at enough
        omega
      · exact (adds_argumentActions followed acts).append
          (adds_newline.append (adds_visible (by decide)))

theorem decimalNumeral_noNewline (value : Nat) :
    0x0A ∉ decimalNumeral value := by
  have digitChar : ∀ digit < 10, (0x0A : Byte) ≠
      BitVec.ofNat 8 (digit + 0x30) := by
    decide
  unfold decimalNumeral
  split
  · decide
  · rw [List.mem_reverse, List.mem_map]
    rintro ⟨digit, member, same⟩
    exact digitChar digit (Nat.digits_lt_base (by decide) member) same.symm

theorem hexNumeral_noNewline (value : Nat) : 0x0A ∉ hexNumeral value := by
  have digitChar : ∀ digit < 16, 0x0A ≠ hexAlphabet.getD digit 0 := by
    decide
  unfold hexNumeral
  split
  · decide
  · rw [List.mem_reverse, List.mem_map]
    rintro ⟨digit, member, same⟩
    exact digitChar digit (Nat.digits_lt_base (by decide) member) same.symm

variable {string : Nat → Byte} {args : Nat → PrintArg}

theorem Part.text_cases (part : Part) :
    (∃ byte, part = .plain byte) ∨
      ∃ conversion, part.text = [0x25, conversion] := by
  cases part with
  | plain byte => exact Or.inl ⟨byte, rfl⟩
  | char => exact Or.inr ⟨0x63, rfl⟩
  | string => exact Or.inr ⟨0x73, rfl⟩
  | int => exact Or.inr ⟨0x64, rfl⟩
  | hex => exact Or.inr ⟨0x78, rfl⟩
  | pointer => exact Or.inr ⟨0x70, rfl⟩

/-- The case of a conversion adds its text. -/
theorem conversionActions_part {part : Part} {conversion : Byte}
    {n next fuel : Nat} {output : List Byte}
    (isDirective : part.text = [0x25, conversion])
    (prints : PartShows args n part next output)
    (enough : output.length < fuel) :
    ∃ actions, conversionActions fuel conversion args n =
        .ok (next, actions) ∧ Adds actions output := by
  cases prints with
  | plain byte noReturn => cases isDirective
  | char byte value notNewline =>
      cases isDirective
      refine ⟨[.argument byte], ?_, adds_argument notNewline⟩
      rw [conversionActions, if_pos rfl, value]
      rfl
  | string shows =>
      cases isDirective
      obtain ⟨actions, acts, adds⟩ := shows.actions enough
      refine ⟨actions, ?_, adds⟩
      rw [conversionActions, if_neg (by decide), if_pos rfl, acts]
      rfl
  | int value small isValue =>
      cases isDirective
      have isInt : ((args n).value.setWidth 32).toInt = value := by
        rw [isValue, BitVec.toInt_eq_toNat_of_lt
          (by rw [BitVec.toNat_ofNat]; omega), BitVec.toNat_ofNat]
        omega
      refine ⟨(decimalNumeral value).map .visible, ?_,
        adds_digits (decimalNumeral_noNewline value)⟩
      rw [conversionActions, if_neg (by decide), if_neg (by decide),
        if_pos rfl, isInt, strtoint_natCast]
      rfl
  | hex value isValue positive =>
      cases isDirective
      refine ⟨(hexNumeral value.toNat).map .visible, ?_,
        adds_digits (hexNumeral_noNewline _)⟩
      have unsigned : (value.signExtend 64).toNat = value.toNat := by
        have positiveSign : value.msb = false := by
          rw [BitVec.msb_eq_toInt]
          exact decide_eq_false (by omega)
        rw [BitVec.signExtend_eq_setWidth_of_msb_false positiveSign,
          BitVec.toNat_setWidth]
        exact Nat.mod_eq_of_lt (Nat.lt_trans value.isLt (by decide))
      have digits := (convertHex2String_eq_iff value).mpr positive
      rw [conversionActions, if_neg (by decide), if_neg (by decide),
        if_neg (by decide), if_pos rfl, isValue, digits, unsigned]
      rfl
  | pointer =>
      cases isDirective
      have noNewline : 0x0A ∉
          0x30 :: 0x78 :: hexNumeral (args n).value.toNat := by
        rw [List.mem_cons, List.mem_cons, not_or, not_or]
        exact ⟨by decide, by decide, hexNumeral_noNewline _⟩
      refine ⟨(0x30 :: 0x78 ::
        hexNumeral (args n).value.toNat).map .visible, ?_,
          adds_digits noNewline⟩
      rw [conversionActions, if_neg (by decide), if_neg (by decide),
        if_neg (by decide), if_neg (by decide), if_pos rfl,
        convertPointerAddress2String_eq]
      rfl

/-- One part of a format, whose actions add its text. -/
theorem formatActions_part {part : Part} {n next i : Nat}
    {more output : List Byte} (prints : PartShows args n part next output)
    (isText : TextAt string i (part.text ++ more))
    (plain : ∀ byte, part = .plain byte → byte ≠ 0x25)
    {fuel : Nat} (enough : output.length < fuel) :
    ∃ actions, Adds actions output ∧
      formatActions (fuel + 1) string args i n =
        (formatActions fuel string args (i + part.text.length) next).map
          fun rest => actions ++ rest := by
  rcases part.text_cases with ⟨byte, rfl⟩ | ⟨conversion, isDirective⟩
  · obtain ⟨notNul, first, -⟩ := textAt_cons.mp isText
    cases prints with
    | plain _ noReturn =>
        refine ⟨[textAction byte], adds_textAction noReturn, ?_⟩
        rw [formatActions, first, if_pos notNul, if_pos (plain byte rfl)]
        rfl
  · obtain ⟨actions, converted, adds⟩ :=
      conversionActions_part isDirective prints enough
    rw [isDirective] at isText ⊢
    obtain ⟨-, first, behind⟩ := textAt_cons.mp isText
    obtain ⟨-, second, -⟩ := textAt_cons.mp behind
    refine ⟨actions, adds, ?_⟩
    rw [formatActions, first, if_pos (by decide), if_neg (by decide), second,
      converted]
    rfl

/-- A whole format. -/
theorem formatActions_parts {parts : List Part} :
    ∀ {n i fuel : Nat} {output : List Byte},
      FormatShows args parts n output →
        TextAt string i (parts.flatMap Part.text) →
          (∀ byte, .plain byte ∈ parts → byte ≠ 0x25) →
            parts.length + output.length < fuel →
              ∃ actions, formatActions fuel string args i n = .ok actions ∧
                Adds actions output := by
  induction parts with
  | nil =>
      intro n i fuel output shows isText _ enough
      cases shows
      obtain ⟨fuel, rfl⟩ : ∃ less, fuel = less + 1 := ⟨fuel - 1, by omega⟩
      have nul := textAt_nil.mp isText
      refine ⟨[], ?_, adds_nil⟩
      rw [formatActions, if_neg (not_not.mpr nul)]
      rfl
  | cons part parts inductionHypothesis =>
      intro n i fuel output shows isText plain enough
      obtain ⟨fuel, rfl⟩ : ∃ less, fuel = less + 1 := ⟨fuel - 1, by omega⟩
      cases shows with
      | @cons _ _ _ next first rest prints later =>
          rw [List.flatMap_cons] at isText
          rw [List.length_append, List.length_cons] at enough
          obtain ⟨actions, adds, stepped⟩ := formatActions_part prints isText
            (fun byte same => plain byte (same ▸ List.mem_cons_self))
            (show first.length < fuel by omega)
          obtain ⟨more, rests, addsMore⟩ := inductionHypothesis later
            (textAt_append.mp isText).2.2
            (fun byte member => plain byte (List.mem_cons_of_mem _ member))
            (show parts.length + rest.length < fuel by omega)
          refine ⟨actions ++ more, ?_, adds.append addsMore⟩
          rw [stepped, rests]
          rfl

end Loops

/-- What the keyboard finds of the screen. -/
def Terminal.keys (t : Terminal) : Bool × Bool × Nat :=
  (t.control, t.shift, t.globalX)

theorem Terminal.scroll_keys (t : Terminal) : t.scroll.keys = t.keys := by
  have kept : t.updateScreen.keys = t.keys :=
    t.updateScreen_keeps keys fun _ _ _ => rfl
  unfold Terminal.scroll
  split
  · generalize t.updateScreen = moved at kept
    exact kept
  · rfl

theorem Terminal.wrap_keys (t : Terminal) : t.wrap.keys = t.keys := by
  unfold Terminal.wrap
  split <;> rfl

theorem Terminal.putChar_keys (t : Terminal) (char : Byte) :
    (t.putChar char).keys = t.keys :=
  (t.wrap.scroll_keys).trans t.wrap_keys

/-- No action sets a flag. -/
theorem Action.perform_keys (t : Terminal) (action : Action) :
    (action.perform t).keys = t.keys := by
  cases action with
  | newline => exact Terminal.scroll_keys _
  | home => rfl
  | visible byte => exact t.putChar_keys byte
  | argument byte =>
      have wrapped : (if t.xPos = 160 then t.wrap.scroll else t).keys =
          t.keys := by
        split
        · exact t.wrap.scroll_keys.trans t.wrap_keys
        · rfl
      change (t.putArgument byte).keys = _
      unfold Terminal.putArgument
      by_cases newline : byte = 0x0A
      · rw [if_neg (not_not.mpr newline)]
        exact (Terminal.scroll_keys _).trans wrapped
      · rw [if_pos newline]
        exact wrapped

theorem foldl_perform_keys (actions : List Action) :
    ∀ t : Terminal, (actions.foldl Action.perform t).keys = t.keys := by
  induction actions with
  | nil => exact fun _ => rfl
  | cons action rest inductionHypothesis =>
      exact fun t => (inductionHypothesis _).trans (action.perform_keys t)

theorem KernelPrints.puts {call : PrintCall} {text : List Byte}
    (prints : KernelPrints call text) {t : Terminal} {sheet : Sheet}
    (window : Window t sheet.done sheet.last) :
    ∃ next, call.run t = .ok ((), next) ∧ next.keys = t.keys ∧
      Window next (sheet.print text).done (sheet.print text).last := by
  obtain ⟨parts, isText, plain, shows, enough⟩ := prints.shows
  obtain ⟨actions, acts, adds⟩ :=
    formatActions_parts shows isText plain enough
  refine ⟨_, ?_, foldl_perform_keys actions t, adds t sheet window⟩
  rw [PrintCall.run_eq, PrintCall.actions, acts]
  rfl

theorem KernelPrints.run {call : PrintCall} {text before : List Byte}
    (prints : KernelPrints call text) {t : Terminal}
    (window : WindowOn t before) :
    ∃ next, call.run t = .ok ((), next) ∧
      WindowOn next (before ++ text) := by
  obtain ⟨done, last, lines, shows⟩ := window
  obtain ⟨next, printed, -, shown⟩ :=
    prints.puts (show Window t (Sheet.mk done last).done _ from shows)
  exact ⟨next, printed, _, _, Sheet.logLines_print lines, shown⟩

theorem formatShows_plain {args : Nat → PrintArg} {n : Nat}
    (text : List Byte) (noReturn : 0x0D ∉ text) :
    FormatShows args (text.map .plain) n text := by
  induction text with
  | nil => exact .nil n
  | cons char rest inductionHypothesis =>
      rw [List.mem_cons, not_or] at noReturn
      exact .cons (.plain char (Ne.symm noReturn.1))
        (inductionHypothesis noReturn.2)

/-- A format without conversions. -/
theorem kernelPrints_plain {call : PrintCall} {text : List Byte}
    (isText : TextAt call.string 0 text) (noDirective : 0x25 ∉ text)
    (noReturn : 0x0D ∉ text) (enough : 2 * text.length < call.fuel) :
    KernelPrints call text := by
  refine ⟨text.map .plain, ?_, ?_, formatShows_plain text noReturn, ?_⟩
  · have same : (text.map Part.plain).flatMap Part.text = text := by
      rw [List.flatMap_map]
      exact List.flatMap_singleton' text
    rw [same]
    exact isText
  · intro byte member same
    obtain ⟨char, inside, isChar⟩ := List.mem_map.mp member
    cases isChar
    exact noDirective (same ▸ inside)
  · rw [List.length_map]
    omega

/-! ## Programs -/

/-- The screen, and the array `result` of every program. -/
structure Printers where
  terminal : Terminal
  results : Nat → Memory

/-- `kprintf("%s", reg.rcx)` of system call 1. -/
def printResult (fuel : Nat) (result : Memory) : PrintCall where
  fuel := fuel
  string := stringFormat
  args := stringArg result

/-- A call of `kprintf` by the kernel, or of `printf` by a program; `str` is
what stands in the local array. -/
inductive Printing where
  | kernel (call : PrintCall)
  | program (who fuel : Nat) (string : Nat → Byte) (args : Nat → PrintArg)
      (str : Memory)

def Printing.serve : Printing → StateT Printers (Except Fault) Unit
  | .kernel call => fun p => do
      let printed ← call.run p.terminal
      pure ((), { p with terminal := printed.2 })
  | .program who fuel string args str => fun p => do
      let result ← printf fuel string args (p.results who) str
      let printed ← (printResult fuel result).run p.terminal
      pure ((),
        { terminal := printed.2
          results := fun other =>
            if other = who then result else p.results other })

/-- A text in an array of zeros. -/
def textArray (text : List Byte) : Memory :=
  putField (fun _ => 0) 0 text

/-- A call of `printf` that puts together an output, with what it shows. -/
structure ProgramPrints (fuel : Nat) (string : Nat → Byte)
    (args : Nat → PrintArg) (str : Memory) (shown : List Byte) : Prop where
  shows : ∃ tokens output, FormatAt string tokens false ∧ .char ∉ tokens ∧
    FormatOutput args tokens 0 output ∧ output.length < 999 ∧
      (.int ∈ tokens → Ended 100 str) ∧ tokens.length + 1000 < fuel ∧
        StringShows (textArray output) shown

inductive Printing.Prints : Printing → List Byte → Prop
  | kernel {call : PrintCall} {text : List Byte}
      (prints : KernelPrints call text) : Prints (.kernel call) text
  | program {who fuel : Nat} {string : Nat → Byte} {args : Nat → PrintArg}
      {str : Memory} {text : List Byte}
      (prints : ProgramPrints fuel string args str text) :
      Prints (.program who fuel string args str) text

/-- The array of a program holds a text, and zeros behind it. -/
def CleanResult (result : Memory) : Prop :=
  ∃ text : List Byte, 0 ∉ text ∧ text.length < 1000 ∧
    result = textArray text

section Programs

/-- Clearing a text leaves zeros. -/
theorem clearText_putField (text : List Byte) :
    ∀ {room i : Nat}, 0 ∉ text → text.length < room →
      clearText room (putField (fun _ => 0) i text) i = .ok fun _ => 0 := by
  induction text with
  | nil =>
      intro room i _ enough
      obtain ⟨room, rfl⟩ : ∃ less, room = less + 1 :=
        ⟨room - 1, (Nat.succ_pred_eq_of_pos enough).symm⟩
      rw [putField_nil, clearText, if_neg (not_not.mpr rfl)]
      rfl
  | cons char rest inductionHypothesis =>
      intro room i noNul enough
      rw [List.mem_cons, not_or] at noNul
      rw [List.length_cons] at enough
      obtain ⟨room, rfl⟩ : ∃ less, room = less + 1 := ⟨room - 1, by omega⟩
      have first : putField (fun _ => 0) i (char :: rest) i = char := by
        have holds := holdsAt_putField (fun _ => 0) i (char :: rest)
        exact (holdsAt_cons.mp holds).1
      have cleared : store (putField (fun _ => 0) i (char :: rest)) i 0 =
          putField (fun _ => 0) (i + 1) rest := by
        funext other
        unfold store
        by_cases here : other = i
        · rw [if_pos here, putField_below (by omega)]
        · rw [if_neg here, ← putField_cons]
          unfold putField
          split
          · rfl
          · exact if_neg here
      rw [clearText, first, if_pos (Ne.symm noNul.1), cleared]
      exact inductionHypothesis noNul.2 (by omega)

/-- `printf` leaves its output in the array. -/
theorem printf_textArray {fuel : Nat} {string : Nat → Byte}
    {args : Nat → PrintArg} {tokens : List FormatToken} {result str : Memory}
    {output : List Byte} (clean : CleanResult result)
    (formatAt : FormatAt string tokens false) (noChar : .char ∉ tokens)
    (prints : FormatOutput args tokens 0 output)
    (short : output.length < 999)
    (ended : .int ∈ tokens → Ended 100 str)
    (enough : tokens.length + 1000 < fuel) :
    printf fuel string args result str = .ok (textArray output) := by
  obtain ⟨text, noNul, textShort, rfl⟩ := clean
  have isText := formatAt.text
  rw [loneText, if_neg Bool.false_ne_true, List.append_nil] at isText
  obtain ⟨last, returned, shows, -⟩ := printfFrom_format prints isText
    formatAt.plain noChar enough
    (show (⟨fun _ => 0, 0, str⟩ : PrintBuffer).count + output.length < 1000
      by rw [Nat.zero_add]; omega) ended
  have count : last.count = output.length := by
    rw [shows.count, Nat.zero_add]
  have content : last.result = textArray output := shows.result
  have ends : store (textArray output) output.length 0 =
      textArray output := by
    funext other
    unfold store textArray putField
    split
    · next here => rw [here, if_neg (by omega)]
    · rfl
  rw [printf, textArray, clearText_putField text noNul textShort]
  change (printfFrom string args fuel 0 0 ⟨fun _ => 0, 0, str⟩ >>= _) = _
  rw [returned]
  change storeAt 1000 last.result last.count 0 = _
  rw [count, content, storeAt_eq (by omega), ends]

theorem textAt_textArray {text : List Byte} (noNul : 0 ∉ text) :
    TextAt (textArray text) 0 text := by
  refine ⟨holdsAt_append.mpr ⟨holdsAt_putField _ _ _,
    holdsAt_cons.mpr ⟨?_, holdsAt_nil⟩⟩, noNul⟩
  unfold textArray putField
  exact if_neg fun inside => absurd inside.2 (Nat.lt_irrefl _)

/-- At most the NUL is shown behind a text. -/
theorem StringShows.length_le {text shown : List Byte} (noNul : 0 ∉ text)
    (shows : StringShows (textArray text) shown) :
    shown.length ≤ text.length + 1 := by
  cases shows with
  | whole isText followed =>
      rw [(textAt_textArray noNul).unique isText]
      exact Nat.le_succ _
  | line isText followed ends =>
      rw [(textAt_textArray noNul).unique isText]
      simp

/-- Every call writes its text behind what was printed before. -/
theorem Printing.Prints.serve {printing : Printing} {text : List Byte}
    (prints : printing.Prints text) {p : Printers} {sheet : Sheet}
    (clean : ∀ who, CleanResult (p.results who))
    (window : Window p.terminal sheet.done sheet.last) :
    ∃ next, printing.serve p = .ok ((), next) ∧
      (∀ who, CleanResult (next.results who)) ∧
        next.terminal.keys = p.terminal.keys ∧
          Window next.terminal (sheet.print text).done
            (sheet.print text).last := by
  cases prints with
  | @kernel call _ prints =>
      obtain ⟨terminal, printed, kept, shows⟩ := prints.puts window
      refine ⟨{ p with terminal }, ?_, clean, kept, shows⟩
      change (call.run p.terminal >>= _) = _
      rw [printed]
      rfl
  | @program who fuel string args str _ prints =>
      obtain ⟨tokens, output, formatAt, noChar, outputs, short, ended, enough,
        shows⟩ := prints.shows
      have isText := formatAt.text
      rw [loneText, if_neg Bool.false_ne_true, List.append_nil] at isText
      have noNul : 0 ∉ output := outputs.noNul fun byte member =>
        plain_ne_zero isText.noNul member
      have returned := printf_textArray (clean who) formatAt noChar outputs
        short ended enough
      have shortText := shows.length_le noNul
      have kernelPrints :
          KernelPrints (printResult fuel (textArray output)) text := by
        have whole : FormatShows (stringArg (textArray output)) [.string] 0
            (text ++ []) := .cons (.string shows) (.nil 1)
        rw [List.append_nil] at whole
        refine ⟨[.string], textAt_getD (by decide), ?_, whole, ?_⟩
        · intro byte member
          cases List.mem_singleton.mp member
        · rw [List.length_singleton]
          show 1 + text.length < fuel
          omega
      obtain ⟨terminal, printed, kept, shown⟩ := kernelPrints.puts window
      refine ⟨⟨terminal, fun other =>
        if other = who then textArray output else p.results other⟩, ?_, ?_,
          kept, shown⟩
      · change (printf fuel string args (p.results who) str >>= _) = _
        rw [returned]
        change ((printResult fuel (textArray output)).run p.terminal >>= _) =
          _
        rw [printed]
        rfl
      · intro other
        show CleanResult (if other = who then _ else _)
        by_cases same : other = who
        · rw [if_pos same]
          exact ⟨output, noNul, by omega, rfl⟩
        · rw [if_neg same]
          exact clean other

theorem runAll_prints {printings : List Printing}
    {texts : List (List Byte)}
    (prints : List.Forall₂ Printing.Prints printings texts) :
    ∀ {p : Printers} {sheet : Sheet},
      (∀ who, CleanResult (p.results who)) →
        Window p.terminal sheet.done sheet.last →
          ∃ next, runAll Printing.serve printings p = .ok ((), next) ∧
            Window next.terminal (sheet.print texts.flatten).done
              (sheet.print texts.flatten).last := by
  induction prints with
  | nil => exact fun _ window => ⟨_, rfl, window⟩
  | cons first _ inductionHypothesis =>
      intro p sheet clean window
      obtain ⟨between, printed, cleanNext, -, shows⟩ :=
        first.serve clean window
      obtain ⟨next, others, last⟩ := inductionHypothesis cleanNext shows
      rw [List.flatten_cons, Sheet.print_append]
      refine ⟨next, ?_, last⟩
      exact bind_eq_ok_iff.mpr ⟨(), between, printed, others⟩

end Programs

/-! ## A letter of the kernel and a line of a program -/

/-- `kprintf("%c", 'k')` -/
def letterCall : PrintCall where
  fuel := 4
  string := fun i => [0x25, 0x63].getD i 0
  args := fun _ => ⟨0x6B, fun _ => 0⟩

theorem kernelPrints_letter : KernelPrints letterCall [0x6B] := by
  refine ⟨[.char], textAt_getD (by decide), ?_,
    .cons (.char 0x6B rfl (by decide)) (.nil 1), by decide⟩
  intro byte member
  cases List.mem_singleton.mp member

/-- `printf("a\n")` -/
theorem programPrints_line (args : Nat → PrintArg) (str : Memory) :
    ProgramPrints 1003 (fun i => [0x61, 0x0A].getD i 0) args str
      [0x61, 0x0A, 0] := by
  refine ⟨[.plain 0x61, .plain 0x0A], [0x61, 0x0A],
    ⟨textAt_getD (by decide), ?_⟩, by decide,
    .cons (.plain 0x61) (.cons (.plain 0x0A) (.nil 0)), by decide, ?_,
    by decide, ?_⟩
  · intro byte member
    rw [List.mem_cons, List.mem_singleton] at member
    rcases member with same | same
    · cases same
      decide
    · cases same
      decide
  · intro member
    simp at member
  · have shows : StringShows (textArray [0x61, 0x0A]) ([0x61] ++ [0x0A, 0]) :=
      .line (textAt_textArray (by decide))
        (show (0x61 : Byte) ≠ 0x0A by decide) rfl
    exact shows

end SbuUnix
