import SbuUnix.Libc.Strings

/-!
# The export statement

`setEchoValue` of `libc/unistd.c` takes a string apart in place: from the
first quotation mark on, every character is replaced by the next one while
the loop goes on.
-/

namespace SbuUnix

/-- `"` and `'` -/
def isQuote (char : Byte) : Bool :=
  char = 0x22 || char = 0x27

/-- The locals `flag`, `qcount` and `eqcount`. -/
structure QuoteScan where
  flag : Bool := false
  qcount : Nat := 0
  eqcount : Nat := 0

/-- The two tests of a character. -/
def QuoteScan.see (scan : QuoteScan) (char : Byte) : QuoteScan :=
  let scan :=
    if char = 0x3D then { scan with eqcount := scan.eqcount + 1 } else scan
  if isQuote char then
    { scan with
      qcount := scan.qcount + 1
      flag := true }
  else
    scan

/-- The loop of `setEchoValue`. -/
def scanQuotes : Nat → Memory → Nat → QuoteScan →
    Except Fault (Memory × QuoteScan)
  | 0, _, _, _ => throw .outOfFuel
  | fuel + 1, mem, temp, scan =>
      if mem temp ≠ 0 then
        let scan := scan.see (mem temp)
        let mem := if scan.flag then store mem temp (mem (temp + 1)) else mem
        scanQuotes fuel mem (temp + 1) scan
      else
        pure (mem, scan)

/-- What `setEchoValue` leaves: the memory, the argument of system call 5 if
it was made, and the text that was printed. -/
structure ExportEnd where
  mem : Memory
  request : Option Nat
  printed : List Byte

/-- `"Some issue with Echo"` -/
def issueText : List Byte :=
  [0x53, 0x6F, 0x6D, 0x65, 0x20, 0x69, 0x73, 0x73, 0x75, 0x65, 0x20, 0x77,
    0x69, 0x74, 0x68, 0x20, 0x45, 0x63, 0x68, 0x6F]

/-- `"-sbush: wrong export statement"` -/
def wrongExportText : List Byte :=
  [0x2D, 0x73, 0x62, 0x75, 0x73, 0x68, 0x3A, 0x20, 0x77, 0x72, 0x6F, 0x6E,
    0x67, 0x20, 0x65, 0x78, 0x70, 0x6F, 0x72, 0x74, 0x20, 0x73, 0x74, 0x61,
    0x74, 0x65, 0x6D, 0x65, 0x6E, 0x74]

/-- `setEchoValue`; `ret` is what the system call returns. -/
def setEchoValue (ret : Memory → Nat → Word) (fuel : Nat) (mem : Memory)
    (s : Nat) : Except Fault ExportEnd := do
  let (mem, scan) ← scanQuotes fuel mem s {}
  if scan.eqcount = 1 ∧ scan.qcount = 2 then
    let (len, mem) ← Libc.strlen fuel mem s
    let mem := store mem ((s : Int) + len - 1).toNat 0
    pure
      { mem
        request := some s
        printed := if ret mem s = 999 then issueText else [] }
  else
    pure
      { mem
        request := none
        printed := wrongExportText }

/-! ## The loop -/

namespace QuoteScan

variable (scan : QuoteScan) (char : Byte)

@[simp]
theorem see_flag : (scan.see char).flag = (scan.flag || isQuote char) := by
  grind [see]

@[simp]
theorem see_qcount :
    (scan.see char).qcount =
      scan.qcount + if isQuote char = true then 1 else 0 := by
  grind [see]

@[simp]
theorem see_eqcount :
    (scan.see char).eqcount =
      scan.eqcount + if char = 0x3D then 1 else 0 := by
  grind [see]

end QuoteScan

/-- The string as the loop leaves it. -/
def shiftedText : QuoteScan → List Byte → List Byte
  | _, [] => []
  | scan, char :: rest =>
      (if (scan.see char).flag then rest.headD 0 else char) ::
        shiftedText (scan.see char) rest

theorem TextAt.first {mem : Memory} {addr : Nat} {text : List Byte}
    (isText : TextAt mem addr text) : mem addr = text.headD 0 := by
  cases text with
  | nil => exact textAt_nil.mp isText
  | cons char rest => exact (textAt_cons.mp isText).2.1

theorem store_self {mem : Memory} {addr : Nat} {char : Byte}
    (same : mem addr = char) : store mem addr char = mem := by
  funext place
  unfold store
  split
  · rename_i here
    rw [here, same]
  · rfl

/-- The loop reads every character before it is overwritten. -/
theorem scanQuotes_eq :
    ∀ {text : List Byte} {fuel temp : Nat} {mem : Memory} {scan : QuoteScan},
      TextAt mem temp text → text.length < fuel →
        scanQuotes fuel mem temp scan =
          .ok (putField mem temp (shiftedText scan text),
            text.foldl QuoteScan.see scan) := by
  intro text
  induction text with
  | nil =>
      intro fuel temp mem scan isText enough
      obtain ⟨fuel, rfl⟩ := Nat.exists_eq_add_of_lt enough
      rw [scanQuotes, if_neg (not_not.mpr (textAt_nil.mp isText)),
        shiftedText, putField_nil]
      rfl
  | cons char rest inductionHypothesis =>
      intro fuel temp mem scan isText enough
      obtain ⟨fuel, rfl⟩ : ∃ less, fuel = less + 1 := ⟨fuel - 1, by omega⟩
      obtain ⟨notNul, first, later⟩ := textAt_cons.mp isText
      rw [List.length_cons] at enough
      have stored : (if (scan.see char).flag then
          store mem temp (mem (temp + 1)) else mem) =
            store mem temp
              (if (scan.see char).flag then rest.headD 0 else char) := by
        rw [later.first]
        split
        · rfl
        · rw [store_self first]
      have kept : TextAt (store mem temp
          (if (scan.see char).flag then rest.headD 0 else char))
            (temp + 1) rest :=
        later.congr fun place _ _ => store_other (by omega)
      rw [scanQuotes, first, if_pos notNul]
      show scanQuotes fuel (if (scan.see char).flag then _ else mem)
        (temp + 1) (scan.see char) = _
      rw [stored, inductionHypothesis kept (by omega), putField_step]
      rfl

theorem foldl_see (text : List Byte) :
    ∀ scan : QuoteScan,
      (text.foldl QuoteScan.see scan).eqcount =
          scan.eqcount + text.count 0x3D ∧
        (text.foldl QuoteScan.see scan).qcount =
          scan.qcount + text.countP isQuote := by
  induction text with
  | nil => exact fun _ => ⟨rfl, rfl⟩
  | cons char rest inductionHypothesis =>
      intro scan
      obtain ⟨equals, quotes⟩ := inductionHypothesis (scan.see char)
      rw [List.foldl_cons, equals, quotes, List.count_cons, List.countP_cons,
        QuoteScan.see_eqcount, QuoteScan.see_qcount]
      simp only [beq_iff_eq]
      omega

/-- Before the first quotation mark nothing is replaced. -/
theorem shiftedText_plain {front : List Byte}
    (plain : ∀ char ∈ front, isQuote char = false) :
    ∀ {scan : QuoteScan} (rest : List Byte), scan.flag = false →
      ∃ reached : QuoteScan, reached.flag = false ∧
        shiftedText scan (front ++ rest) =
          front ++ shiftedText reached rest := by
  induction front with
  | nil => exact fun rest unset => ⟨_, unset, rfl⟩
  | cons char front inductionHypothesis =>
      intro scan rest unset
      have noQuote := plain char (List.mem_cons_self ..)
      have stillUnset : (scan.see char).flag = false := by
        rw [QuoteScan.see_flag, unset, noQuote]
        rfl
      obtain ⟨reached, reachedUnset, later⟩ := inductionHypothesis
        (fun other member => plain other (List.mem_cons_of_mem _ member))
        rest stillUnset
      refine ⟨reached, reachedUnset, ?_⟩
      rw [List.cons_append, shiftedText, later, stillUnset]
      rfl

/-- From the first quotation mark on all characters move down by one. -/
theorem shiftedText_quoted :
    ∀ {rest : List Byte} {scan : QuoteScan} {char : Byte},
      (scan.see char).flag = true →
        shiftedText scan (char :: rest) = rest ++ [0] := by
  intro rest
  induction rest with
  | nil =>
      intro scan char set
      rw [shiftedText, set]
      rfl
  | cons next rest inductionHypothesis =>
      intro scan char set
      have stillSet : ((scan.see char).see next).flag = true := by
        rw [QuoteScan.see_flag, set, Bool.true_or]
      rw [shiftedText, set, inductionHypothesis stillSet]
      rfl

/-! ## The statement -/

/-- `key=value` with quotation marks around the value. -/
def exportText (key value : List Byte) (quote : Byte) : List Byte :=
  key ++ 0x3D :: quote :: (value ++ [quote])

/-- A part without `=`, quotation marks and NULs. -/
def Unquoted (part : List Byte) : Prop :=
  ∀ char ∈ part, char ≠ 0 ∧ char ≠ 0x3D ∧ isQuote char = false

theorem Unquoted.counts {part : List Byte} (unquoted : Unquoted part) :
    part.count 0x3D = 0 ∧ part.countP isQuote = 0 := by
  constructor
  · exact List.count_eq_zero.mpr fun member => (unquoted _ member).2.1 rfl
  · apply List.countP_eq_zero.mpr
    intro char member
    rw [(unquoted char member).2.2]
    exact Bool.false_ne_true

theorem isQuote_facts {quote : Byte} (quotes : isQuote quote = true) :
    quote ≠ 0 ∧ quote ≠ 0x3D := by
  constructor
  · rintro rfl
    exact absurd quotes (by decide)
  · rintro rfl
    exact absurd quotes (by decide)

theorem TextAt.cut {mem : Memory} {s : Nat} {text : List Byte} {char : Byte}
    (isText : TextAt mem s (text ++ [char])) :
    TextAt (store mem (s + text.length) 0) s text := by
  obtain ⟨chars, noNul⟩ := isText
  rw [List.append_assoc, holdsAt_append] at chars
  rw [List.mem_append, not_or] at noNul
  refine ⟨holdsAt_append.mpr ⟨?_, holdsAt_cons.mpr ⟨?_, holdsAt_nil⟩⟩,
    noNul.1⟩
  · intro offset below
    rw [store_other (by omega)]
    exact chars.1 offset below
  · exact store_same ..

/-- `strlen` stores its NULs behind the string, and leaves the last character
to be cut. -/
theorem TextAt.cut_measured {mem : Memory} {s : Nat} {text : List Byte}
    {char : Byte} (isText : TextAt mem s (text ++ [char])) :
    TextAt (store (endText mem (s + (text ++ [char]).length + 1))
      (s + text.length) 0) s text := by
  have kept : TextAt (endText mem (s + (text ++ [char]).length + 1)) s
      (text ++ [char]) := by
    apply isText.congr
    intro place _ below
    rw [endText_apply, if_neg (by omega)]
  exact kept.cut

section Statement

variable {key value : List Byte} {quote : Byte}

theorem length_exportText :
    (exportText key value quote).length = key.length + value.length + 3 := by
  simp only [exportText, List.length_append, List.length_cons,
    List.length_nil]
  omega

theorem shiftedText_exportText (unquotedKey : Unquoted key)
    (quotes : isQuote quote = true) :
    shiftedText {} (exportText key value quote) =
      key ++ 0x3D :: value ++ [quote] ++ [0] := by
  have plain : ∀ char ∈ key ++ [0x3D], isQuote char = false := by
    intro char member
    rcases List.mem_append.mp member with inKey | equals
    · exact (unquotedKey char inKey).2.2
    · rw [List.mem_singleton.mp equals]
      decide
  obtain ⟨reached, unset, shifted⟩ := shiftedText_plain plain
    (quote :: (value ++ [quote])) (show ({} : QuoteScan).flag = false from rfl)
  have set : (reached.see quote).flag = true := by
    rw [QuoteScan.see_flag, quotes, Bool.or_true]
  rw [shiftedText_quoted set] at shifted
  simpa [exportText] using shifted

theorem count_exportText (unquotedKey : Unquoted key)
    (unquotedValue : Unquoted value) (quotes : isQuote quote = true) :
    (exportText key value quote).count 0x3D = 1 ∧
      (exportText key value quote).countP isQuote = 2 := by
  have notEquals : (quote == 0x3D) = false :=
    beq_eq_false_iff_ne.mpr (isQuote_facts quotes).2
  have notQuote : isQuote 0x3D = false := by decide
  constructor
  · simp only [exportText, List.count_append, List.count_cons, List.count_nil,
      unquotedKey.counts.1, unquotedValue.counts.1, notEquals, beq_self_eq_true]
    rfl
  · simp only [exportText, List.countP_append, List.countP_cons,
      List.countP_nil, unquotedKey.counts.2, unquotedValue.counts.2, quotes,
      notQuote]
    rfl

/-- The string that the loop leaves for `strlen`. -/
theorem textAt_shifted {mem : Memory} {s : Nat} (unquotedKey : Unquoted key)
    (unquotedValue : Unquoted value) (quotes : isQuote quote = true) :
    TextAt (putField mem s (shiftedText {} (exportText key value quote))) s
      (key ++ 0x3D :: value ++ [quote]) := by
  rw [shiftedText_exportText unquotedKey quotes]
  refine ⟨holdsAt_putField _ _ _, ?_⟩
  simp only [List.mem_append, List.mem_cons, List.not_mem_nil, or_false,
    not_or]
  exact ⟨⟨fun member => (unquotedKey 0 member).1 rfl, by decide,
    fun member => (unquotedValue 0 member).1 rfl⟩,
    Ne.symm (isQuote_facts quotes).1⟩

/-- A statement with one `=` and quotation marks around the value hands
`key=value` to the system call. -/
theorem setEchoValue_exportText (ret : Memory → Nat → Word) {fuel s : Nat}
    {mem : Memory} (isText : TextAt mem s (exportText key value quote))
    (unquotedKey : Unquoted key) (unquotedValue : Unquoted value)
    (quotes : isQuote quote = true)
    (fits : (exportText key value quote).length < 2 ^ 31)
    (enough : (exportText key value quote).length < fuel) :
    ∃ result, setEchoValue ret fuel mem s = .ok result ∧
      result.request = some s ∧
        TextAt result.mem s (key ++ 0x3D :: value) := by
  obtain ⟨oneEquals, twoMarks⟩ := foldl_see (exportText key value quote) {}
  obtain ⟨equals, marks⟩ := count_exportText unquotedKey unquotedValue quotes
  rw [equals] at oneEquals
  rw [marks] at twoMarks
  have shifted : TextAt
      (putField mem s (shiftedText {} (exportText key value quote))) s
        (key ++ 0x3D :: value ++ [quote]) :=
    textAt_shifted unquotedKey unquotedValue quotes
  have shorter : (key ++ 0x3D :: value ++ [quote]).length + 1 =
      (exportText key value quote).length := by
    rw [length_exportText, List.length_append, List.length_append,
      List.length_cons, List.length_singleton]
    omega
  have measured := libc_strlen_eq shifted
    (show (key ++ 0x3D :: value ++ [quote]).length < fuel by omega)
  have last : ((s : Int) + int32 (key ++ 0x3D :: value ++ [quote]).length -
      1).toNat = s + (key ++ 0x3D :: value).length := by
    rw [int32_of_small (by omega), List.length_append, List.length_singleton]
    omega
  rw [setEchoValue, scanQuotes_eq isText enough]
  show ∃ result, (if _ ∧ _ then _ else _) = Except.ok result ∧ _
  rw [if_pos ⟨oneEquals, twoMarks⟩, measured]
  refine ⟨_, rfl, rfl, ?_⟩
  show TextAt (store _ _ 0) s _
  rw [last]
  exact shifted.cut_measured

/-- Without exactly one `=` and two quotation marks there is no system
call. -/
theorem setEchoValue_wrong (ret : Memory → Nat → Word) {fuel s : Nat}
    {mem : Memory} {text : List Byte} (isText : TextAt mem s text)
    (wrong : text.count 0x3D ≠ 1 ∨ text.countP isQuote ≠ 2)
    (enough : text.length < fuel) :
    ∃ result, setEchoValue ret fuel mem s = .ok result ∧
      result.request = none := by
  have counted := foldl_see text {}
  rw [setEchoValue, scanQuotes_eq isText enough]
  show ∃ result, (if _ ∧ _ then _ else _) = Except.ok result ∧ _
  rw [if_neg]
  · exact ⟨_, rfl, rfl⟩
  · rintro ⟨equals, marks⟩
    rw [counted.1, Nat.zero_add] at equals
    rw [counted.2, Nat.zero_add] at marks
    rcases wrong with notOne | notTwo
    · exact notOne equals
    · exact notTwo marks

end Statement

/-- `setEchoValue` sets a variable for a well-formed statement, and for none
with another number of `=` or of quotation marks. -/
theorem setEchoValue_exports (ret : Memory → Nat → Word) (mem : Memory)
    (s fuel : Nat) :
    (∀ key value quote, TextAt mem s (exportText key value quote) →
      Unquoted key → Unquoted value → isQuote quote = true →
        (exportText key value quote).length < 2 ^ 31 →
          (exportText key value quote).length < fuel →
            ∃ result, setEchoValue ret fuel mem s = .ok result ∧
              result.request = some s ∧
                TextAt result.mem s (key ++ 0x3D :: value)) ∧
      ∀ text, TextAt mem s text →
        (text.count 0x3D ≠ 1 ∨ text.countP isQuote ≠ 2) →
          text.length < fuel →
            ∃ result, setEchoValue ret fuel mem s = .ok result ∧
              result.request = none :=
  ⟨fun _ _ _ isText unquotedKey unquotedValue quotes fits enough =>
      setEchoValue_exportText ret isText unquotedKey unquotedValue quotes fits
        enough,
    fun _ isText wrong enough => setEchoValue_wrong ret isText wrong enough⟩

/-- `A=""` is set, and `A` is not. -/
theorem setEchoValue_exports_short :
    (∃ result, setEchoValue (fun _ _ => 0) 5
        (fun place => (exportText [0x41] [] 0x22).getD place 0) 0 =
          .ok result ∧
      result.request = some 0 ∧ TextAt result.mem 0 [0x41, 0x3D]) ∧
    ∃ result, setEchoValue (fun _ _ => 0) 5
        (fun place => [0x41].getD place 0) 0 = .ok result ∧
      result.request = none :=
  ⟨(setEchoValue_exports (fun _ _ => 0) _ 0 5).1 [0x41] [] 0x22
      (textAt_getD (by decide)) (by unfold Unquoted; decide)
      (by unfold Unquoted; decide) (by decide) (by decide) (by decide),
    (setEchoValue_exports (fun _ _ => 0) _ 0 5).2 [0x41]
      (textAt_getD (by decide)) (Or.inl (by decide)) (by decide)⟩

end SbuUnix
