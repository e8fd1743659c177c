import SbuUnix.Libc.Printf

/-!
# What `printf` makes of a format

A format is a list of characters and directives, possibly with a lone `'%'` at
its end.  Which formats `printf` prints as they ask for, whatever the
arguments are.
-/

namespace SbuUnix

open Outcome

/-! ## Formats -/

/-- A part of a format. -/
inductive FormatToken where
  | plain (byte : Byte)
  | char
  | string
  | int
  deriving DecidableEq

/-- The part as it stands in the format. -/
def FormatToken.text : FormatToken → List Byte
  | .plain byte => [byte]
  | .char => [0x25, 0x63]
  | .string => [0x25, 0x73]
  | .int => [0x25, 0x64]

def tokensText (tokens : List FormatToken) : List Byte :=
  tokens.flatMap FormatToken.text

/-- A lone `'%'`, or nothing. -/
def loneText (lone : Bool) : List Byte :=
  if lone then [0x25] else []

/-- A format, as the C string that is passed. -/
structure FormatAt (string : Nat → Byte) (tokens : List FormatToken)
    (lone : Bool) : Prop where
  text : TextAt string 0 (tokensText tokens ++ loneText lone)
  plain : ∀ byte, .plain byte ∈ tokens → byte ≠ 0x25

/-- The text of a part with the argument that it takes, and the number of the
next argument. -/
inductive TokenOutput (args : Nat → PrintArg) (n : Nat) :
    FormatToken → Nat → List Byte → Prop where
  | plain (byte : Byte) : TokenOutput args n (.plain byte) n [byte]
  | char (byte : Byte) (value : (args n).value.setWidth 8 = byte)
      (notNul : byte ≠ 0) : TokenOutput args n .char (n + 1) [byte]
  | string (s : List Byte) (isText : TextAt (args n).text 0 s) :
      TokenOutput args n .string (n + 1) s
  | int (value : Nat) (small : value < 2 ^ 31)
      (isValue : (args n).value.setWidth 32 = BitVec.ofNat 32 value) :
      TokenOutput args n .int (n + 1) (decimalNumeral value)

/-- The text of a format with arguments that match it. -/
inductive FormatOutput (args : Nat → PrintArg) :
    List FormatToken → Nat → List Byte → Prop where
  | nil (n : Nat) : FormatOutput args [] n []
  | cons {token : FormatToken} {tokens : List FormatToken} {n next : Nat}
      {output rest : List Byte} (first : TokenOutput args n token next output)
      (later : FormatOutput args tokens next rest) :
      FormatOutput args (token :: tokens) n (output ++ rest)

/-- With matching arguments whose text fits `result`, system call 1 gets the
text of the format, and nothing behind its NUL is read. -/
def PrintsFormat (string : Nat → Byte) (tokens : List FormatToken)
    (lone : Bool) (result str : Memory) : Prop :=
  ∀ args output, FormatOutput args tokens 0 output →
    (output ++ loneText lone).length < 1000 →
      ∃ fuel after, printf fuel string args result str = .ok after ∧
        TextAt after 0 (output ++ loneText lone) ∧
          ∀ i ∈ printfReads string fuel 0,
            i ≤ (tokensText tokens ++ loneText lone).length

/-! ## One part -/

section Parts

variable {string : Nat → Byte} {args : Nat → PrintArg}
  {buffer : PrintBuffer}

theorem put_eq (room : buffer.count < 1000) (byte : Byte) :
    buffer.put byte =
      .ok { buffer with
        result := store buffer.result buffer.count byte
        count := buffer.count + 1 } := by
  rw [PrintBuffer.put, storeAt_eq room]
  rfl

/-- A string goes to `result`. -/
theorem printText_eq {stop : Fault} {text : Nat → Byte} :
    ∀ {s : List Byte} {fuel i : Nat} {buffer : PrintBuffer},
      TextAt text i s → s.length < fuel → buffer.count + s.length < 1000 →
        printText stop text fuel i buffer =
          .ok { buffer with
            result := putField buffer.result buffer.count s
            count := buffer.count + s.length } := by
  intro s
  induction s with
  | nil =>
      intro fuel i buffer isText enough _
      obtain ⟨fuel, rfl⟩ := Nat.exists_eq_add_of_lt enough
      rw [printText, if_neg (not_not.mpr (textAt_nil.mp isText)), putField_nil]
      rfl
  | cons char rest inductionHypothesis =>
      intro fuel i buffer isText enough room
      obtain ⟨fuel, rfl⟩ : ∃ less, fuel = less + 1 := ⟨fuel - 1, by omega⟩
      obtain ⟨notNul, first, later⟩ := textAt_cons.mp isText
      rw [List.length_cons] at enough room
      rw [printText, first, if_pos notNul, put_eq (by omega)]
      show printText stop text fuel (i + 1) _ = _
      rw [inductionHypothesis later (by omega) (by simp only; omega)]
      simp only [putField_step, List.length_cons, Nat.add_assoc,
        Nat.add_comm 1]

/-- What a part without a defect leaves. -/
structure Printed (buffer after : PrintBuffer) (output : List Byte) :
    Prop where
  count : after.count = buffer.count + output.length
  result : after.result = putField buffer.result buffer.count output
  ended : Ended 100 buffer.str → Ended 100 after.str

theorem printStr_eq {s : List Byte} (isText : TextAt buffer.str 0 s)
    (short : s.length < 100) (room : buffer.count + s.length < 1000) :
    ∃ after, printStr buffer = .ok after ∧ Printed buffer after s :=
  ⟨_, printText_eq isText short room, rfl, rfl, id⟩

/-- The directives but `%c`. -/
theorem printfConversion_eq {fuel n next : Nat} {token : FormatToken}
    {conversion : Byte} {output : List Byte}
    (isDirective : token.text = [0x25, conversion]) (notChar : token ≠ .char)
    (prints : TokenOutput args n token next output)
    (room : buffer.count + output.length < 1000)
    (enough : token = .string → output.length < fuel)
    (ended : token = .int → Ended 100 buffer.str) :
    ∃ after, printfConversion fuel conversion args n buffer =
        .ok (next, 0, after) ∧ Printed buffer after output := by
  cases prints with
  | plain byte => cases isDirective
  | char byte value notNul => exact absurd rfl notChar
  | string s isText =>
      have isS : conversion = 0x73 := by
        cases isDirective
        rfl
      subst isS
      refine ⟨{ buffer with
        result := putField buffer.result buffer.count output
        count := buffer.count + output.length }, ?_, rfl, rfl, id⟩
      rw [printfConversion, if_neg (by decide), if_neg (by decide),
        if_neg (by decide), if_pos rfl, printText_eq isText (enough rfl) room]
      rfl
  | int value small isValue =>
      have isD : conversion = 0x64 := by
        cases isDirective
        rfl
      subst isD
      obtain ⟨cleared, clears, empty⟩ := clearText_zero (ended rfl)
      obtain ⟨digits, converted, isText, length⟩ := strtoint_eq
        (show value < 10 ^ (9 + 1) by omega) (by decide)
        (empty.ended_array (show [].length < 100 by decide))
      have isInt : ((args n).value.setWidth 32).toInt = value := by
        rw [isValue, BitVec.toInt_eq_toNat_of_lt
          (by rw [BitVec.toNat_ofNat]; omega), BitVec.toNat_ofNat]
        omega
      obtain ⟨after, printed, shows⟩ := printStr_eq
        (show TextAt ({ buffer with str := digits } : PrintBuffer).str 0
          (decimalNumeral value) from isText) (by omega) room
      refine ⟨after, ?_, shows.count, shows.result, fun _ => ?_⟩
      · rw [printfConversion, if_neg (by decide), if_neg (by decide),
          if_pos rfl, clears]
        show (Libc.strtoint ((args n).value.setWidth 32).toInt cleared >>= _) =
          _
        rw [isInt, converted]
        show (printStr { buffer with str := digits } >>= _) = _
        rw [printed]
        rfl
      · exact shows.ended (isText.ended_array (by omega))

/-- A directive, of which the format pointer is on the `'%'`. -/
theorem FormatToken.text_cases (token : FormatToken) :
    (∃ byte, token = .plain byte) ∨
      ∃ conversion, token.text = [0x25, conversion] ∧
        (token = .char ↔ conversion = 0x63) ∧ conversion ≠ 0 := by
  cases token with
  | plain byte => exact Or.inl ⟨byte, rfl⟩
  | char => exact Or.inr ⟨0x63, rfl, by simp, by decide⟩
  | string =>
      exact Or.inr ⟨0x73, rfl, iff_of_false nofun (by decide), by decide⟩
  | int => exact Or.inr ⟨0x64, rfl, iff_of_false nofun (by decide), by decide⟩

/-- The format pointer moves over a part that is no `%c`. -/
theorem printfReads_token {fuel i : Nat} {token : FormatToken}
    {more : List Byte} (isText : TextAt string i (token.text ++ more))
    (plain : ∀ byte, token = .plain byte → byte ≠ 0x25)
    (notChar : token ≠ .char) :
    printfReads string (fuel + 1) i =
      List.range' i token.text.length ++
        printfReads string fuel (i + token.text.length) := by
  rcases token.text_cases with ⟨byte, rfl⟩ | ⟨conversion, isDirective, isC, -⟩
  · obtain ⟨notNul, first, -⟩ := textAt_cons.mp isText
    rw [printfReads, first, if_pos notNul, if_pos (plain byte rfl)]
    rfl
  · rw [isDirective] at isText ⊢
    obtain ⟨-, first, behind⟩ := textAt_cons.mp isText
    obtain ⟨-, second, -⟩ := textAt_cons.mp behind
    have notC : conversion ≠ 0x63 := fun same => notChar (isC.mpr same)
    rw [printfReads, first, if_pos (by decide), if_neg (by decide), second]
    simp only [if_neg notC]
    rfl

/-- `printf` prints a part that is no `%c`. -/
theorem printfFrom_token {fuel i n next : Nat} {token : FormatToken}
    {more output : List Byte} (isText : TextAt string i (token.text ++ more))
    (plain : ∀ byte, token = .plain byte → byte ≠ 0x25)
    (notChar : token ≠ .char)
    (prints : TokenOutput args n token next output)
    (room : buffer.count + output.length < 1000)
    (enough : token = .string → output.length < fuel)
    (ended : token = .int → Ended 100 buffer.str) :
    ∃ after, printfFrom string args (fuel + 1) i n buffer =
        printfFrom string args fuel (i + token.text.length) next after ∧
      Printed buffer after output := by
  rcases token.text_cases with ⟨byte, rfl⟩ | ⟨conversion, isDirective, -, -⟩
  · obtain ⟨notNul, first, -⟩ := textAt_cons.mp isText
    cases prints
    refine ⟨{ buffer with
      result := store buffer.result buffer.count byte
      count := buffer.count + 1 }, ?_, rfl, ?_, id⟩
    · rw [printfFrom, first, if_pos notNul, if_pos (plain byte rfl),
        put_eq (Nat.lt_of_succ_lt room)]
      rfl
    · rw [← putField_step, putField_nil]
  · obtain ⟨after, converted, shows⟩ := printfConversion_eq isDirective
      notChar prints room enough ended
    rw [isDirective] at isText ⊢
    obtain ⟨-, first, behind⟩ := textAt_cons.mp isText
    obtain ⟨-, second, -⟩ := textAt_cons.mp behind
    refine ⟨after, ?_, shows⟩
    rw [printfFrom, first, if_pos (by decide), if_neg (by decide), second,
      converted]
    rfl

/-- A text that was printed in two parts. -/
theorem Printed.trans {middle after : PrintBuffer} {first second : List Byte}
    (before : Printed buffer middle first)
    (behind : Printed middle after second) :
    Printed buffer after (first ++ second) := by
  constructor
  · rw [behind.count, before.count, List.length_append, Nat.add_assoc]
  · rw [behind.result, before.result, before.count, putField_append]
  · exact fun ended => behind.ended (before.ended ended)

end Parts

/-! ## Formats without a defect -/

theorem tokensText_cons (token : FormatToken) (tokens : List FormatToken) :
    tokensText (token :: tokens) = token.text ++ tokensText tokens :=
  rfl

/-- Without `%c` a format is printed with any matching arguments. -/
theorem printfFrom_format {string : Nat → Byte} {args : Nat → PrintArg}
    {tokens : List FormatToken} :
    ∀ {fuel i n : Nat} {buffer : PrintBuffer} {output : List Byte},
      FormatOutput args tokens n output →
        TextAt string i (tokensText tokens) →
          (∀ byte, .plain byte ∈ tokens → byte ≠ 0x25) → .char ∉ tokens →
            tokens.length + 1000 < fuel →
              buffer.count + output.length < 1000 →
                (.int ∈ tokens → Ended 100 buffer.str) →
                  ∃ after,
                    printfFrom string args fuel i n buffer = .ok after ∧
                      Printed buffer after output ∧
                        ∀ j ∈ printfReads string fuel i,
                          j ≤ i + (tokensText tokens).length := by
  induction tokens with
  | nil =>
      intro fuel i n buffer output prints isText _ _ enough _ _
      cases prints
      obtain ⟨fuel, rfl⟩ : ∃ less, fuel = less + 1 := ⟨fuel - 1, by omega⟩
      have nul := textAt_nil.mp isText
      rw [printfFrom, printfReads, if_neg (not_not.mpr nul),
        if_neg (not_not.mpr nul)]
      refine ⟨buffer, rfl, ⟨rfl, (putField_nil ..).symm, id⟩,
        fun j member => ?_⟩
      rw [List.mem_singleton.mp member]
      exact Nat.le_add_right _ _
  | cons token tokens inductionHypothesis =>
      intro fuel i n buffer output prints isText plain noChar enough room ended
      obtain ⟨fuel, rfl⟩ : ∃ less, fuel = less + 1 := ⟨fuel - 1, by omega⟩
      rw [List.mem_cons, not_or] at noChar
      cases prints with
      | @cons _ _ _ next first rest prints later =>
          rw [tokensText_cons] at isText ⊢
          rw [List.length_append] at room
          rw [List.length_cons] at enough
          have plainHead : ∀ byte, token = .plain byte → byte ≠ 0x25 :=
            fun byte same => plain byte (same ▸ List.mem_cons_self ..)
          obtain ⟨middle, stepped, shows⟩ := printfFrom_token isText
            plainHead (Ne.symm noChar.1) prints (by omega)
            (show token = .string → first.length < fuel from
              fun _ => by omega)
            (fun isInt => ended (isInt ▸ List.mem_cons_self ..))
          have count := shows.count
          obtain ⟨after, returned, showsRest, inside⟩ := inductionHypothesis
            later (textAt_append.mp isText).2.2
            (fun byte member => plain byte (List.mem_cons_of_mem _ member))
            noChar.2 (show tokens.length + 1000 < fuel by omega)
            (show middle.count + rest.length < 1000 by omega)
            (fun member =>
              shows.ended (ended (List.mem_cons_of_mem _ member)))
          refine ⟨after, stepped.trans returned, shows.trans showsRest,
            fun j member => ?_⟩
          rw [printfReads_token isText plainHead (Ne.symm noChar.1),
            List.mem_append, List.mem_range'_1] at member
          rw [List.length_append]
          rcases member with ⟨-, below⟩ | behind
          · omega
          · have bound := inside j behind
            omega

/-! ## Formats with a defect -/

/-- What stays of a buffer. -/
structure Continues (buffer after : PrintBuffer) : Prop where
  count : buffer.count ≤ after.count
  kept : ∀ j < buffer.count, after.result j = buffer.result j

namespace Continues

variable {buffer middle after : PrintBuffer}

theorem refl (buffer : PrintBuffer) : Continues buffer buffer :=
  ⟨Nat.le_refl _, fun _ _ => rfl⟩

theorem trans (first : Continues buffer middle)
    (second : Continues middle after) : Continues buffer after := by
  have grows := first.count
  refine ⟨Nat.le_trans grows second.count, fun j below => ?_⟩
  rw [second.kept j (by omega), first.kept j below]

theorem put {byte : Byte} (returned : buffer.put byte = .ok after) :
    Continues buffer after := by
  obtain ⟨result, stored, rest⟩ := exists_of_bind_ok returned
  cases rest
  unfold storeAt at stored
  split at stored
  · cases stored
    exact ⟨Nat.le_succ _, fun j below => if_neg (by omega)⟩
  · cases stored

theorem printText {stop : Fault} {text : Nat → Byte} :
    ∀ {fuel i : Nat} {buffer after : PrintBuffer},
      SbuUnix.printText stop text fuel i buffer = .ok after →
        Continues buffer after := by
  intro fuel
  induction fuel with
  | zero =>
      intro i buffer after returned
      cases returned
  | succ fuel inductionHypothesis =>
      intro i buffer after returned
      rw [SbuUnix.printText] at returned
      split at returned
      · obtain ⟨middle, stored, rest⟩ := exists_of_bind_ok returned
        exact (put stored).trans (inductionHypothesis rest)
      · cases returned
        exact refl _

theorem printStr (returned : SbuUnix.printStr buffer = .ok after) :
    Continues buffer after :=
  printText returned

/-- Every directive only adds to `result`, and only the case `'c'` moves the
format pointer. -/
theorem directive_moved {fuel n next moved : Nat} {conversion : Byte}
    {args : Nat → PrintArg}
    (returned : printfConversion fuel conversion args n buffer =
      .ok (next, moved, after)) :
    Continues buffer after ∧ moved = if conversion = 0x63 then 1 else 0 := by
  unfold printfConversion at returned
  by_cases isC : conversion = 0x63
  · rw [if_pos isC] at returned ⊢
    obtain ⟨middle, stored, rest⟩ := exists_of_bind_ok returned
    cases rest
    exact ⟨put stored, rfl⟩
  rw [if_neg isC] at returned ⊢
  split at returned
  · split at returned
    · obtain ⟨middle, printed, rest⟩ := exists_of_bind_ok returned
      cases rest
      obtain ⟨count, kept⟩ := printStr printed
      exact ⟨⟨count, kept⟩, rfl⟩
    · cases returned
  split at returned
  · obtain ⟨cleared, -, rest⟩ := exists_of_bind_ok returned
    obtain ⟨digits, -, rest⟩ := exists_of_bind_ok rest
    obtain ⟨middle, printed, rest⟩ := exists_of_bind_ok rest
    cases rest
    obtain ⟨count, kept⟩ := printStr printed
    exact ⟨⟨count, kept⟩, rfl⟩
  split at returned
  · obtain ⟨middle, printed, rest⟩ := exists_of_bind_ok returned
    cases rest
    exact ⟨printText printed, rfl⟩
  split at returned
  · split at returned
    · obtain ⟨middle, printed, rest⟩ := exists_of_bind_ok returned
      cases rest
      obtain ⟨count, kept⟩ := printStr printed
      exact ⟨⟨count, kept⟩, rfl⟩
    · cases returned
  · cases returned
    exact ⟨refl _, rfl⟩

/-- What was put into `result` stays there. -/
theorem printfFrom {string : Nat → Byte} {args : Nat → PrintArg} :
    ∀ {fuel i n : Nat} {buffer after : PrintBuffer},
      SbuUnix.printfFrom string args fuel i n buffer = .ok after →
        Continues buffer after := by
  intro fuel
  induction fuel with
  | zero =>
      intro i n buffer after returned
      cases returned
  | succ fuel inductionHypothesis =>
      intro i n buffer after returned
      rw [SbuUnix.printfFrom] at returned
      split at returned
      · split at returned
        · obtain ⟨middle, stored, rest⟩ := exists_of_bind_ok returned
          exact (put stored).trans (inductionHypothesis rest)
        · obtain ⟨⟨next, moved, middle⟩, converted, rest⟩ :=
            exists_of_bind_ok returned
          exact (directive_moved converted).1.trans (inductionHypothesis rest)
      · cases returned
        exact refl _

end Continues

/-- The loops return and lead to the memory `after` that the system call gets,
and they read nothing behind index `len`. -/
structure Running (string : Nat → Byte) (args : Nat → PrintArg)
    (after : Memory) (len fuel i n : Nat) (buffer : PrintBuffer) : Prop where
  returned : ∃ last, printfFrom string args fuel i n buffer = .ok last ∧
    after = store last.result last.count 0
  inside : ∀ j ∈ printfReads string fuel i, j ≤ len

namespace Running

variable {string : Nat → Byte} {args : Nat → PrintArg} {after : Memory}
  {len fuel i n : Nat} {buffer : PrintBuffer}

theorem shows (running : Running string args after len fuel i n buffer)
    {j : Nat} (below : j < buffer.count) : after j = buffer.result j := by
  obtain ⟨last, returned, rfl⟩ := running.returned
  obtain ⟨count, kept⟩ := Continues.printfFrom returned
  rw [store_other (by omega), kept j below]

theorem exists_fuel (running : Running string args after len fuel i n buffer) :
    ∃ less, fuel = less + 1 := by
  obtain ⟨last, returned, -⟩ := running.returned
  cases fuel with
  | zero => cases returned
  | succ less => exact ⟨less, rfl⟩

theorem le (running : Running string args after len fuel i n buffer) :
    i ≤ len := by
  obtain ⟨fuel, rfl⟩ := running.exists_fuel
  apply running.inside
  rw [printfReads]
  split
  · split <;> exact List.mem_cons_self ..
  · exact List.mem_cons_self ..

/-- At the NUL the text is ended. -/
theorem ends (running : Running string args after len fuel i n buffer)
    (nul : string i = 0) : after buffer.count = 0 := by
  obtain ⟨fuel, rfl⟩ := running.exists_fuel
  obtain ⟨last, returned, rfl⟩ := running.returned
  rw [printfFrom, if_neg (not_not.mpr nul)] at returned
  cases returned
  exact store_same ..

/-- A character that is not `'%'` is put. -/
theorem plain (running : Running string args after len fuel i n buffer)
    (notNul : string i ≠ 0) (notPercent : string i ≠ 0x25) :
    after buffer.count = string i ∧
      ∃ less middle, Running string args after len less (i + 1) n middle ∧
        middle.count = buffer.count + 1 ∧ middle.str = buffer.str := by
  obtain ⟨fuel, rfl⟩ := running.exists_fuel
  obtain ⟨⟨last, returned, isLast⟩, inside⟩ := running
  rw [printfFrom, if_pos notNul, if_pos notPercent] at returned
  rw [printfReads, if_pos notNul, if_pos notPercent] at inside
  obtain ⟨middle, stored, rest⟩ := exists_of_bind_ok returned
  have next : Running string args after len fuel (i + 1) n middle :=
    ⟨⟨last, rest, isLast⟩, fun j member =>
      inside j (List.mem_cons_of_mem _ member)⟩
  obtain ⟨result, put, same⟩ := exists_of_bind_ok stored
  unfold storeAt at put
  split at put
  · cases put
    cases same
    refine ⟨?_, fuel, _, next, rfl, rfl⟩
    rw [next.shows (Nat.lt_succ_self _)]
    exact if_pos rfl
  · cases put

/-- A directive is converted, and the pointer moves over it. -/
theorem directive (running : Running string args after len fuel i n buffer)
    (percent : string i = 0x25) :
    ∃ less next moved middle,
      printfConversion less (string (i + 1)) args n buffer =
          .ok (next, moved, middle) ∧
        Running string args after len less (i + moved + 2) next middle := by
  obtain ⟨fuel, rfl⟩ := running.exists_fuel
  obtain ⟨⟨last, returned, isLast⟩, inside⟩ := running
  rw [printfFrom, percent, if_pos (by decide), if_neg (by decide)]
    at returned
  rw [printfReads, percent, if_pos (by decide), if_neg (by decide)]
    at inside
  obtain ⟨⟨next, moved, middle⟩, converted, rest⟩ :=
    exists_of_bind_ok returned
  refine ⟨fuel, next, moved, middle, converted, ⟨last, rest, isLast⟩,
    fun j member => ?_⟩
  apply inside
  rw [(Continues.directive_moved converted).2] at member
  exact List.mem_cons_of_mem _ (List.mem_cons_of_mem _ member)

/-- Behind a lone `'%'` the NUL is passed. -/
theorem not_lone (running : Running string args after len fuel i n buffer)
    (percent : string i = 0x25) (nul : string (i + 1) = 0) : i + 2 ≤ len := by
  obtain ⟨less, next, moved, middle, converted, later⟩ :=
    running.directive percent
  rw [nul] at converted
  have unmoved := (Continues.directive_moved converted).2
  rw [if_neg (by decide)] at unmoved
  subst unmoved
  exact later.le

end Running

/-! ## Arguments that show the defect -/

/-- An argument that is a small number, and the address of a string of the
character with this number. -/
def smallArg (value : Nat) : PrintArg where
  value := BitVec.ofNat 64 value
  text := fun place => [BitVec.ofNat 8 value].getD place 0

/-- What a part prints with a small argument. -/
def smallOutput (value : Nat) : FormatToken → Byte
  | .plain byte => byte
  | .char => BitVec.ofNat 8 value
  | .string => BitVec.ofNat 8 value
  | .int => BitVec.ofNat 8 (value + 0x30)

section SmallArgs

variable {string : Nat → Byte} {after : Memory} {len fuel i n value : Nat}
  {buffer : PrintBuffer}

theorem smallChar_ne_zero (positive : 0 < value) (small : value ≤ 9) :
    BitVec.ofNat 8 value ≠ 0 := by
  interval_cases value <;> decide

theorem tokenOutput_small (positive : 0 < value) (small : value ≤ 9)
    (token : FormatToken) :
    ∃ next, TokenOutput (fun _ => smallArg value) n token next
      [smallOutput value token] := by
  have notNul := smallChar_ne_zero positive small
  cases token with
  | plain byte => exact ⟨n, .plain byte⟩
  | char =>
      refine ⟨n + 1, .char _ ?_ notNul⟩
      interval_cases value <;> decide
  | string =>
      refine ⟨n + 1, .string _ (textAt_getD ?_)⟩
      simpa using Ne.symm notNul
  | int =>
      refine ⟨n + 1, ?_⟩
      rw [smallOutput, ← decimalNumeral_digit positive small]
      refine .int value (by omega) ?_
      interval_cases value <;> decide

theorem formatOutput_small (positive : 0 < value) (small : value ≤ 9)
    (tokens : List FormatToken) :
    ∀ n, FormatOutput (fun _ => smallArg value) tokens n
      (tokens.map (smallOutput value)) := by
  induction tokens with
  | nil => exact FormatOutput.nil
  | cons token tokens inductionHypothesis =>
      intro n
      obtain ⟨next, first⟩ := tokenOutput_small (n := n) positive small token
      exact FormatOutput.cons first (inductionHypothesis next)

/-- A string of one character is printed by a loop that returned. -/
theorem printText_single {stop : Fault} {text : Nat → Byte} {char : Byte}
    {fuel : Nat} {after : PrintBuffer} (isText : TextAt text 0 [char])
    (returned : printText stop text fuel 0 buffer = .ok after)
    (room : buffer.count + 1 < 1000) :
    1 < fuel ∧ after.str = buffer.str := by
  obtain ⟨notNul, first, behind⟩ := textAt_cons.mp isText
  have nul := textAt_nil.mp behind
  cases fuel with
  | zero => cases returned
  | succ fuel =>
      rw [printText, first, if_pos notNul, put_eq (by omega)] at returned
      cases fuel with
      | zero => cases returned
      | succ fuel =>
          refine ⟨by omega, ?_⟩
          replace returned : printText stop text (fuel + 1) (0 + 1) _ =
            .ok after := returned
          rw [printText, if_neg (not_not.mpr nul)] at returned
          cases returned
          rfl

/-- The array that a directive leaves. -/
theorem str_of_conversion {token : FormatToken} {conversion : Byte}
    {next moved : Nat} {middle : PrintBuffer}
    (isDirective : token.text = [0x25, conversion]) (notChar : token ≠ .char)
    (positive : 0 < value) (small : value ≤ 9)
    (room : buffer.count + 1 < 1000)
    (converted : printfConversion fuel conversion (fun _ => smallArg value) n
      buffer = .ok (next, moved, middle)) :
    (token = .string → 1 < fuel) ∧ (token = .int → Ended 100 buffer.str) ∧
      (token ≠ .int → middle.str = buffer.str) := by
  cases token with
  | plain byte => cases isDirective
  | char => exact absurd rfl notChar
  | string =>
      cases isDirective
      rw [printfConversion, if_neg (by decide), if_neg (by decide),
        if_neg (by decide), if_pos rfl] at converted
      obtain ⟨printed, texts, rest⟩ := exists_of_bind_ok converted
      cases rest
      have isText : TextAt (smallArg value).text 0 [BitVec.ofNat 8 value] :=
        textAt_getD (by
          simpa using Ne.symm (smallChar_ne_zero positive small))
      obtain ⟨enough, same⟩ := printText_single isText texts room
      exact ⟨fun _ => enough, nofun, fun _ => same⟩
  | int =>
      cases isDirective
      rw [printfConversion, if_neg (by decide), if_neg (by decide),
        if_pos rfl] at converted
      obtain ⟨cleared, clears, -⟩ := exists_of_bind_ok converted
      obtain ⟨j, -, inside, nul⟩ := ended_of_clearText clears
      exact ⟨nofun, fun _ => ⟨j, by omega, nul⟩, fun other => absurd rfl other⟩

/-- A part that is no `%c` is printed. -/
theorem Running.token {token : FormatToken} {more : List Byte}
    (running : Running string (fun _ => smallArg value) after len fuel i n
      buffer)
    (isText : TextAt string i (token.text ++ more))
    (plain : ∀ byte, token = .plain byte → byte ≠ 0x25)
    (notChar : token ≠ .char) (positive : 0 < value) (small : value ≤ 9)
    (room : buffer.count + 1 < 1000) :
    after buffer.count = smallOutput value token ∧
      (token = .int → Ended 100 buffer.str) ∧
        ∃ less next middle,
          Running string (fun _ => smallArg value) after len less
              (i + token.text.length) next middle ∧
            middle.count = buffer.count + 1 ∧
              (token ≠ .int → middle.str = buffer.str) := by
  rcases token.text_cases with ⟨byte, rfl⟩ | ⟨conversion, isDirective, -, -⟩
  · obtain ⟨notNul, first, -⟩ := textAt_cons.mp isText
    obtain ⟨shown, less, middle, next, count, same⟩ := running.plain
      (by rw [first]; exact notNul) (by rw [first]; exact plain byte rfl)
    exact ⟨shown.trans first, nofun, less, n, middle, next, count,
      fun _ => same⟩
  · have percent : string i = 0x25 := by
      rw [isDirective] at isText
      exact (textAt_cons.mp isText).2.1
    have second : string (i + 1) = conversion := by
      rw [isDirective] at isText
      exact (textAt_cons.mp (textAt_cons.mp isText).2.2).2.1
    obtain ⟨less, next, moved, middle, converted, later⟩ :=
      running.directive percent
    rw [second] at converted
    obtain ⟨enough, ended, same⟩ := str_of_conversion isDirective notChar
      positive small room converted
    obtain ⟨follows, prints⟩ := tokenOutput_small (n := n) positive small token
    obtain ⟨printed, exactly, shows⟩ := printfConversion_eq isDirective
      notChar prints room enough ended
    rw [exactly] at converted
    cases converted
    refine ⟨?_, ended, less, next, middle, ?_, shows.count, same⟩
    · have count := shows.count
      rw [List.length_singleton] at count
      rw [later.shows (by omega), shows.result, ← putField_step, putField_nil,
        store_same]
    · rw [isDirective]
      exact later

/-- `%c` is printed, and the pointer moves one byte too far. -/
theorem Running.char
    (running : Running string (fun _ => smallArg value) after len fuel i n
      buffer)
    (percent : string i = 0x25) (isC : string (i + 1) = 0x63)
    (positive : 0 < value) (small : value ≤ 9) :
    after buffer.count = BitVec.ofNat 8 value ∧
      ∃ less middle, Running string (fun _ => smallArg value) after len less
          (i + 3) (n + 1) middle ∧ middle.count = buffer.count + 1 := by
  obtain ⟨less, next, moved, middle, converted, later⟩ :=
    running.directive percent
  rw [isC, printfConversion, if_pos rfl] at converted
  obtain ⟨printed, stored, rest⟩ := exists_of_bind_ok converted
  cases rest
  obtain ⟨result, put, same⟩ := exists_of_bind_ok stored
  unfold storeAt at put
  split at put
  · cases put
    cases same
    refine ⟨?_, less, _, later, rfl⟩
    rw [later.shows (Nat.lt_succ_self _)]
    apply (if_pos rfl).trans
    interval_cases value <;> decide
  · cases put

theorem smallOutput_ne {x : Byte} (token : FormatToken)
    (notChar : x ≠ BitVec.ofNat 8 value)
    (notDigit : x ≠ BitVec.ofNat 8 (value + 0x30)) :
    smallOutput value token = x → token = .plain x := by
  intro same
  cases token with
  | plain byte => exact congrArg FormatToken.plain same
  | char => exact absurd same.symm notChar
  | string => exact absurd same.symm notChar
  | int => exact absurd same.symm notDigit

/-- A run of one character that has lost its first one: the text falls short
where the run ends. -/
theorem Running.not_shortened {tokens : List FormatToken} {lone : Bool}
    {x : Byte} (notNul : x ≠ 0) (notChar : x ≠ BitVec.ofNat 8 value)
    (notDigit : x ≠ BitVec.ofNat 8 (value + 0x30)) (positive : 0 < value)
    (small : value ≤ 9) :
    ∀ {fuel i n : Nat} {buffer : PrintBuffer},
      Running string (fun _ => smallArg value) after len fuel i n buffer →
        TextAt string i (tokensText tokens ++ loneText lone) →
          (∀ byte, .plain byte ∈ tokens → byte ≠ 0x25) →
            i + (tokensText tokens ++ loneText lone).length = len →
              buffer.count + tokens.length < 999 →
                ¬ TextAt after buffer.count
                  (x :: (tokens.map (smallOutput value) ++ loneText lone)) := by
  induction tokens with
  | nil =>
      intro fuel i n buffer running isText _ isLen _ expected
      have first := (textAt_cons.mp expected).2.1
      cases lone with
      | false =>
          have nul := running.ends (textAt_nil.mp isText)
          exact notNul (first.symm.trans nul)
      | true =>
          obtain ⟨-, percent, behind⟩ := textAt_cons.mp isText
          have passed := running.not_lone percent (textAt_nil.mp behind)
          simp [tokensText, loneText] at isLen
          omega
  | cons token tokens inductionHypothesis =>
      intro fuel i n buffer running isText plain isLen room expected
      have first := (textAt_cons.mp expected).2.1
      rw [tokensText_cons, List.append_assoc] at isText isLen
      rw [List.length_cons] at room
      rw [List.length_append] at isLen
      by_cases isC : token = .char
      · subst isC
        obtain ⟨-, percent, behind⟩ := textAt_cons.mp isText
        obtain ⟨-, second, -⟩ := textAt_cons.mp behind
        have shown := (running.char percent second positive small).1
        exact notChar (first.symm.trans shown)
      · obtain ⟨shown, -, less, next, middle, later, count, -⟩ :=
          running.token isText
            (fun byte same => plain byte (same ▸ List.mem_cons_self ..)) isC
            positive small (by omega)
        have isX := smallOutput_ne token notChar notDigit
          (shown.symm.trans first)
        subst isX
        refine inductionHypothesis later (textAt_append.mp isText).2.2
          (fun byte member => plain byte (List.mem_cons_of_mem _ member))
          (by omega) (by omega) ?_
        rw [count]
        exact (textAt_cons.mp expected).2.2

/-- The byte that the first `%c` swallows, when it is a character. -/
def swallowed : List FormatToken → Option Byte
  | [] => none
  | .char :: .plain byte :: _ => some byte
  | .char :: _ => none
  | _ :: rest => swallowed rest

theorem swallowed_cons {token : FormatToken} {tokens : List FormatToken}
    (notChar : token ≠ .char) :
    swallowed (token :: tokens) = swallowed tokens := by
  cases token with
  | plain byte => rfl
  | char => exact absurd rfl notChar
  | string => rfl
  | int => rfl

/-- The byte behind the first `%c` is none that the arguments print. -/
def Distinguishes (value : Nat) (tokens : List FormatToken) : Prop :=
  ∀ byte, swallowed tokens = some byte →
    byte ≠ BitVec.ofNat 8 value ∧ byte ≠ BitVec.ofNat 8 (value + 0x30)

/-- Behind a `%c` the text is another one. -/
theorem Running.not_char {tokens : List FormatToken} {lone : Bool}
    (running : Running string (fun _ => smallArg value) after len fuel i n
      buffer)
    (isText : TextAt string i (tokensText (.char :: tokens) ++ loneText lone))
    (plain : ∀ byte, .plain byte ∈ tokens → byte ≠ 0x25)
    (isLen : i + (tokensText (.char :: tokens) ++ loneText lone).length = len)
    (room : buffer.count + tokens.length < 998)
    (distinguishes : Distinguishes value (.char :: tokens))
    (positive : 0 < value) (small : value ≤ 9) :
    ¬ TextAt after buffer.count
      ((FormatToken.char :: tokens).map (smallOutput value) ++
        loneText lone) := by
  intro expected
  rw [tokensText_cons, List.append_assoc] at isText isLen
  rw [List.length_append] at isLen
  have behind := (textAt_append.mp isText).2.2
  obtain ⟨-, percent, letters⟩ := textAt_cons.mp isText
  obtain ⟨-, isC, -⟩ := textAt_cons.mp letters
  obtain ⟨-, less, middle, later, count⟩ :=
    running.char percent isC positive small
  have expectedNext := (textAt_cons.mp expected).2.2
  rw [← count] at expectedNext
  -- The pointer is one byte behind the next part.
  have width : FormatToken.char.text.length = 2 := rfl
  rw [width] at behind isLen
  cases tokens with
  | nil =>
      cases lone with
      | false =>
          have bound := later.le
          simp [tokensText, loneText] at isLen
          omega
      | true =>
          have nul := textAt_nil.mp (textAt_cons.mp behind).2.2
          have ended := later.ends nul
          exact absurd ((textAt_cons.mp expectedNext).2.1.symm.trans ended)
            (by decide)
  | cons token rest =>
      rw [tokensText_cons, List.append_assoc] at behind isLen
      have next := (textAt_cons.mp expectedNext).2.1
      by_cases isPlain : ∃ byte, token = .plain byte
      · obtain ⟨byte, rfl⟩ := isPlain
        obtain ⟨notNul, -, -⟩ := textAt_cons.mp behind
        obtain ⟨notChar, notDigit⟩ := distinguishes byte rfl
        rw [List.length_cons] at room
        refine later.not_shortened notNul notChar notDigit positive small
          (textAt_append.mp behind).2.2
          (fun other member => plain other (List.mem_cons_of_mem _ member))
          ?_ (by omega) expectedNext
        rw [List.length_append] at isLen
        have one : (FormatToken.plain byte).text.length = 1 := rfl
        omega
      · obtain ⟨conversion, isDirective, -, notNul⟩ :=
          token.text_cases.resolve_left isPlain
        rw [isDirective] at behind
        have letter : string (i + 3) = conversion :=
          (textAt_cons.mp (textAt_cons.mp behind).2.2).2.1
        have notPercent : conversion ≠ 0x25 := by
          cases token <;> cases isDirective <;> decide
        have shown := (later.plain (by rw [letter]; exact notNul)
          (by rw [letter]; exact notPercent)).1
        rw [next, letter] at shown
        have other : smallOutput value token ≠ conversion := by
          cases token with
          | plain byte => exact absurd ⟨byte, rfl⟩ isPlain
          | char =>
              cases isDirective
              interval_cases value <;> decide
          | string =>
              cases isDirective
              interval_cases value <;> decide
          | int =>
              cases isDirective
              interval_cases value <;> decide
        exact other shown

/-- With arguments that tell the parts apart, only a format without a defect
is printed. -/
theorem Running.sound {tokens : List FormatToken} {lone : Bool}
    (positive : 0 < value) (small : value ≤ 9) :
    ∀ {fuel i n : Nat} {buffer : PrintBuffer},
      Running string (fun _ => smallArg value) after len fuel i n buffer →
        TextAt string i (tokensText tokens ++ loneText lone) →
          (∀ byte, .plain byte ∈ tokens → byte ≠ 0x25) →
            i + (tokensText tokens ++ loneText lone).length = len →
              buffer.count + tokens.length < 999 →
                Distinguishes value tokens →
                  TextAt after buffer.count
                    (tokens.map (smallOutput value) ++ loneText lone) →
                    .char ∉ tokens ∧ lone = false ∧
                      (.int ∈ tokens → Ended 100 buffer.str) := by
  induction tokens with
  | nil =>
      intro fuel i n buffer running isText _ isLen _ _ _
      refine ⟨List.not_mem_nil, ?_, fun member => absurd member
        List.not_mem_nil⟩
      cases lone with
      | false => rfl
      | true =>
          obtain ⟨-, percent, behind⟩ := textAt_cons.mp isText
          have passed := running.not_lone percent (textAt_nil.mp behind)
          simp [tokensText, loneText] at isLen
          omega
  | cons token tokens inductionHypothesis =>
      intro fuel i n buffer running isText plain isLen room distinguishes
        expected
      rw [List.length_cons] at room
      have plainRest : ∀ byte, .plain byte ∈ tokens → byte ≠ 0x25 :=
        fun byte member => plain byte (List.mem_cons_of_mem _ member)
      by_cases isC : token = .char
      · subst isC
        exact absurd expected (running.not_char isText plainRest isLen
          (by omega) distinguishes positive small)
      · rw [tokensText_cons, List.append_assoc] at isText isLen
        rw [List.length_append] at isLen
        obtain ⟨-, ended, less, next, middle, later, count, same⟩ :=
          running.token isText
            (fun byte equal => plain byte (equal ▸ List.mem_cons_self ..))
            isC positive small (by omega)
        have expectedRest := (textAt_cons.mp expected).2.2
        rw [← count] at expectedRest
        have distinguishesRest : Distinguishes value tokens :=
          fun byte found => distinguishes byte
            ((swallowed_cons isC).trans found)
        obtain ⟨noChar, notLone, endedRest⟩ := inductionHypothesis later
          (textAt_append.mp isText).2.2 plainRest (by omega) (by omega)
          distinguishesRest expectedRest
        refine ⟨?_, notLone, fun member => ?_⟩
        · rw [List.mem_cons, not_or]
          exact ⟨Ne.symm isC, noChar⟩
        · by_cases isInt : token = .int
          · exact ended isInt
          · rw [← same isInt]
            exact endedRest ((List.mem_cons.mp member).resolve_left
              (Ne.symm isInt))

theorem exists_distinguishes (tokens : List FormatToken) :
    ∃ value, 0 < value ∧ value ≤ 9 ∧ Distinguishes value tokens := by
  unfold Distinguishes
  cases swallowed tokens with
  | none => exact ⟨5, by decide, by decide, fun _ found => nomatch found⟩
  | some byte =>
      by_cases taken : byte = 0x05 ∨ byte = 0x35
      · refine ⟨6, by decide, by decide, fun other found => ?_⟩
        cases found
        rcases taken with rfl | rfl
        · decide
        · decide
      · rw [not_or] at taken
        refine ⟨5, by decide, by decide, fun other found => ?_⟩
        cases found
        exact taken

end SmallArgs

/-! ## The formats that are printed -/

theorem decimalNumeral_noNul (value : Nat) : 0 ∉ decimalNumeral value := by
  unfold decimalNumeral
  split
  · decide
  · rw [List.mem_reverse, List.mem_map]
    rintro ⟨digit, member, isNul⟩
    exact digitChar_ne_zero
      (Nat.le_of_lt_succ (Nat.digits_lt_base (by decide) member)) isNul

/-- The text of a format has no NUL. -/
theorem FormatOutput.noNul {args : Nat → PrintArg}
    {tokens : List FormatToken} {n : Nat} {output : List Byte}
    (prints : FormatOutput args tokens n output)
    (plain : ∀ byte, .plain byte ∈ tokens → byte ≠ 0) : 0 ∉ output := by
  induction prints with
  | nil n => exact List.not_mem_nil
  | cons first later inductionHypothesis =>
      rw [List.mem_append, not_or]
      refine ⟨?_, inductionHypothesis
        fun byte member => plain byte (List.mem_cons_of_mem _ member)⟩
      cases first with
      | plain byte =>
          have notNul := plain byte (List.mem_cons_self ..)
          simpa using Ne.symm notNul
      | char byte value notNul => simpa using Ne.symm notNul
      | string s isText => exact isText.noNul
      | int value small isValue => exact decimalNumeral_noNul value

theorem plain_ne_zero {tokens : List FormatToken} {byte : Byte}
    (noNul : 0 ∉ tokensText tokens) (member : .plain byte ∈ tokens) :
    byte ≠ 0 := by
  rintro rfl
  exact noNul (List.mem_flatMap.mpr ⟨_, member, List.mem_singleton_self _⟩)

/-- The array is ended again after every call. -/
theorem ended_of_printf {fuel : Nat} {string : Nat → Byte}
    {args : Nat → PrintArg} {result str after : Memory}
    (returned : printf fuel string args result str = .ok after) :
    Ended 1000 after := by
  obtain ⟨cleared, -, rest⟩ := exists_of_bind_ok returned
  obtain ⟨last, -, stored⟩ := exists_of_bind_ok rest
  unfold storeAt at stored
  split at stored
  · rename_i inside
    cases stored
    exact ⟨last.count, inside, if_pos rfl⟩
  · cases stored

section Claim

variable {string : Nat → Byte} {tokens : List FormatToken} {lone : Bool}
  {result str : Memory}

theorem printsFormat_of_safe (formatAt : FormatAt string tokens lone)
    (ended : Ended 1000 result) (noChar : .char ∉ tokens)
    (notLone : lone = false) (endedStr : .int ∈ tokens → Ended 100 str) :
    PrintsFormat string tokens lone result str := by
  subst notLone
  obtain ⟨isText, plain⟩ := formatAt
  simp only [loneText, Bool.false_eq_true, if_false, List.append_nil]
    at isText
  intro args output prints short
  simp only [loneText, Bool.false_eq_true, if_false, List.append_nil]
    at short ⊢
  obtain ⟨cleared, clears, -⟩ := clearText_zero ended
  have room : ({ result := cleared, count := 0, str } : PrintBuffer).count +
      output.length < 1000 := by
    simpa using short
  obtain ⟨last, returned, shows, inside⟩ := printfFrom_format
    (show FormatOutput args tokens 0 output from prints) isText plain noChar
    (show tokens.length + 1000 < tokens.length + 1001 by omega) room endedStr
  have count : last.count = output.length := by
    simpa using shows.count
  have noNul := prints.noNul fun byte member =>
    plain_ne_zero isText.noNul member
  refine ⟨tokens.length + 1001, store last.result last.count 0, ?_, ?_, ?_⟩
  · rw [printf, clears]
    show (printfFrom string args (tokens.length + 1001) 0 0 _ >>= _) = _
    rw [returned]
    exact storeAt_eq (by omega) _ _
  · refine ⟨?_, noNul⟩
    rw [holdsAt_append]
    refine ⟨fun offset below => ?_, holdsAt_cons.mpr ⟨?_, holdsAt_nil⟩⟩
    · rw [store_other (by omega), shows.result]
      exact holdsAt_putField _ _ _ offset below
    · rw [Nat.zero_add, ← count]
      exact store_same ..
  · intro j member
    have bound := inside j member
    omega

theorem safe_of_printsFormat (formatAt : FormatAt string tokens lone)
    (short : tokens.length < 999)
    (prints : PrintsFormat string tokens lone result str) :
    .char ∉ tokens ∧ lone = false ∧ (.int ∈ tokens → Ended 100 str) := by
  obtain ⟨value, positive, small, distinguishes⟩ := exists_distinguishes tokens
  have width : (loneText lone).length ≤ 1 := by
    cases lone <;> decide
  obtain ⟨fuel, after, returned, expected, inside⟩ := prints
    (fun _ => smallArg value) _ (formatOutput_small positive small tokens 0) (by
      rw [List.length_append, List.length_map]
      omega)
  obtain ⟨cleared, -, rest⟩ := exists_of_bind_ok returned
  obtain ⟨last, loops, stored⟩ := exists_of_bind_ok rest
  unfold storeAt at stored
  split at stored
  · cases stored
    have running : Running string (fun _ => smallArg value)
        (store last.result last.count 0)
        (tokensText tokens ++ loneText lone).length fuel 0 0
        { result := cleared, count := 0, str } :=
      ⟨⟨last, loops, rfl⟩, inside⟩
    exact running.sound positive small formatAt.text formatAt.plain
      (Nat.zero_add _) (by simpa using short) distinguishes expected
  · cases stored

/-- `printf` prints a format as it asks for with all matching arguments when
it has no `%c` and no lone `'%'`, and a `%d` finds a NUL in the array of its
digits; of the formats of fewer than 999 parts it prints no others. -/
theorem printf_printsFormat (formatAt : FormatAt string tokens lone)
    (ended : Ended 1000 result) :
    (.char ∉ tokens ∧ lone = false ∧ (.int ∈ tokens → Ended 100 str) →
      PrintsFormat string tokens lone result str) ∧
      (tokens.length < 999 → PrintsFormat string tokens lone result str →
        .char ∉ tokens ∧ lone = false ∧
          (.int ∈ tokens → Ended 100 str)) :=
  ⟨fun safe => printsFormat_of_safe formatAt ended safe.1 safe.2.1 safe.2.2,
    safe_of_printsFormat formatAt⟩

end Claim

/-- The format `"%s"`. -/
theorem printf_printsFormat_string :
    PrintsFormat (fun place => [0x25, 0x73].getD place 0) [.string] false
      (fun _ => 0) (fun _ => 1) := by
  have formatAt : FormatAt (fun place => [0x25, 0x73].getD place 0) [.string]
      false :=
    ⟨textAt_getD (by decide), fun byte member => by simp at member⟩
  have ended : Ended 1000 fun _ => 0 := ⟨0, by decide, rfl⟩
  exact (printf_printsFormat formatAt ended).1
    ⟨by decide, rfl, fun member => by simp at member⟩

/-- The format `"%c"`, behind whose end `printf` reads. -/
theorem not_printsFormat_char :
    ¬ PrintsFormat (fun place => [0x25, 0x63].getD place 0) [.char] false
      (fun _ => 0) (fun _ => 0) := by
  intro prints
  have formatAt : FormatAt (fun place => [0x25, 0x63].getD place 0) [.char]
      false :=
    ⟨textAt_getD (by decide), fun byte member => by simp at member⟩
  exact (safe_of_printsFormat formatAt (by decide) prints).1
    (List.mem_cons_self ..)

end SbuUnix
