import SbuUnix.Console.Formatted
import SbuUnix.Crt.ArgumentPassing
import SbuUnix.Process.Environment

/-!
# The program `echo`

`bin/echo/echo.c`, from the string that `execvpe` gets to the screen: `execve`
splits the string, `_start` copies the arguments to blocks of the heap, and
`main` prints each of them, or the variable that it names.  The blocks lie one
behind the other, and `strlen` stores two NULs behind the one of an argument:
an argument that fills its block to the last but one byte ends the next
argument.
-/

namespace SbuUnix

open Outcome

/-! ## The program -/

/-- The memory of the process, and the screen with the arrays `result`. -/
structure EchoState where
  mem : Memory
  printers : Printers

/-- What a process that runs `echo` has: its number, its environment, its
array `temp`, and what stands where no argument is passed and in the array
`str` of `printf`. -/
structure EchoProcess where
  who : Nat
  env : Environment
  temp : Nat
  unset : Nat → PrintArg
  str : Memory

/-- `"\n"` -/
def newlineText : Memory :=
  fun place => [0x0A].getD place 0

/-- `printf(ss); printf("%s", "\n");` -/
def printLine (process : EchoProcess) (fuel : Nat) (ss : Nat) :
    StateT EchoState (Except Fault) Unit := fun e => do
  let line ← (Printing.program process.who fuel (fun i => e.mem (ss + i))
    process.unset process.str).serve e.printers
  let ended ← (Printing.program process.who fuel stringFormat
    (stringArg newlineText) process.str).serve line.2
  pure ((), { e with printers := ended.2 })

/-- `printEchoVar`, which is system call 6. -/
def printEchoVar (process : EchoProcess) (fuel : Nat) (s : Nat) :
    StateT EchoState (Except Fault) Unit := fun e => do
  let terminal ← printEnv fuel (fun i => e.mem (s + i)) process.unset
    process.env e.printers.terminal
  pure ((), { e with printers := { e.printers with terminal } })

/-- The body of the loop of `echo`. -/
def echoArg (process : EchoProcess) (fuel : Nat) (arg : Nat) :
    StateT EchoState (Except Fault) Unit := fun e =>
  if e.mem arg = 0x24 then
    printEchoVar process fuel (arg + 1) e
  else do
    let measured ← Libc.strlen fuel e.mem arg
    let mem ← Libc.strcpy fuel measured.2 process.temp arg
    if mem process.temp = 0x27 ∨ mem process.temp = 0x22 then
      -- `*(ss+len-2)='\0'`, where `ss` is behind the quote
      let last := (process.temp : Int) + 1 + measured.1 - 2
      printLine process fuel (process.temp + 1)
        { e with mem := store mem last.toNat 0 }
    else
      printLine process fuel process.temp { e with mem }

/-- The loop, with the passes to go. -/
def echoLoop (process : EchoProcess) (fuel : Nat) (argv : Nat → Nat) :
    Nat → Nat → StateT EchoState (Except Fault) Unit
  | 0, _ => pure ()
  | left + 1, j => do
      echoArg process fuel (argv j)
      echoLoop process fuel argv left (j + 1)

/-- `for(int i =0; i <100;i++) temp[i]='\0';` -/
def clearTemp (process : EchoProcess) (mem : Memory) : Memory :=
  (List.range 100).foldl (fun mem i => store mem (process.temp + i) 0) mem

def echo (process : EchoProcess) (fuel argc : Nat) (argv : Nat → Nat) :
    StateT EchoState (Except Fault) Unit := do
  modify fun e => { e with mem := clearTemp process e.mem }
  echoLoop process fuel argv argc 0

/-! ## What it prints -/

/-- An argument in quotes, without its first and its last byte. -/
def unquote (arg : List Byte) : List Byte :=
  if arg.head? = some 0x27 ∨ arg.head? = some 0x22 then
    arg.tail.dropLast
  else
    arg

/-- The line for an argument.  The NUL comes with the `'\n'` that `printf`
hands to system call 1. -/
def echoText (values : List Byte → Option (List Byte)) (arg : List Byte) :
    List Byte :=
  if arg.head? = some 0x24 then
    (values arg.tail).getD missingText ++ [0x0A]
  else
    unquote arg ++ [0x0A, 0]

/-- No conversion is read from an argument, and a variable that it names moves
the cursor to no first column. -/
structure EchoArg (values : List Byte → Option (List Byte))
    (arg : List Byte) : Prop where
  short : arg.length ≤ 48
  oneLine : 0x0A ∉ arg
  named : arg.head? = some 0x24 → arg.tail ≠ [] ∧
    ∀ value, values arg.tail = some value → 0x0D ∉ value
  noDirective : arg.head? ≠ some 0x24 → 0x25 ∉ unquote arg

/-! ## A line -/

section Lines

variable {p : Printers} {sheet : Sheet}

theorem formatOutput_plain {args : Nat → PrintArg} (text : List Byte)
    (n : Nat) : FormatOutput args (text.map .plain) n text := by
  induction text with
  | nil => exact .nil n
  | cons char rest inductionHypothesis =>
      exact .cons (.plain char) inductionHypothesis

theorem newlinesFollowed_oneLine :
    ∀ {text : List Byte}, 0x0A ∉ text → NewlinesFollowed text := by
  intro text
  induction text with
  | nil => exact fun _ => trivial
  | cons char rest inductionHypothesis =>
      intro oneLine
      rw [List.mem_cons, not_or] at oneLine
      exact (newlinesFollowed_cons (Ne.symm oneLine.1)).mpr
        (inductionHypothesis oneLine.2)

/-- `printf` of a text without conversions. -/
theorem programPrints_plain {string : Nat → Byte} {text : List Byte}
    (isText : TextAt string 0 text) (noDirective : 0x25 ∉ text)
    (oneLine : 0x0A ∉ text) (short : text.length < 999) {fuel : Nat}
    (enough : text.length + 1000 < fuel) (args : Nat → PrintArg)
    (str : Memory) : ProgramPrints fuel string args str text := by
  have same : tokensText (text.map .plain) = text := by
    rw [tokensText, List.flatMap_map]
    exact List.flatMap_singleton' text
  have noToken : ∀ token : FormatToken,
      (∀ byte, token ≠ .plain byte) → token ∉ text.map .plain := by
    intro token other member
    obtain ⟨byte, -, isByte⟩ := List.mem_map.mp member
    exact other byte isByte.symm
  have noChar : .char ∉ text.map FormatToken.plain := by
    apply noToken
    intro byte same
    cases same
  have noInt : .int ∉ text.map FormatToken.plain := by
    apply noToken
    intro byte same
    cases same
  refine ⟨text.map .plain, text, ⟨?_, ?_⟩, noChar,
    formatOutput_plain text 0, short, fun member => absurd member noInt, ?_,
    .whole (textAt_textArray isText.noNul)
      (newlinesFollowed_oneLine oneLine)⟩
  · rw [same, loneText, if_neg Bool.false_ne_true, List.append_nil]
    exact isText
  · intro byte member isDirective
    obtain ⟨char, inside, isChar⟩ := List.mem_map.mp member
    cases isChar
    exact noDirective (isDirective ▸ inside)
  · rw [List.length_map]
    exact enough

/-- `printf("%s", "\n")` takes the NUL to the screen. -/
theorem programPrints_newline {fuel : Nat} (enough : 1001 < fuel)
    (str : Memory) :
    ProgramPrints fuel stringFormat (stringArg newlineText) str
      [0x0A, 0] := by
  have whole : FormatOutput (stringArg newlineText) [.string] 0
      ([0x0A] ++ []) :=
    .cons (.string [0x0A] (textAt_getD (by decide))) (.nil 1)
  have shows : StringShows (textArray [0x0A]) ([] ++ [0x0A, 0]) :=
    .line (textAt_textArray (by decide)) trivial rfl
  exact ⟨[.string], [0x0A], ⟨textAt_getD (by decide), by simp⟩, by decide,
    whole, by decide, by simp, enough, shows⟩

/-- The two calls for an argument that names no variable. -/
theorem printLine_eq (process : EchoProcess) {fuel ss : Nat}
    {e : EchoState} {text : List Byte} (isText : TextAt e.mem ss text)
    (noDirective : 0x25 ∉ text) (oneLine : 0x0A ∉ text)
    (short : text.length ≤ 48) (enough : 1048 < fuel)
    (clean : ∀ who, CleanResult (e.printers.results who))
    (window : Window e.printers.terminal sheet.done sheet.last) :
    ∃ printers, printLine process fuel ss e = .ok ((), { e with printers }) ∧
      (∀ who, CleanResult (printers.results who)) ∧
        Window printers.terminal (sheet.print (text ++ [0x0A, 0])).done
          (sheet.print (text ++ [0x0A, 0])).last := by
  have isString : TextAt (fun i => e.mem (ss + i)) 0 text :=
    ⟨fun offset below => by
      rw [Nat.zero_add]
      exact isText.chars offset below, isText.noNul⟩
  have first : (Printing.program process.who fuel (fun i => e.mem (ss + i))
      process.unset process.str).Prints text :=
    .program (programPrints_plain isString noDirective oneLine (by omega)
      (by omega) process.unset process.str)
  have second : (Printing.program process.who fuel stringFormat
      (stringArg newlineText) process.str).Prints [0x0A, 0] :=
    .program (programPrints_newline (by omega) process.str)
  obtain ⟨between, line, cleanBetween, -, shown⟩ :=
    first.serve clean window
  obtain ⟨printers, ended, cleanNext, -, shows⟩ :=
    second.serve cleanBetween shown
  refine ⟨printers, ?_, cleanNext, ?_⟩
  · unfold printLine
    rw [line]
    change (Printing.serve _ between >>= _) = _
    rw [ended]
    rfl
  · rw [Sheet.print_append]
    exact shows

theorem adds_text {text : List Byte} (noReturn : 0x0D ∉ text) :
    Adds (text.map textAction) text := by
  induction text with
  | nil => exact adds_nil
  | cons char rest inductionHypothesis =>
      rw [List.mem_cons, not_or] at noReturn
      exact (adds_textAction (Ne.symm noReturn.1)).append
        (inductionHypothesis noReturn.2)

theorem foldl_putText (text : List Byte) :
    ∀ t : Terminal, text.foldl Terminal.putText t =
      (text.map textAction).foldl Action.perform t := by
  intro t
  rw [List.foldl_map]
  congr 1
  funext t char
  exact putText_eq t char

theorem window_line {t : Terminal} {text : List Byte}
    (oneLine : 0x0A ∉ text) (window : Window t sheet.done sheet.last) :
    Window (text.foldl Terminal.putChar t).newline
      (sheet.print (text ++ [0x0A])).done
      (sheet.print (text ++ [0x0A])).last := by
  have shown := ((adds_digits oneLine).append adds_newline) t sheet window
  rw [List.foldl_append, List.foldl_map] at shown
  exact shown

/-- What `printEnv` shows for a key. -/
theorem window_printed {t : Terminal} {value : Option (List Byte)}
    (noReturn : ∀ text, value = some text → 0x0D ∉ text)
    (window : Window t sheet.done sheet.last) :
    Window (printed value t)
      (sheet.print (value.getD missingText ++ [0x0A])).done
      (sheet.print (value.getD missingText ++ [0x0A])).last := by
  cases value with
  | some text =>
      change Window ((text ++ [0x0A]).foldl Terminal.putText t)
        (sheet.print (text ++ [0x0A])).done _
      rw [foldl_putText]
      apply adds_text _ t sheet window
      rw [List.mem_append, not_or]
      exact ⟨noReturn text rfl, by decide⟩
  | none => exact window_line (by decide) window

end Lines

/-! ## One argument -/

section Argument

variable {process : EchoProcess} {fuel : Nat} {sheet : Sheet}
variable {values : List Byte → Option (List Byte)}

/-- The bytes that the pass for an argument may change. -/
def Touched (process : EchoProcess) (place length other : Nat) : Prop :=
  place + length < other ∧ other ≤ place + length + 2 ∨
    process.temp ≤ other ∧ other < process.temp + 100

/-- The last character makes room for the NUL. -/
theorem textAt_cut {mem : Memory} {addr : Nat} {front : List Byte}
    {char : Byte} (isText : TextAt mem addr (front ++ [char])) :
    TextAt (store mem (addr + front.length) 0) addr front := by
  obtain ⟨chars, noNul, -⟩ := textAt_append.mp isText
  refine ⟨holdsAt_append.mpr ⟨?_, holdsAt_cons.mpr
    ⟨store_same .., holdsAt_nil⟩⟩, noNul⟩
  intro offset below
  rw [store_other (by omega)]
  exact chars offset below

/-- A text in quotes, behind the first of them. -/
theorem textAt_unquoted {mem : Memory} {addr : Nat} {quote : Byte}
    {rest : List Byte} (isText : TextAt mem addr (quote :: rest)) :
    TextAt (store mem (addr + rest.length) 0) (addr + 1) rest.dropLast := by
  obtain ⟨-, -, later⟩ := textAt_cons.mp isText
  rcases List.eq_nil_or_concat rest with rfl | ⟨front, char, rfl⟩
  · have ended := textAt_nil.mp later
    exact textAt_nil.mpr ((store_other (by simp)).trans ended)
  · rw [List.concat_eq_append] at later ⊢
    rw [List.dropLast_concat, List.length_append, List.length_singleton]
    have cut := textAt_cut later
    rw [Nat.add_assoc, Nat.add_comm 1] at cut
    exact cut

variable {e : EchoState} {place : Nat} {arg : List Byte}

/-- The pass for an argument that names a variable. -/
theorem echoArg_variable (acts : ActsAsMap fuel process.env values)
    {name : List Byte}
    (isText : TextAt e.mem place (0x24 :: name))
    (fits : EchoArg values (0x24 :: name))
    (window : Window e.printers.terminal sheet.done sheet.last) :
    ∃ terminal, echoArg process fuel place e =
        .ok ((), { e with printers := { e.printers with terminal } }) ∧
      Window terminal
        (sheet.print (echoText values (0x24 :: name))).done
        (sheet.print (echoText values (0x24 :: name))).last := by
  obtain ⟨-, first, later⟩ := textAt_cons.mp isText
  obtain ⟨nonempty, noReturn⟩ := fits.named rfl
  have holds : HoldsAt (fun i => e.mem (place + 1 + i)) 0 (name ++ [0]) := by
    intro offset below
    rw [Nat.zero_add]
    exact later.chars offset below
  have printed := acts name nonempty later.noNul _ holds process.unset
    e.printers.terminal
  refine ⟨_, ?_, window_printed noReturn window⟩
  unfold echoArg
  rw [if_pos first]
  unfold printEchoVar
  rw [printed]
  rfl

/-- `strlen` and `strcpy` put the argument into `temp`. -/
theorem copied_arg (isText : TextAt e.mem place arg) (short : arg.length ≤ 48)
    (enough : 1048 < fuel)
    (apart : Apart process.temp 100 place (arg.length + 3)) :
    ∃ measured mem, Libc.strlen fuel e.mem place = .ok (arg.length, measured) ∧
      Libc.strcpy fuel measured process.temp place = .ok mem ∧
        TextAt mem process.temp arg ∧
          ∀ other, ¬ Touched process place arg.length other →
            mem other = e.mem other := by
  have measured := libc_strlen_eq isText (show arg.length < fuel by omega)
  rw [int32_of_small (by omega)] at measured
  have kept : TextAt (endText e.mem (place + arg.length + 1)) place arg := by
    apply isText.congr
    intro other _ upTo
    rw [endText_apply, if_neg (by omega)]
  unfold Apart at apart
  have copied := libc_strcpy_eq kept (show arg.length < fuel by omega)
    (show Apart process.temp arg.length place (arg.length + 1) by
      unfold Apart
      omega)
  refine ⟨_, _, measured, copied, textAt_copied isText.noNul, ?_⟩
  intro other untouched
  unfold Touched at untouched
  rw [copied_outside (by omega), endText_apply, if_neg (by omega)]

theorem mem_unquote {char : Byte} (member : char ∈ unquote arg) :
    char ∈ arg := by
  unfold unquote at member
  split at member
  · exact List.mem_of_mem_tail (List.mem_of_mem_dropLast member)
  · exact member

theorem length_unquote : (unquote arg).length ≤ arg.length := by
  unfold unquote
  split
  · rw [List.length_dropLast, List.length_tail]
    omega
  · exact Nat.le_refl _

theorem TextAt.head {mem : Memory} {addr : Nat} (isText : TextAt mem addr arg)
    {char : Byte} (notNul : char ≠ 0) :
    mem addr = char ↔ arg.head? = some char := by
  cases arg with
  | nil =>
      have nul := textAt_nil.mp isText
      exact iff_of_false (fun same => notNul (same.symm.trans nul)) (by simp)
  | cons first rest =>
      obtain ⟨-, isFirst, -⟩ := textAt_cons.mp isText
      rw [isFirst, List.head?_cons, Option.some.injEq]

/-- The pass for any other argument. -/
theorem echoArg_word (isText : TextAt e.mem place arg)
    (fits : EchoArg values arg)
    (word : arg.head? ≠ some 0x24) (enough : 1048 < fuel)
    (apart : Apart process.temp 100 place (arg.length + 3))
    (clean : ∀ who, CleanResult (e.printers.results who))
    (window : Window e.printers.terminal sheet.done sheet.last) :
    ∃ next, echoArg process fuel place e = .ok ((), next) ∧
      (∀ who, CleanResult (next.printers.results who)) ∧
        Window next.printers.terminal
          (sheet.print (unquote arg ++ [0x0A, 0])).done
          (sheet.print (unquote arg ++ [0x0A, 0])).last ∧
          ∀ other, ¬ Touched process place arg.length other →
            next.mem other = e.mem other := by
  obtain ⟨measured, mem, length, copied, text, same⟩ :=
    copied_arg isText fits.short enough apart
  have noDirective := fits.noDirective word
  have oneLine : 0x0A ∉ unquote arg :=
    fun member => fits.oneLine (mem_unquote member)
  have short : (unquote arg).length ≤ 48 :=
    Nat.le_trans length_unquote fits.short
  have notVariable : ¬ e.mem place = 0x24 :=
    fun first => word ((isText.head (by decide)).mp first)
  unfold echoArg
  rw [if_neg notVariable, length]
  change ∃ next, (Libc.strcpy fuel measured process.temp place >>= _) = _ ∧ _
  rw [copied]
  by_cases quoted : mem process.temp = 0x27 ∨ mem process.temp = 0x22
  · have isQuote := quoted
    rw [text.head (by decide), text.head (by decide)] at isQuote
    obtain ⟨quote, rest, rfl⟩ : ∃ quote rest, arg = quote :: rest := by
      cases arg with
      | nil => exact absurd isQuote (by simp)
      | cons quote rest => exact ⟨quote, rest, rfl⟩
    rw [unquote, if_pos isQuote, List.tail_cons] at oneLine short noDirective ⊢
    have last : ((process.temp : Int) + 1 + ((quote :: rest).length : Nat) -
        2).toNat = process.temp + rest.length := by
      rw [List.length_cons]
      omega
    obtain ⟨printers, printed, cleanNext, shows⟩ :=
      printLine_eq process
        (e := { e with mem := store mem (process.temp + rest.length) 0 })
        (textAt_unquoted text) noDirective oneLine short enough clean window
    refine ⟨⟨store mem (process.temp + rest.length) 0, printers⟩, ?_,
      cleanNext, shows, ?_⟩
    · change (if _ then _ else _) = _
      rw [if_pos quoted, last]
      exact printed
    · intro other untouched
      have outside : other ≠ process.temp + rest.length := by
        have length := fits.short
        rw [List.length_cons] at length
        unfold Touched at untouched
        omega
      exact (store_other outside).trans (same other untouched)
  · have isWord := quoted
    rw [text.head (by decide), text.head (by decide)] at isWord
    rw [unquote, if_neg isWord] at oneLine short noDirective ⊢
    obtain ⟨printers, printed, cleanNext, shows⟩ :=
      printLine_eq process (e := { e with mem }) text
        noDirective oneLine short enough clean window
    refine ⟨⟨mem, printers⟩, ?_, cleanNext, shows, same⟩
    change (if _ then _ else _) = _
    rw [if_neg quoted]
    exact printed

/-- The pass for an argument. -/
theorem echoArg_eq (acts : ActsAsMap fuel process.env values)
    (isText : TextAt e.mem place arg)
    (fits : EchoArg values arg) (enough : 1048 < fuel)
    (apart : Apart process.temp 100 place (arg.length + 3))
    (clean : ∀ who, CleanResult (e.printers.results who))
    (window : Window e.printers.terminal sheet.done sheet.last) :
    ∃ next, echoArg process fuel place e = .ok ((), next) ∧
      (∀ who, CleanResult (next.printers.results who)) ∧
        Window next.printers.terminal
          (sheet.print (echoText values arg)).done
          (sheet.print (echoText values arg)).last ∧
          ∀ other, ¬ Touched process place arg.length other →
            next.mem other = e.mem other := by
  by_cases word : arg.head? = some 0x24
  · obtain ⟨name, rfl⟩ : ∃ name, arg = 0x24 :: name :=
      List.head?_eq_some_iff.mp word
    obtain ⟨terminal, printed, shows⟩ :=
      echoArg_variable acts isText fits window
    exact ⟨_, printed, clean, shows, fun _ _ => rfl⟩
  · rw [echoText, if_neg word]
    exact echoArg_word isText fits word enough apart clean window

/-! ## All arguments -/

/-- The arguments from a pass on: each behind the two NULs that `strlen`
stores behind the one of the argument before. -/
structure PlacedArgs (mem : Memory) (temp : Nat) (argv : Nat → Nat) (j : Nat)
    (args : List (List Byte)) : Prop where
  texts : ∀ i (inside : i < args.length), TextAt mem (argv (j + i)) args[i]
  apart : ∀ i (inside : i < args.length),
    Apart temp 100 (argv (j + i)) (args[i].length + 3)
  behind : ∀ i k (before : i < k) (inside : k < args.length),
    argv (j + i) + args[i].length + 2 < argv (j + k)

/-- The arguments behind the first one stay as they are. -/
theorem PlacedArgs.tail {mem next : Memory} {argv : Nat → Nat} {j : Nat}
    {args : List (List Byte)}
    (placed : PlacedArgs mem process.temp argv j (arg :: args))
    (same : ∀ other, ¬ Touched process (argv j) arg.length other →
      next other = mem other) :
    PlacedArgs next process.temp argv (j + 1) args := by
  have shift : ∀ i, j + 1 + i = j + (i + 1) := fun i => by omega
  constructor
  · intro i inside
    have text := placed.texts (i + 1) (Nat.succ_lt_succ inside)
    have apart := placed.apart (i + 1) (Nat.succ_lt_succ inside)
    have behind := placed.behind 0 (i + 1) (Nat.succ_pos i)
      (Nat.succ_lt_succ inside)
    rw [List.getElem_cons_succ] at text apart
    simp only [List.getElem_cons_zero, Nat.add_zero] at behind
    rw [shift]
    apply text.congr
    intro other from_ upTo
    apply same
    unfold Touched
    unfold Apart at apart
    omega
  · intro i inside
    rw [shift]
    exact placed.apart (i + 1) (Nat.succ_lt_succ inside)
  · intro i k before inside
    rw [shift, shift]
    exact placed.behind (i + 1) (k + 1) (Nat.succ_lt_succ before)
      (Nat.succ_lt_succ inside)

/-- The loop prints the texts of the arguments one behind the other. -/
theorem echoLoop_eq (acts : ActsAsMap fuel process.env values)
    (enough : 1048 < fuel) {argv : Nat → Nat} {args : List (List Byte)} :
    ∀ {e : EchoState} {sheet : Sheet} {j : Nat},
      PlacedArgs e.mem process.temp argv j args →
        (∀ arg ∈ args, EchoArg values arg) →
          (∀ who, CleanResult (e.printers.results who)) →
            Window e.printers.terminal sheet.done sheet.last →
              ∃ next, echoLoop process fuel argv args.length j e =
                  .ok ((), next) ∧
                Window next.printers.terminal
                  (sheet.print (args.flatMap (echoText values))).done
                  (sheet.print (args.flatMap (echoText values))).last := by
  induction args with
  | nil => exact fun _ _ _ window => ⟨_, rfl, window⟩
  | cons arg rest inductionHypothesis =>
      intro e sheet j placed fits clean window
      have text := placed.texts 0 (Nat.succ_pos _)
      have apart := placed.apart 0 (Nat.succ_pos _)
      obtain ⟨between, printed, cleanBetween, shows, same⟩ :=
        echoArg_eq acts text (fits arg List.mem_cons_self) enough apart
          clean window
      obtain ⟨next, others, last⟩ := inductionHypothesis
        (placed.tail same)
        (fun other member => fits other (List.mem_cons_of_mem _ member))
        cleanBetween shows
      rw [List.flatMap_cons, Sheet.print_append]
      refine ⟨next, ?_, last⟩
      exact bind_eq_ok_iff.mpr ⟨(), between, printed, others⟩

end Argument

/-! ## From `execvpe` to the screen -/

/-- The memory behind `_start`: `malloc` gives the blocks of the arguments one
behind the other, behind the array of their addresses. -/
structure Started (received : MainArgs) (mem : Memory) (heap temp : Nat) :
    Prop where
  blocks : ∀ j < 5, ∀ i < 50,
    mem (heap + 40 + 50 * j + i) = received.argv j i
  apart : Apart temp 100 heap 300

/-- Wherever the program lies in memory, it writes a text behind what is on
the screen. -/
def EchoPrints (process : EchoProcess) (fuel : Nat) (received : MainArgs)
    (text : List Byte) : Prop :=
  ∀ (mem : Memory) (heap : Nat) (printers : Printers) (sheet : Sheet),
    Started received mem heap process.temp →
    (∀ who, CleanResult (printers.results who)) →
      Window printers.terminal sheet.done sheet.last →
        ∃ next, echo process fuel received.argc.toNat
            (fun j => heap + 40 + 50 * j) ⟨mem, printers⟩ = .ok ((), next) ∧
          Window next.printers.terminal (sheet.print text).done
            (sheet.print text).last

theorem clearTemp_outside (process : EchoProcess) (mem : Memory) {other : Nat}
    (outside : other < process.temp ∨ process.temp + 100 ≤ other) :
    clearTemp process mem other = mem other := by
  have passes : ∀ count ≤ 100, ((List.range count).foldl
      (fun mem i => store mem (process.temp + i) 0) mem) other =
        mem other := by
    intro count
    induction count with
    | zero => exact fun _ => rfl
    | succ count inductionHypothesis =>
        intro upTo
        rw [List.range_succ, List.foldl_append, List.foldl_cons,
          List.foldl_nil, store_other (by omega)]
        exact inductionHypothesis (by omega)
  exact passes 100 (Nat.le_refl 100)

section Command

variable {process : EchoProcess} {fuel : Nat}
variable {args : List (List Byte)} {received : MainArgs}

/-- The arguments in their blocks. -/
theorem Started.placed {mem : Memory} {heap : Nat}
    (started : Started received mem heap process.temp)
    (count : args.length ≤ 5) (noNul : ∀ arg ∈ args, 0 ∉ arg)
    (short : ∀ arg ∈ args, arg.length ≤ 48)
    (inner : ∀ arg ∈ args.dropLast, arg.length ≤ 47)
    (held : ∀ index arg, args[index]? = some arg →
      HoldsAt (received.argv index) 0 (arg ++ [0])) :
    PlacedArgs (clearTemp process mem) process.temp
      (fun j => heap + 40 + 50 * j) 0 args := by
  have apart := started.apart
  unfold Apart at apart
  constructor
  · intro i inside
    have length := short _ (List.getElem_mem inside)
    have holds := held i args[i] (List.getElem?_eq_getElem inside)
    refine ⟨?_, noNul _ (List.getElem_mem inside)⟩
    intro offset below
    have within := below
    rw [List.length_append, List.length_singleton] at within
    have stored := holds offset below
    rw [Nat.zero_add] at stored ⊢
    rw [clearTemp_outside process mem (by omega),
      started.blocks i (by omega) offset (by omega), stored]
  · intro i inside
    have length := short _ (List.getElem_mem inside)
    unfold Apart
    omega
  · intro i k before inside
    have member : args[i] ∈ args.dropLast := by
      rw [← List.getElem_dropLast (by rw [List.length_dropLast]; omega)]
      exact List.getElem_mem _
    have length := inner _ member
    omega

/-- The variables of a process behind a run of exports and copies. -/
theorem actsAsMap_ofRun {calls : List EnvCall} {start env : Environment}
    {stack : Nat → Byte} (five : FiveKeys calls)
    (fits : RunFits calls [(pathKey, pathValue)]) (enough : 100 < fuel)
    (created : createEnvironment fuel = .ok start)
    (ran : runAll (EnvCall.serve fuel stack) calls start = .ok ((), env)) :
    ActsAsMap fuel env (lastValues calls) := by
  obtain ⟨keys, few, hasPath, member⟩ := five
  obtain ⟨first, isFirst, represents⟩ :=
    @represents_createEnvironment fuel (by omega)
  obtain rfl : start = first := Except.ok.inj (created.symm.trans isFirst)
  obtain ⟨next, vars, again, after, values⟩ :=
    represents.runAll enough stack few (List.nodup_singleton _)
      (List.cons_subset.mpr ⟨hasPath, List.nil_subset _⟩) member fits
  have same : env = next :=
    congrArg Prod.snd (Except.ok.inj (ran.symm.trans again))
  have initial : (fun key => List.lookup key [(pathKey, pathValue)]) =
      Function.update (fun _ => none) pathKey (some pathValue) := by
    funext key
    by_cases isPath : key = pathKey
    · rw [isPath, Function.update_self]
      exact List.lookup_cons_self
    · rw [Function.update_of_ne isPath, List.lookup_cons,
        beq_eq_false_iff_ne.mpr isPath]
      rfl
  rw [lastValues, ← initial, ← values, same]
  exact after.actsAsMap enough

variable (process fuel) in
/-- The arguments of a command come through to `main` of `echo`, which prints
each of them on a line: the value that the variable it names got last, or the
argument without its quotes. -/
theorem echo_ofCommand {region newRegion : Word → Prop}
    {place newPlace : Word → Nat} {m newMemory : Word → Byte}
    {k loaded : Kernel} {filename argv userPcb : Word} {pcb : Pcb}
    {file : List Byte} {calls : List EnvCall} {created : Environment}
    {stack : Nat → Byte}
    (caller : Caller region place m k filename argv file (joinArgs args))
    (image : NewImage newRegion newPlace newMemory loaded userPcb pcb)
    (isList : ArgList args) (unmarked : ¬ Marked m argv (joinArgs args))
    (five : FiveKeys calls) (exports : RunFits calls [(pathKey, pathValue)])
    (creates : createEnvironment fuel = .ok created)
    (ran : runAll (EnvCall.serve fuel stack) calls created =
      .ok ((), process.env))
    (fits : ∀ arg ∈ args, EchoArg (lastValues calls) arg)
    (inner : ∀ arg ∈ args.dropLast, arg.length ≤ 47) (enough : 1048 < fuel)
    (stale tempStr str : Nat → Byte) :
    ∃ argc slots afterwards entered received s,
      readArguments fuel stale filename argv k =
          .ok ((file, argc, slots), afterwards) ∧
        enterImage userPcb argc slots loaded = .ok ((), entered) ∧
          start fuel tempStr str entered.rsp entered.paging =
              .ok (received, s) ∧
            EchoPrints process fuel received
              (args.flatMap (echoText (lastValues calls))) := by
  have acts : ActsAsMap fuel process.env (lastValues calls) :=
    actsAsMap_ofRun five exports (by omega) creates ran
  have short : ∀ arg ∈ args, arg.length ≤ 48 :=
    fun arg member => (fits arg member).short
  obtain ⟨name, argc, slots, afterwards, entered, received, s, read, enters,
    starts, number, held⟩ :=
    received_of_short caller image isList (show 512 ≤ fuel by omega) short
      unmarked stale tempStr str
  obtain ⟨_, _, again, -⟩ := readArguments_unmarked caller isList
    (show 512 ≤ fuel by omega) unmarked stale
  have isName : name = file := by
    cases read.symm.trans again
    rfl
  refine ⟨argc, slots, afterwards, entered, received, s, isName ▸ read,
    enters, starts, ?_⟩
  intro mem heap printers sheet started clean window
  have placed := started.placed isList.count isList.noNul short inner held
  obtain ⟨next, printed, shows⟩ := echoLoop_eq acts enough
    (e := ⟨clearTemp process mem, printers⟩) placed fits clean window
  refine ⟨next, ?_, shows⟩
  rw [number]
  exact bind_eq_ok_iff.mpr ⟨(), _, rfl, printed⟩

end Command

/-! ## Two words -/

/-- The blocks of a process, with its heap at 0. -/
def blocksAt (received : MainArgs) : Memory :=
  fun place => received.argv ((place - 40) / 50) ((place - 40) % 50)

theorem started_blocksAt (received : MainArgs) :
    Started received (blocksAt received) 0 300 := by
  constructor
  · intro j _ i small
    have block : (0 + 40 + 50 * j + i - 40) / 50 = j := by omega
    have offset : (0 + 40 + 50 * j + i - 40) % 50 = i := by omega
    rw [blocksAt, block, offset]
  · exact Or.inr (Nat.le_refl 300)

/-- `echo ab c`, after the export of `A=b`. -/
theorem echo_ofCommand_words :
    ∃ created env argc slots afterwards entered received s,
      createEnvironment 1049 = .ok created ∧
        runAll (EnvCall.serve 1049 fun _ => 0) [.set assignA] created =
          .ok ((), env) ∧
        readArguments 1049 (fun _ => 0) nameAddr argAddr
            (argKernel [0x63206261]) =
          .ok (([0x62], argc, slots), afterwards) ∧
        enterImage 0xFFFFFFFF80400000 argc slots (argKernel []) =
          .ok ((), entered) ∧
        start 1049 (fun _ => 0) (fun _ => 0) entered.rsp entered.paging =
          .ok (received, s) ∧
        Started received (blocksAt received) 0 300 ∧
        EchoPrints ⟨0, env, 300, fun _ => ⟨0, fun _ => 0⟩, fun _ => 0⟩ 1049
          received [0x61, 0x62, 0x0A, 0, 0x63, 0x0A, 0] := by
  have five : FiveKeys [.set assignA] := by
    refine ⟨[pathKey, [0x41]], by decide, by decide, ?_⟩
    intro a member
    cases List.mem_singleton.mp member
    decide
  have exports : RunFits [.set assignA] [(pathKey, pathValue)] :=
    ⟨⟨by decide, by decide, by decide, by decide⟩, trivial⟩
  obtain ⟨keys, few, hasPath, known⟩ := five
  obtain ⟨created, creates, represents⟩ :=
    @represents_createEnvironment 1049 (by decide)
  obtain ⟨env, _, ran, -, -⟩ := represents.runAll (show 100 < 1049 by decide)
    (fun _ => 0) few (List.nodup_singleton _)
    (List.cons_subset.mpr ⟨hasPath, List.nil_subset _⟩) known exports
  have words : ∀ arg ∈ [[0x61, 0x62], [0x63]],
      EchoArg (lastValues [.set assignA]) arg := by
    intro arg member
    rcases List.mem_cons.mp member with rfl | last
    · exact ⟨by decide, by decide, fun named => absurd named (by decide),
        fun _ => by decide⟩
    · cases List.mem_singleton.mp last
      exact ⟨by decide, by decide, fun named => absurd named (by decide),
        fun _ => by decide⟩
  obtain ⟨argc, slots, afterwards, entered, received, s, read, enters, starts,
    prints⟩ := echo_ofCommand
      ⟨0, env, 300, fun _ => ⟨0, fun _ => 0⟩, fun _ => 0⟩ 1049
      caller_short image_argKernel argList_short (by decide +kernel)
      ⟨keys, few, hasPath, known⟩ exports creates ran words (by decide)
      (by decide) (fun _ => 0) (fun _ => 0) fun _ => 0
  exact ⟨created, env, argc, slots, afterwards, entered, received, s, creates,
    ran, read, enters, starts, started_blocksAt received, prints⟩

end SbuUnix
