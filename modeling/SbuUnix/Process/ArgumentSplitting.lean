import SbuUnix.Libc.Strings
import SbuUnix.Process.Arguments

/-!
# Splitting the argument string

The part of `execve` that splits `argv` into `kernel_args`, in one memory and
with every index of `argv` that is read.  The loops are those of
`splitArgs`, which reads the string through the page tables.
-/

namespace SbuUnix

open Outcome

/-! ## The functions -/

/-- A store to `kernel_args[5][64]`, by its index in the whole array. -/
def storeArg (args : Nat → Byte) (index : Nat) (byte : Byte) :
    Except Fault (Nat → Byte) :=
  if index < 5 * 64 then
    pure fun other => if other = index then byte else args other
  else
    throw .outOfBounds

/-- What the inner loop leaves: `k`, the array, and the indices that were
read. -/
structure WordEnd where
  k : Nat
  args : Nat → Byte
  looked : List Nat

/-- The inner loop over one word of `argv`. -/
def splitWord (argv : Nat → Byte) (i : Nat) :
    Nat → Nat → Nat → (Nat → Byte) → Except Fault WordEnd
  | 0, _, _, _ => throw .outOfFuel
  | fuel + 1, j, k, args =>
      if argv k ≠ 0x20 ∧ argv k ≠ 0 ∧ argv k ≠ 0x0A then do
        let args ← storeArg args (i * 64 + j) (argv k)
        let ended ← splitWord argv i fuel (j + 1) (k + 1) args
        pure { ended with looked := k :: ended.looked }
      else do
        let args ← storeArg args (i * 64 + j) 0
        pure { k, args, looked := [k] }

/-- What the outer loop leaves. -/
structure SplitEnd where
  i : Nat
  k : Nat
  args : Nat → Byte
  looked : List Nat

/-- The outer loop. -/
def splitWords (argv : Nat → Byte) :
    Nat → Nat → Nat → (Nat → Byte) → Except Fault SplitEnd
  | 0, _, _, _ => throw .outOfFuel
  | fuel + 1, i, k, args =>
      if argv k ≠ 0 then do
        let word ← splitWord argv i (fuel + 1) 0 k args
        let ended ← splitWords argv fuel (i + 1) (word.k + 1) word.args
        pure { ended with looked := k :: (word.looked ++ ended.looked) }
      else
        pure { i, k, args, looked := [k] }

/-- What `execve` knows after the split: the memory, `argc`, `kernel_args`,
`k`, and the indices of `argv` that were read. -/
structure ArgumentsEnd where
  mem : Memory
  argc : Int
  args : Nat → Byte
  k : Nat
  looked : List Int

/-- The argument string in `execve`, without the copy of the file name;
`stale` is what `kernel_args` held. -/
def splitArguments (fuel : Nat) (mem : Memory) (argv : Nat)
    (stale : Nat → Byte) : Except Fault ArgumentsEnd := do
  let nul ← findNul mem fuel argv
  let (len, mem) ← Sys.strlen fuel mem argv
  let at2 := ((argv : Int) + len - 2).toNat
  let zombie := mem at2 = 0x26
  let mem :=
    if zombie then
      store (store mem ((argv : Int) + len - 3).toNat 0x2F) at2 0
    else
      mem
  let ended ← splitWords (fun k => mem (argv + k)) fuel 0 0 stale
  pure
    { mem
      argc := if zombie then (ended.i : Int) - 1 else ended.i
      args := ended.args
      k := ended.k
      looked :=
        (List.range (nul + 1 - argv)).map Int.ofNat ++ (len - 2) ::
          ended.looked.map Int.ofNat }

/-! ## The words of a string -/

/-- `' '` and `'\n'` -/
def isBlank (char : Byte) : Bool :=
  char = 0x20 || char = 0x0A

/-- The words between blanks, empty ones included; a blank at the end adds
none. -/
def argWords : List Byte → List (List Byte)
  | [] => []
  | char :: rest =>
      if isBlank char then
        [] :: argWords rest
      else
        match argWords rest with
        | [] => [[char]]
        | word :: words => (char :: word) :: words

/-- Each word and its NUL end inside of the table when they start in their
own row. -/
def FitTable (i : Nat) (words : List (List Byte)) : Prop :=
  ∀ index word, words[index]? = some word →
    (i + index) * 64 + word.length < 5 * 64

/-- The mark of a background process, in a string of two characters or
more. -/
def BackgroundMark (str : List Byte) : Prop :=
  str.getD (str.length - 2) 0 = 0x26

/-- The last character is a blank, if there is one. -/
def EndsBlank (str : List Byte) : Prop :=
  ∀ char ∈ str.getLast?, isBlank char = true

/-- The split is exact and in bounds: nothing but the characters and the NUL
of `argv` is read, the loops end at the NUL, nothing outside of the table is
changed, words that fit it are stored in order and counted, and what follows
the NUL does not matter. -/
def SplitsExactly (mem : Memory) (argv : Nat) (str : List Byte)
    (stale : Nat → Byte) : Prop :=
  ∃ enough, ∀ fuel, enough ≤ fuel → ∃ ended,
    splitArguments fuel mem argv stale = .ok ended ∧
      (∀ index ∈ ended.looked, 0 ≤ index ∧ index ≤ str.length) ∧
      ended.k = str.length ∧ ended.mem = mem ∧
      (¬ BackgroundMark str → (argWords str).length ≤ 5 →
        (∀ word ∈ argWords str, word.length ≤ 63) →
          ended.argc = (argWords str).length ∧
            ∀ index word, (argWords str)[index]? = some word →
              HoldsAt ended.args (index * 64) (word ++ [0])) ∧
      ∀ other : Memory,
        (∀ place ≤ argv + str.length, other place = mem place) →
          ∃ otherEnd, splitArguments fuel other argv stale = .ok otherEnd ∧
            otherEnd.argc = ended.argc ∧ otherEnd.args = ended.args

/-! ## The loops -/

section Loops

variable {argv : Nat → Byte} {i j start fuel : Nat} {args : Nat → Byte}

theorem storeArg_eq {index : Nat} (inside : index < 5 * 64) (byte : Byte) :
    storeArg args index byte =
      .ok fun other => if other = index then byte else args other :=
  if_pos inside

theorem storeArg_outside {index : Nat} (outside : 5 * 64 ≤ index)
    (byte : Byte) : storeArg args index byte = .error .outOfBounds :=
  if_neg (Nat.not_lt.mpr outside)

theorem stops_of_separator {char : Byte} (separator : IsSeparator char) :
    ¬ (char ≠ 0x20 ∧ char ≠ 0 ∧ char ≠ 0x0A) := by
  rintro ⟨notSpace, notNul, notLine⟩
  rcases separator with same | same | same <;> contradiction

theorem goesOn_of_plain {char : Byte} {rest : List Byte}
    (plain : Plain (char :: rest)) :
    char ≠ 0x20 ∧ char ≠ 0 ∧ char ≠ 0x0A := by
  have isPlain := plain char (List.mem_cons_self ..)
  exact ⟨fun same => isPlain (.inl same),
    fun same => isPlain (.inr (.inl same)),
    fun same => isPlain (.inr (.inr same))⟩

theorem Plain.tail {char : Byte} {rest : List Byte}
    (plain : Plain (char :: rest)) : Plain rest :=
  fun other member => plain other (List.mem_cons_of_mem _ member)

/-- A word that fits is stored with its NUL. -/
theorem splitWord_eq :
    ∀ {word : List Byte} {fuel j start : Nat} {args : Nat → Byte},
      HoldsAt argv start word → Plain word →
        IsSeparator (argv (start + word.length)) →
          i * 64 + j + word.length < 5 * 64 → word.length < fuel →
            splitWord argv i fuel j start args =
              .ok { k := start + word.length
                    args := putField args (i * 64 + j) (word ++ [0])
                    looked := List.range' start (word.length + 1) } := by
  intro word
  induction word with
  | nil =>
      intro fuel j start args _ _ ends room enough
      obtain ⟨fuel, rfl⟩ : ∃ less, fuel = less + 1 := ⟨fuel - 1, by omega⟩
      rw [List.length_nil, Nat.add_zero] at ends room
      rw [splitWord, if_neg (stops_of_separator ends), storeArg_eq room,
        List.nil_append, ← putField_cons, putField_nil]
      rfl
  | cons char rest inductionHypothesis =>
      intro fuel j start args holds plain ends room enough
      obtain ⟨fuel, rfl⟩ : ∃ less, fuel = less + 1 := ⟨fuel - 1, by omega⟩
      obtain ⟨here, later⟩ := holdsAt_cons.mp holds
      have length : start + (char :: rest).length =
          start + 1 + rest.length := by
        rw [List.length_cons]
        omega
      rw [length] at ends ⊢
      rw [List.length_cons] at room enough
      rw [splitWord, here, if_pos (goesOn_of_plain plain),
        storeArg_eq (by omega)]
      show (splitWord argv i fuel (j + 1) (start + 1)
        (fun other => if other = i * 64 + j then char else args other)
          >>= _) = _
      rw [inductionHypothesis later plain.tail ends (by omega) (by omega),
        ← Nat.add_assoc (i * 64), putField_cons]
      rfl

/-- A word that does not fit is stored over the end of the table. -/
theorem splitWord_outside :
    ∀ {word : List Byte} {fuel j start : Nat} {args : Nat → Byte},
      HoldsAt argv start word → Plain word →
        IsSeparator (argv (start + word.length)) →
          5 * 64 ≤ i * 64 + j + word.length → word.length < fuel →
            splitWord argv i fuel j start args = .error .outOfBounds := by
  intro word
  induction word with
  | nil =>
      intro fuel j start args _ _ ends noRoom enough
      obtain ⟨fuel, rfl⟩ : ∃ less, fuel = less + 1 := ⟨fuel - 1, by omega⟩
      rw [List.length_nil, Nat.add_zero] at ends noRoom
      rw [splitWord, if_neg (stops_of_separator ends),
        storeArg_outside noRoom]
      rfl
  | cons char rest inductionHypothesis =>
      intro fuel j start args holds plain ends noRoom enough
      obtain ⟨fuel, rfl⟩ : ∃ less, fuel = less + 1 := ⟨fuel - 1, by omega⟩
      obtain ⟨here, later⟩ := holdsAt_cons.mp holds
      have length : start + (char :: rest).length =
          start + 1 + rest.length := by
        rw [List.length_cons]
        omega
      rw [length] at ends
      rw [List.length_cons] at noRoom enough
      rw [splitWord, here, if_pos (goesOn_of_plain plain)]
      by_cases inside : i * 64 + j < 5 * 64
      · rw [storeArg_eq inside]
        show (splitWord argv i fuel (j + 1) (start + 1)
          (fun other => if other = i * 64 + j then char else args other)
            >>= _) = _
        rw [inductionHypothesis later plain.tail ends (by omega) (by omega)]
        rfl
      · rw [storeArg_outside (Nat.not_lt.mp inside)]
        rfl

/-- The table after words were stored, each at the start of its row. -/
def fillArgs : Nat → List (List Byte) → (Nat → Byte) → Nat → Byte
  | _, [], args => args
  | i, word :: words, args =>
      fillArgs (i + 1) words (putField args (i * 64) (word ++ [0]))

theorem fillArgs_below :
    ∀ {words : List (List Byte)} {i : Nat} {args : Nat → Byte} {other : Nat},
      other < i * 64 → fillArgs i words args other = args other := by
  intro words
  induction words with
  | nil => exact fun _ => rfl
  | cons word words inductionHypothesis =>
      intro i args other below
      rw [fillArgs, inductionHypothesis (by omega), putField_below below]

/-- A word that ends in its own row is not overwritten. -/
theorem holdsAt_fillArgs :
    ∀ {words : List (List Byte)} {i index : Nat} {args : Nat → Byte}
      {word : List Byte}, words[index]? = some word → word.length ≤ 63 →
        HoldsAt (fillArgs i words args) ((i + index) * 64) (word ++ [0]) := by
  intro words
  induction words with
  | nil =>
      intro i index args word isWord
      cases isWord
  | cons first words inductionHypothesis =>
      intro i index args word isWord short
      rw [fillArgs]
      cases index with
      | zero =>
          cases isWord
          apply (holdsAt_putField args (i * 64) (first ++ [0])).congr
          intro place less
          rw [List.length_append, List.length_singleton] at less
          exact fillArgs_below (by omega)
      | succ index =>
          have later : HoldsAt (fillArgs (i + 1) words
              (putField args (i * 64) (first ++ [0])))
              ((i + 1 + index) * 64) (word ++ [0]) :=
            inductionHypothesis isWord short
          rw [Nat.add_assoc, Nat.add_comm 1] at later
          exact later

theorem fitTable_cons {word : List Byte} {words : List (List Byte)} :
    FitTable i (word :: words) ↔
      i * 64 + word.length < 5 * 64 ∧ FitTable (i + 1) words := by
  constructor
  · intro fits
    refine ⟨fits 0 word rfl, fun index other isWord => ?_⟩
    have here := fits (index + 1) other isWord
    omega
  · rintro ⟨first, later⟩ index other isWord
    cases index with
    | zero =>
        cases isWord
        exact first
    | succ index =>
        have here := later index other isWord
        omega

/-- Words with what ends them; the NUL only ends a word that is not
empty. -/
def AreParts (parts : List (List Byte × Byte)) : Prop :=
  ∀ part ∈ parts, Plain part.1 ∧ IsSeparator part.2 ∧
    (part.1 = [] → part.2 ≠ 0)

theorem AreParts.tail {part : List Byte × Byte}
    {parts : List (List Byte × Byte)} (areParts : AreParts (part :: parts)) :
    AreParts parts :=
  fun other member => areParts other (List.mem_cons_of_mem _ member)

/-- A part does not start with a NUL. -/
theorem AreParts.first {part : List Byte × Byte}
    {parts : List (List Byte × Byte)} (areParts : AreParts (part :: parts))
    (holds : HoldsAt argv start (part.1 ++ [part.2])) : argv start ≠ 0 := by
  obtain ⟨plain, -, notNul⟩ := areParts part (List.mem_cons_self ..)
  cases word : part.1 with
  | nil =>
      rw [word, List.nil_append] at holds
      rw [(holdsAt_cons.mp holds).1]
      exact notNul word
  | cons char rest =>
      rw [word] at holds plain
      rw [(holdsAt_cons.mp holds).1]
      exact (goesOn_of_plain plain).2.1

theorem splitWords_nul (nul : argv start = 0) :
    splitWords argv (fuel + 1) i start args =
      .ok { i, k := start, args, looked := [start] } := by
  rw [splitWords, if_neg (not_not.mpr nul)]
  rfl

/-- Words that fit the table are stored, up to the NUL behind them. -/
theorem splitWords_eq :
    ∀ {parts : List (List Byte × Byte)} {fuel i start : Nat}
      {args : Nat → Byte},
      HoldsAt argv start (partBytes parts ++ [0]) → AreParts parts →
        FitTable i (parts.map Prod.fst) → (partBytes parts).length < fuel →
          ∃ looked, splitWords argv fuel i start args =
              .ok { i := i + parts.length
                    k := start + (partBytes parts).length
                    args := fillArgs i (parts.map Prod.fst) args
                    looked } ∧
            ∀ index ∈ looked, index ≤ start + (partBytes parts).length := by
  intro parts
  induction parts with
  | nil =>
      intro fuel i start args holds _ _ enough
      obtain ⟨fuel, rfl⟩ := Nat.exists_eq_add_of_lt enough
      refine ⟨[start], splitWords_nul (holdsAt_cons.mp holds).1, ?_⟩
      intro index looked
      rw [List.mem_singleton.mp looked]
      exact Nat.le_add_right _ _
  | cons part parts inductionHypothesis =>
      intro fuel i start args holds areParts fits enough
      obtain ⟨plain, separator, -⟩ := areParts part (List.mem_cons_self ..)
      have length := length_partBytes_cons part parts
      rw [length] at enough ⊢
      rw [partBytes_cons, List.append_assoc] at holds
      obtain ⟨holdsWord, holdsBehind⟩ := holdsAt_append.mp holds
      obtain ⟨ends, holdsRest⟩ := holdsAt_cons.mp holdsBehind
      rw [List.map_cons, fitTable_cons] at fits
      obtain ⟨fuel, rfl⟩ : ∃ less, fuel = less + 1 := ⟨fuel - 1, by omega⟩
      have notNul : argv start ≠ 0 :=
        areParts.first (holdsAt_append.mpr
          ⟨holdsWord, holdsAt_cons.mpr ⟨ends, holdsAt_nil⟩⟩)
      have word : splitWord argv i (fuel + 1) 0 start args =
          .ok { k := start + part.1.length
                args := putField args (i * 64 + 0) (part.1 ++ [0])
                looked := List.range' start (part.1.length + 1) } :=
        splitWord_eq holdsWord plain (by rw [ends]; exact separator)
          (by omega) (by omega)
      obtain ⟨looked, rest, inside⟩ :=
        @inductionHypothesis fuel (i + 1) (start + part.1.length + 1)
          (putField args (i * 64) (part.1 ++ [0])) holdsRest areParts.tail
          fits.2 (by omega)
      have counted : i + 1 + parts.length = i + (parts.length + 1) := by
        omega
      have further : start + part.1.length + 1 + (partBytes parts).length =
          start + (part.1.length + 1 + (partBytes parts).length) := by
        omega
      rw [counted, further] at rest
      rw [further] at inside
      refine ⟨start :: (List.range' start (part.1.length + 1) ++ looked),
        ?_, ?_⟩
      · rw [splitWords, if_pos notNul, word]
        show (splitWords argv fuel (i + 1) (start + part.1.length + 1)
          (putField args (i * 64) (part.1 ++ [0])) >>= _) = _
        rw [rest]
        rfl
      · intro index member
        rcases List.mem_cons.mp member with rfl | later
        · exact Nat.le_add_right _ _
        · rcases List.mem_append.mp later with inWord | inRest
          · rw [List.mem_range'_1] at inWord
            omega
          · exact inside index inRest

/-- A word that does not fit the table is stored over its end. -/
theorem splitWords_outside :
    ∀ {parts : List (List Byte × Byte)} {fuel i start : Nat}
      {args : Nat → Byte},
      HoldsAt argv start (partBytes parts) → AreParts parts →
        ¬ FitTable i (parts.map Prod.fst) → (partBytes parts).length < fuel →
          splitWords argv fuel i start args = .error .outOfBounds := by
  intro parts
  induction parts with
  | nil =>
      intro fuel i start args _ _ tooLong
      exact absurd (fun index word none => by cases none) tooLong
  | cons part parts inductionHypothesis =>
      intro fuel i start args holds areParts tooLong enough
      obtain ⟨plain, separator, -⟩ := areParts part (List.mem_cons_self ..)
      have length := length_partBytes_cons part parts
      rw [length] at enough
      rw [partBytes_cons] at holds
      obtain ⟨holdsWord, holdsBehind⟩ := holdsAt_append.mp holds
      obtain ⟨ends, holdsRest⟩ := holdsAt_cons.mp holdsBehind
      rw [List.map_cons, fitTable_cons, not_and_or] at tooLong
      obtain ⟨fuel, rfl⟩ : ∃ less, fuel = less + 1 := ⟨fuel - 1, by omega⟩
      have notNul : argv start ≠ 0 :=
        areParts.first (holdsAt_append.mpr
          ⟨holdsWord, holdsAt_cons.mpr ⟨ends, holdsAt_nil⟩⟩)
      have isEnd : IsSeparator (argv (start + part.1.length)) := by
        rw [ends]
        exact separator
      rw [splitWords, if_pos notNul]
      by_cases here : i * 64 + part.1.length < 5 * 64
      · have word : splitWord argv i (fuel + 1) 0 start args =
            .ok { k := start + part.1.length
                  args := putField args (i * 64 + 0) (part.1 ++ [0])
                  looked := List.range' start (part.1.length + 1) } :=
          splitWord_eq holdsWord plain isEnd (by omega) (by omega)
        have later : ¬ FitTable (i + 1) (parts.map Prod.fst) :=
          tooLong.resolve_left (not_not.mpr here)
        rw [word]
        show (splitWords argv fuel (i + 1) (start + part.1.length + 1)
          (putField args (i * 64 + 0) (part.1 ++ [0])) >>= _) = _
        rw [inductionHypothesis holdsRest areParts.tail later (by omega)]
        rfl
      · rw [splitWord_outside holdsWord plain isEnd (by omega) (by omega)]
        rfl

end Loops

/-! ## Strings -/

section Strings

variable {mem : Memory} {argv fuel : Nat} {str : List Byte}
  {stale : Nat → Byte}

theorem endsBlank_cons {char : Byte} {rest : List Byte}
    (more : rest ≠ [] ∨ isBlank char = true) :
    EndsBlank (char :: rest) ↔ EndsBlank rest := by
  cases rest with
  | nil =>
      have blank : isBlank char = true :=
        more.resolve_left (not_not.mpr rfl)
      simp [EndsBlank, blank]
  | cons other rest =>
      unfold EndsBlank
      rw [List.getLast?_cons_cons]

theorem not_separator {char : Byte} (notBlank : ¬ isBlank char = true)
    (notNul : char ≠ 0) : ¬ IsSeparator char := by
  rintro (same | same | same)
  · exact notBlank (by rw [same]; rfl)
  · exact notNul same
  · exact notBlank (by rw [same]; rfl)

/-- The words of a string with what ends them: its blanks, and the NUL when
it does not end with one. -/
theorem exists_parts :
    ∀ {str : List Byte}, 0 ∉ str → ∃ parts, AreParts parts ∧
      argWords str = parts.map Prod.fst ∧
        ((EndsBlank str ∧ partBytes parts = str) ∨
          (¬ EndsBlank str ∧ partBytes parts = str ++ [0])) := by
  intro str
  induction str with
  | nil =>
      intro _
      refine ⟨[], fun part none => absurd none List.not_mem_nil, rfl,
        .inl ⟨?_, rfl⟩⟩
      exact fun char none => absurd none (by simp)
  | cons char rest inductionHypothesis =>
      intro noNul
      have notNul : char ≠ 0 := (List.ne_of_not_mem_cons noNul).symm
      obtain ⟨parts, areParts, words, bytes⟩ :=
        inductionHypothesis (List.not_mem_of_not_mem_cons noNul)
      by_cases blank : isBlank char = true
      · refine ⟨([], char) :: parts, ?_, ?_, ?_⟩
        · intro part member
          rcases List.mem_cons.mp member with rfl | later
          · refine ⟨fun other none => absurd none List.not_mem_nil, ?_,
              fun _ => notNul⟩
            simp only [isBlank, Bool.or_eq_true, decide_eq_true_eq] at blank
            exact blank.elim .inl fun line => .inr (.inr line)
          · exact areParts part later
        · rw [argWords, if_pos blank, words]
          rfl
        · rw [endsBlank_cons (.inr blank), partBytes_cons]
          rcases bytes with ⟨ends, same⟩ | ⟨goesOn, same⟩
          · exact .inl ⟨ends, congrArg (char :: ·) same⟩
          · exact .inr ⟨goesOn, congrArg (char :: ·) same⟩
      · have plainChar := not_separator blank notNul
        rw [argWords, if_neg blank, words]
        cases parts with
        | nil =>
            have empty : rest = [] := by
              rcases bytes with ⟨-, same⟩ | ⟨-, same⟩
              · exact same.symm
              · exact absurd same.symm (by simp [partBytes])
            subst empty
            refine ⟨[([char], 0)], ?_, rfl, .inr ⟨?_, rfl⟩⟩
            · intro part member
              rw [List.mem_singleton.mp member]
              refine ⟨?_, .inr (.inl rfl), fun empty => by cases empty⟩
              intro other isChar
              rw [List.mem_singleton.mp isChar]
              exact plainChar
            · exact fun ends => blank (ends char rfl)
        | cons part parts =>
            obtain ⟨plain, separator, -⟩ :=
              areParts part (List.mem_cons_self ..)
            have more : rest ≠ [] := by
              rintro rfl
              cases words
            refine ⟨(char :: part.1, part.2) :: parts, ?_, rfl, ?_⟩
            · intro other member
              rcases List.mem_cons.mp member with rfl | later
              · refine ⟨?_, separator, fun empty => by cases empty⟩
                intro letter isLetter
                rcases List.mem_cons.mp isLetter with rfl | inWord
                · exact plainChar
                · exact plain letter inWord
              · exact areParts other (List.mem_cons_of_mem _ later)
            · rw [partBytes_cons] at bytes
              rw [endsBlank_cons (.inl more), partBytes_cons]
              rcases bytes with ⟨ends, same⟩ | ⟨goesOn, same⟩
              · exact .inl ⟨ends, congrArg (char :: ·) same⟩
              · exact .inr ⟨goesOn, congrArg (char :: ·) same⟩

/-- Words that fit the table make a short string. -/
theorem FitTable.short {parts : List (List Byte × Byte)}
    (fits : FitTable 0 (parts.map Prod.fst)) :
    (partBytes parts).length ≤ 1600 := by
  have count : parts.length ≤ 5 := by
    by_contra many
    have within : 5 < (parts.map Prod.fst).length := by
      rw [List.length_map]
      omega
    have sixth := fits 5 _ (List.getElem?_eq_getElem within)
    omega
  have short : ∀ part ∈ parts, part.1.length ≤ 319 := by
    intro part member
    obtain ⟨index, isWord⟩ :=
      List.getElem?_of_mem (List.mem_map_of_mem (f := Prod.fst) member)
    have room := fits index part.1 isWord
    omega
  have length := length_partBytes short
  omega

/-- The loops over a string and two NULs, when its words fit the table: they
end at the NUL, or behind it when the last word ends with it. -/
theorem splitWords_string {text : Nat → Byte} (noNul : 0 ∉ str)
    (holds : HoldsAt text 0 (str ++ [0] ++ [0]))
    (fits : FitTable 0 (argWords str)) (enough : str.length + 1 < fuel) :
    ∃ k looked, splitWords text fuel 0 0 stale =
        .ok { i := (argWords str).length
              k
              args := fillArgs 0 (argWords str) stale
              looked } ∧
      ((EndsBlank str ∧ k = str.length) ∨
        (¬ EndsBlank str ∧ k = str.length + 1)) ∧
      ∀ index ∈ looked, index ≤ k := by
  obtain ⟨parts, areParts, words, bytes⟩ := exists_parts noNul
  have holdsParts : HoldsAt text 0 (partBytes parts ++ [0]) := by
    rcases bytes with ⟨-, same⟩ | ⟨-, same⟩
    · rw [same]
      exact (holdsAt_append.mp holds).1
    · rw [same]
      exact holds
  have ending : (EndsBlank str ∧ (partBytes parts).length = str.length) ∨
      (¬ EndsBlank str ∧ (partBytes parts).length = str.length + 1) := by
    rcases bytes with ⟨ends, same⟩ | ⟨goesOn, same⟩
    · exact .inl ⟨ends, congrArg List.length same⟩
    · refine .inr ⟨goesOn, ?_⟩
      rw [same, List.length_append]
      rfl
  rw [words] at fits ⊢
  obtain ⟨looked, split, inside⟩ :=
    @splitWords_eq _ parts fuel 0 0 stale holdsParts areParts fits (by omega)
  rw [Nat.zero_add, Nat.zero_add] at split
  refine ⟨(partBytes parts).length, looked, ?_, ending, ?_⟩
  · rw [split, List.length_map]
  · intro index member
    rw [← Nat.zero_add (partBytes parts).length]
    exact inside index member

/-- The loops over a string with a word that does not fit the table. -/
theorem splitWords_string_outside {text : Nat → Byte} (noNul : 0 ∉ str)
    (holds : HoldsAt text 0 (str ++ [0] ++ [0]))
    (tooLong : ¬ FitTable 0 (argWords str))
    (enough : str.length + 1 < fuel) :
    splitWords text fuel 0 0 stale = .error .outOfBounds := by
  obtain ⟨parts, areParts, words, bytes⟩ := exists_parts noNul
  have holdsString := (holdsAt_append.mp holds).1
  rw [words] at tooLong
  rcases bytes with ⟨-, same⟩ | ⟨-, same⟩
  · apply splitWords_outside _ areParts tooLong
    · rw [same]
      omega
    · rw [same]
      exact (holdsAt_append.mp holdsString).1
  · apply splitWords_outside _ areParts tooLong
    · rw [same, List.length_append]
      exact enough
    · rw [same]
      exact holdsString

/-- The string as the loops read it, behind the two NULs of `strlen`. -/
theorem holdsAt_ended (isText : TextAt mem argv str) :
    HoldsAt (fun k => endText mem (argv + str.length) (argv + k)) 0
      (str ++ [0] ++ [0]) := by
  apply holdsAt_append.mpr
  constructor
  · intro offset below
    dsimp only
    rw [Nat.zero_add, endText_apply]
    split
    · rw [List.length_append, List.length_singleton] at below
      have last : offset = str.length := by omega
      rw [last, List.getD_append_right _ _ _ _ (Nat.le_refl _),
        Nat.sub_self]
      rfl
    · exact isText.chars offset below
  · refine holdsAt_cons.mpr ⟨?_, holdsAt_nil⟩
    rw [endText_apply, if_pos (Or.inr ?_)]
    rw [List.length_append, List.length_singleton]
    omega

/-- Where the mark is looked for. -/
def markPlace (argv : Nat) (str : List Byte) : Nat :=
  ((argv : Int) + int32 str.length - 2).toNat

/-- The mark is found there when `strlen` has returned. -/
def MarkFound (mem : Memory) (argv : Nat) (str : List Byte) : Prop :=
  endText mem (argv + str.length) (markPlace argv str) = 0x26

instance (mem : Memory) (argv : Nat) (str : List Byte) :
    Decidable (MarkFound mem argv str) :=
  inferInstanceAs (Decidable (_ = _))

/-- The memory whose string is split. -/
def markedMemory (mem : Memory) (argv : Nat) (str : List Byte) : Memory :=
  if MarkFound mem argv str then
    store (store (endText mem (argv + str.length))
      ((argv : Int) + int32 str.length - 3).toNat 0x2F)
        (markPlace argv str) 0
  else
    endText mem (argv + str.length)

/-- What `execve` knows when the loops have ended. -/
def argumentsEnd (mem : Memory) (argv : Nat) (str : List Byte)
    (ended : SplitEnd) : ArgumentsEnd where
  mem := markedMemory mem argv str
  argc := if MarkFound mem argv str then (ended.i : Int) - 1 else ended.i
  args := ended.args
  k := ended.k
  looked :=
    (List.range (str.length + 1)).map Int.ofNat ++ (int32 str.length - 2) ::
      ended.looked.map Int.ofNat

theorem splitArguments_eq (isText : TextAt mem argv str)
    (enough : str.length < fuel) :
    splitArguments fuel mem argv stale =
      (splitWords (fun k => markedMemory mem argv str (argv + k)) fuel 0 0
        stale).map (argumentsEnd mem argv str) := by
  have distance : argv + str.length + 1 - argv = str.length + 1 := by
    omega
  rw [splitArguments, findNul_eq isText enough,
    sys_strlen_eq isText enough]
  show (splitWords (fun k => markedMemory mem argv str (argv + k)) fuel 0 0
    stale >>= _) = _
  cases splitWords (fun k => markedMemory mem argv str (argv + k)) fuel 0 0
      stale with
  | error fault => rfl
  | ok ended =>
      unfold argumentsEnd
      rw [← distance]
      rfl

/-- A run that returns leaves the marked memory. -/
theorem splitArguments_mem {ended : ArgumentsEnd}
    (isText : TextAt mem argv str) (enough : str.length < fuel)
    (returned : splitArguments fuel mem argv stale = .ok ended) :
    ended.mem = markedMemory mem argv str := by
  rw [splitArguments_eq isText enough] at returned
  cases split : splitWords (fun k => markedMemory mem argv str (argv + k))
      fuel 0 0 stale with
  | error fault =>
      rw [split] at returned
      cases returned
  | ok loops =>
      rw [split] at returned
      change Except.ok (argumentsEnd mem argv str loops) = Except.ok ended
        at returned
      rw [Except.ok.injEq] at returned
      rw [← returned, argumentsEnd]

/-- A marked string is changed. -/
theorem markedMemory_ne (marked : MarkFound mem argv str) :
    markedMemory mem argv str ≠ mem := by
  intro same
  have before : mem (markPlace argv str) = 0x26 := by
    unfold MarkFound at marked
    rw [endText_apply] at marked
    split at marked
    · exact absurd marked (by decide)
    · exact marked
  have changed := congrFun same (markPlace argv str)
  rw [markedMemory, if_pos marked, store_same, before] at changed
  exact absurd changed (by decide)

theorem unmarkedMemory (unmarked : ¬ MarkFound mem argv str) :
    markedMemory mem argv str = endText mem (argv + str.length) :=
  if_neg unmarked

/-- The mark is at the last character but one. -/
theorem markFound_iff (isText : TextAt mem argv str)
    (long : 2 ≤ str.length) (small : str.length < 2 ^ 31) :
    MarkFound mem argv str ↔ BackgroundMark str := by
  have place : markPlace argv str = argv + (str.length - 2) := by
    rw [markPlace, int32_of_small small]
    omega
  have char := isText.chars (str.length - 2) (by
    rw [List.length_append]
    omega)
  rw [List.getD_append _ _ _ _ (by omega)] at char
  unfold MarkFound BackgroundMark
  rw [place, endText_apply, if_neg (by omega), char]

/-- A string without a mark whose words fit the table. -/
theorem splitArguments_fits (isText : TextAt mem argv str)
    (enough : str.length + 1 < fuel) (unmarked : ¬ MarkFound mem argv str)
    (fits : FitTable 0 (argWords str)) :
    ∃ (k : Nat) (looked : List Nat), splitArguments fuel mem argv stale =
        .ok { mem := endText mem (argv + str.length)
              argc := (argWords str).length
              args := fillArgs 0 (argWords str) stale
              k
              looked := (List.range (str.length + 1)).map Int.ofNat ++
                (int32 str.length - 2) :: looked.map Int.ofNat } ∧
      ((EndsBlank str ∧ k = str.length) ∨
        (¬ EndsBlank str ∧ k = str.length + 1)) ∧
      ∀ index ∈ looked, index ≤ k := by
  obtain ⟨k, looked, split, ending, inside⟩ :=
    @splitWords_string fuel str stale _ isText.noNul (holdsAt_ended isText)
      fits enough
  refine ⟨k, looked, ?_, ending, inside⟩
  rw [splitArguments_eq isText (by omega), unmarkedMemory unmarked, split]
  show Except.ok (argumentsEnd mem argv str _) = _
  rw [argumentsEnd, unmarkedMemory unmarked, if_neg unmarked]

/-- A string without a mark with a word that does not fit the table. -/
theorem splitArguments_outside (isText : TextAt mem argv str)
    (enough : str.length + 1 < fuel) (unmarked : ¬ MarkFound mem argv str)
    (tooLong : ¬ FitTable 0 (argWords str)) :
    splitArguments fuel mem argv stale = .error .outOfBounds := by
  rw [splitArguments_eq isText (by omega), unmarkedMemory unmarked,
    splitWords_string_outside isText.noNul (holdsAt_ended isText) tooLong
      enough]
  rfl

theorem FitTable.small (isText : TextAt mem argv str)
    (fits : FitTable 0 (argWords str)) : str.length ≤ 1600 := by
  obtain ⟨parts, -, words, bytes⟩ := exists_parts isText.noNul
  rw [words] at fits
  have short := fits.short
  rcases bytes with ⟨-, same⟩ | ⟨-, same⟩
  · rwa [same] at short
  · rw [same, List.length_append] at short
    omega

/-- What an exact split needs. -/
theorem SplitsExactly.needs (isText : TextAt mem argv str)
    (exactly : SplitsExactly mem argv str stale) :
    2 ≤ str.length ∧ ¬ BackgroundMark str ∧ EndsBlank str ∧
      FitTable 0 (argWords str) ∧ mem (argv + str.length + 1) = 0 := by
  obtain ⟨least, splits⟩ := exactly
  obtain ⟨fuel, fuel_eq⟩ : ∃ fuel, fuel = least + str.length + 2 :=
    ⟨_, rfl⟩
  obtain ⟨ended, returned, inside, atNul, same, -, -⟩ :=
    splits fuel (by omega)
  have unmarked : ¬ MarkFound mem argv str := by
    intro marked
    rw [splitArguments_mem isText (by omega) returned] at same
    exact markedMemory_ne marked same
  by_cases fits : FitTable 0 (argWords str)
  · have small := fits.small isText
    obtain ⟨k, looked, run, ends, -⟩ :=
      @splitArguments_fits _ _ fuel _ stale isText (by omega) unmarked fits
    rw [run, Except.ok.injEq] at returned
    subst returned
    have mark := inside (int32 str.length - 2)
      (List.mem_append_right _ (List.mem_cons_self ..))
    rw [int32_of_small (by omega)] at mark
    have long : 2 ≤ str.length := by omega
    refine ⟨long, ?_, ?_, fits, ?_⟩
    · rwa [markFound_iff isText long (by omega)] at unmarked
    · rcases ends with ⟨ends, -⟩ | ⟨-, behind⟩
      · exact ends
      · have stop : k = str.length := atNul
        omega
    · have kept : endText mem (argv + str.length)
          (argv + str.length + 1) = mem (argv + str.length + 1) :=
        congrFun same _
      rw [endText_apply, if_pos (.inr rfl)] at kept
      exact kept.symm
  · rw [splitArguments_outside isText (by omega) unmarked fits] at returned
    cases returned
/-- That is enough. -/
theorem splitsExactly_of_blank (isText : TextAt mem argv str)
    (long : 2 ≤ str.length) (notMarked : ¬ BackgroundMark str)
    (endsBlank : EndsBlank str) (fits : FitTable 0 (argWords str))
    (nul : mem (argv + str.length + 1) = 0) :
    SplitsExactly mem argv str stale := by
  have small := fits.small isText
  refine ⟨str.length + 2, fun fuel enough => ?_⟩
  have run : ∀ other, TextAt other argv str → ∃ looked : List Nat,
      splitArguments fuel other argv stale =
        .ok { mem := endText other (argv + str.length)
              argc := (argWords str).length
              args := fillArgs 0 (argWords str) stale
              k := str.length
              looked := (List.range (str.length + 1)).map Int.ofNat ++
                (int32 str.length - 2) :: looked.map Int.ofNat } ∧
        ∀ index ∈ looked, index ≤ str.length := by
    intro other otherText
    have unmarked : ¬ MarkFound other argv str := by
      rwa [markFound_iff otherText long (by omega)]
    obtain ⟨k, looked, run, ends, inside⟩ :=
      @splitArguments_fits _ _ fuel _ stale otherText (by omega) unmarked
        fits
    rcases ends with ⟨-, rfl⟩ | ⟨goesOn, -⟩
    · exact ⟨looked, run, inside⟩
    · exact absurd endsBlank goesOn
  obtain ⟨looked, returned, inside⟩ := run mem isText
  refine ⟨_, returned, ?_, rfl, ?_, ?_, ?_⟩
  · intro index member
    rcases List.mem_append.mp member with inString | later
    · obtain ⟨place, isPlace, rfl⟩ := List.mem_map.mp inString
      have below := List.mem_range.mp isPlace
      exact ⟨Int.natCast_nonneg place,
        Int.ofNat_le.mpr (Nat.le_of_lt_succ below)⟩
    · rcases List.mem_cons.mp later with isMark | inLoops
      · rw [isMark, int32_of_small (by omega)]
        omega
      · obtain ⟨place, isPlace, rfl⟩ := List.mem_map.mp inLoops
        exact ⟨Int.natCast_nonneg place,
          Int.ofNat_le.mpr (inside place isPlace)⟩
  · funext place
    show endText mem (argv + str.length) place = mem place
    rw [endText_apply]
    split
    · rename_i isNul
      rcases isNul with rfl | rfl
      · exact isText.ended.symm
      · exact nul.symm
    · rfl
  · intro _ _ short
    refine ⟨rfl, fun index word isWord => ?_⟩
    have held : HoldsAt (fillArgs 0 (argWords str) stale)
        ((0 + index) * 64) (word ++ [0]) :=
      holdsAt_fillArgs isWord (short word (List.mem_of_getElem? isWord))
    rwa [Nat.zero_add] at held
  · intro other same
    have otherText : TextAt other argv str :=
      isText.congr fun place _ below => same place below
    obtain ⟨otherLooked, otherReturned, -⟩ := run other otherText
    refine ⟨_, otherReturned, ?_, ?_⟩
    · rfl
    · rfl

/-- The split is exact and in bounds exactly when the string has two
characters or more, no mark, a blank at its end and words that fit the table,
and when the byte behind its NUL was a NUL too. -/
theorem splitArguments_splitsExactly_iff (isText : TextAt mem argv str) :
    SplitsExactly mem argv str stale ↔
      2 ≤ str.length ∧ ¬ BackgroundMark str ∧ EndsBlank str ∧
        FitTable 0 (argWords str) ∧ mem (argv + str.length + 1) = 0 := by
  constructor
  · exact fun exactly => exactly.needs isText
  · rintro ⟨long, notMarked, endsBlank, fits, nul⟩
    exact splitsExactly_of_blank isText long notMarked endsBlank fits nul

end Strings

/-- A memory with a string and NULs behind it. -/
def memoryOf (str : List Byte) : Memory :=
  fun place => str.getD place 0

theorem splitArguments_splitsExactly_ps :
    SplitsExactly (memoryOf [0x70, 0x73, 0x20]) 0 [0x70, 0x73, 0x20]
        (fun _ => 0) ↔
      2 ≤ [0x70, 0x73, 0x20].length ∧
        ¬ BackgroundMark [0x70, 0x73, 0x20] ∧ EndsBlank [0x70, 0x73, 0x20] ∧
          FitTable 0 (argWords [0x70, 0x73, 0x20]) ∧
            memoryOf [0x70, 0x73, 0x20] (0 + 3 + 1) = 0 :=
  splitArguments_splitsExactly_iff (textAt_getD (by decide))

/-- After `"ps"` the byte behind the NUL is read. -/
theorem not_splitsExactly_ps :
    TextAt (memoryOf [0x70, 0x73]) 0 [0x70, 0x73] ∧
      ¬ SplitsExactly (memoryOf [0x70, 0x73]) 0 [0x70, 0x73]
        fun _ => 0 := by
  have isText : TextAt (memoryOf [0x70, 0x73]) 0 [0x70, 0x73] :=
    textAt_getD (by decide)
  refine ⟨isText, fun exactly => ?_⟩
  obtain ⟨-, -, endsBlank, -⟩ := exactly.needs isText
  exact absurd (endsBlank 0x73 rfl) (by decide)

/-! ## The loops of the kernel -/

section Kernel

variable {k : Kernel} {argv : Word} {text : Nat → Byte} {last i : Nat}

theorem putArg_of_storeArg {args stored : Nat → Byte} {index : Nat}
    {byte : Byte} (returned : storeArg args index byte = .ok stored) :
    putArg args index byte k = .ok (stored, k) := by
  by_cases inside : index < 5 * 64
  · rw [storeArg_eq inside] at returned
    cases returned
    exact putArg_eq inside byte
  · rw [storeArg_outside (Nat.not_lt.mp inside)] at returned
    cases returned

theorem splitWord_le :
    ∀ {fuel j start : Nat} {args : Nat → Byte} {ended : WordEnd},
      splitWord text i fuel j start args = .ok ended → start ≤ ended.k := by
  intro fuel
  induction fuel with
  | zero =>
      intro j start args ended returned
      cases returned
  | succ fuel inductionHypothesis =>
      intro j start args ended returned
      rw [splitWord] at returned
      split at returned
      · obtain ⟨stored, -, returned⟩ := exists_of_bind_ok returned
        obtain ⟨later, rest, returned⟩ := exists_of_bind_ok returned
        cases returned
        have behind : start + 1 ≤ later.k := inductionHypothesis rest
        exact Nat.le_of_succ_le behind
      · obtain ⟨stored, -, returned⟩ := exists_of_bind_ok returned
        cases returned
        exact Nat.le_refl _

theorem splitWords_le :
    ∀ {fuel i start : Nat} {args : Nat → Byte} {ended : SplitEnd},
      splitWords text fuel i start args = .ok ended → start ≤ ended.k := by
  intro fuel
  induction fuel with
  | zero =>
      intro i start args ended returned
      cases returned
  | succ fuel inductionHypothesis =>
      intro i start args ended returned
      rw [splitWords] at returned
      split at returned
      · obtain ⟨word, oneWord, returned⟩ := exists_of_bind_ok returned
        obtain ⟨later, rest, returned⟩ := exists_of_bind_ok returned
        cases returned
        have first := splitWord_le oneWord
        have behind := inductionHypothesis rest
        show start ≤ later.k
        omega
      · cases returned
        exact Nat.le_refl _

/-- The inner loop of the kernel copies the same word. -/
theorem copyArg_of_splitWord (reads : ReadsText k argv text last) :
    ∀ {fuel j start : Nat} {args : Nat → Byte} {ended : WordEnd},
      splitWord text i fuel j start args = .ok ended → ended.k ≤ last →
        copyArg argv i fuel j start args k =
          .ok ((ended.k, ended.args), k) := by
  intro fuel
  induction fuel with
  | zero =>
      intro j start args ended returned
      cases returned
  | succ fuel inductionHypothesis =>
      intro j start args ended returned within
      have behind := splitWord_le returned
      rw [splitWord] at returned
      rw [copyArg, bind_of_ok (reads start (by omega))]
      split at returned
      · rename_i goesOn
        obtain ⟨stored, isStored, returned⟩ := exists_of_bind_ok returned
        obtain ⟨later, rest, returned⟩ := exists_of_bind_ok returned
        cases returned
        have goes := inductionHypothesis rest
          (show later.k ≤ last from within)
        rw [if_pos goesOn, bind_of_ok (putArg_of_storeArg isStored)]
        exact goes
      · rename_i stops
        obtain ⟨stored, isStored, returned⟩ := exists_of_bind_ok returned
        cases returned
        rw [if_neg stops, bind_of_ok (putArg_of_storeArg isStored)]
        rfl

/-- The kernel splits a text that it can read in the same way. -/
theorem splitArgs_of_splitWords (reads : ReadsText k argv text last) :
    ∀ {fuel i start : Nat} {args : Nat → Byte} {ended : SplitEnd},
      splitWords text fuel i start args = .ok ended → ended.k ≤ last →
        splitArgs argv fuel i start args k =
          .ok ((ended.i, ended.args), k) := by
  intro fuel
  induction fuel with
  | zero =>
      intro i start args ended returned
      cases returned
  | succ fuel inductionHypothesis =>
      intro i start args ended returned within
      have behind := splitWords_le returned
      rw [splitWords] at returned
      rw [splitArgs, bind_of_ok (reads start (by omega))]
      split at returned
      · rename_i notNul
        obtain ⟨word, oneWord, returned⟩ := exists_of_bind_ok returned
        obtain ⟨later, rest, returned⟩ := exists_of_bind_ok returned
        cases returned
        have laterBehind := splitWords_le rest
        have laterWithin : later.k ≤ last := within
        have copied := copyArg_of_splitWord reads oneWord
          (show word.k ≤ last by omega)
        have goes := inductionHypothesis rest laterWithin
        rw [if_pos notNul, bind_of_ok copied]
        exact goes
      · rename_i nul
        cases returned
        rw [if_neg nul]
        rfl

/-- What `execve` reads from a caller whose string has no mark and words that
fit the table. -/
theorem readArguments_of_fits {region : Word → Prop} {place : Word → Nat}
    {m : Word → Byte} {filename : Word} {file str : List Byte} {fuel : Nat}
    (caller : Caller region place m k filename argv file str)
    (unmarked : ¬ Marked m argv str) (fits : FitTable 0 (argWords str))
    (enough : str.length + 1 < fuel) (enoughName : file.length < fuel)
    (stale : Nat → Byte) :
    ∃ next, readArguments fuel stale filename argv k =
      .ok ((file, ((argWords str).length : Int),
        fillArgs 0 (argWords str) stale), next) := by
  obtain ⟨next, memory, read⟩ :=
    readArguments_eq caller (show str.length < fuel by omega) enoughName stale
  have isString : splitText m argv str = fun index => str.getD index 0 := by
    funext index
    unfold splitText
    rw [if_neg (by tauto), if_neg (by tauto)]
  have holds : HoldsAt (splitText m argv str) 0 (str ++ [0] ++ [0]) := by
    rw [isString, List.append_assoc]
    exact holdsAt_getD str 2
  obtain ⟨stop, looked, split, ending, -⟩ :=
    @splitWords_string fuel str stale _ caller.noNul holds fits enough
  have copied := splitArgs_of_splitWords (readsText_split caller memory)
    split (show stop ≤ str.length + 1 by omega)
  refine ⟨next, ?_⟩
  rw [read, bind_of_ok copied]
  simp only [if_neg unmarked]
  rfl

end Kernel

end SbuUnix
