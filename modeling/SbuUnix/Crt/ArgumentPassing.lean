import Mathlib.Tactic.IntervalCases
import SbuUnix.Crt.Start

/-!
# Arguments from `execve` to `main`

`execve` stores the arguments in slots of 64 bytes below the user stack, and
`_start` reads them back through arrays of 50 bytes.
-/

namespace SbuUnix

open Outcome

/-! ## The string of an argument list -/

/-- The arguments of a caller: at most as many and as long as the slots. -/
structure ArgList (args : List (List Byte)) : Prop where
  count : args.length ≤ 5
  plain : ∀ arg ∈ args, arg ≠ [] ∧ arg.length ≤ 63 ∧ Plain arg

/-- The arguments with spaces between them. -/
def joinArgs (args : List (List Byte)) : List Byte :=
  [0x20].intercalate args

theorem joinArgs_concat (front : List (List Byte)) (arg : List Byte) :
    joinArgs (front ++ [arg]) =
      partBytes (front.map fun other => (other, 0x20)) ++ arg := by
  induction front with
  | nil => simp [joinArgs, partBytes, List.intercalate]
  | cons first rest inductionHypothesis =>
      have step : joinArgs (first :: (rest ++ [arg])) =
          first ++ 0x20 :: joinArgs (rest ++ [arg]) := by
        cases rest <;> simp [joinArgs, List.intercalate]
      rw [List.cons_append, step, inductionHypothesis]
      rw [List.map_cons, partBytes_cons]
      simp

theorem ArgList.noNul {args : List (List Byte)} (isList : ArgList args) :
    ∀ arg ∈ args, 0 ∉ arg :=
  fun arg member nul => (isList.plain arg member).2.2 0 nul (.inr (.inl rfl))

theorem slots_of_parts {parts : List (List Byte × Byte)} {slots : Nat → Byte}
    (held : ∀ index (within : index < parts.length),
      parts[index].1.length ≤ 63 →
        HoldsAt slots ((0 + index) * 64) (parts[index].1 ++ [0]))
    {index : Nat} {arg : List Byte}
    (isPart : (parts.map Prod.fst)[index]? = some arg)
    (length : arg.length ≤ 63) : HoldsAt slots (index * 64) (arg ++ [0]) := by
  obtain ⟨inside, rfl⟩ := List.getElem?_eq_some_iff.mp isPart
  rw [List.getElem_map] at length ⊢
  have here := held index (by simpa using inside) length
  rwa [Nat.zero_add] at here

/-- Parts that fill the text up to a NUL are all the arguments there are. -/
theorem splitArgs_all {k : Kernel} {argv : Word} {text : Nat → Byte}
    {last fuel : Nat} (reads : ReadsText k argv text last)
    {parts : List (List Byte × Byte)}
    (holds : HoldsAt text 0 (partBytes parts ++ [0])) (fits : Fits 0 parts)
    (within : (partBytes parts).length ≤ last)
    (short : ∀ part ∈ parts, part.1.length + parts.length < fuel)
    (enough : parts.length < fuel) (stale : Nat → Byte) :
    ∃ slots, splitArgs argv fuel 0 0 stale k =
        .ok ((parts.length, slots), k) ∧
      ∀ index arg, (parts.map Prod.fst)[index]? = some arg →
        arg.length ≤ 63 → HoldsAt slots (index * 64) (arg ++ [0]) := by
  obtain ⟨holdsParts, nul⟩ := holdsAt_append.mp holds
  obtain ⟨more, rfl⟩ : ∃ more, fuel = more + 1 + parts.length :=
    ⟨fuel - 1 - parts.length, by omega⟩
  obtain ⟨slots, goesOn, -, held⟩ :=
    @splitArgs_parts k argv text last reads parts (more + 1) 0 0 stale
      holdsParts fits (by omega) fun part member => by
        have length := short part member
        omega
  refine ⟨slots, ?_, fun index arg isPart => slots_of_parts held isPart⟩
  rw [goesOn, Nat.zero_add, Nat.zero_add]
  rw [Nat.zero_add] at nul
  exact splitArgs_end reads within (holdsAt_cons.mp nul).1

/-- Parts of arguments that fit the slots. -/
theorem fits_of_short {parts : List (List Byte × Byte)}
    (count : parts.length ≤ 5)
    (plain : ∀ part ∈ parts, part.1 ≠ [] ∧ Plain part.1 ∧ IsSeparator part.2)
    (short : ∀ part ∈ parts, part.1.length ≤ 63) : Fits 0 parts where
  plain := plain
  room := by
    intro index within
    have length := short _ (List.getElem_mem within)
    omega

theorem ArgList.spaced {args : List (List Byte)}
    (fine : ∀ arg ∈ args, arg ≠ [] ∧ arg.length ≤ 63 ∧ Plain arg) :
    ∀ part ∈ args.map fun arg => (arg, (0x20 : Byte)),
      part.1 ≠ [] ∧ Plain part.1 ∧ IsSeparator part.2 := by
  intro part member
  obtain ⟨arg, isArg, rfl⟩ := List.mem_map.mp member
  obtain ⟨nonempty, -, plain⟩ := fine arg isArg
  exact ⟨nonempty, plain, .inl rfl⟩

section Encoding

variable {region : Word → Prop} {place : Word → Nat} {k : Kernel}
variable {m : Word → Byte} {filename argv : Word} {file : List Byte}
variable {args : List (List Byte)} {fuel : Nat}

theorem ArgList.length_joinArgs (isList : ArgList args) :
    (joinArgs args).length ≤ 320 := by
  have count := isList.count
  obtain rfl | ⟨front, last, rfl⟩ := List.eq_nil_or_concat args
  · exact Nat.zero_le _
  · rw [List.concat_eq_append] at isList count ⊢
    have short : ∀ arg ∈ front ++ [last], arg.length ≤ 63 :=
      fun arg member => (isList.plain arg member).2.1
    have length := @length_partBytes
      (front.map fun other => (other, 0x20)) 63 fun part member => by
        obtain ⟨arg, isArg, rfl⟩ := List.mem_map.mp member
        exact short arg (List.mem_append_left _ isArg)
    have lastShort := short last (List.mem_append_right _ (by simp))
    rw [List.length_append, List.length_singleton] at count
    rw [List.length_map] at length
    rw [joinArgs_concat, List.length_append]
    omega

/-- A text that is all parts gives their number and puts each into its
slot. -/
theorem readArguments_of_parts
    (caller : Caller region place m k filename argv file (joinArgs args))
    (isList : ArgList args) (enough : 512 ≤ fuel)
    {parts : List (List Byte × Byte)}
    (holds : HoldsAt (splitText m argv (joinArgs args)) 0
      (partBytes parts ++ [0]))
    (fits : Fits 0 parts) (count : parts.length ≤ 5)
    (within : (partBytes parts).length ≤ (joinArgs args).length + 1)
    (stale : Nat → Byte) :
    ∃ slots next, readArguments fuel stale filename argv k =
        .ok ((file, if Marked m argv (joinArgs args) then
          (parts.length : Int) - 1 else parts.length, slots), next) ∧
      ∀ index arg, (parts.map Prod.fst)[index]? = some arg →
        arg.length ≤ 63 → HoldsAt slots (index * 64) (arg ++ [0]) := by
  have length := isList.length_joinArgs
  have nameShort := caller.nameShort
  obtain ⟨next, memory, runs⟩ := @readArguments_eq region place k m filename
    argv file (joinArgs args) caller fuel (by omega) (by omega) stale
  have short : ∀ part ∈ parts, part.1.length + parts.length < fuel := by
    intro part member
    obtain ⟨index, inside, rfl⟩ := List.getElem_of_mem member
    have room := fits.room index inside
    omega
  obtain ⟨slots, split, held⟩ := splitArgs_all (readsText_split caller memory)
    holds fits within short (by omega) stale
  refine ⟨slots, next, ?_, held⟩
  rw [runs, bind_of_ok split]
  rfl

/-- The parts that the arguments make of their string. -/
def argParts (front : List (List Byte)) (last : List Byte) :
    List (List Byte × Byte) :=
  (front.map fun arg => (arg, 0x20)) ++ [(last, 0)]

theorem partBytes_argParts (front : List (List Byte)) (last : List Byte) :
    partBytes (argParts front last) = joinArgs (front ++ [last]) ++ [0] := by
  rw [joinArgs_concat]
  simp [argParts, partBytes]

theorem map_fst_argParts (front : List (List Byte)) (last : List Byte) :
    (argParts front last).map Prod.fst = front ++ [last] := by
  unfold argParts
  rw [List.map_append, List.map_map]
  exact congrArg (· ++ [last]) (List.map_id front)

theorem length_argParts (front : List (List Byte)) (last : List Byte) :
    (argParts front last).length = front.length + 1 := by
  simp [argParts]

theorem ArgList.fits {front : List (List Byte)} {last : List Byte}
    (isList : ArgList (front ++ [last])) : Fits 0 (argParts front last) := by
  have count := isList.count
  rw [List.length_append, List.length_singleton] at count
  have frontFine : ∀ arg ∈ front, arg ≠ [] ∧ arg.length ≤ 63 ∧ Plain arg :=
    fun arg member => isList.plain arg (List.mem_append_left _ member)
  have lastFine := isList.plain last (List.mem_append_right _ (by simp))
  apply fits_of_short
  · rw [length_argParts]
    exact count
  · intro part member
    rcases List.mem_append.mp member with inFront | isLast
    · exact ArgList.spaced frontFine part inFront
    · rw [List.mem_singleton.mp isLast]
      exact ⟨lastFine.1, lastFine.2.2, .inr (.inl rfl)⟩
  · intro part member
    have isArg : part.1 ∈ front ++ [last] := by
      rw [← map_fst_argParts]
      exact List.mem_map_of_mem member
    exact (isList.plain part.1 isArg).2.1

theorem getD_behind (front rest : List Byte) (index : Nat) :
    (front ++ rest).getD (front.length + index) 0 = rest.getD index 0 := by
  rw [List.getD_append_right _ _ _ _ (Nat.le_add_right _ _),
    Nat.add_sub_cancel_left]

/-- Without the mark every argument comes into its slot. -/
theorem readArguments_unmarked
    (caller : Caller region place m k filename argv file (joinArgs args))
    (isList : ArgList args) (enough : 512 ≤ fuel)
    (unmarked : ¬ Marked m argv (joinArgs args)) (stale : Nat → Byte) :
    ∃ slots next, readArguments fuel stale filename argv k =
        .ok ((file, (args.length : Int), slots), next) ∧
      ∀ index arg, args[index]? = some arg →
        HoldsAt slots (index * 64) (arg ++ [0]) := by
  have text : splitText m argv (joinArgs args) =
      fun index => (joinArgs args).getD index 0 := by
    funext index
    unfold splitText
    rw [if_neg (by tauto), if_neg (by tauto)]
  have count := isList.count
  obtain rfl | ⟨front, last, concat⟩ := List.eq_nil_or_concat args
  · have noParts : Fits 0 [] :=
      ⟨fun _ none => absurd none List.not_mem_nil, fun _ none =>
        absurd none (Nat.not_lt_zero _)⟩
    obtain ⟨slots, next, read, -⟩ :=
      @readArguments_of_parts region place k m filename argv file []
        fuel caller isList enough [] (by rw [text]; exact holdsAt_getD [] 1)
        noParts (Nat.zero_le _) (Nat.zero_le _) stale
    rw [if_neg unmarked] at read
    exact ⟨slots, next, read, fun index arg none => by simp at none⟩
  · rw [List.concat_eq_append] at concat
    subst concat
    obtain ⟨slots, next, read, held⟩ :=
      @readArguments_of_parts region place k m filename argv file
        (front ++ [last]) fuel caller isList enough (argParts front last)
        (by
          rw [text, partBytes_argParts, List.append_assoc]
          exact holdsAt_getD _ 2)
        isList.fits
        (by
          rw [length_argParts]
          simpa using count)
        (by rw [partBytes_argParts, List.length_append]; rfl) stale
    rw [if_neg unmarked, length_argParts] at read
    rw [map_fst_argParts] at held
    refine ⟨slots, next, ?_, ?_⟩
    · rw [List.length_append, List.length_singleton]
      exact read
    · intro index arg isArg
      exact held index arg isArg
        (isList.plain arg (List.mem_of_getElem? isArg)).2.1

/-! ### The mark -/

theorem Caller.byteAt {str : List Byte}
    (caller : Caller region place m k filename argv file str) {index : Nat}
    (within : index < str.length) :
    m (argv + BitVec.ofNat 64 index) = str.getD index 0 := by
  have length : index < (str ++ [0]).length := by
    rw [List.length_append]
    omega
  rw [encodedAt_iff.mp caller.encoded index length,
    List.getD_append _ _ _ _ within]

/-- The mark is the last byte but one, where the string has it. -/
theorem Caller.marked_iff {front : List Byte} {second last : Byte}
    (caller : Caller region place m k filename argv file
      (front ++ [second, last])) :
    Marked m argv (front ++ [second, last]) ↔ second = 0x26 := by
  have within : front.length < (front ++ [second, last]).length := by simp
  have byte := caller.byteAt within
  have position : argv + BitVec.ofNat 64 (front ++ [second, last]).length - 2 =
      argv + BitVec.ofNat 64 front.length := by
    rw [mark_eq, argv_add argv front.length, List.length_append]
    rfl
  have found : (front ++ [second, last]).getD front.length 0 = second := by
    exact getD_behind front [second, last] 0
  unfold Marked
  rw [position, byte, found]

/-- What a mark makes of the text. -/
theorem holdsAt_marked {front : List Byte} {third second last : Byte}
    (marked : Marked m argv (front ++ [third, second, last])) :
    HoldsAt (splitText m argv (front ++ [third, second, last])) 0
      (front ++ [0x2F, 0, last, 0, 0]) := by
  have length : (front ++ [third, second, last]).length =
      front.length + 3 := by
    simp
  apply holdsAt_append.mpr
  constructor
  · intro offset below
    unfold splitText
    rw [length, if_neg (by omega), if_neg (by omega), Nat.zero_add,
      List.getD_append _ _ _ _ below]
  · have rest : ∀ offset, splitText m argv (front ++ [third, second, last])
        (0 + front.length + offset) =
          if offset = 1 then 0 else if offset = 0 then 0x2F
          else [third, second, last].getD offset 0 := by
      intro offset
      unfold splitText
      rw [length, List.getD_append_right _ _ _ _ (by omega)]
      simp only [marked, true_and]
      have first : 0 + front.length + offset + 2 = front.length + 3 ↔
          offset = 1 := by omega
      have second : 0 + front.length + offset + 3 = front.length + 3 ↔
          offset = 0 := by omega
      have distance : 0 + front.length + offset - front.length = offset := by
        omega
      simp only [first, second, distance]
    intro offset below
    rw [rest offset]
    simp only [List.length_cons, List.length_nil] at below
    interval_cases offset <;> rfl

/-- Why the arguments do not come through: the count is too small, or the
last slot has a `/` where the last argument goes on. -/
def Misread (args : List (List Byte)) (argc : Int) (slots : Nat → Byte) :
    Prop :=
  (-1 ≤ argc ∧ argc < args.length) ∨
    ∃ front start third last,
      args = front ++ [start ++ [third, 0x26, last]] ∧
        (∀ index arg, front[index]? = some arg →
          HoldsAt slots (index * 64) (arg ++ [0])) ∧
        HoldsAt slots (front.length * 64) (start ++ [0x2F] ++ [0])

theorem plain_slash {start : List Byte} (plain : Plain start) :
    Plain (start ++ [0x2F]) := by
  intro char member
  rcases List.mem_append.mp member with inStart | isSlash
  · exact plain char inStart
  · rw [List.mem_singleton.mp isSlash]
    unfold IsSeparator
    decide

/-- A marked last argument of two bytes goes to the one before it and to a
slot of its own. -/
theorem fits_marked {front : List (List Byte)} {before : List Byte}
    {second last : Byte}
    (isList : ArgList (front ++ [before] ++ [[second, last]])) :
    Fits 0 ((front.map fun arg => (arg, 0x20)) ++
      [(before ++ [0x2F], 0), ([last], 0)]) where
  plain := by
    intro part member
    rcases List.mem_append.mp member with inFront | isNew
    · apply ArgList.spaced _ part inFront
      intro arg isArg
      exact isList.plain arg (List.mem_append_left _
        (List.mem_append_left _ isArg))
    · have beforeFine := isList.plain before (List.mem_append_left _
        (List.mem_append_right _ (List.mem_singleton.mpr rfl)))
      have lastFine := isList.plain [second, last]
        (List.mem_append_right _ (List.mem_singleton.mpr rfl))
      rcases List.mem_cons.mp isNew with rfl | isLast
      · exact ⟨by simp, plain_slash beforeFine.2.2, .inr (.inl rfl)⟩
      · rw [List.mem_singleton.mp isLast]
        refine ⟨by simp, ?_, .inr (.inl rfl)⟩
        intro char isChar
        apply lastFine.2.2 char
        rw [List.mem_singleton.mp isChar]
        simp
  room := by
    intro index within
    have count := isList.count
    have short : ∀ arg ∈ front ++ [before], arg.length ≤ 63 :=
      fun arg member => (isList.plain arg (List.mem_append_left _ member)).2.1
    simp only [List.length_append, List.length_map, List.length_cons,
      List.length_nil] at within count
    by_cases inFront : index < front.length
    · have length := short _ (List.mem_append_left _
        (List.getElem_mem inFront))
      rw [List.getElem_append_left (by simpa using inFront), List.getElem_map]
      dsimp only
      omega
    · rw [List.getElem_append_right (by simpa using inFront)]
      have beforeShort := short before (by simp)
      obtain first | second : index - front.length = 0 ∨
          index - front.length = 1 := by omega
      · simp only [List.length_map, first, List.getElem_cons_zero,
          List.length_append, List.length_singleton]
        omega
      · simp only [List.length_map, second, List.getElem_cons_succ,
          List.getElem_cons_zero, List.length_singleton]
        omega

theorem misread_of_parts
    (caller : Caller region place m k filename argv file (joinArgs args))
    (isList : ArgList args) (enough : 512 ≤ fuel)
    (marked : Marked m argv (joinArgs args))
    (parts : List (List Byte × Byte))
    (holds : HoldsAt (splitText m argv (joinArgs args)) 0
      (partBytes parts ++ [0]))
    (fits : Fits 0 parts)
    (within : (partBytes parts).length ≤ (joinArgs args).length + 1)
    (fewer : parts.length ≤ args.length) (stale : Nat → Byte) :
    Yields AnyFault (readArguments fuel stale filename argv) k fun result _ =>
      Misread args result.2.1 result.2.2 := by
  have count := isList.count
  obtain ⟨slots, next, read, -⟩ := readArguments_of_parts caller isList
    enough holds fits (by omega) within stale
  rw [if_pos marked] at read
  rw [yields_iff_of_ok read]
  exact .inl ⟨by dsimp only; omega, by dsimp only; omega⟩

theorem fits_nil : Fits 0 [] :=
  ⟨fun _ none => absurd none List.not_mem_nil,
    fun _ none => absurd none (Nat.not_lt_zero _)⟩

/-- A last argument of one byte: the mark stands in front of the string, or
would be a space. -/
theorem misread_char {front : List (List Byte)} {char : Byte}
    (caller : Caller region place m k filename argv file
      (joinArgs (front ++ [[char]])))
    (isList : ArgList (front ++ [[char]])) (enough : 512 ≤ fuel)
    (marked : Marked m argv (joinArgs (front ++ [[char]])))
    (stale : Nat → Byte) :
    Yields AnyFault (readArguments fuel stale filename argv) k fun result _ =>
      Misread (front ++ [[char]]) result.2.1 result.2.2 := by
  obtain rfl | ⟨front, before, concat⟩ := List.eq_nil_or_concat front
  · have text : splitText m argv (joinArgs ([] ++ [[char]])) =
        fun index => [char].getD index 0 := by
      funext index
      unfold splitText
      rw [joinArgs_concat]
      simp [partBytes]
    apply misread_of_parts caller isList enough marked (argParts [] [char])
    · rw [text]
      exact holdsAt_getD [char] 2
    · exact isList.fits
    · rw [partBytes_argParts, List.length_append]
      rfl
    · exact Nat.le_refl 1
  · rw [List.concat_eq_append] at concat
    subst concat
    have string : joinArgs (front ++ [before] ++ [[char]]) =
        partBytes (front.map fun arg => (arg, 0x20)) ++ before ++
          [0x20, char] := by
      rw [joinArgs_concat]
      simp [partBytes]
    rw [string] at caller marked
    exact absurd (caller.marked_iff.mp marked) (by decide)

/-- A last argument of two bytes: its rest goes to the one before, or there is
none. -/
theorem misread_pair {front : List (List Byte)} {second char : Byte}
    (caller : Caller region place m k filename argv file
      (joinArgs (front ++ [[second, char]])))
    (isList : ArgList (front ++ [[second, char]])) (enough : 512 ≤ fuel)
    (marked : Marked m argv (joinArgs (front ++ [[second, char]])))
    (stale : Nat → Byte) :
    Yields AnyFault (readArguments fuel stale filename argv) k fun result _ =>
      Misread (front ++ [[second, char]]) result.2.1 result.2.2 := by
  obtain rfl | ⟨front, before, concat⟩ := List.eq_nil_or_concat front
  · apply misread_of_parts caller isList enough marked []
    · refine holdsAt_cons.mpr ⟨?_, holdsAt_nil⟩
      unfold splitText
      rw [if_pos ⟨marked, by rw [joinArgs_concat]; rfl⟩]
    · exact fits_nil
    · exact Nat.zero_le _
    · exact Nat.zero_le _
  · rw [List.concat_eq_append] at concat
    subst concat
    have string : joinArgs (front ++ [before] ++ [[second, char]]) =
        partBytes (front.map fun arg => (arg, 0x20)) ++ before ++
          [0x20, second, char] := by
      rw [joinArgs_concat]
      simp [partBytes]
    apply misread_of_parts caller isList enough marked
      ((front.map fun arg => (arg, 0x20)) ++
        [(before ++ [0x2F], 0), ([char], 0)])
    · have text := holdsAt_marked (string ▸ marked)
      rw [string]
      simpa [partBytes] using text
    · exact fits_marked isList
    · rw [string]
      simp [partBytes]
      omega
    · simp

/-- A longer last argument is cut, and its last byte goes to a slot of its
own. -/
theorem misread_rest {front : List (List Byte)} {start : List Byte}
    {third second char : Byte}
    (caller : Caller region place m k filename argv file
      (joinArgs (front ++ [start ++ [third, second, char]])))
    (isList : ArgList (front ++ [start ++ [third, second, char]]))
    (enough : 512 ≤ fuel)
    (marked : Marked m argv
      (joinArgs (front ++ [start ++ [third, second, char]])))
    (stale : Nat → Byte) :
    Yields AnyFault (readArguments fuel stale filename argv) k fun result _ =>
      Misread (front ++ [start ++ [third, second, char]]) result.2.1
        result.2.2 := by
  have length := isList.length_joinArgs
  have nameShort := caller.nameShort
  have count := isList.count
  rw [List.length_append, List.length_singleton] at count
  have string : joinArgs (front ++ [start ++ [third, second, char]]) =
      partBytes (front.map fun arg => (arg, 0x20)) ++ start ++
        [third, second, char] := by
    rw [joinArgs_concat, List.append_assoc]
  have mark : second = 0x26 := by
    rw [string, List.append_cons] at caller marked
    exact caller.marked_iff.mp marked
  have text := holdsAt_marked (string ▸ marked)
  rw [← string] at text
  have bytes : partBytes (argParts front (start ++ [0x2F])) =
      partBytes (front.map fun arg => (arg, 0x20)) ++ start ++ [0x2F, 0] := by
    rw [partBytes_argParts, joinArgs_concat]
    simp
  have size := congrArg List.length string
  have sizeBytes := congrArg List.length bytes
  simp only [List.length_append, List.length_cons, List.length_nil]
    at size sizeBytes
  have holds : HoldsAt (splitText m argv
      (joinArgs (front ++ [start ++ [third, second, char]]))) 0
        (partBytes (argParts front (start ++ [0x2F]))) := by
    have all : HoldsAt (splitText m argv
        (joinArgs (front ++ [start ++ [third, second, char]]))) 0
          (partBytes (argParts front (start ++ [0x2F])) ++ [char, 0, 0]) := by
      rw [bytes]
      simpa using text
    exact (holdsAt_append.mp all).1
  have fits : Fits 0 (argParts front (start ++ [0x2F])) := by
    apply ArgList.fits
    refine ⟨by simpa using count, ?_⟩
    intro arg member
    rcases List.mem_append.mp member with inFront | isLast
    · exact isList.plain arg (List.mem_append_left _ inFront)
    · rw [List.mem_singleton.mp isLast]
      obtain ⟨-, short, plain⟩ := isList.plain _
        (List.mem_append_right _ (List.mem_singleton.mpr rfl))
      rw [List.length_append] at short
      refine ⟨by simp, ?_, plain_slash fun byte inStart =>
        plain byte (List.mem_append_left _ inStart)⟩
      rw [List.length_append, List.length_singleton]
      simp only [List.length_cons, List.length_nil] at short
      omega
  obtain ⟨next, memory, runs⟩ := @readArguments_eq region place k m filename
    argv file _ caller fuel (by omega) (by omega) stale
  obtain ⟨more, rfl⟩ : ∃ more,
      fuel = more + (argParts front (start ++ [0x2F])).length := by
    rw [length_argParts]
    exact ⟨fuel - (front.length + 1), by omega⟩
  rw [length_argParts] at enough
  obtain ⟨slots, goesOn, -, held⟩ :=
    @splitArgs_parts next argv _ _ (readsText_split caller memory)
      (argParts front (start ++ [0x2F])) more 0 0 stale holds fits
      (by omega) fun part member => by
        obtain ⟨index, inside, rfl⟩ := List.getElem_of_mem member
        have room := fits.room index inside
        omega
  rw [yields_congr runs, yields_bind, yields_congr goesOn]
  apply (splitArgs_keeps argv _ _ _ _ _).mono
  intro result _ keeps
  rw [length_argParts] at keeps
  have short : (start ++ [0x2F]).length ≤ 63 := by
    have room := (isList.plain _
      (List.mem_append_right _ (List.mem_singleton.mpr rfl))).2.1
    simp only [List.length_append, List.length_cons, List.length_nil] at room ⊢
    omega
  have slotHeld : ∀ index arg, (front ++ [start ++ [0x2F]])[index]? = some arg →
      arg.length ≤ 63 → HoldsAt result.2 (index * 64) (arg ++ [0]) := by
    intro index arg isArg length
    have inside := (List.getElem?_eq_some_iff.mp isArg).1
    rw [← map_fst_argParts] at isArg
    apply (slots_of_parts held isArg length).congr
    intro other below
    rw [List.length_append, List.length_singleton] at below inside
    exact keeps other (by omega)
  refine .inr ⟨front, start, third, char, by rw [mark], ?_, ?_⟩
  · intro index arg isArg
    apply slotHeld
    · rw [List.getElem?_append_left (List.getElem?_eq_some_iff.mp isArg).1]
      exact isArg
    · exact (isList.plain arg
        (List.mem_append_left _ (List.mem_of_getElem? isArg))).2.1
  · apply slotHeld _ _ _ short
    rw [List.getElem?_concat_length]

/-- The mark always costs an argument. -/
theorem readArguments_marked
    (caller : Caller region place m k filename argv file (joinArgs args))
    (isList : ArgList args) (enough : 512 ≤ fuel)
    (marked : Marked m argv (joinArgs args)) (stale : Nat → Byte) :
    Yields AnyFault (readArguments fuel stale filename argv) k fun result _ =>
      Misread args result.2.1 result.2.2 := by
  obtain rfl | ⟨front, last, concat⟩ := List.eq_nil_or_concat args
  · apply misread_of_parts caller isList enough marked []
    · refine holdsAt_cons.mpr ⟨?_, holdsAt_nil⟩
      unfold splitText joinArgs
      simp
    · exact fits_nil
    · exact Nat.zero_le _
    · exact Nat.zero_le _
  rw [List.concat_eq_append] at concat
  subst concat
  have nonempty := (isList.plain last (List.mem_append_right _ (by simp))).1
  obtain rfl | ⟨start, char, concat⟩ := List.eq_nil_or_concat last
  · exact absurd rfl nonempty
  rw [List.concat_eq_append] at concat
  subst concat
  obtain rfl | ⟨start, second, concat⟩ := List.eq_nil_or_concat start
  · exact misread_char caller isList enough marked stale
  rw [List.concat_eq_append] at concat
  subst concat
  obtain rfl | ⟨start, third, concat⟩ := List.eq_nil_or_concat start
  · exact misread_pair caller isList enough marked stale
  rw [List.concat_eq_append] at concat
  subst concat
  have shape : start ++ [third] ++ [second] ++ [char] =
      start ++ [third, second, char] := by
    simp
  rw [shape] at caller isList marked ⊢
  exact misread_rest caller isList enough marked stale

end Encoding

/-! ## The stack of the new image -/

theorem toNat_readField_succ {bytes : Word → Byte} {addr : Word} {count : Nat}
    (small : (readField bytes (addr + 1) count).toNat < 256 ^ 7) :
    (readField bytes addr (count + 1)).toNat =
      (bytes addr).toNat + 256 * (readField bytes (addr + 1) count).toNat := by
  have low := (bytes addr).isLt
  rw [readField, BitVec.toNat_or, BitVec.toNat_shiftLeft, BitVec.toNat_setWidth,
    Nat.shiftLeft_eq, Nat.mod_eq_of_lt (by omega), Nat.mod_eq_of_lt (by omega),
    Nat.mul_comm _ (2 ^ 8), ← Nat.two_pow_add_eq_or_of_lt low]
  omega

/-- A field of up to eight bytes is read back. -/
theorem toNat_readField {bytes : Word → Byte} {word : Word} :
    ∀ {count start : Nat} {addr : Word}, count ≤ 8 →
      (∀ index < count, bytes (addr + BitVec.ofNat 64 index) =
        byteOf word (start + index)) →
        (readField bytes addr count).toNat =
          word.toNat / 256 ^ start % 256 ^ count := by
  intro count
  induction count with
  | zero =>
      intro start addr _ _
      rw [Nat.pow_zero, Nat.mod_one]
      rfl
  | succ count inductionHypothesis =>
      intro start addr small same
      have rest := @inductionHypothesis (start + 1) (addr + 1) (by omega)
        fun index below => by
          rw [← addr_add_succ, Nat.add_right_comm, Nat.add_assoc]
          exact same (index + 1) (by omega)
      have power : 256 ^ count ≤ 256 ^ 7 :=
        Nat.pow_le_pow_right (by decide) (by omega)
      have bound : word.toNat / 256 ^ (start + 1) % 256 ^ count <
          256 ^ count := Nat.mod_lt _ (Nat.pow_pos (by decide))
      have first := same 0 (Nat.succ_pos count)
      rw [show addr + BitVec.ofNat 64 0 = addr from BitVec.add_zero addr,
        Nat.add_zero] at first
      have byte : (bytes addr).toNat = word.toNat / 256 ^ start % 256 := by
        rw [first, byteOf, BitVec.extractLsb'_toNat, Nat.shiftRight_eq_div_pow,
          Nat.pow_mul]
      rw [toNat_readField_succ (by omega), rest, byte, Nat.pow_succ 256 count,
        Nat.mul_comm (256 ^ count), Nat.mod_mul, Nat.pow_succ,
        Nat.div_div_eq_div_mul]

/-- The memory of the new image when it starts. -/
def imageMemory (m : Word → Byte) (userStack : Word) (argc : Int)
    (slots : Nat → Byte) : Word → Byte :=
  copiedTo (copiedTo m slots (userStack - 328 + 8) 320)
    (fun index => byteOf (BitVec.ofInt 64 argc) index) (userStack - 328) 4

/-- A loaded image: its control block, and its new stack, which is cleared
where the arguments go. -/
structure NewImage (region : Word → Prop) (place : Word → Nat)
    (m : Word → Byte) (k : Kernel) (userPcb : Word) (pcb : Pcb) : Prop where
  found : k.procs.pcb userPcb = some pcb
  memory : UserMemory region place { k.paging with cr3 := pcb.cr3 } m
  inside : ∀ index < 328, region (pcb.userStack - 328 + BitVec.ofNat 64 index)
  cleared : ∀ index < 8, m (pcb.userStack - 328 + BitVec.ofNat 64 index) = 0

section Image

variable {region : Word → Prop} {place : Word → Nat} {k : Kernel}
variable {m : Word → Byte} {userPcb : Word} {pcb : Pcb}
variable {argc : Int} {slots : Nat → Byte}

theorem offset_add (addr : Word) (index : Nat) :
    addr + 8 + BitVec.ofNat 64 index = addr + BitVec.ofNat 64 (index + 8) := by
  apply BitVec.eq_of_toNat_eq
  simp only [BitVec.ofNat_eq_ofNat, BitVec.toNat_add, BitVec.toNat_ofNat]
  omega

theorem setCR3_eq (pml4Addr : Word) (s : Paging) :
    setCR3 pml4Addr s = .ok ((), { s with cr3 := pml4Addr }) :=
  rfl

theorem enterImage_eq (image : NewImage region place m k userPcb pcb) :
    ∃ next, enterImage userPcb argc slots k = .ok ((), next) ∧
      next.rsp = pcb.userStack - 328 ∧
        UserMemory region place next.paging
          (imageMemory m pcb.userStack argc slots) := by
  have slotsAt : pcb.userStack - 5 * 64 = pcb.userStack - 328 + 8 := by
    apply BitVec.eq_of_toNat_eq
    simp only [BitVec.ofNat_eq_ofNat, BitVec.toNat_add, BitVec.toNat_sub,
      BitVec.toNat_mul, BitVec.toNat_ofNat]
    omega
  have countAt : pcb.userStack - 5 * 64 - 8 = pcb.userStack - 328 := by
    rw [slotsAt]
    exact BitVec.add_sub_cancel _ _
  obtain ⟨first, copied, firstRoot, firstMemory⟩ :=
    @UserMemory.memcpyOut region place _ m image.memory slots
      (pcb.userStack - 5 * 64) 320 fun index below => by
        rw [slotsAt, offset_add]
        exact image.inside (index + 8) (by omega)
  obtain ⟨second, counted, secondRoot, memory⟩ :=
    @UserMemory.memcpyOut region place _ _ firstMemory
      (fun index => byteOf (BitVec.ofInt 64 argc) index)
      (pcb.userStack - 5 * 64 - 8) 4 fun index below => by
        rw [countAt]
        exact image.inside index (by omega)
  have runs : Yields (fun _ => False) (enterImage userPcb argc slots) k
      fun _ next => next.rsp = pcb.userStack - 328 ∧
        UserMemory region place next.paging
          (imageMemory m pcb.userStack argc slots) := by
    have foundThen : ∀ paging,
        ({ k with paging := paging } : Kernel).procs.pcb userPcb = some pcb :=
      fun _ => image.found
    unfold enterImage execveSwitchToRing3
    rw [yields_bind, yields_iff_of_ok (derefPcb_eq image.found), yields_bind,
      yields_runPaging, yields_iff_of_ok (setCR3_eq _ _), yields_bind,
      yields_runPaging, yields_iff_of_ok copied, yields_bind,
      yields_runPaging, yields_iff_of_ok counted, yields_bind,
      yields_iff_of_ok (storePcb_eq (foundThen second)), yields_bind,
      yields_iff_of_ok (storePcb_eq put_same), yields_bind,
      yields_setGlobals, yields_bind,
      yields_iff_of_ok (derefPcb_eq put_same), yields_bind,
      yields_runPaging, yields_iff_of_ok (setCR3_eq _ _), yields_modify]
    refine ⟨countAt, ?_⟩
    have root : second.cr3 = pcb.cr3 := secondRoot.trans firstRoot
    have same : { second with cr3 := pcb.cr3 } = second := by rw [← root]
    dsimp only
    rw [same, imageMemory, ← slotsAt, ← countAt]
    exact memory
  obtain ⟨_, next, returned, holds⟩ := runs.returns fun _ none => none.elim
  exact ⟨next, returned, holds⟩

theorem imageMemory_argc (image : NewImage region place m k userPcb pcb) :
    (readField (imageMemory m pcb.userStack argc slots)
      (pcb.userStack - 328) 8).toNat =
        (BitVec.ofInt 64 argc).toNat % 2 ^ 32 := by
  have low : (BitVec.ofInt 64 argc).toNat % 2 ^ 32 < 2 ^ 64 := by omega
  have bytes : ∀ index < 8, imageMemory m pcb.userStack argc slots
      (pcb.userStack - 328 + BitVec.ofNat 64 index) =
        byteOf (BitVec.ofNat 64 ((BitVec.ofInt 64 argc).toNat % 2 ^ 32))
          (0 + index) := by
    intro index below
    apply BitVec.eq_of_toNat_eq
    rw [Nat.zero_add, byteOf, BitVec.extractLsb'_toNat, BitVec.toNat_ofNat,
      Nat.shiftRight_eq_div_pow, Nat.mod_eq_of_lt low]
    unfold imageMemory
    by_cases count : index < 4
    · rw [copiedTo_same (by decide) count, byteOf, BitVec.extractLsb'_toNat,
        Nat.shiftRight_eq_div_pow]
      interval_cases index <;> omega
    · rw [copiedTo_of_ne, copiedTo_of_ne, image.cleared index below]
      · interval_cases index <;> simp at count ⊢ <;> omega
      · intro other within
        rw [offset_add]
        intro same
        have offsets := addr_add_inj (by omega) (by omega) same
        omega
      · intro other within same
        have offsets := addr_add_inj (by omega) (by omega) same
        omega
  rw [toNat_readField (Nat.le_refl 8) bytes, BitVec.toNat_ofNat]
  omega

/-- The slots of the new stack hold what `kernel_args` held. -/
theorem slots_of_held (image : NewImage region place m k userPcb pcb)
    {items : List (List Byte)} (count : items.length ≤ 5)
    (fine : ∀ item ∈ items, 0 ∉ item ∧ item.length ≤ 63)
    (held : ∀ index item, items[index]? = some item →
      HoldsAt slots (index * 64) (item ++ [0])) :
    Slots region (imageMemory m pcb.userStack argc slots)
      (pcb.userStack - 328 + 8) items where
  count := count
  noNul := fun item member => (fine item member).1
  encoded := by
    intro index within
    have short := (fine _ (List.getElem_mem within)).2
    have isHeld := held index _ (List.getElem?_eq_getElem within)
    apply encodedAt_iff.mpr
    intro offset below
    rw [← isHeld offset below]
    rw [List.length_append, List.length_singleton] at below
    have position : pcb.userStack - 328 + 8 + BitVec.ofNat 64 (64 * index) +
        BitVec.ofNat 64 offset =
          pcb.userStack - 328 + 8 + BitVec.ofNat 64 (index * 64 + offset) := by
      rw [BitVec.add_assoc, ← BitVec.ofNat_add, Nat.mul_comm]
    unfold imageMemory
    rw [position, copiedTo_of_ne, copiedTo_same (by decide) (by omega)]
    intro other inside
    rw [offset_add]
    intro same
    have offsets := addr_add_inj (by omega) (by omega) same
    omega
  inside := by
    intro index within offset below
    have short := (fine _ (List.getElem_mem within)).2
    rw [BitVec.add_assoc, ← BitVec.ofNat_add, offset_add]
    exact image.inside _ (by omega)

end Image

/-! ## The round trip -/

/-- `execve` reads the arguments in one state and enters the new image in a
later one, and `_start` ends there without a store outside its arrays and
blocks, and calls `main` with the arguments. -/
def ArgumentsReceived (fuel : Nat) (stale tempStr str : Nat → Byte)
    (filename argv userPcb : Word) (args : List (List Byte))
    (k loaded : Kernel) : Prop :=
  ∃ file argc slots afterwards entered received s,
    readArguments fuel stale filename argv k =
        .ok ((file, argc, slots), afterwards) ∧
      enterImage userPcb argc slots loaded = .ok ((), entered) ∧
        start fuel tempStr str entered.rsp entered.paging =
            .ok (received, s) ∧
          received.argc.toNat = args.length ∧
            ∀ index arg, args[index]? = some arg →
              HoldsAt (received.argv index) 0 (arg ++ [0])

section RoundTrip

variable {region newRegion : Word → Prop} {place newPlace : Word → Nat}
variable {m newMemory : Word → Byte} {k loaded : Kernel}
variable {filename argv userPcb : Word} {pcb : Pcb} {file : List Byte}
variable {args : List (List Byte)} {fuel : Nat}

theorem received_of_short
    (caller : Caller region place m k filename argv file (joinArgs args))
    (image : NewImage newRegion newPlace newMemory loaded userPcb pcb)
    (isList : ArgList args) (enough : 512 ≤ fuel)
    (short : ∀ arg ∈ args, arg.length ≤ 48)
    (unmarked : ¬ Marked m argv (joinArgs args))
    (stale tempStr str : Nat → Byte) :
    ArgumentsReceived fuel stale tempStr str filename argv userPcb args k
      loaded := by
  have count := isList.count
  obtain ⟨slots, afterwards, read, held⟩ :=
    readArguments_unmarked caller isList enough unmarked stale
  obtain ⟨entered, enters, rsp, memory⟩ :=
    @enterImage_eq newRegion newPlace loaded newMemory userPcb pcb
      (args.length : Int) slots image
  have slotsHold := @slots_of_held newRegion newPlace loaded newMemory userPcb
    pcb (args.length : Int) slots image args count
    (fun arg member =>
      ⟨isList.noNul arg member, (isList.plain arg member).2.1⟩) held
  have argc := @imageMemory_argc newRegion newPlace loaded newMemory userPcb
    pcb (args.length : Int) slots image
  have started := @yields_start newRegion newPlace entered.paging _ args fuel
    memory (pcb.userStack - 328) slotsHold
    (fun arg member => by have length := short arg member; omega)
    (fun index below => image.inside index (by omega))
    (by
      rw [argc, BitVec.ofInt_natCast, BitVec.toNat_ofNat]
      omega) tempStr str
  obtain ⟨received, s, returned, argcIs, argvIs⟩ :=
    started.returns fun _ tooLong => by
      obtain ⟨arg, member, length⟩ := tooLong
      exact absurd (short arg member) (Nat.not_le.mpr length)
  refine ⟨file, args.length, slots, afterwards, entered, received, s, read,
    enters, by rw [rsp]; exact returned, argcIs, ?_⟩
  intro index arg isArg
  obtain ⟨within, rfl⟩ := List.getElem?_eq_some_iff.mp isArg
  exact (argvIs index within).2

/-- Whatever comes into the slots, `main` gets what `execve` put there, and
only when it is short. -/
theorem received_eq
    (image : NewImage newRegion newPlace newMemory loaded userPcb pcb)
    {items : List (List Byte)} (count : items.length ≤ 5)
    (fine : ∀ item ∈ items, 0 ∉ item ∧ item.length ≤ 63)
    {argc : Int} {slots : Nat → Byte}
    (held : ∀ index item, items[index]? = some item →
      HoldsAt slots (index * 64) (item ++ [0]))
    (enough : 512 ≤ fuel) {entered : Kernel} {received : MainArgs} {s : Paging}
    {tempStr str : Nat → Byte}
    (enters : enterImage userPcb argc slots loaded = .ok ((), entered))
    (starts : start fuel tempStr str entered.rsp entered.paging =
      .ok (received, s)) :
    received.argc.toNat = (BitVec.ofInt 64 argc).toNat % 2 ^ 32 ∧
      (received.argc.toNat = items.length →
        ∀ index (within : index < items.length), items[index].length ≤ 48 ∧
          HoldsAt (received.argv index) 0 (items[index] ++ [0])) := by
  obtain ⟨next, returned, rsp, memory⟩ :=
    @enterImage_eq newRegion newPlace loaded newMemory userPcb pcb argc slots
      image
  have same := enters.symm.trans returned
  cases same
  rw [rsp] at starts
  have argcInside : ∀ index < 8,
      newRegion (pcb.userStack - 328 + BitVec.ofNat 64 index) :=
    fun index below => image.inside index (by omega)
  have stored := @imageMemory_argc newRegion newPlace loaded newMemory userPcb
    pcb argc slots image
  have passed := yields_of_ok (@start_argc newRegion newPlace entered.paging _
    fuel memory (pcb.userStack - 328) argcInside tempStr str) starts
  refine ⟨by rw [passed, stored], ?_⟩
  intro number
  have slotsHold := @slots_of_held newRegion newPlace loaded newMemory userPcb
    pcb argc slots image items count fine held
  have all := yields_of_ok
    (@yields_start newRegion newPlace entered.paging _ items fuel memory
      (pcb.userStack - 328) slotsHold
      (fun item member => by have short := (fine item member).2; omega)
      argcInside (by rw [← passed]; exact number) tempStr str) starts
  exact all.2

theorem short_of_received
    (caller : Caller region place m k filename argv file (joinArgs args))
    (image : NewImage newRegion newPlace newMemory loaded userPcb pcb)
    (isList : ArgList args) (enough : 512 ≤ fuel)
    {stale tempStr str : Nat → Byte}
    (isReceived : ArgumentsReceived fuel stale tempStr str filename argv
      userPcb args k loaded) :
    (∀ arg ∈ args, arg.length ≤ 48) ∧ ¬ Marked m argv (joinArgs args) := by
  obtain ⟨name, argc, slots, afterwards, entered, received, s, read, enters,
    starts, argcIs, argvIs⟩ := isReceived
  have fine : ∀ arg ∈ args, 0 ∉ arg ∧ arg.length ≤ 63 := fun arg member =>
    ⟨isList.noNul arg member, (isList.plain arg member).2.1⟩
  have count := isList.count
  by_cases marked : Marked m argv (joinArgs args)
  · exfalso
    obtain ⟨least, less⟩ | ⟨front, start, third, last, rfl, heldFront, cut⟩ :=
      yields_of_ok (readArguments_marked caller isList enough marked stale) read
    · -- the number of arguments is too small
      have number := (@received_eq newRegion newPlace newMemory loaded userPcb
        pcb fuel image [] (Nat.zero_le _)
        (fun _ none => absurd none List.not_mem_nil) argc slots
        (fun index _ none => by simp at none) enough entered received s tempStr
        str enters starts).1
      rw [argcIs] at number
      obtain negative | ⟨natural, rfl⟩ : argc = -1 ∨ ∃ natural : Nat,
          argc = natural := by
        dsimp only at least
        rcases lt_or_ge argc 0 with below | above
        · exact .inl (by omega)
        · exact .inr ⟨argc.toNat, by omega⟩
      · rw [negative, show (BitVec.ofInt 64 (-1)).toNat % 2 ^ 32 = 4294967295
          by decide] at number
        omega
      · dsimp only at less
        rw [BitVec.ofInt_natCast, BitVec.toNat_ofNat] at number
        omega
    · -- the slot of the last argument ends where the mark stood
      rw [List.length_append, List.length_singleton] at argcIs count
      obtain ⟨lastNul, lastShort⟩ := fine _
        (List.mem_append_right front (List.mem_singleton.mpr rfl))
      have items : ∀ item ∈ front ++ [start ++ [0x2F]],
          0 ∉ item ∧ item.length ≤ 63 := by
        intro item member
        rcases List.mem_append.mp member with inFront | isLast
        · exact fine item (List.mem_append_left _ inFront)
        · rw [List.mem_singleton.mp isLast]
          simp only [List.length_append, List.length_cons, List.length_nil]
            at lastShort ⊢
          refine ⟨fun nul => ?_, by omega⟩
          rcases List.mem_append.mp nul with inStart | slash
          · exact lastNul (List.mem_append_left _ inStart)
          · exact absurd (List.mem_singleton.mp slash) (by decide)
      have held : ∀ index item, (front ++ [start ++ [0x2F]])[index]? =
          some item → HoldsAt slots (index * 64) (item ++ [0]) := by
        intro index item isItem
        by_cases inFront : index < front.length
        · rw [List.getElem?_append_left inFront] at isItem
          exact heldFront index item isItem
        · have within := (List.getElem?_eq_some_iff.mp isItem).1
          rw [List.length_append, List.length_singleton] at within
          obtain rfl : index = front.length := by omega
          rw [List.getElem?_concat_length] at isItem
          cases isItem
          exact cut
      have all := (@received_eq newRegion newPlace newMemory loaded userPcb
        pcb fuel image (front ++ [start ++ [0x2F]]) (by simpa using count) items
        argc slots held enough entered received s tempStr str enters starts).2
        (by rw [argcIs]; simp) front.length (by simp)
      rw [List.getElem_concat_length rfl] at all
      have wanted := argvIs front.length _ (List.getElem?_concat_length ..)
      have nul := all.2 (start.length + 1) (by simp)
      have mark := wanted (start.length + 1) (by simp)
      have isNul : (start ++ [0x2F] ++ [0]).getD (start.length + 1) 0 =
          (0 : Byte) := by
        rw [List.append_assoc, getD_behind]
        rfl
      have isMark : (start ++ [third, 0x26, last] ++ [0]).getD
          (start.length + 1) 0 = (0x26 : Byte) := by
        rw [List.append_assoc, getD_behind]
        rfl
      rw [nul, isNul, isMark] at mark
      exact absurd mark (by decide)
  · refine ⟨?_, marked⟩
    obtain ⟨held, next, runs, slotsHold⟩ :=
      readArguments_unmarked caller isList enough marked stale
    have same := read.symm.trans runs
    cases same
    have all := (@received_eq newRegion newPlace newMemory loaded userPcb pcb
      fuel image args count fine _ slots slotsHold enough entered received s
      tempStr str enters starts).2 argcIs
    intro arg member
    obtain ⟨index, within, rfl⟩ := List.getElem_of_mem member
    exact (all index within).1

/-- The arguments come through exactly when each has room in an array of 50
bytes that gets two NULs, and the string does not end in a mark. -/
theorem argumentsReceived_iff
    (caller : Caller region place m k filename argv file (joinArgs args))
    (image : NewImage newRegion newPlace newMemory loaded userPcb pcb)
    (isList : ArgList args) (enough : 512 ≤ fuel)
    (stale tempStr str : Nat → Byte) :
    ArgumentsReceived fuel stale tempStr str filename argv userPcb args k
        loaded ↔
      (∀ arg ∈ args, arg.length ≤ 48) ∧ ¬ Marked m argv (joinArgs args) :=
  ⟨short_of_received caller image isList enough,
    fun ⟨short, unmarked⟩ => received_of_short caller image isList enough
      short unmarked stale tempStr str⟩

end RoundTrip

/-! ### Short and long arguments -/

/-- The page of a caller: words of the argument string from byte 16 on, and
the file name `b`. -/
def argPage (words : List Word) : Page :=
  fun index =>
    if index = 64 then 0x62
    else if 2 ≤ index.val then words.getD (index.val - 2) 0
    else 0

/-- A kernel where every page of the process is the frame 20. -/
def argKernel (words : List Word) : Kernel where
  paging :=
    { mem := fun frame =>
        if frame = 20 then argPage words
        else fun _ => entryOf (frame + 1) userFlags
      freeMap := fun _ => 0
      cr3 := pageAddr 16 }
  procs :=
    { pcb := fun p =>
        if p = 0xFFFFFFFF80400000 then
          some { cr3 := pageAddr 16, userStack := userVirt + 4096 - 8 }
        else none }

def argAddr : Word := 0x400010
def nameAddr : Word := 0x400200

theorem memory_argKernel (words : List Word) (base : Word) :
    UserMemory (fun addr => removeFlag addr = removeFlag base) (fun _ => 20)
      (argKernel words).paging (Page.byteAt (argPage words)) := by
  apply @userMemory_page (argKernel words).paging base 20
  intro mem same
  refine ⟨entryOf 20 userFlags, ?_, by decide⟩
  have table : ∀ frame, frame ≠ 20 →
      mem frame = fun _ => entryOf (frame + 1) userFlags := by
    intro frame other
    rw [same frame other]
    exact if_neg other
  have rights : ∀ frame, frame = 17 ∨ frame = 18 ∨ frame = 19 ∨ frame = 20 →
      entryOf frame userFlags &&& userLoad = userLoad ∧
        frameOf (entryOf frame userFlags) = frame := by
    rintro _ (rfl | rfl | rfl | rfl) <;> decide
  have root : kernelFrame (argKernel words).paging.cr3 = 16 :=
    show kernelFrame (pageAddr 16) = 16 by decide
  rw [root]
  simp [pageOf, mmuWalk, table, rights]

theorem image_argKernel :
    NewImage (fun addr => removeFlag addr = removeFlag userVirt) (fun _ => 20)
      (Page.byteAt (argPage [])) (argKernel []) 0xFFFFFFFF80400000
      { cr3 := pageAddr 16, userStack := userVirt + 4096 - 8 } where
  found := rfl
  memory := memory_argKernel [] userVirt
  inside := by decide +kernel
  cleared := by decide +kernel

/-- The string `ab c`. -/
theorem caller_short :
    Caller (fun addr => removeFlag addr = removeFlag argAddr) (fun _ => 20)
      (Page.byteAt (argPage [0x63206261])) (argKernel [0x63206261]) nameAddr
      argAddr [0x62] (joinArgs [[0x61, 0x62], [0x63]]) where
  memory := memory_argKernel [0x63206261] argAddr
  inside := by decide +kernel
  encoded := encodedAt_iff.mpr (by decide +kernel)
  noNul := by decide +kernel
  small := by decide
  nameInside := by decide +kernel
  name := encodedAt_iff.mpr (by decide +kernel)
  nameNoNul := by decide
  nameShort := by decide
  apart := by decide +kernel

/-- 49 times the letter `a`. -/
def longArg : List Byte :=
  List.replicate 49 0x61

def longWords : List Word :=
  List.replicate 6 0x6161616161616161 ++ [0x61]

theorem caller_long :
    Caller (fun addr => removeFlag addr = removeFlag argAddr) (fun _ => 20)
      (Page.byteAt (argPage longWords)) (argKernel longWords) nameAddr
      argAddr [0x62] (joinArgs [longArg]) where
  memory := memory_argKernel longWords argAddr
  inside := by decide +kernel
  encoded := encodedAt_iff.mpr (by decide +kernel)
  noNul := by decide +kernel
  small := by decide
  nameInside := by decide +kernel
  name := encodedAt_iff.mpr (by decide +kernel)
  nameNoNul := by decide
  nameShort := by decide
  apart := by decide +kernel

theorem argList_short : ArgList [[0x61, 0x62], [0x63]] :=
  ⟨by decide, by unfold Plain IsSeparator; decide⟩

theorem argList_long : ArgList [longArg] :=
  ⟨by decide, by unfold Plain IsSeparator; decide⟩

theorem argumentsReceived_short :
    ArgumentsReceived 512 (fun _ => 0) (fun _ => 0) (fun _ => 0) nameAddr
      argAddr 0xFFFFFFFF80400000 [[0x61, 0x62], [0x63]]
      (argKernel [0x63206261]) (argKernel []) :=
  (argumentsReceived_iff caller_short image_argKernel argList_short
    (Nat.le_refl 512) (fun _ => 0) (fun _ => 0) (fun _ => 0)).mpr
      ⟨by decide, by decide +kernel⟩

/-- One argument of 49 bytes fits its slot and does not fit the block. -/
theorem argumentsReceived_long :
    ¬ ArgumentsReceived 512 (fun _ => 0) (fun _ => 0) (fun _ => 0) nameAddr
      argAddr 0xFFFFFFFF80400000 [longArg] (argKernel longWords)
      (argKernel []) := by
  intro isReceived
  have short := (short_of_received caller_long image_argKernel argList_long
    (Nat.le_refl 512) isReceived).1 longArg (List.mem_singleton.mpr rfl)
  exact absurd short (by decide)

end SbuUnix
