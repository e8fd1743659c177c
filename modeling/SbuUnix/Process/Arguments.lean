import SbuUnix.Library.Fields
import SbuUnix.Process.UserMemory

/-!
# The argument string

What `execve` makes of its argument string: `splitArgs` puts the parts between
separators into the slots of `kernel_args`.  A part is read together with the
separator behind it.
-/

namespace SbuUnix

open Outcome

/-- A byte that ends an argument. -/
def IsSeparator (char : Byte) : Prop :=
  char = 0x20 ∨ char = 0 ∨ char = 0x0A

/-- An argument, without separators. -/
def Plain (arg : List Byte) : Prop :=
  ∀ char ∈ arg, ¬ IsSeparator char

/-- The kernel reads a text at `argv`, up to an index. -/
def ReadsText (k : Kernel) (argv : Word) (text : Nat → Byte) (last : Nat) :
    Prop :=
  ∀ index ≤ last,
    loadUser (argv + BitVec.ofNat 64 index) k = .ok (text index, k)

section Split

variable {k : Kernel} {argv : Word} {text : Nat → Byte} {last : Nat}

theorem putArg_eq {args : Nat → Byte} {index : Nat} (inside : index < 5 * 64)
    (byte : Byte) :
    putArg args index byte k =
      .ok (fun other => if other = index then byte else args other, k) := by
  unfold putArg
  rw [if_pos inside]
  rfl

/-- The inner loop copies an argument and ends it with a NUL. -/
theorem copyArg_eq (reads : ReadsText k argv text last) (i : Nat) :
    ∀ {arg : List Byte} {fuel j start : Nat} {args : Nat → Byte},
      HoldsAt text start arg → Plain arg →
        IsSeparator (text (start + arg.length)) →
          start + arg.length ≤ last → i * 64 + j + arg.length < 5 * 64 →
            arg.length < fuel →
              copyArg argv i fuel j start args k =
                .ok ((start + arg.length,
                  putField args (i * 64 + j) (arg ++ [0])), k) := by
  intro arg
  induction arg with
  | nil =>
      intro fuel j start args _ _ ends within room enough
      obtain ⟨fuel, rfl⟩ : ∃ more, fuel = more + 1 := ⟨fuel - 1, by omega⟩
      rw [List.length_nil, Nat.add_zero] at ends within room
      have stops : ¬ (text start ≠ 0x20 ∧ text start ≠ 0 ∧
          text start ≠ 0x0A) := by
        rintro ⟨notSpace, notNul, notLine⟩
        rcases ends with same | same | same <;> contradiction
      rw [copyArg, bind_of_ok (reads start within), if_neg stops,
        bind_of_ok (putArg_eq room 0)]
      have field : putField args (i * 64 + j) ([] ++ [0]) =
          fun other => if other = i * 64 + j then 0 else args other := by
        rw [List.nil_append, ← putField_cons, putField_nil]
      rw [field]
      rfl
  | cons char arg inductionHypothesis =>
      intro fuel j start args holds plain ends within room enough
      obtain ⟨fuel, rfl⟩ : ∃ more, fuel = more + 1 := ⟨fuel - 1, by omega⟩
      obtain ⟨here, later⟩ := holdsAt_cons.mp holds
      rw [List.length_cons] at ends within room enough
      have isPlain := plain char (List.mem_cons_self ..)
      have goesOn : text start ≠ 0x20 ∧ text start ≠ 0 ∧
          text start ≠ 0x0A := by
        rw [here]
        exact ⟨fun same => isPlain (.inl same),
          fun same => isPlain (.inr (.inl same)),
          fun same => isPlain (.inr (.inr same))⟩
      have position : start + 1 + arg.length = start + (arg.length + 1) := by
        omega
      have rest : copyArg argv i fuel (j + 1) (start + 1)
          (fun other => if other = i * 64 + j then char else args other) k =
            .ok ((start + 1 + arg.length,
              putField (fun other =>
                if other = i * 64 + j then char else args other)
                (i * 64 + (j + 1)) (arg ++ [0])), k) :=
        inductionHypothesis later
          (fun c member => plain c (List.mem_cons_of_mem _ member))
          (by rw [position]; exact ends) (by omega) (by omega) (by omega)
      rw [copyArg, bind_of_ok (reads start (by omega)), if_pos goesOn,
        bind_of_ok (putArg_eq (by omega) _), here, rest, position,
        ← Nat.add_assoc (i * 64), putField_cons]
      rfl

/-- The arguments and the separators behind them, as they stand in the
text. -/
def partBytes (parts : List (List Byte × Byte)) : List Byte :=
  parts.flatMap fun part => part.1 ++ [part.2]

theorem partBytes_cons (part : List Byte × Byte)
    (rest : List (List Byte × Byte)) :
    partBytes (part :: rest) = part.1 ++ part.2 :: partBytes rest := by
  simp [partBytes]

theorem length_partBytes_cons (part : List Byte × Byte)
    (rest : List (List Byte × Byte)) :
    (partBytes (part :: rest)).length =
      part.1.length + 1 + (partBytes rest).length := by
  rw [partBytes_cons, List.length_append, List.length_cons]
  omega

theorem length_partBytes {parts : List (List Byte × Byte)} {bound : Nat}
    (short : ∀ part ∈ parts, part.1.length ≤ bound) :
    (partBytes parts).length ≤ (bound + 1) * parts.length := by
  induction parts with
  | nil => simp [partBytes]
  | cons part rest inductionHypothesis =>
      have here := short part (List.mem_cons_self ..)
      have later := inductionHypothesis fun other member =>
        short other (List.mem_cons_of_mem _ member)
      rw [length_partBytes_cons, List.length_cons, Nat.mul_succ]
      omega

/-- Parts that fit the array when they start with slot `i`. -/
structure Fits (i : Nat) (parts : List (List Byte × Byte)) : Prop where
  plain : ∀ part ∈ parts, part.1 ≠ [] ∧ Plain part.1 ∧ IsSeparator part.2
  room : ∀ index (within : index < parts.length),
    (i + index) * 64 + parts[index].1.length < 5 * 64

theorem Fits.tail {i : Nat} {part : List Byte × Byte}
    {rest : List (List Byte × Byte)} (fits : Fits i (part :: rest)) :
    Fits (i + 1) rest where
  plain := fun other member => fits.plain other (List.mem_cons_of_mem _ member)
  room := by
    intro index within
    have here := fits.room (index + 1) (by simpa using within)
    simpa only [List.getElem_cons_succ, Nat.add_right_comm, Nat.add_assoc]
      using here

/-- The outer loop runs over parts and goes on behind them. -/
theorem splitArgs_parts (reads : ReadsText k argv text last) :
    ∀ {parts : List (List Byte × Byte)} {fuel i start : Nat}
      {args : Nat → Byte},
      HoldsAt text start (partBytes parts) → Fits i parts →
        start + (partBytes parts).length ≤ last + 1 →
          (∀ part ∈ parts, part.1.length ≤ fuel) →
            ∃ slots, splitArgs argv (fuel + parts.length) i start args k =
                splitArgs argv fuel (i + parts.length)
                  (start + (partBytes parts).length) slots k ∧
              (∀ other < i * 64, slots other = args other) ∧
              ∀ index (within : index < parts.length),
                parts[index].1.length ≤ 63 →
                  HoldsAt slots ((i + index) * 64)
                    (parts[index].1 ++ [0]) := by
  intro parts
  induction parts with
  | nil =>
      intro fuel i start args _ _ _ _
      exact ⟨args, rfl, fun _ _ => rfl,
        fun index within => absurd within (Nat.not_lt_zero index)⟩
  | cons part rest inductionHypothesis =>
      intro fuel i start args holds fits within enough
      obtain ⟨nonempty, plain, separator⟩ :=
        fits.plain part (List.mem_cons_self ..)
      have length := length_partBytes_cons part rest
      rw [partBytes_cons] at holds
      obtain ⟨holdsArg, holdsBehind⟩ := holdsAt_append.mp holds
      obtain ⟨ends, holdsRest⟩ := holdsAt_cons.mp holdsBehind
      rw [length] at within
      have room := fits.room 0 (by simp)
      rw [Nat.add_zero, List.getElem_cons_zero] at room
      have copied : copyArg argv i (fuel + rest.length + 1) 0 start args k =
          .ok ((start + part.1.length,
            putField args (i * 64 + 0) (part.1 ++ [0])), k) :=
        copyArg_eq reads i holdsArg plain (by rw [ends]; exact separator)
          (by omega) (by omega)
          (by have short := enough part (List.mem_cons_self ..); omega)
      have first : text start ≠ 0 := by
        obtain ⟨char, chars, split⟩ := List.exists_cons_of_ne_nil nonempty
        have here := (holdsAt_cons.mp (split ▸ holdsArg)).1
        rw [here]
        intro nul
        exact plain char (by rw [split]; exact List.mem_cons_self ..)
          (.inr (.inl nul))
      obtain ⟨slots, goesOn, below, held⟩ :=
        @inductionHypothesis fuel (i + 1) (start + part.1.length + 1)
          (putField args (i * 64 + 0) (part.1 ++ [0])) holdsRest fits.tail
          (by omega)
          (fun other member => enough other (List.mem_cons_of_mem _ member))
      refine ⟨slots, ?_, ?_, ?_⟩
      · rw [List.length_cons, ← Nat.add_assoc fuel, splitArgs,
          bind_of_ok (reads start (by omega)), if_pos first,
          bind_of_ok copied]
        dsimp only
        rw [goesOn, length]
        congr 1 <;> omega
      · intro other less
        rw [below other (by omega), putField_below (by omega)]
      · intro index inside short
        cases index with
        | zero =>
            rw [List.getElem_cons_zero] at short ⊢
            have put := holdsAt_putField args (i * 64 + 0) (part.1 ++ [0])
            rw [Nat.add_zero] at put ⊢
            apply put.congr
            intro place less
            rw [List.length_append, List.length_singleton] at less
            exact below place (by omega)
        | succ index =>
            have later := held index (by simpa using inside) short
            have slot : (i + 1 + index) * 64 = (i + (index + 1)) * 64 := by
              omega
            rw [slot] at later
            exact later

theorem yields_putArg {args : Nat → Byte} {index : Nat} {byte : Byte}
    {post : (Nat → Byte) → Kernel → Prop}
    (holds : post (fun other => if other = index then byte else args other) k) :
    Yields AnyFault (putArg args index byte) k post := by
  unfold putArg
  rw [yields_ite]
  exact ⟨fun _ => holds, fun _ => yields_stop _ _⟩

/-- No slot below the current one is written. -/
theorem copyArg_keeps (argv : Word) (i : Nat) :
    ∀ (fuel j start : Nat) (args : Nat → Byte) (k : Kernel),
      Yields AnyFault (copyArg argv i fuel j start args) k fun result _ =>
        ∀ other < i * 64, result.2 other = args other := by
  intro fuel
  induction fuel with
  | zero => exact fun _ _ _ _ => yields_stop _ _
  | succ fuel inductionHypothesis =>
      intro j start args k
      have written : ∀ byte other, other < i * 64 →
          (if other = i * 64 + j then byte else args other) = args other :=
        fun byte other less => if_neg (by omega)
      rw [copyArg, yields_bind, yields_anyFault]
      intro byte k _
      rw [yields_ite]
      constructor
      · intro _
        rw [yields_bind]
        apply yields_putArg
        apply (inductionHypothesis _ _ _ _).mono
        intro result _ keeps other less
        rw [keeps other less]
        exact written byte other less
      · intro _
        rw [yields_bind]
        apply yields_putArg
        exact fun other less => written 0 other less

theorem splitArgs_keeps (argv : Word) :
    ∀ (fuel i start : Nat) (args : Nat → Byte) (k : Kernel),
      Yields AnyFault (splitArgs argv fuel i start args) k fun result _ =>
        ∀ other < i * 64, result.2 other = args other := by
  intro fuel
  induction fuel with
  | zero => exact fun _ _ _ _ => yields_stop _ _
  | succ fuel inductionHypothesis =>
      intro i start args k
      rw [splitArgs, yields_bind, yields_anyFault]
      intro byte k _
      rw [yields_ite]
      constructor
      · intro _
        rw [yields_bind]
        apply (copyArg_keeps argv i _ _ _ _ _).mono
        intro copied k keepsSlot
        apply (inductionHypothesis _ _ _ _).mono
        intro result _ keeps other less
        rw [keeps other (by omega), keepsSlot other less]
      · intro _ other _
        rfl

/-- A NUL in place of an argument ends the loop. -/
theorem splitArgs_end (reads : ReadsText k argv text last) {fuel i start : Nat}
    {args : Nat → Byte} (within : start ≤ last) (nul : text start = 0) :
    splitArgs argv (fuel + 1) i start args k = .ok ((i, args), k) := by
  rw [splitArgs, bind_of_ok (reads start within), if_neg (not_not.mpr nul)]
  rfl

end Split

/-! ## The strings of the caller -/

section Strings

variable {region : Word → Prop} {place : Word → Nat} {k : Kernel}
variable {m : Word → Byte}

/-- `strlen` counts up to the NUL. -/
theorem countBytes_eq (memory : UserMemory region place k.paging m) :
    ∀ {str : List Byte} {fuel : Nat} {addr : Word}, 0 ∉ str →
      EncodedAt m addr (str ++ [0]) →
        (∀ index ≤ str.length, region (addr + BitVec.ofNat 64 index)) →
          str.length < fuel → countBytes fuel addr k = .ok (str.length, k) := by
  intro str
  induction str with
  | nil =>
      intro fuel addr _ encoded inside enough
      obtain ⟨fuel, rfl⟩ : ∃ more, fuel = more + 1 := ⟨fuel - 1, by omega⟩
      have here := inside 0 (Nat.le_refl 0)
      rw [show addr + BitVec.ofNat 64 0 = addr from BitVec.add_zero addr]
        at here
      rw [countBytes, bind_of_ok (loadUser_eq memory here),
        if_neg (not_not.mpr encoded.1)]
      rfl
  | cons char str inductionHypothesis =>
      intro fuel addr noNul encoded inside enough
      obtain ⟨fuel, rfl⟩ : ∃ more, fuel = more + 1 := ⟨fuel - 1, by omega⟩
      have here := inside 0 (Nat.zero_le _)
      rw [show addr + BitVec.ofNat 64 0 = addr from BitVec.add_zero addr]
        at here
      have notNul : m addr ≠ 0 := by
        rw [encoded.1]
        exact fun same => noNul (same ▸ List.mem_cons_self ..)
      have rest : countBytes fuel (addr + 1) k = .ok (str.length, k) :=
        inductionHypothesis
          (fun member => noNul (List.mem_cons_of_mem _ member)) encoded.2
          (fun index below => by
            rw [← addr_add_succ]
            exact inside (index + 1) (by rw [List.length_cons]; omega))
          (by rw [List.length_cons] at enough; omega)
      rw [countBytes, bind_of_ok (loadUser_eq memory here), if_pos notNul,
        bind_of_ok rest]
      rfl

theorem copyFile_eq (memory : UserMemory region place k.paging m) :
    ∀ {file : List Byte} {fuel i : Nat} {addr : Word}, 0 ∉ file →
      EncodedAt m addr (file ++ [0]) →
        (∀ index ≤ file.length, region (addr + BitVec.ofNat 64 index)) →
          file.length < fuel → i + file.length < 100 →
            copyFile fuel addr i k = .ok (file, k) := by
  intro file
  induction file with
  | nil =>
      intro fuel i addr _ encoded inside enough short
      obtain ⟨fuel, rfl⟩ : ∃ more, fuel = more + 1 := ⟨fuel - 1, by omega⟩
      have here := inside 0 (Nat.le_refl 0)
      rw [show addr + BitVec.ofNat 64 0 = addr from BitVec.add_zero addr]
        at here
      rw [List.length_nil, Nat.add_zero] at short
      rw [copyFile, bind_of_ok (loadUser_eq memory here), if_pos short,
        if_neg (not_not.mpr encoded.1)]
      rfl
  | cons char file inductionHypothesis =>
      intro fuel i addr noNul encoded inside enough short
      obtain ⟨fuel, rfl⟩ : ∃ more, fuel = more + 1 := ⟨fuel - 1, by omega⟩
      have here := inside 0 (Nat.zero_le _)
      rw [show addr + BitVec.ofNat 64 0 = addr from BitVec.add_zero addr]
        at here
      rw [List.length_cons] at enough short
      have notNul : m addr ≠ 0 := by
        rw [encoded.1]
        exact fun same => noNul (same ▸ List.mem_cons_self ..)
      have rest : copyFile fuel (addr + 1) (i + 1) k = .ok (file, k) :=
        inductionHypothesis
          (fun member => noNul (List.mem_cons_of_mem _ member)) encoded.2
          (fun index below => by
            rw [← addr_add_succ]
            exact inside (index + 1) (by rw [List.length_cons]; omega))
          (by omega) (by omega)
      rw [copyFile, bind_of_ok (loadUser_eq memory here),
        if_pos (by omega), if_pos notNul, bind_of_ok rest, encoded.1]
      rfl

end Strings

/-- The file name and the argument string of a caller, in mapped memory of
its own. -/
structure Caller (region : Word → Prop) (place : Word → Nat)
    (m : Word → Byte) (k : Kernel) (filename argv : Word)
    (file str : List Byte) : Prop where
  memory : UserMemory region place k.paging m
  inside : ∀ index < str.length + 5,
    region (argv - 3 + BitVec.ofNat 64 index)
  encoded : EncodedAt m argv (str ++ [0])
  noNul : 0 ∉ str
  small : str.length + 5 < 2 ^ 64
  nameInside : ∀ index ≤ file.length,
    region (filename + BitVec.ofNat 64 index)
  name : EncodedAt m filename (file ++ [0])
  nameNoNul : 0 ∉ file
  nameShort : file.length < 100
  apart : ∀ index ≤ file.length, ∀ other < str.length + 5,
    filename + BitVec.ofNat 64 index ≠ argv - 3 + BitVec.ofNat 64 other

/-- `argv[len-2] == '&'` -/
def Marked (m : Word → Byte) (argv : Word) (str : List Byte) : Prop :=
  m (argv + BitVec.ofNat 64 str.length - 2) = 0x26

instance (m : Word → Byte) (argv : Word) (str : List Byte) :
    Decidable (Marked m argv str) :=
  inferInstanceAs (Decidable (_ = _))

/-- The memory of the caller when `strlen` has written its two NULs. -/
def endedMemory (m : Word → Byte) (argv : Word) (len : Nat) : Word → Byte :=
  withByte (withByte m (argv + BitVec.ofNat 64 len) 0)
    (argv + BitVec.ofNat 64 (len + 1)) 0

/-- The memory of the caller when the string is split. -/
def splitMemory (m : Word → Byte) (argv : Word) (str : List Byte) :
    Word → Byte :=
  let at2 := argv + BitVec.ofNat 64 str.length - 2
  if Marked m argv str then
    withByte (withByte (endedMemory m argv str.length) (at2 - 1) 0x2F) at2 0
  else
    endedMemory m argv str.length

/-- The string as it is split: what follows it, and the two bytes that a
trailing mark changes. -/
def splitText (m : Word → Byte) (argv : Word) (str : List Byte)
    (index : Nat) : Byte :=
  if Marked m argv str ∧ index + 2 = str.length then 0
  else if Marked m argv str ∧ index + 3 = str.length then 0x2F
  else str.getD index 0

section Caller

variable {region : Word → Prop} {place : Word → Nat} {k : Kernel}
variable {m : Word → Byte} {filename argv : Word} {file str : List Byte}

theorem argv_add (argv : Word) (index : Nat) :
    argv + BitVec.ofNat 64 index = argv - 3 + BitVec.ofNat 64 (index + 3) := by
  apply BitVec.eq_of_toNat_eq
  simp only [BitVec.ofNat_eq_ofNat, BitVec.toNat_add, BitVec.toNat_sub,
    BitVec.toNat_ofNat]
  omega

theorem mark_eq (argv : Word) (len : Nat) :
    argv + BitVec.ofNat 64 len - 2 = argv - 3 + BitVec.ofNat 64 (len + 1) := by
  apply BitVec.eq_of_toNat_eq
  simp only [BitVec.ofNat_eq_ofNat, BitVec.toNat_add, BitVec.toNat_sub,
    BitVec.toNat_ofNat]
  omega

theorem mark_sub_one_eq (argv : Word) (len : Nat) :
    argv + BitVec.ofNat 64 len - 2 - 1 = argv - 3 + BitVec.ofNat 64 len := by
  apply BitVec.eq_of_toNat_eq
  simp only [BitVec.ofNat_eq_ofNat, BitVec.toNat_add, BitVec.toNat_sub,
    BitVec.toNat_ofNat]
  omega

theorem withByte_offset {addr : Word} {first second : Nat} {byte : Byte}
    (firstSmall : first < 2 ^ 64) (secondSmall : second < 2 ^ 64) :
    withByte m (addr + BitVec.ofNat 64 second) byte
        (addr + BitVec.ofNat 64 first) =
      if first = second then byte else m (addr + BitVec.ofNat 64 first) := by
  unfold withByte
  by_cases same : first = second
  · rw [if_pos same, if_pos (by rw [same])]
  · rw [if_neg same,
      if_neg fun sameAddr =>
        same (addr_add_inj firstSmall secondSmall sameAddr)]

theorem endedMemory_eq
    (caller : Caller region place m k filename argv file str) {index : Nat}
    (within : index ≤ str.length + 1) :
    endedMemory m argv str.length (argv + BitVec.ofNat 64 index) =
      str.getD index 0 := by
  have small := caller.small
  have holds := encodedAt_iff.mp caller.encoded
  unfold endedMemory
  rw [withByte_offset (by omega) (by omega),
    withByte_offset (by omega) (by omega)]
  by_cases inside : index < str.length
  · rw [if_neg (by omega), if_neg (by omega),
      holds index (by rw [List.length_append]; omega),
      List.getD_append _ _ _ _ inside]
  · rw [List.getD_eq_default _ _ (by omega)]
    split
    · rfl
    · rw [if_pos (by omega)]

theorem splitMemory_eq
    (caller : Caller region place m k filename argv file str) {index : Nat}
    (within : index ≤ str.length + 1) :
    splitMemory m argv str (argv + BitVec.ofNat 64 index) =
      splitText m argv str index := by
  have small := caller.small
  have ended := endedMemory_eq caller within
  unfold splitMemory splitText
  by_cases marked : Marked m argv str
  · have offsets : index + 3 = str.length + 1 ↔ index + 2 = str.length := by
      omega
    rw [if_pos marked, mark_sub_one_eq, mark_eq, argv_add argv index,
      withByte_offset (by omega) (by omega),
      withByte_offset (by omega) (by omega), ← argv_add argv index, ended]
    simp only [offsets, marked, true_and]
  · rw [if_neg marked, if_neg (by tauto), if_neg (by tauto), ended]

theorem Caller.insideString
    (caller : Caller region place m k filename argv file str) {index : Nat}
    (within : index ≤ str.length + 1) :
    region (argv + BitVec.ofNat 64 index) := by
  rw [argv_add]
  exact caller.inside (index + 3) (by omega)

theorem strlen_eq (caller : Caller region place m k filename argv file str)
    {fuel : Nat} (enough : str.length < fuel) :
    ∃ ended, strlen fuel argv k = .ok (str.length, ended) ∧
      UserMemory region place ended.paging
        (endedMemory m argv str.length) := by
  have counted := countBytes_eq caller.memory caller.noNul caller.encoded
    (fun index below => caller.insideString (by omega)) enough
  obtain ⟨first, firstStored, firstMemory⟩ := storeUser_eq caller.memory
    (caller.insideString (Nat.le_succ str.length)) 0
  obtain ⟨ended, stored, memory⟩ := storeUser_eq firstMemory
    (caller.insideString (Nat.le_refl (str.length + 1))) 0
  refine ⟨ended, ?_, memory⟩
  unfold strlen
  rw [bind_of_ok counted, bind_of_ok firstStored, bind_of_ok stored]
  rfl

/-- The two NULs do not reach the byte that is tested for the mark. -/
theorem endedMemory_mark
    (caller : Caller region place m k filename argv file str) :
    endedMemory m argv str.length (argv + BitVec.ofNat 64 str.length - 2) =
      m (argv + BitVec.ofNat 64 str.length - 2) := by
  have small := caller.small
  unfold endedMemory
  rw [mark_eq, argv_add argv str.length, argv_add argv (str.length + 1),
    withByte_offset (by omega) (by omega),
    withByte_offset (by omega) (by omega), if_neg (by omega),
    if_neg (by omega)]

/-- The file name lies apart from the bytes that are written. -/
theorem splitMemory_name
    (caller : Caller region place m k filename argv file str) :
    EncodedAt (splitMemory m argv str) filename (file ++ [0]) := by
  have untouched : ∀ (memory : Word → Byte) (byte : Byte),
      ∀ other < str.length + 5, ∀ index ≤ file.length,
        withByte memory (argv - 3 + BitVec.ofNat 64 other) byte
            (filename + BitVec.ofNat 64 index) =
          memory (filename + BitVec.ofNat 64 index) :=
    fun memory byte other inside index within =>
      if_neg (caller.apart index within other inside)
  apply encodedAt_iff.mpr
  intro index below
  rw [← encodedAt_iff.mp caller.name index below]
  rw [List.length_append, List.length_singleton] at below
  have ended : endedMemory m argv str.length
      (filename + BitVec.ofNat 64 index) =
        m (filename + BitVec.ofNat 64 index) := by
    unfold endedMemory
    rw [argv_add argv str.length, argv_add argv (str.length + 1),
      untouched _ _ _ (by omega) index (by omega),
      untouched _ _ _ (by omega) index (by omega)]
  unfold splitMemory
  split
  · rw [mark_sub_one_eq, mark_eq,
      untouched _ _ _ (by omega) index (by omega),
      untouched _ _ _ (by omega) index (by omega), ended]
  · exact ended

/-- What is read and written before the string is split. -/
theorem readArguments_eq
    (caller : Caller region place m k filename argv file str) {fuel : Nat}
    (enough : str.length < fuel) (enoughName : file.length < fuel)
    (stale : Nat → Byte) :
    ∃ next, UserMemory region place next.paging (splitMemory m argv str) ∧
      readArguments fuel stale filename argv k =
        (do
          let (i, args) ← splitArgs argv fuel 0 0 stale
          pure (file, if Marked m argv str then (i : Int) - 1 else i, args) :
            KernelM (List Byte × Int × (Nat → Byte))) next := by
  obtain ⟨ended, counted, endedHolds⟩ := strlen_eq caller enough
  have markInside : region (argv + BitVec.ofNat 64 str.length - 2) := by
    rw [mark_eq]
    exact caller.inside (str.length + 1) (by omega)
  have atMark := loadUser_eq endedHolds markInside
  rw [endedMemory_mark caller] at atMark
  have copied : ∀ next : Kernel,
      UserMemory region place next.paging (splitMemory m argv str) →
        copyFile fuel filename 0 next = .ok (file, next) :=
    fun next memory => copyFile_eq memory caller.nameNoNul
      (splitMemory_name caller) caller.nameInside enoughName
      (by rw [Nat.zero_add]; exact caller.nameShort)
  unfold readArguments
  rw [bind_of_ok counted]
  dsimp only
  rw [bind_of_ok atMark]
  by_cases marked : Marked m argv str
  · obtain ⟨slashed, slashStored, slashMemory⟩ :=
      @storeUser_eq region place ended _
        (argv + BitVec.ofNat 64 str.length - 2 - 1) endedHolds
        (by
          rw [mark_sub_one_eq]
          exact caller.inside str.length (by omega)) 0x2F
    obtain ⟨cut, cutStored, cutMemory⟩ :=
      storeUser_eq slashMemory markInside 0
    have memory : UserMemory region place cut.paging
        (splitMemory m argv str) := by
      unfold splitMemory
      rw [if_pos marked]
      exact cutMemory
    have zombie :
        (m (argv + BitVec.ofNat 64 str.length - 2) == 0x26) = true :=
      beq_iff_eq.mpr marked
    refine ⟨cut, memory, ?_⟩
    simp only [zombie, marked, if_true]
    rw [bind_of_ok slashStored, bind_of_ok cutStored,
      bind_of_ok (copied cut memory)]
  · have memory : UserMemory region place ended.paging
        (splitMemory m argv str) := by
      unfold splitMemory
      rw [if_neg marked]
      exact endedHolds
    have zombie :
        (m (argv + BitVec.ofNat 64 str.length - 2) == 0x26) = false :=
      beq_eq_false_iff_ne.mpr marked
    refine ⟨ended, memory, ?_⟩
    simp only [zombie, marked, if_false, Bool.false_eq_true]
    rw [bind_of_ok (copied ended memory)]

/-- The kernel reads the split text, up to the second NUL. -/
theorem readsText_split
    (caller : Caller region place m k filename argv file str) {next : Kernel}
    (memory : UserMemory region place next.paging (splitMemory m argv str)) :
    ReadsText next argv (splitText m argv str) (str.length + 1) := by
  intro index within
  rw [loadUser_eq memory (caller.insideString within),
    splitMemory_eq caller within]

end Caller

end SbuUnix
