import SbuUnix.Process.Arguments

/-!
# The start of a program

`_start` of `crt/crt1.c`.  It reads the argument slots on the user stack in
ring 3 and copies them, through the local arrays `temp_str` and `str`, to the
blocks that `main` gets.
-/

namespace SbuUnix

open Outcome

/-- A load from a local array of `size` bytes. -/
def getLocal (size : Nat) (array : Nat → Byte) (index : Nat) :
    PagingM Byte :=
  if index < size then pure (array index) else throw .outOfBounds

/-- A store to a local array of `size` bytes. -/
def putLocal (size : Nat) (array : Nat → Byte) (index : Nat) (byte : Byte) :
    PagingM (Nat → Byte) :=
  if index < size then
    pure fun other => if other = index then byte else array other
  else
    throw .outOfBounds

/-- The bytes of an integer on the user stack. -/
def loadField (addr : Word) : Nat → PagingM Word
  | 0 => pure 0
  | count + 1 => do
      let byte ← loadByte userLoad addr
      let high ← loadField (addr + 1) count
      pure (high <<< 8 ||| byte.setWidth 64)

/-- `while (*str1 != '\0') temp_str[i++] = *str1++;` and the NUL behind it. -/
def readItem : Nat → Word → Nat → (Nat → Byte) → PagingM (Nat → Byte)
  | 0, _, _, _ => throw .outOfFuel
  | fuel + 1, str1, i, tempStr => do
      let byte ← loadByte userLoad str1
      if byte ≠ 0 then
        readItem fuel (str1 + 1) (i + 1) (← putLocal 50 tempStr i byte)
      else
        putLocal 50 tempStr i 0

/-- `strcpy` of `libc/string.c` between two arrays, from index `src` to index
`dest`.  It writes two NULs. -/
def strcpyLocal (srcSize destSize : Nat) (source : Nat → Byte) :
    Nat → Nat → (Nat → Byte) → Nat → PagingM (Nat → Byte)
  | 0, _, _, _ => throw .outOfFuel
  | fuel + 1, src, array, dest => do
      let byte ← getLocal srcSize source src
      if byte ≠ 0 then
        strcpyLocal srcSize destSize source fuel (src + 1)
          (← putLocal destSize array dest byte) (dest + 1)
      else
        putLocal destSize (← putLocal destSize array dest 0) (dest + 1) 0

/-- `while (temp_str[i] != '\0') temp_str[i++] = '\0';` -/
def clearItem : Nat → Nat → (Nat → Byte) → PagingM (Nat → Byte)
  | 0, _, _ => throw .outOfFuel
  | fuel + 1, i, tempStr => do
      if (← getLocal 50 tempStr i) ≠ 0 then
        clearItem fuel (i + 1) (← putLocal 50 tempStr i 0)
      else
        pure tempStr

/-- The loop that fills `str`, with `*argc - j` passes to go. -/
def readItems (fuel : Nat) (argv : Word) :
    Nat → Nat → (Nat → Byte) → (Nat → Byte) → PagingM (Nat → Byte)
  | 0, _, _, str => pure str
  | left + 1, j, tempStr, str => do
      let tempStr ←
        readItem fuel (argv + BitVec.ofNat 64 (64 * j)) 0 tempStr
      let str ← strcpyLocal 50 250 tempStr fuel 0 str (50 * j)
      readItems fuel argv left (j + 1) (← clearItem fuel 0 tempStr) str

/-- The loop that allocates the blocks, with `*argc - i` passes to go;
`malloc` returns a block of 50 zero bytes. -/
def copyItems (fuel : Nat) (str : Nat → Byte) :
    Nat → Nat → (Nat → Nat → Byte) → PagingM (Nat → Nat → Byte)
  | 0, _, str2 => pure str2
  | left + 1, i, str2 => do
      if i < 5 then
        let block ← strcpyLocal 250 50 str fuel (50 * i) (fun _ => 0) 0
        copyItems fuel str left (i + 1) fun other =>
          if other = i then block else str2 other
      else
        throw .outOfBounds

/-- The arguments that `main` is called with. -/
structure MainArgs where
  argc : Word
  argv : Nat → Nat → Byte

/-- `_start`, with the address of `argc` for the sum that the assembly and
the frame of the function make of `rsp`; `tempStr` and `str` hold what was on
the stack.  `*argc` is the same at every pass: nothing is written there. -/
def start (fuel : Nat) (tempStr str : Nat → Byte) (argcAddr : Word) :
    PagingM MainArgs := do
  let argc ← loadField argcAddr 8
  let str ← readItems fuel (argcAddr + 8) argc.toNat 0 tempStr str
  let str2 ← copyItems fuel str argc.toNat 0 fun _ _ => 0
  pure { argc := argc, argv := str2 }

/-! ## The loops over one argument -/

section Locals

variable {allowed : Fault → Prop} {size : Nat} {array : Nat → Byte}
variable {index : Nat} {s : Paging}

theorem yields_getLocal {post : Byte → Paging → Prop} (inside : index < size)
    (holds : post (array index) s) :
    Yields allowed (getLocal size array index) s post := by
  unfold getLocal
  rw [if_pos inside]
  exact holds

theorem yields_putLocal {byte : Byte} {post : (Nat → Byte) → Paging → Prop}
    (fails : size ≤ index → allowed .outOfBounds)
    (holds : index < size →
      post (fun other => if other = index then byte else array other) s) :
    Yields allowed (putLocal size array index byte) s post := by
  unfold putLocal
  rw [yields_ite]
  exact ⟨holds, fun outside => fails (Nat.not_lt.mp outside)⟩

end Locals

section Item

variable {region : Word → Prop} {place : Word → Nat} {s : Paging}
variable {m : Word → Byte}

theorem loadField_eq (memory : UserMemory region place s m) :
    ∀ {count : Nat} {addr : Word},
      (∀ index < count, region (addr + BitVec.ofNat 64 index)) →
        loadField addr count s = .ok (readField m addr count, s) := by
  intro count
  induction count with
  | zero => exact fun _ => rfl
  | succ count inductionHypothesis =>
      intro addr inside
      have here := inside 0 (Nat.succ_pos count)
      rw [show addr + BitVec.ofNat 64 0 = addr from BitVec.add_zero addr]
        at here
      have rest := @inductionHypothesis (addr + 1) fun index below => by
        rw [← addr_add_succ]
        exact inside (index + 1) (Nat.succ_lt_succ below)
      rw [loadField, bind_of_ok (memory.loadByte_user here), bind_of_ok rest]
      rfl

/-- An item is read whole, unless `temp_str` is too small for it. -/
theorem yields_readItem (memory : UserMemory region place s m) :
    ∀ {item : List Byte} {fuel : Nat} {addr : Word} {i : Nat}
      {tempStr : Nat → Byte}, 0 ∉ item →
      EncodedAt m addr (item ++ [0]) →
        (∀ index ≤ item.length, region (addr + BitVec.ofNat 64 index)) →
          item.length < fuel →
            Yields (fun _ => 50 ≤ i + item.length)
              (readItem fuel addr i tempStr) s fun result next =>
                next = s ∧ i + item.length < 50 ∧
                  result = putField tempStr i (item ++ [0]) := by
  intro item
  induction item with
  | nil =>
      intro fuel addr i tempStr _ encoded inside enough
      obtain ⟨fuel, rfl⟩ : ∃ more, fuel = more + 1 := ⟨fuel - 1, by omega⟩
      have here := inside 0 (Nat.le_refl 0)
      rw [show addr + BitVec.ofNat 64 0 = addr from BitVec.add_zero addr]
        at here
      rw [readItem, yields_bind, yields_iff_of_ok (memory.loadByte_user here),
        if_neg (not_not.mpr encoded.1)]
      apply yields_putLocal
      · exact fun outside => outside
      · intro within
        refine ⟨rfl, within, ?_⟩
        rw [List.nil_append, ← putField_cons, putField_nil]
  | cons char item inductionHypothesis =>
      intro fuel addr i tempStr noNul encoded inside enough
      obtain ⟨fuel, rfl⟩ : ∃ more, fuel = more + 1 := ⟨fuel - 1, by omega⟩
      have here := inside 0 (Nat.zero_le _)
      rw [show addr + BitVec.ofNat 64 0 = addr from BitVec.add_zero addr]
        at here
      rw [List.length_cons] at enough
      have notNul : m addr ≠ 0 := by
        rw [encoded.1]
        exact fun same => noNul (same ▸ List.mem_cons_self ..)
      have position : i + 1 + item.length = i + (item.length + 1) := by omega
      rw [readItem, yields_bind, yields_iff_of_ok (memory.loadByte_user here),
        if_pos notNul, yields_bind, List.length_cons, ← position]
      apply yields_putLocal
      · intro outside
        omega
      · intro _
        have rest := @inductionHypothesis fuel (addr + 1) (i + 1)
          (fun other => if other = i then char else tempStr other)
          (fun member => noNul (List.mem_cons_of_mem _ member)) encoded.2
          (fun index below => by
            rw [← addr_add_succ]
            exact inside (index + 1) (by rw [List.length_cons]; omega))
          (by omega)
        rw [putField_cons] at rest
        rw [encoded.1]
        exact rest

/-- A string and its two NULs are copied, unless the target is too small. -/
theorem yields_strcpyLocal {srcSize destSize : Nat} {source : Nat → Byte} :
    ∀ {item : List Byte} {fuel src dest : Nat} {array : Nat → Byte}, 0 ∉ item →
      HoldsAt source src (item ++ [0]) → src + item.length < srcSize →
        item.length < fuel →
          Yields (fun _ => destSize < dest + item.length + 2)
            (strcpyLocal srcSize destSize source fuel src array dest) s
            fun result next =>
              next = s ∧ dest + item.length + 2 ≤ destSize ∧
                result = putField array dest (item ++ [0, 0]) := by
  intro item
  induction item with
  | nil =>
      intro fuel src dest array _ holds within enough
      obtain ⟨fuel, rfl⟩ : ∃ more, fuel = more + 1 := ⟨fuel - 1, by omega⟩
      have nul := (holdsAt_cons.mp holds).1
      rw [List.length_nil, Nat.add_zero] at within
      rw [strcpyLocal, yields_bind]
      apply yields_getLocal within
      rw [if_neg (not_not.mpr nul), yields_bind, List.length_nil]
      apply yields_putLocal
      · intro outside
        omega
      · intro _
        apply yields_putLocal
        · intro outside
          omega
        · intro inside
          refine ⟨rfl, by omega, ?_⟩
          rw [List.nil_append, ← putField_cons, ← putField_cons, putField_nil]
  | cons char item inductionHypothesis =>
      intro fuel src dest array noNul holds within enough
      obtain ⟨fuel, rfl⟩ : ∃ more, fuel = more + 1 := ⟨fuel - 1, by omega⟩
      obtain ⟨here, later⟩ := holdsAt_cons.mp holds
      rw [List.length_cons] at within enough
      have notNul : source src ≠ 0 := by
        rw [here]
        exact fun same => noNul (same ▸ List.mem_cons_self ..)
      have position : dest + 1 + item.length = dest + (item.length + 1) := by
        omega
      rw [strcpyLocal, yields_bind]
      apply yields_getLocal (by omega)
      rw [if_pos notNul, yields_bind, List.length_cons, ← position]
      apply yields_putLocal
      · intro outside
        omega
      · intro _
        have rest := @inductionHypothesis fuel (src + 1) (dest + 1)
          (fun other => if other = dest then char else array other)
          (fun member => noNul (List.mem_cons_of_mem _ member)) later
          (by omega) (by omega)
        rw [putField_cons] at rest
        rw [here]
        exact rest

theorem yields_clearItem :
    ∀ {item : List Byte} {fuel i : Nat} {tempStr : Nat → Byte},
      HoldsAt tempStr i (item ++ [0]) → i + item.length < 50 →
        item.length < fuel →
          Yields (fun _ => False) (clearItem fuel i tempStr) s
            fun _ next => next = s := by
  intro item
  induction item with
  | nil =>
      intro fuel i tempStr holds within enough
      obtain ⟨fuel, rfl⟩ : ∃ more, fuel = more + 1 := ⟨fuel - 1, by omega⟩
      have nul := (holdsAt_cons.mp holds).1
      rw [List.length_nil, Nat.add_zero] at within
      rw [clearItem, yields_bind]
      apply yields_getLocal within
      rw [if_neg (not_not.mpr nul)]
      exact rfl
  | cons char item inductionHypothesis =>
      intro fuel i tempStr holds within enough
      obtain ⟨fuel, rfl⟩ : ∃ more, fuel = more + 1 := ⟨fuel - 1, by omega⟩
      obtain ⟨-, later⟩ := holdsAt_cons.mp holds
      rw [List.length_cons] at within enough
      rw [clearItem, yields_bind]
      apply yields_getLocal (by omega)
      rw [yields_ite]
      constructor
      · intro _
        rw [yields_bind]
        apply yields_putLocal
        · intro outside
          omega
        · intro _
          apply inductionHypothesis _ (by omega) (by omega)
          intro offset below
          have same := later offset below
          dsimp only
          rwa [if_neg (by omega)]
      · intro _
        exact rfl

end Item

/-! ## The loops over all arguments -/

/-- An argument that `temp_str` or a block of 50 bytes has no room for. -/
def SomeTooLong (items : List (List Byte)) : Prop :=
  ∃ item ∈ items, 48 < item.length

theorem SomeTooLong.cons {item : List Byte} {items : List (List Byte)}
    (tooLong : SomeTooLong items) : SomeTooLong (item :: items) := by
  obtain ⟨other, member, length⟩ := tooLong
  exact ⟨other, List.mem_cons_of_mem _ member, length⟩

/-- The slots from an address on hold the items. -/
structure Slots (region : Word → Prop) (m : Word → Byte) (argv : Word)
    (items : List (List Byte)) : Prop where
  count : items.length ≤ 5
  noNul : ∀ item ∈ items, 0 ∉ item
  encoded : ∀ index (within : index < items.length),
    EncodedAt m (argv + BitVec.ofNat 64 (64 * index)) (items[index] ++ [0])
  inside : ∀ index (within : index < items.length),
    ∀ offset ≤ items[index].length,
      region (argv + BitVec.ofNat 64 (64 * index) + BitVec.ofNat 64 offset)

section Items

variable {region : Word → Prop} {place : Word → Nat} {s : Paging}
variable {m : Word → Byte} {argv : Word} {items : List (List Byte)}
variable {fuel : Nat}

/-- The first loop, from pass `j` on. -/
theorem yields_readItems (memory : UserMemory region place s m)
    (slots : Slots region m argv items)
    (enough : ∀ item ∈ items, item.length < fuel) :
    ∀ {left j : Nat} {tempStr str : Nat → Byte}, j + left = items.length →
      (∀ index (within : index < items.length), index < j →
        items[index].length < 50 ∧
          HoldsAt str (50 * index) (items[index] ++ [0])) →
        Yields (fun _ => SomeTooLong items)
          (readItems fuel argv left j tempStr str) s fun result next =>
            next = s ∧ ∀ index (within : index < items.length),
              items[index].length < 50 ∧
                HoldsAt result (50 * index) (items[index] ++ [0]) := by
  intro left
  induction left with
  | zero =>
      intro j tempStr str total held
      exact ⟨rfl, fun index within => held index within (by omega)⟩
  | succ left inductionHypothesis =>
      intro j tempStr str total held
      have within : j < items.length := by omega
      have member := List.getElem_mem within
      have count := slots.count
      have noNul := slots.noNul _ member
      have tooLong : 48 < items[j].length → SomeTooLong items :=
        fun length => ⟨items[j], member, length⟩
      rw [readItems, yields_bind]
      have read := @yields_readItem region place s m memory items[j] fuel
        (argv + BitVec.ofNat 64 (64 * j)) 0 tempStr noNul
        (slots.encoded j within) (slots.inside j within)
        (enough _ member)
      apply (read.weaken fun _ outside => tooLong (by omega)).mono
      rintro temp next ⟨same, short, rfl⟩
      subst same
      rw [Nat.zero_add] at short
      have isHeld := holdsAt_putField tempStr 0 (items[j] ++ [0])
      rw [yields_bind]
      have copied := @yields_strcpyLocal next 50 250
        (putField tempStr 0 (items[j] ++ [0])) items[j] fuel 0 (50 * j) str
        noNul isHeld (by omega) (enough _ member)
      apply (copied.weaken fun _ outside => tooLong (by omega)).mono
      rintro copy next ⟨same, -, rfl⟩
      subst same
      rw [yields_bind]
      have cleared := @yields_clearItem next items[j] fuel 0
        (putField tempStr 0 (items[j] ++ [0])) isHeld (by omega)
        (enough _ member)
      apply (cleared.weaken fun _ none => none.elim).mono
      rintro temp _ rfl
      apply inductionHypothesis (by omega)
      intro index inside below
      by_cases here : index = j
      · subst here
        refine ⟨short, ?_⟩
        rw [show items[index] ++ [0, 0] = items[index] ++ [0] ++ [0] by simp]
        exact holdsAt_putField_append
      · obtain ⟨shorter, before⟩ := held index inside (by omega)
        refine ⟨shorter, before.congr fun other less => ?_⟩
        rw [List.length_append, List.length_singleton] at less
        exact putField_below (by omega)

/-- The second loop, from pass `i` on. -/
theorem yields_copyItems {str : Nat → Byte} (count : items.length ≤ 5)
    (noNul : ∀ item ∈ items, 0 ∉ item)
    (enough : ∀ item ∈ items, item.length < fuel)
    (held : ∀ index (within : index < items.length),
      items[index].length < 50 ∧
        HoldsAt str (50 * index) (items[index] ++ [0])) :
    ∀ {left i : Nat} {str2 : Nat → Nat → Byte}, i + left = items.length →
      (∀ index (within : index < items.length), index < i →
        items[index].length ≤ 48 ∧
          HoldsAt (str2 index) 0 (items[index] ++ [0])) →
        Yields (fun _ => SomeTooLong items)
          (copyItems fuel str left i str2) s fun result next =>
            next = s ∧ ∀ index (within : index < items.length),
              items[index].length ≤ 48 ∧
                HoldsAt (result index) 0 (items[index] ++ [0]) := by
  intro left
  induction left with
  | zero =>
      intro i str2 total done
      exact ⟨rfl, fun index within => done index within (by omega)⟩
  | succ left inductionHypothesis =>
      intro i str2 total done
      have within : i < items.length := by omega
      have member := List.getElem_mem within
      obtain ⟨short, stands⟩ := held i within
      rw [copyItems, if_pos (by omega), yields_bind]
      have copied := @yields_strcpyLocal s 250 50 str items[i] fuel (50 * i) 0
        (fun _ => 0) (noNul _ member) stands (by omega) (enough _ member)
      apply (copied.weaken fun _ outside =>
        ⟨items[i], member, by omega⟩).mono
      rintro block _ ⟨rfl, room, rfl⟩
      apply inductionHypothesis (by omega)
      intro index inside below
      by_cases here : index = i
      · subst here
        rw [if_pos rfl,
          show items[index] ++ [0, 0] = items[index] ++ [0] ++ [0] by simp]
        exact ⟨by omega, holdsAt_putField_append⟩
      · rw [if_neg here]
        exact done index inside (by omega)

/-- `_start` passes on what is in the slots, unless some argument is too
long. -/
theorem yields_start (memory : UserMemory region place s m) {argcAddr : Word}
    (slots : Slots region m (argcAddr + 8) items)
    (enough : ∀ item ∈ items, item.length < fuel)
    (argcInside : ∀ index < 8, region (argcAddr + BitVec.ofNat 64 index))
    (argc : (readField m argcAddr 8).toNat = items.length)
    (tempStr str : Nat → Byte) :
    Yields (fun _ => SomeTooLong items) (start fuel tempStr str argcAddr) s
      fun received _ =>
        received.argc.toNat = items.length ∧
          ∀ index (within : index < items.length),
            items[index].length ≤ 48 ∧
              HoldsAt (received.argv index) 0 (items[index] ++ [0]) := by
  unfold start
  rw [yields_bind, yields_iff_of_ok (loadField_eq memory argcInside), argc,
    yields_bind]
  apply (yields_readItems memory slots enough (Nat.zero_add _)
    fun _ _ below => absurd below (Nat.not_lt_zero _)).mono
  rintro strings _ ⟨rfl, held⟩
  rw [yields_bind]
  apply (yields_copyItems slots.count slots.noNul enough held
    (Nat.zero_add _) fun _ _ below => absurd below (Nat.not_lt_zero _)).mono
  rintro blocks _ ⟨rfl, passed⟩
  exact ⟨argc, passed⟩

/-- Whatever the slots hold, `main` gets the number that stands below
them. -/
theorem start_argc (memory : UserMemory region place s m) {argcAddr : Word}
    (argcInside : ∀ index < 8, region (argcAddr + BitVec.ofNat 64 index))
    (tempStr str : Nat → Byte) :
    Yields AnyFault (start fuel tempStr str argcAddr) s fun received _ =>
      received.argc = readField m argcAddr 8 := by
  unfold start
  rw [yields_bind, yields_iff_of_ok (loadField_eq memory argcInside),
    yields_bind, yields_anyFault]
  intro strings next _
  rw [yields_bind, yields_anyFault]
  intro blocks next _
  exact rfl

end Items

end SbuUnix
