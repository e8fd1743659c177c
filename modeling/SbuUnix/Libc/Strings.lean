import SbuUnix.Library.Fields
import SbuUnix.Paging.Machine
import SbuUnix.Tarfs.Strings

/-!
# String functions in memory

`strlen`, `strcpy` and `strcat` of `sys/string.c`, and those of
`libc/string.c` with `strncpy`.  All of them end by storing more than one
NUL; what they change is compared with the bytes that C lets them change.
-/

namespace SbuUnix

/-- The bytes of an address space. -/
abbrev Memory := Nat → Byte

def store (mem : Memory) (addr : Nat) (byte : Byte) : Memory :=
  fun other => if other = addr then byte else mem other

/-- The string at an address, which ends with a NUL. -/
structure TextAt (mem : Memory) (addr : Nat) (text : List Byte) : Prop where
  chars : HoldsAt mem addr (text ++ [0])
  noNul : 0 ∉ text

/-- Two ranges of bytes without a common one. -/
def Apart (first firstLength second secondLength : Nat) : Prop :=
  first + firstLength ≤ second ∨ second + secondLength ≤ first

/-! ## The functions -/

/-- `while (*tmp != '\0') tmp++;` -/
def findNul (mem : Memory) : Nat → Nat → Except Fault Nat
  | 0, _ => throw .outOfFuel
  | fuel + 1, tmp =>
      if mem tmp ≠ 0 then findNul mem fuel (tmp + 1) else pure tmp

/-- A `char *` that is read: an address, or a constant of the program. -/
inductive Source where
  | address (start : Nat)
  | constant (text : List Byte)

def Source.char (mem : Memory) (i : Nat) : Source → Byte
  | .address start => mem (start + i)
  | .constant text => text.getD i 0

/-- `while (*sr != '\0') *tmp++ = *sr++;` -/
def copyText (source : Source) :
    Nat → Memory → Nat → Nat → Except Fault (Memory × Nat)
  | 0, _, _, _ => throw .outOfFuel
  | fuel + 1, mem, tmp, sr =>
      if source.char mem sr ≠ 0 then
        copyText source fuel (store mem tmp (source.char mem sr)) (tmp + 1)
          (sr + 1)
      else
        pure (mem, tmp)

/-- `*tmp++ = '\0'; *tmp = '\0';` -/
def endText (mem : Memory) (tmp : Nat) : Memory :=
  store (store mem tmp 0) (tmp + 1) 0

/-- `strcat`, which both libraries have. -/
def strcat (fuel : Nat) (mem : Memory) (dst : Nat) (source : Source) :
    Except Fault Memory := do
  let tmp ← findNul mem fuel dst
  let (mem, tmp) ← copyText source fuel mem tmp 0
  pure (endText mem tmp)

namespace Sys

def strlen (fuel : Nat) (mem : Memory) (str : Nat) :
    Except Fault (Int × Memory) := do
  let temp ← findNul mem fuel str
  let mem ← strcat fuel mem temp (.constant [0])
  pure (int32 (temp - str : Nat), mem)

def strcpy (fuel : Nat) (mem : Memory) (src dst : Nat) :
    Except Fault Memory := do
  let (mem, temp) ← copyText (.address src) fuel mem dst 0
  strcat fuel (store mem temp 0) temp (.constant [0])

end Sys

namespace Libc

def strlen (fuel : Nat) (mem : Memory) (str : Nat) :
    Except Fault (Int × Memory) := do
  let temp ← findNul mem fuel str
  pure (int32 (temp - str : Nat), endText mem (temp + 1))

def strcpy (fuel : Nat) (mem : Memory) (dest src : Nat) :
    Except Fault Memory := do
  let (mem, tmp) ← copyText (.address src) fuel mem dest 0
  pure (endText mem tmp)

/-- The loop of `strncpy`, with its counter. -/
def copyCounted (n : Int) :
    Nat → Memory → Nat → Nat → Nat → Except Fault (Memory × Nat)
  | 0, _, _, _, _ => throw .outOfFuel
  | fuel + 1, mem, tmp, temp2, i =>
      if mem temp2 ≠ 0 ∧ (i : Int) < n then
        copyCounted n fuel (store mem tmp (mem temp2)) (tmp + 1) (temp2 + 1)
          (i + 1)
      else
        pure (mem, tmp)

def strncpy (fuel : Nat) (mem : Memory) (dest src : Nat) (n : Int) :
    Except Fault Memory := do
  let (mem, tmp) ← copyCounted n fuel mem dest src 0
  pure (endText mem tmp)

end Libc

/-! ## Strings and stores -/

section Texts

variable {mem other : Memory} {addr : Nat} {text : List Byte}

theorem store_same (mem : Memory) (addr : Nat) (byte : Byte) :
    store mem addr byte addr = byte :=
  if_pos rfl

theorem store_other {place : Nat} {byte : Byte} (different : place ≠ addr) :
    store mem addr byte place = mem place :=
  if_neg different

theorem textAt_nil : TextAt mem addr [] ↔ mem addr = 0 := by
  constructor
  · exact fun isText => isText.chars 0 (by simp)
  · intro nul
    exact ⟨holdsAt_cons.mpr ⟨nul, holdsAt_nil⟩, by simp⟩

theorem textAt_cons {char : Byte} {rest : List Byte} :
    TextAt mem addr (char :: rest) ↔
      char ≠ 0 ∧ mem addr = char ∧ TextAt mem (addr + 1) rest := by
  constructor
  · rintro ⟨chars, noNul⟩
    rw [List.cons_append, holdsAt_cons] at chars
    rw [List.mem_cons, not_or] at noNul
    exact ⟨Ne.symm noNul.1, chars.1, chars.2, noNul.2⟩
  · rintro ⟨notNul, first, later⟩
    constructor
    · exact holdsAt_cons.mpr ⟨first, later.chars⟩
    · rw [List.mem_cons, not_or]
      exact ⟨Ne.symm notNul, later.noNul⟩

/-- A string stays where nothing is stored into it. -/
theorem TextAt.congr (isText : TextAt mem addr text)
    (same : ∀ place, addr ≤ place → place ≤ addr + text.length →
      other place = mem place) : TextAt other addr text := by
  refine ⟨fun offset below => ?_, isText.noNul⟩
  have inside := below
  rw [List.length_append, List.length_singleton] at inside
  rw [same _ (by omega) (by omega)]
  exact isText.chars offset below

/-- The byte that ends a string. -/
theorem TextAt.ended (isText : TextAt mem addr text) :
    mem (addr + text.length) = 0 := by
  have last := isText.chars text.length (by simp)
  simpa using last

theorem TextAt.char (isText : TextAt mem addr text) {p : Nat}
    (inside : p ≤ text.length) : mem (addr + p) = text.getD p 0 := by
  rcases Nat.lt_or_eq_of_le inside with within | rfl
  · rw [isText.chars p (by simp; omega), List.getD_append _ _ _ _ within]
  · rw [isText.ended, List.getD_eq_default _ _ (Nat.le_refl _)]

theorem TextAt.char_ne_nul (isText : TextAt mem addr text) {p : Nat}
    (inside : p < text.length) : mem (addr + p) ≠ 0 := by
  rw [isText.char (Nat.le_of_lt inside), List.getD_eq_getElem _ _ inside]
  intro isNul
  exact isText.noNul (isNul ▸ List.getElem_mem inside)

/-- A memory that holds a string at its start. -/
theorem textAt_getD (noNul : 0 ∉ text) :
    TextAt (fun place => text.getD place 0) 0 text := by
  refine ⟨fun offset _ => ?_, noNul⟩
  simp only [Nat.zero_add]
  by_cases inside : offset < text.length
  · rw [List.getD_append _ _ _ _ inside]
  · rw [List.getD_append_right _ _ _ _ (Nat.not_lt.mp inside),
      List.getD_eq_default _ _ (Nat.not_lt.mp inside)]
    cases offset - text.length <;> rfl

theorem TextAt.unique :
    ∀ {text other : List Byte} {addr : Nat}, TextAt mem addr text →
      TextAt mem addr other → text = other := by
  intro text
  induction text with
  | nil =>
      intro other addr isText isOther
      cases other with
      | nil => rfl
      | cons char rest =>
          obtain ⟨notNul, first, -⟩ := textAt_cons.mp isOther
          exact absurd (first.symm.trans (textAt_nil.mp isText)) notNul
  | cons char rest inductionHypothesis =>
      intro other addr isText isOther
      obtain ⟨notNul, first, later⟩ := textAt_cons.mp isText
      cases other with
      | nil => exact absurd (first.symm.trans (textAt_nil.mp isOther)) notNul
      | cons otherChar otherRest =>
          obtain ⟨-, otherFirst, otherLater⟩ := textAt_cons.mp isOther
          rw [inductionHypothesis later otherLater, ← first, otherFirst]

theorem textAt_append {first second : List Byte} :
    TextAt mem addr (first ++ second) ↔
      HoldsAt mem addr first ∧ 0 ∉ first ∧
        TextAt mem (addr + first.length) second := by
  constructor
  · rintro ⟨chars, noNul⟩
    rw [List.append_assoc, holdsAt_append] at chars
    rw [List.mem_append, not_or] at noNul
    exact ⟨chars.1, noNul.1, chars.2, noNul.2⟩
  · rintro ⟨chars, noNul, later⟩
    constructor
    · rw [List.append_assoc, holdsAt_append]
      exact ⟨chars, later.chars⟩
    · rw [List.mem_append, not_or]
      exact ⟨noNul, later.noNul⟩

theorem findNul_eq :
    ∀ {text : List Byte} {fuel addr : Nat}, TextAt mem addr text →
      text.length < fuel →
        findNul mem fuel addr = .ok (addr + text.length) := by
  intro text
  induction text with
  | nil =>
      intro fuel addr isText enough
      obtain ⟨fuel, rfl⟩ := Nat.exists_eq_add_of_lt enough
      rw [findNul, if_neg (not_not.mpr (textAt_nil.mp isText))]
      rfl
  | cons char rest inductionHypothesis =>
      intro fuel addr isText enough
      obtain ⟨fuel, rfl⟩ : ∃ less, fuel = less + 1 := ⟨fuel - 1, by omega⟩
      obtain ⟨notNul, first, later⟩ := textAt_cons.mp isText
      rw [List.length_cons] at enough
      rw [findNul, first, if_pos notNul, inductionHypothesis later (by omega),
        List.length_cons]
      congr 1
      omega

theorem putField_step (mem : Memory) (addr : Nat) (char : Byte)
    (rest : List Byte) :
    putField (store mem addr char) (addr + 1) rest =
      putField mem addr (char :: rest) :=
  putField_cons mem addr char rest

/-- The copy of a string to where it does not overtake what is still to be
read. -/
theorem copyText_down {src : Nat} :
    ∀ {text : List Byte} {fuel tmp sr : Nat} {mem : Memory},
      TextAt mem (src + sr) text → text.length < fuel →
        (tmp ≤ src + sr ∨ src + sr + text.length < tmp) →
          copyText (.address src) fuel mem tmp sr =
            .ok (putField mem tmp text, tmp + text.length) := by
  intro text
  induction text with
  | nil =>
      intro fuel tmp sr mem isText enough _
      obtain ⟨fuel, rfl⟩ := Nat.exists_eq_add_of_lt enough
      rw [copyText, Source.char, if_neg (not_not.mpr (textAt_nil.mp isText)),
        putField_nil]
      rfl
  | cons char rest inductionHypothesis =>
      intro fuel tmp sr mem isText enough behind
      obtain ⟨fuel, rfl⟩ : ∃ less, fuel = less + 1 := ⟨fuel - 1, by omega⟩
      obtain ⟨notNul, first, later⟩ := textAt_cons.mp isText
      rw [List.length_cons] at enough behind
      have kept : TextAt (store mem tmp char) (src + (sr + 1)) rest :=
        later.congr fun place _ _ => store_other (by omega)
      rw [copyText, Source.char, first, if_pos notNul,
        inductionHypothesis kept (by omega) (by omega),
        putField_step, List.length_cons, Nat.add_assoc, Nat.add_comm 1]

/-- The copy of a string into bytes that are apart from it. -/
theorem copyText_eq {src : Nat} {fuel tmp sr : Nat}
    (isText : TextAt mem (src + sr) text) (enough : text.length < fuel)
    (apart : Apart tmp text.length (src + sr) (text.length + 1)) :
    copyText (.address src) fuel mem tmp sr =
      .ok (putField mem tmp text, tmp + text.length) := by
  apply copyText_down isText enough
  unfold Apart at apart
  omega

theorem copyCounted_eq {n : Int} :
    ∀ {text : List Byte} {fuel tmp temp2 i : Nat} {mem : Memory},
      TextAt mem temp2 text → text.length < fuel →
        Apart tmp (text.take (n - i).toNat).length temp2 (text.length + 1) →
          Libc.copyCounted n fuel mem tmp temp2 i =
            .ok (putField mem tmp (text.take (n - i).toNat),
              tmp + (text.take (n - i).toNat).length) := by
  intro text
  induction text with
  | nil =>
      intro fuel tmp temp2 i mem isText enough _
      obtain ⟨fuel, rfl⟩ := Nat.exists_eq_add_of_lt enough
      rw [Libc.copyCounted,
        if_neg (fun both => both.1 (textAt_nil.mp isText)), List.take_nil,
        putField_nil]
      rfl
  | cons char rest inductionHypothesis =>
      intro fuel tmp temp2 i mem isText enough apart
      obtain ⟨fuel, rfl⟩ : ∃ less, fuel = less + 1 := ⟨fuel - 1, by omega⟩
      obtain ⟨notNul, first, later⟩ := textAt_cons.mp isText
      rw [List.length_cons] at enough
      by_cases more : (i : Int) < n
      · have count : (n - i).toNat = (n - (i + 1 : Nat)).toNat + 1 := by omega
        rw [Apart, count, List.take_succ_cons, List.length_cons,
          List.length_cons] at apart
        have kept : TextAt (store mem tmp char) (temp2 + 1) rest :=
          later.congr fun place _ _ => store_other (by omega)
        rw [Libc.copyCounted, first, if_pos ⟨notNul, more⟩,
          inductionHypothesis kept (by omega) (by unfold Apart; omega), count,
          List.take_succ_cons, putField_step, List.length_cons, Nat.add_assoc,
          Nat.add_comm 1]
      · have count : (n - i).toNat = 0 := by omega
        rw [Libc.copyCounted, if_neg (fun both => more both.2), count,
          List.take_zero, putField_nil]
        rfl

/-- The two NULs at the end of a string that is already ended. -/
theorem strcat_empty {fuel : Nat} (ended : mem addr = 0) (enough : 0 < fuel) :
    strcat fuel mem addr (.constant [0]) = .ok (endText mem addr) := by
  obtain ⟨fuel, rfl⟩ : ∃ less, fuel = less + 1 := ⟨fuel - 1, by omega⟩
  have found : findNul mem (fuel + 1) addr = .ok addr := by
    rw [findNul, if_neg (not_not.mpr ended)]
    rfl
  rw [strcat, found]
  rfl

theorem endText_apply (mem : Memory) (addr place : Nat) :
    endText mem addr place =
      if place = addr ∨ place = addr + 1 then 0 else mem place := by
  unfold endText store
  by_cases last : place = addr + 1
  · rw [if_pos last, if_pos (Or.inr last)]
  · simp only [last, or_false, if_false]

theorem endText_store (mem : Memory) (addr : Nat) :
    endText (store mem addr 0) addr = endText mem addr := by
  funext place
  rw [endText_apply, endText_apply]
  split
  · rfl
  · rename_i outside
    exact store_other fun same => outside (Or.inl same)

/-- What `putField` changes lies in its field. -/
theorem putField_changes {place : Nat}
    (changed : putField mem addr text place ≠ mem place) :
    addr ≤ place ∧ place < addr + text.length := by
  by_contra outside
  exact changed (if_neg outside)

/-- A string that was copied, behind what was there before. -/
theorem textAt_copied (noNul : 0 ∉ text) :
    TextAt (endText (putField mem addr text) (addr + text.length)) addr
      text := by
  refine ⟨holdsAt_append.mpr ⟨?_, holdsAt_cons.mpr ⟨?_, holdsAt_nil⟩⟩, noNul⟩
  · intro offset below
    rw [endText_apply, if_neg (by omega)]
    exact holdsAt_putField _ _ _ offset below
  · rw [endText_apply, if_pos (Or.inl rfl)]

/-- What a copy with its two NULs leaves as it was. -/
theorem copied_outside {place : Nat}
    (outside : place < addr ∨ addr + text.length + 1 < place) :
    endText (putField mem addr text) (addr + text.length) place =
      mem place := by
  rw [endText_apply, if_neg (by omega)]
  exact if_neg (by omega)

/-! ## What the functions return -/

variable {source target : List Byte} {fuel str src dst : Nat}

theorem sys_strlen_eq (isText : TextAt mem str source)
    (enough : source.length < fuel) :
    Sys.strlen fuel mem str =
      .ok (int32 source.length, endText mem (str + source.length)) := by
  rw [Sys.strlen, findNul_eq isText enough]
  show (strcat fuel mem (str + source.length) (.constant [0]) >>= _) = _
  rw [strcat_empty isText.ended (Nat.zero_lt_of_lt enough),
    Nat.add_sub_cancel_left]
  rfl

theorem libc_strlen_eq (isText : TextAt mem str source)
    (enough : source.length < fuel) :
    Libc.strlen fuel mem str =
      .ok (int32 source.length, endText mem (str + source.length + 1)) := by
  rw [Libc.strlen, findNul_eq isText enough]
  show Except.ok (int32 (str + source.length - str : Nat), _) = _
  rw [Nat.add_sub_cancel_left]

theorem copyText_zero (isText : TextAt mem src source)
    (enough : source.length < fuel)
    (apart : Apart dst source.length src (source.length + 1)) :
    copyText (.address src) fuel mem dst 0 =
      .ok (putField mem dst source, dst + source.length) :=
  copyText_eq isText enough apart

theorem sys_strcpy_eq (isText : TextAt mem src source)
    (enough : source.length < fuel)
    (apart : Apart dst source.length src (source.length + 1)) :
    Sys.strcpy fuel mem src dst =
      .ok (endText (putField mem dst source) (dst + source.length)) := by
  rw [Sys.strcpy, copyText_zero isText enough apart]
  show strcat fuel (store (putField mem dst source) (dst + source.length) 0)
    (dst + source.length) (.constant [0]) = _
  rw [strcat_empty (store_same ..) (Nat.zero_lt_of_lt enough), endText_store]

theorem libc_strcpy_eq (isText : TextAt mem src source)
    (enough : source.length < fuel)
    (apart : Apart dst source.length src (source.length + 1)) :
    Libc.strcpy fuel mem dst src =
      .ok (endText (putField mem dst source) (dst + source.length)) := by
  rw [Libc.strcpy, copyText_zero isText enough apart]
  rfl

/-- `strcpy` of a string to a lower address, over itself if need be. -/
theorem libc_strcpy_down (isText : TextAt mem src source)
    (enough : source.length < fuel) (down : dst ≤ src) :
    Libc.strcpy fuel mem dst src =
      .ok (endText (putField mem dst source) (dst + source.length)) := by
  have copied : copyText (.address src) fuel mem dst 0 =
      .ok (putField mem dst source, dst + source.length) :=
    copyText_down isText enough (Or.inl down)
  rw [Libc.strcpy, copied]
  rfl

theorem libc_strncpy_eq {n : Int} (isText : TextAt mem src source)
    (enough : source.length < fuel)
    (apart : Apart dst (source.take n.toNat).length src (source.length + 1)) :
    Libc.strncpy fuel mem dst src n =
      .ok (endText (putField mem dst (source.take n.toNat))
        (dst + (source.take n.toNat).length)) := by
  have whole : (n - (0 : Nat)).toNat = n.toNat := by omega
  have copied := copyCounted_eq isText enough (by rwa [whole])
  rw [whole] at copied
  rw [Libc.strncpy, copied]
  rfl

theorem strcat_eq (isText : TextAt mem src source)
    (isTarget : TextAt mem dst target) (enough : source.length < fuel)
    (targetFits : target.length < fuel)
    (apart : Apart dst (target.length + source.length + 1) src
      (source.length + 1)) :
    strcat fuel mem dst (.address src) =
      .ok (endText (putField mem (dst + target.length) source)
        (dst + (target.length + source.length))) := by
  have apartEnd : Apart (dst + target.length) source.length src
      (source.length + 1) := by
    unfold Apart at apart ⊢
    omega
  rw [strcat, findNul_eq isTarget targetFits]
  show (copyText (.address src) fuel mem (dst + target.length) 0 >>= _) = _
  rw [copyText_zero isText enough apartEnd, ← Nat.add_assoc]
  rfl

end Texts

/-! ## The calls -/

/-- A call of a string function, with its arguments in the order of the
source. -/
inductive StringCall where
  | sysStrlen (str : Nat)
  | sysStrcpy (src dst : Nat)
  | sysStrcat (dst src : Nat)
  | libcStrlen (str : Nat)
  | libcStrcpy (dest src : Nat)
  | libcStrncpy (dest src : Nat) (n : Int)
  | libcStrcat (dst src : Nat)

namespace StringCall

/-- The memory after a call. -/
def run (fuel : Nat) (mem : Memory) : StringCall → Except Fault Memory
  | sysStrlen str => (Sys.strlen fuel mem str).map Prod.snd
  | sysStrcpy src dst => Sys.strcpy fuel mem src dst
  | sysStrcat dst src => strcat fuel mem dst (.address src)
  | libcStrlen str => (Libc.strlen fuel mem str).map Prod.snd
  | libcStrcpy dest src => Libc.strcpy fuel mem dest src
  | libcStrncpy dest src n => Libc.strncpy fuel mem dest src n
  | libcStrcat dst src => strcat fuel mem dst (.address src)

/-- The operands are strings, `source` the one that is read and `target` the
one that `strcat` appends to, and the bytes that C writes are apart from the
source. -/
def Operands (mem : Memory) (source target : List Byte) :
    StringCall → Prop
  | sysStrlen str | libcStrlen str => TextAt mem str source
  | sysStrcpy src dst | libcStrcpy dst src =>
      TextAt mem src source ∧
        Apart dst (source.length + 1) src (source.length + 1)
  | libcStrncpy dest src n =>
      TextAt mem src source ∧ Apart dest n.toNat src (source.length + 1)
  | sysStrcat dst src | libcStrcat dst src =>
      TextAt mem src source ∧ TextAt mem dst target ∧
        Apart dst (target.length + source.length + 1) src (source.length + 1)

/-- The bytes that C lets a call change. -/
def MayChange (source target : List Byte) (place : Nat) : StringCall → Prop
  | sysStrlen _ | libcStrlen _ => False
  | sysStrcpy _ dst | libcStrcpy dst _ =>
      dst ≤ place ∧ place ≤ dst + source.length
  | libcStrncpy dest _ n => dest ≤ place ∧ (place : Int) < dest + n
  | sysStrcat dst _ | libcStrcat dst _ =>
      dst ≤ place ∧ place ≤ dst + (target.length + source.length)

/-- Where a call puts the first of its two NULs. -/
def firstNul (source target : List Byte) : StringCall → Nat
  | sysStrlen str => str + source.length
  | libcStrlen str => str + source.length + 1
  | sysStrcpy _ dst | libcStrcpy dst _ => dst + source.length
  | libcStrncpy dest _ n => dest + min n.toNat source.length
  | sysStrcat dst _ | libcStrcat dst _ =>
      dst + (target.length + source.length)

variable {mem after : Memory} {source target : List Byte} {call : StringCall}

/-- A call only changes what C lets it change. -/
def OnlyChanges (mem after : Memory) (source target : List Byte)
    (call : StringCall) : Prop :=
  ∀ place, after place ≠ mem place → call.MayChange source target place

/-- A NUL outside of what C lets a call change was there before. -/
def Spared (mem : Memory) (source target : List Byte) (call : StringCall) :
    Prop :=
  ∀ place, place = call.firstNul source target ∨
      place = call.firstNul source target + 1 →
    call.MayChange source target place ∨ mem place = 0

/-- A call that stores a field where C lets it, and two NULs. -/
theorem onlyChanges_iff {start : Nat} {field : List Byte}
    (after_eq : after =
      endText (putField mem start field) (call.firstNul source target))
    (inside : ∀ place, start ≤ place → place < start + field.length →
      call.MayChange source target place) :
    OnlyChanges mem after source target call ↔
      Spared mem source target call := by
  subst after_eq
  constructor
  · intro only place isNul
    by_contra neither
    rw [not_or] at neither
    refine neither.1 (only place ?_)
    rw [endText_apply, if_pos isNul]
    exact Ne.symm neither.2
  · intro spared place changed
    rw [endText_apply] at changed
    split at changed
    · rename_i isNul
      rcases spared place isNul with may | before
      · exact may
      · exact absurd before.symm changed
    · have within := putField_changes changed
      exact inside place within.1 within.2

/-- The memory after a call whose operands are strings. -/
theorem run_eq {fuel : Nat} (operands : call.Operands mem source target)
    (enough : source.length + target.length < fuel) :
    ∃ start field, call.run fuel mem =
        .ok (endText (putField mem start field)
          (call.firstNul source target)) ∧
      ∀ place, start ≤ place → place < start + field.length →
        call.MayChange source target place := by
  have sourceFits : source.length < fuel := by omega
  have targetFits : target.length < fuel := by omega
  cases call with
  | sysStrlen str =>
      refine ⟨0, [], ?_, fun place _ below => absurd below (by simp)⟩
      have isText : TextAt mem str source := operands
      rw [run, sys_strlen_eq isText sourceFits, putField_nil]
      rfl
  | libcStrlen str =>
      refine ⟨0, [], ?_, fun place _ below => absurd below (by simp)⟩
      have isText : TextAt mem str source := operands
      rw [run, libc_strlen_eq isText sourceFits, putField_nil]
      rfl
  | sysStrcpy src dst =>
      obtain ⟨isText, apart⟩ := operands
      refine ⟨dst, source, sys_strcpy_eq isText sourceFits ?_,
        fun place above below => ⟨above, Nat.le_of_lt below⟩⟩
      unfold Apart at apart ⊢
      omega
  | libcStrcpy dest src =>
      obtain ⟨isText, apart⟩ := operands
      refine ⟨dest, source, libc_strcpy_eq isText sourceFits ?_,
        fun place above below => ⟨above, Nat.le_of_lt below⟩⟩
      unfold Apart at apart ⊢
      omega
  | libcStrncpy dest src n =>
      obtain ⟨isText, apart⟩ := operands
      have copied : (source.take n.toNat).length = min n.toNat source.length :=
        List.length_take
      refine ⟨dest, source.take n.toNat, ?_, ?_⟩
      · have apartTaken : Apart dest (source.take n.toNat).length src
            (source.length + 1) := by
          unfold Apart at apart ⊢
          omega
        rw [run, libc_strncpy_eq isText sourceFits apartTaken, copied]
        rfl
      · intro place above below
        have inside : (place : Int) < dest + n := by omega
        exact ⟨above, inside⟩
  | sysStrcat dst src =>
      obtain ⟨isText, isTarget, apart⟩ := operands
      refine ⟨dst + target.length, source,
        strcat_eq isText isTarget sourceFits targetFits apart, ?_⟩
      intro place above below
      have inside : dst ≤ place ∧
          place ≤ dst + (target.length + source.length) := by
        omega
      exact inside
  | libcStrcat dst src =>
      obtain ⟨isText, isTarget, apart⟩ := operands
      refine ⟨dst + target.length, source,
        strcat_eq isText isTarget sourceFits targetFits apart, ?_⟩
      intro place above below
      have inside : dst ≤ place ∧
          place ≤ dst + (target.length + source.length) := by
        omega
      exact inside

/-- A call changes only what C lets it change exactly when its NULs outside
of that were there before. -/
theorem run_onlyChanges_iff {fuel : Nat}
    (operands : call.Operands mem source target)
    (enough : source.length + target.length < fuel) :
    ∃ after, call.run fuel mem = .ok after ∧
      (OnlyChanges mem after source target call ↔
        Spared mem source target call) := by
  obtain ⟨start, field, returned, inside⟩ := run_eq operands enough
  exact ⟨_, returned, onlyChanges_iff rfl inside⟩

end StringCall

/-- A memory with one character. -/
def oneChar (place : Nat) (char : Byte) : Memory :=
  store (fun _ => 0) place char

theorem textAt_oneChar : TextAt (oneChar 8 0x41) 8 [0x41] :=
  textAt_cons.mpr ⟨by decide, rfl, textAt_nil.mpr rfl⟩

theorem run_onlyChanges_oneChar :
    ∃ after, (StringCall.libcStrcpy 0 8).run 2 (oneChar 8 0x41) = .ok after ∧
      (StringCall.OnlyChanges (oneChar 8 0x41) after [0x41] []
          (.libcStrcpy 0 8) ↔
        StringCall.Spared (oneChar 8 0x41) [0x41] [] (.libcStrcpy 0 8)) :=
  StringCall.run_onlyChanges_iff ⟨textAt_oneChar, Or.inl (by decide)⟩
    (by decide)

/-- `strlen` of an empty string clears the byte behind it. -/
theorem not_onlyChanges_strlen :
    ∃ after, (StringCall.sysStrlen 7).run 1 (oneChar 8 0x41) = .ok after ∧
      ¬ StringCall.OnlyChanges (oneChar 8 0x41) after [] []
        (.sysStrlen 7) := by
  refine ⟨endText (oneChar 8 0x41) 7, rfl, fun only => ?_⟩
  exact only 8 (by decide)

end SbuUnix
