import SbuUnix.Libc.Strings

/-!
# `strstr`

`strstr` of `libc/string.c`.  It measures both strings first, and `strlen`
stores two NULs behind each of them.  The loop over the positions ends before
the last one at which the string can occur.
-/

namespace SbuUnix

/-! ## The source -/

/-- The comparison at one position, with `left` characters still to go. -/
def sameChars (mem : Memory) (str search : Nat) : Nat → Nat → Bool
  | 0, _ => true
  | left + 1, offset =>
      if mem (str + offset) ≠ mem (search + offset) then
        false
      else
        sameChars mem str search left (offset + 1)

/-- The loop over the positions, with `left` of them still to go. -/
def searchFrom (mem : Memory) (str search len2 : Nat) : Nat → Nat → Word
  | 0, _ => 0
  | left + 1, i =>
      if sameChars mem (str + i) search len2 0 then
        1
      else
        searchFrom mem str search len2 left (i + 1)

/-- The code behind both calls of `strlen`.  Neither bound changes while the
loops run, so they are counts. -/
def searchMeasured (mem : Memory) (str search : Nat) (len1 len2 : Int) :
    Word :=
  if len1 < len2 then
    0
  else if len1 = 0 ∨ len2 = 0 then
    0
  else
    searchFrom mem str search len2.toNat (int32 (len1 - len2)).toNat 0

def Libc.strstr (fuel : Nat) (mem : Memory) (str search : Nat) :
    Except Fault (Word × Memory) := do
  let (len1, mem) ← Libc.strlen fuel mem str
  let (len2, mem) ← Libc.strlen fuel mem search
  pure (searchMeasured mem str search len1 len2, mem)

/-! ## Where it looks -/

/-- How many characters of `str` the two NULs behind `search` overwrite. -/
def clearedChars (str search len2 : Nat) : Nat :=
  if search + len2 < str then search + len2 + 3 - str else 0

/-- `search` starts in the two bytes behind `str`, where NULs are stored. -/
def Overwritten (str search len1 : Nat) : Prop :=
  search = str + len1 + 1 ∨ search = str + len1 + 2

/-- The loops meet `search`: the lengths are what an `int` keeps of them. -/
structure Reached (str search : Nat) (text pattern : List Byte)
    (len1 len2 : Int) : Prop where
  kept : ¬ Overwritten str search text.length
  fits : len2 ≤ len1
  nonempty : len1 ≠ 0 ∧ len2 ≠ 0
  found : ∃ i : Nat, (i : Int) < int32 (len1 - len2) ∧
    (len2 ≤ 0 ∨ clearedChars str search pattern.length ≤ i) ∧
      pattern.take len2.toNat <+: text.drop i

/-- `search` occurs where the loops look for it: at a position before the
last possible one, in what the NULs behind both strings leave. -/
def OccursBeforeEnd (str search : Nat) (text pattern : List Byte) : Prop :=
  ¬ Overwritten str search text.length ∧
    ∃ i, clearedChars str search pattern.length ≤ i ∧
      i + pattern.length < text.length ∧ pattern <+: text.drop i

/-- Strings whose lengths an `int` holds are searched right if an occurrence
is not missed; for longer ones the lengths that are left decide. -/
def SearchedRight (str search : Nat) (text pattern : List Byte) : Prop :=
  if text.length < 2 ^ 31 ∧ pattern.length < 2 ^ 31 then
    pattern <:+: text → OccursBeforeEnd str search text pattern
  else
    pattern <:+: text ↔
      Reached str search text pattern (int32 text.length)
        (int32 pattern.length)

/-- A truth value of C. -/
def Decides (result : Word) (holds : Prop) : Prop :=
  (result = 1 ∧ holds) ∨ (result = 0 ∧ ¬ holds)

/-! ## The loops -/

section Loops

variable {mem : Memory} {str search len2 : Nat}

theorem sameChars_iff (left : Nat) :
    ∀ offset, sameChars mem str search left offset = true ↔
      ∀ k < left, mem (str + (offset + k)) = mem (search + (offset + k)) := by
  induction left with
  | zero =>
      intro offset
      simp [sameChars]
  | succ left inductionHypothesis =>
      intro offset
      rw [sameChars, Nat.forall_lt_succ_left]
      simp only [Nat.add_zero]
      by_cases same : mem (str + offset) = mem (search + offset)
      · rw [if_neg (not_not.mpr same), inductionHypothesis,
          and_iff_right same]
        simp only [Nat.add_assoc, Nat.add_comm 1]
      · rw [if_pos same]
        simp [same]

theorem searchFrom_decides (left : Nat) :
    ∀ i, Decides (searchFrom mem str search len2 left i)
      (∃ k < left, sameChars mem (str + (i + k)) search len2 0 = true) := by
  induction left with
  | zero =>
      intro i
      exact Or.inr ⟨rfl, by simp⟩
  | succ left inductionHypothesis =>
      intro i
      rw [searchFrom, Nat.exists_lt_succ_left]
      simp only [Nat.add_zero]
      by_cases here : sameChars mem (str + i) search len2 0 = true
      · rw [if_pos here]
        exact Or.inl ⟨rfl, Or.inl here⟩
      · have later := inductionHypothesis (i + 1)
        simp only [Nat.add_assoc, Nat.add_comm 1] at later
        rw [if_neg here]
        simpa only [here, false_or, Bool.false_eq_true] using later

end Loops

/-! ## Occurrences -/

section Occurrences

variable {text pattern : List Byte}

/-- The positions at which a list occurs in another one. -/
theorem infix_iff_drop :
    pattern <:+: text ↔
      ∃ i, i + pattern.length ≤ text.length ∧ pattern <+: text.drop i := by
  constructor
  · rintro ⟨front, back, rfl⟩
    refine ⟨front.length, ?_, ?_⟩
    · simp only [List.length_append]
      omega
    · rw [List.append_assoc, List.drop_left]
      exact List.prefix_append _ _
  · rintro ⟨i, -, isPrefix⟩
    exact isPrefix.isInfix.trans (List.drop_suffix i text).isInfix

/-- A string without NULs occurs where its characters stand. -/
theorem prefix_drop_iff (noNul : 0 ∉ pattern) (i : Nat) :
    pattern <+: text.drop i ↔
      ∀ k < pattern.length, text.getD (i + k) 0 = pattern.getD k 0 := by
  rw [List.prefix_iff_getElem?]
  apply forall_congr'
  intro k
  apply forall_congr'
  intro inside
  rw [List.getElem?_drop, List.getD_eq_getElem?_getD,
    List.getD_eq_getElem _ _ inside]
  cases text[i + k]? with
  | some char => simp
  | none =>
      simp only [reduceCtorEq, Option.getD_none, false_iff]
      intro isNul
      exact noNul (isNul ▸ List.getElem_mem inside)

end Occurrences

/-! ## The strings after both have been measured -/

section Measured

variable {mem : Memory} {str search : Nat} {text pattern : List Byte}

/-- A string that starts in the two bytes behind another one is emptied. -/
theorem search_overwritten (mem : Memory)
    (overwritten : Overwritten str search text.length) :
    TextAt (endText mem (str + text.length + 1)) search [] := by
  rw [textAt_nil, endText_apply, if_pos]
  rcases overwritten with rfl | rfl <;> simp

/-- Any other one is kept: the NUL of the first is not inside the second. -/
theorem search_kept (isText : TextAt mem str text)
    (isPattern : TextAt mem search pattern)
    (kept : ¬ Overwritten str search text.length) :
    TextAt (endText mem (str + text.length + 1)) search pattern := by
  apply isPattern.congr
  intro place above below
  rw [endText_apply]
  split
  · rename_i isNul
    unfold Overwritten at kept
    rcases Nat.lt_or_eq_of_le below with before | rfl
    · have nulInside := isPattern.char_ne_nul
        (show str + text.length - search < pattern.length by omega)
      rw [Nat.add_sub_cancel' (show search ≤ str + text.length by omega)]
        at nulInside
      exact absurd isText.ended nulInside
    · exact isPattern.ended.symm
  · rfl

/-- The NULs behind the second string are the first characters of the first
one, or behind it. -/
theorem str_cleared (isText : TextAt mem str text)
    (isPattern : TextAt mem search pattern) {p : Nat}
    (inside : p < text.length) :
    endText mem (search + pattern.length + 1) (str + p) =
      if p < clearedChars str search pattern.length then 0
      else text.getD p 0 := by
  have nuls : (str + p = search + pattern.length + 1 ∨
      str + p = search + pattern.length + 1 + 1) ↔
        p < clearedChars str search pattern.length := by
    unfold clearedChars
    split
    · omega
    · rename_i before
      constructor
      · intro isNul
        have nulInside := isText.char_ne_nul
          (show search + pattern.length - str < text.length by omega)
        rw [Nat.add_sub_cancel' (by omega)] at nulInside
        exact absurd isPattern.ended nulInside
      · intro below
        omega
  rw [endText_apply]
  simp only [nuls, isText.char (Nat.le_of_lt inside)]

/-- What the comparison at a position finds, on the first `count` characters
of the pattern. -/
theorem compared_iff (isText : TextAt mem str text)
    (isPattern : TextAt mem search pattern) {count i : Nat}
    (positive : 0 < count) (inPattern : count ≤ pattern.length)
    (inText : i + count ≤ text.length) :
    sameChars (endText mem (search + pattern.length + 1)) (str + i) search
        count 0 = true ↔
      clearedChars str search pattern.length ≤ i ∧
        pattern.take count <+: text.drop i := by
  have left : ∀ k < count,
      endText mem (search + pattern.length + 1) (str + i + (0 + k)) =
        if i + k < clearedChars str search pattern.length then 0
        else text.getD (i + k) 0 := by
    intro k below
    rw [Nat.zero_add, Nat.add_assoc str]
    exact str_cleared isText isPattern (show i + k < text.length by omega)
  have right : ∀ k < count,
      endText mem (search + pattern.length + 1) (search + (0 + k)) =
        pattern.getD k 0 := by
    intro k below
    rw [Nat.zero_add, endText_apply, if_neg (by omega)]
    exact isPattern.char (by omega)
  have taken : ∀ k < count, (pattern.take count).getD k 0 =
      pattern.getD k 0 := by
    intro k below
    rw [List.getD_eq_getElem?_getD, List.getElem?_take_of_lt below,
      List.getD_eq_getElem?_getD]
  have noNul : 0 ∉ pattern.take count :=
    fun member => isPattern.noNul (List.mem_of_mem_take member)
  have firstChar : pattern.getD 0 0 ≠ 0 := by
    have notNul := isPattern.char_ne_nul (show 0 < pattern.length by omega)
    rwa [isPattern.char (Nat.zero_le _)] at notNul
  rw [sameChars_iff, prefix_drop_iff noNul, List.length_take,
    Nat.min_eq_left inPattern]
  constructor
  · intro same
    have behind : clearedChars str search pattern.length ≤ i := by
      by_contra within
      have first := same 0 positive
      rw [left 0 positive, right 0 positive, if_pos (by omega)] at first
      exact firstChar first.symm
    refine ⟨behind, fun k below => ?_⟩
    have char := same k below
    rwa [left k below, right k below, if_neg (by omega), ← taken k below]
      at char
  · rintro ⟨behind, occurs⟩ k below
    rw [left k below, right k below, if_neg (by omega), ← taken k below]
    exact occurs k below

end Measured

/-! ## The result -/

section Result

variable {mem : Memory} {str search fuel : Nat} {text pattern : List Byte}

theorem decides_congr {result : Word} {first second : Prop}
    (decides : Decides result first) (same : first ↔ second) :
    Decides result second := by
  unfold Decides at decides ⊢
  rwa [← same]

theorem int32_bounds (value : Int) :
    -2 ^ 31 ≤ int32 value ∧ int32 value < 2 ^ 31 := by
  constructor
  · exact Int.le_bmod (by decide)
  · exact Int.bmod_lt (by decide)

/-- What an `int` keeps of a length is not more. -/
theorem int32_le (length : Nat) : int32 length ≤ length := by
  rcases Nat.lt_or_ge length (2 ^ 31) with small | large
  · rw [int32_of_small small]
  · have bounds := int32_bounds length
    omega

/-- The loops find what they reach. -/
theorem searchFrom_reached (isText : TextAt mem str text)
    (isPattern : TextAt mem search pattern)
    (kept : ¬ Overwritten str search text.length) {len1 len2 : Int}
    (fits : len2 ≤ len1) (nonempty : len1 ≠ 0 ∧ len2 ≠ 0)
    (inText : len1 ≤ text.length) (inPattern : len2 ≤ pattern.length) :
    Decides (searchFrom (endText mem (search + pattern.length + 1)) str search
        len2.toNat (int32 (len1 - len2)).toNat 0)
      (Reached str search text pattern len1 len2) := by
  have tries : int32 (len1 - len2) ≤ len1 - len2 := by
    have difference := int32_le (len1 - len2).toNat
    rwa [Int.toNat_of_nonneg (by omega)] at difference
  apply decides_congr (searchFrom_decides _ _)
  rcases Int.lt_or_le 0 len2 with positive | none
  · have compared : ∀ i : Nat, (i : Int) < int32 (len1 - len2) →
        (sameChars (endText mem (search + pattern.length + 1)) (str + (0 + i))
          search len2.toNat 0 = true ↔
            clearedChars str search pattern.length ≤ i ∧
              pattern.take len2.toNat <+: text.drop i) := by
      intro i tried
      rw [Nat.zero_add]
      exact compared_iff isText isPattern (by omega) (by omega) (by omega)
    constructor
    · rintro ⟨i, tried, same⟩
      obtain ⟨behind, occurs⟩ := (compared i (by omega)).mp same
      exact ⟨kept, fits, nonempty, i, by omega, Or.inr behind, occurs⟩
    · rintro ⟨-, -, -, i, tried, behind | behind, occurs⟩
      · omega
      · exact ⟨i, by omega, (compared i tried).mpr ⟨behind, occurs⟩⟩
  · have noChars : len2.toNat = 0 := Int.toNat_of_nonpos none
    constructor
    · rintro ⟨i, tried, -⟩
      refine ⟨kept, fits, nonempty, i, by omega, Or.inl none, ?_⟩
      rw [noChars, List.take_zero]
      exact List.nil_prefix
    · rintro ⟨-, -, -, i, tried, -⟩
      refine ⟨i, by omega, ?_⟩
      rw [noChars]
      rfl

theorem searchMeasured_reached (isText : TextAt mem str text)
    (isPattern : TextAt mem search pattern)
    (kept : ¬ Overwritten str search text.length) :
    Decides (searchMeasured (endText mem (search + pattern.length + 1)) str
        search (int32 text.length) (int32 pattern.length))
      (Reached str search text pattern (int32 text.length)
        (int32 pattern.length)) := by
  unfold searchMeasured
  split
  · rename_i longer
    exact Or.inr ⟨rfl, fun reached => absurd reached.fits (by omega)⟩
  split
  · rename_i empty
    exact Or.inr ⟨rfl, fun reached => not_or.mpr reached.nonempty empty⟩
  · rename_i notLonger nonempty
    exact searchFrom_reached isText isPattern kept (by omega)
      (not_or.mp nonempty) (int32_le _) (int32_le _)

theorem strstr_of_strlen {len1 len2 : Int} {first second : Memory}
    (measured : Libc.strlen fuel mem str = .ok (len1, first))
    (searchMeasuredToo : Libc.strlen fuel first search = .ok (len2, second)) :
    Libc.strstr fuel mem str search =
      .ok (searchMeasured second str search len1 len2, second) := by
  rw [Libc.strstr, measured]
  show (Libc.strlen fuel first search >>= _) = _
  rw [searchMeasuredToo]
  rfl

/-- What `strstr` returns for strings of any length. -/
theorem strstr_decides (isText : TextAt mem str text)
    (isPattern : TextAt mem search pattern)
    (textFits : text.length < fuel) (patternFits : pattern.length < fuel) :
    ∃ result after, Libc.strstr fuel mem str search = .ok (result, after) ∧
      Decides result (Reached str search text pattern (int32 text.length)
        (int32 pattern.length)) := by
  have measured := libc_strlen_eq isText textFits
  by_cases overwritten : Overwritten str search text.length
  · have emptied := libc_strlen_eq
      (search_overwritten mem overwritten)
      (Nat.zero_lt_of_lt textFits)
    refine ⟨_, _, strstr_of_strlen measured emptied, Or.inr ⟨?_, ?_⟩⟩
    · have zeroLength : int32 ([] : List Byte).length = 0 := rfl
      rw [searchMeasured, zeroLength, if_pos (Or.inr rfl), ite_self]
    · exact fun reached => reached.kept overwritten
  · have keptText : TextAt (endText mem (str + text.length + 1)) str text := by
      apply isText.congr
      intro place _ below
      rw [endText_apply, if_neg (by omega)]
    have keptPattern := search_kept isText isPattern overwritten
    exact ⟨_, _,
      strstr_of_strlen measured (libc_strlen_eq keptPattern patternFits),
      searchMeasured_reached keptText keptPattern overwritten⟩

/-- For strings whose lengths an `int` holds. -/
theorem reached_iff (nonempty : pattern ≠ [])
    (textSmall : text.length < 2 ^ 31)
    (patternSmall : pattern.length < 2 ^ 31) :
    Reached str search text pattern (int32 text.length)
        (int32 pattern.length) ↔
      OccursBeforeEnd str search text pattern := by
  have positive := List.length_pos_iff.mpr nonempty
  rw [int32_of_small textSmall, int32_of_small patternSmall]
  constructor
  · rintro ⟨kept, fits, -, i, tried, behind, occurs⟩
    have difference := int32_le (text.length - pattern.length)
    rw [Nat.cast_sub (by omega)] at difference
    rw [Int.toNat_natCast, List.take_length] at occurs
    exact ⟨kept, i, by omega, by omega, occurs⟩
  · rintro ⟨kept, i, behind, before, occurs⟩
    have difference : int32 ((text.length : Int) - pattern.length) =
        (text.length - pattern.length : Nat) := by
      rw [← Nat.cast_sub (by omega)]
      exact int32_of_small (by omega)
    refine ⟨kept, by omega, by omega, i, by omega, Or.inr behind, ?_⟩
    rw [Int.toNat_natCast, List.take_length]
    exact occurs

theorem occursBeforeEnd_infix
    (occurs : OccursBeforeEnd str search text pattern) : pattern <:+: text := by
  obtain ⟨-, i, -, before, isPrefix⟩ := occurs
  exact infix_iff_drop.mpr ⟨i, by omega, isPrefix⟩

/-- A result that decides one thing decides another one exactly if these are
the same. -/
theorem decides_iff {result : Word} {first second : Prop}
    (decides : Decides result first) :
    Decides result second ↔ (second ↔ first) := by
  have different : (1 : Word) ≠ 0 := by decide
  rcases decides with ⟨rfl, holds⟩ | ⟨rfl, fails⟩
  · simp [Decides, holds]
  · simp [Decides, fails]

/-- `strstr` decides whether a string occurs in another one exactly if no
occurrence is missed. -/
theorem strstr_iff (isText : TextAt mem str text)
    (isPattern : TextAt mem search pattern) (nonempty : pattern ≠ [])
    (textFits : text.length < fuel) (patternFits : pattern.length < fuel) :
    ∃ result after, Libc.strstr fuel mem str search = .ok (result, after) ∧
      (Decides result (pattern <:+: text) ↔
        SearchedRight str search text pattern) := by
  obtain ⟨result, after, returned, decides⟩ :=
    strstr_decides isText isPattern textFits patternFits
  refine ⟨result, after, returned, ?_⟩
  rw [decides_iff decides]
  unfold SearchedRight
  split
  · rename_i small
    rw [reached_iff nonempty small.1 small.2]
    exact ⟨Iff.mp, fun found => ⟨found, occursBeforeEnd_infix⟩⟩
  · rfl

end Result

/-! ## The strings `ab` and `b` -/

def twoStrings : Memory :=
  store (fun place => [0x61, 0x62].getD place 0) 16 0x62

theorem textAt_ab : TextAt twoStrings 0 [0x61, 0x62] :=
  textAt_cons.mpr ⟨by decide, rfl,
    textAt_cons.mpr ⟨by decide, rfl, textAt_nil.mpr rfl⟩⟩

theorem textAt_b : TextAt twoStrings 16 [0x62] :=
  textAt_cons.mpr ⟨by decide, rfl, textAt_nil.mpr rfl⟩

theorem strstr_iff_twoStrings :
    ∃ result after, Libc.strstr 3 twoStrings 0 16 = .ok (result, after) ∧
      (Decides result (([0x62] : List Byte) <:+: [0x61, 0x62]) ↔
        SearchedRight 0 16 [0x61, 0x62] [0x62]) :=
  strstr_iff textAt_ab textAt_b (by decide) (by decide) (by decide)

/-- The last position is not tried. -/
theorem strstr_misses_last :
    ∃ after, Libc.strstr 3 twoStrings 0 16 = .ok (0, after) ∧
      ¬ Decides 0 (([0x62] : List Byte) <:+: [0x61, 0x62]) := by
  refine ⟨_, rfl, ?_⟩
  have occurs : ([0x62] : List Byte) <:+: [0x61, 0x62] := ⟨[0x61], [], rfl⟩
  rintro (⟨isOne, -⟩ | ⟨-, absent⟩)
  · exact absurd isOne (by decide)
  · exact absent occurs

end SbuUnix
