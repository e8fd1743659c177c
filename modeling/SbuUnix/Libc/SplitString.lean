import SbuUnix.Libc.Strings
import SbuUnix.Library.Pieces

/-!
# `split_string`

`split_string` of `libc/string.c`, which overwrites the delimiters of a string
with NULs and fills an array with pointers to what is between them.  Every
access to the string is checked against its size.  The indices are `int`s,
which no string overflows: `free_map` describes 64 MB of memory.
-/

namespace SbuUnix

open Pieces

/-! ## The source -/

/-- An array of pointers, apart from the string. -/
abbrev Pointers := Nat → Nat

/-- `str[j]`, for an array of `size` bytes. -/
def charIn (size : Nat) (mem : Memory) (str j : Nat) : Except Fault Byte :=
  if j < size then pure (mem (str + j)) else throw .outOfBounds

/-- `s[i] = pointer`, for an array of `room` pointers. -/
def storePointer (room : Nat) (s : Pointers) (i pointer : Nat) :
    Except Fault Pointers :=
  if i < room then
    pure fun other => if other = i then pointer else s other
  else
    throw .outOfBounds

/-- `while (str[j] == delim) { str[j] = '\0'; j++; }` -/
def clearDelims (size : Nat) (delim : Byte) (str : Nat) :
    Nat → Memory → Nat → Except Fault (Memory × Nat)
  | 0, _, _ => throw .outOfFuel
  | fuel + 1, mem, j => do
      if (← charIn size mem str j) = delim then
        clearDelims size delim str fuel (store mem (str + j) 0) (j + 1)
      else
        pure (mem, j)

/-- `while (str[j] != delim && str[j] != '\0') j++;` -/
def skipRun (size : Nat) (delim : Byte) (mem : Memory) (str : Nat) :
    Nat → Nat → Except Fault Nat
  | 0, _ => throw .outOfFuel
  | fuel + 1, j => do
      let char ← charIn size mem str j
      if char ≠ delim ∧ char ≠ 0 then
        skipRun size delim mem str fuel (j + 1)
      else
        pure j

/-- The outer loop and `s[i] = 0`. -/
def splitFrom (size room : Nat) (delim : Byte) (str : Nat) :
    Nat → Memory → Pointers → Nat → Nat → Except Fault (Memory × Pointers)
  | 0, _, _, _, _ => throw .outOfFuel
  | fuel + 1, mem, s, i, j => do
      if (← charIn size mem str j) ≠ 0 then
        let (mem, j) ← clearDelims size delim str fuel mem j
        if (← charIn size mem str j) ≠ 0 then
          let s ← storePointer room s i (str + j)
          let j ← skipRun size delim mem str fuel j
          splitFrom size room delim str fuel mem s (i + 1) j
        else
          splitFrom size room delim str fuel mem s i j
      else
        let s ← storePointer room s i 0
        pure (mem, s)

def splitString (fuel size room : Nat) (mem : Memory) (str : Nat)
    (delim : Byte) (s : Pointers) : Except Fault (Memory × Pointers) :=
  splitFrom size room delim str fuel mem s 0 0

/-! ## What it leaves -/

/-- The memory with a NUL for every delimiter of a string. -/
def delimsCleared (delim : Byte) (start length : Nat) (mem : Memory) : Memory :=
  fun place =>
    if start ≤ place ∧ place < start + length ∧ mem place = delim then 0
    else mem place

/-- The pointers to the pieces of a string, and the null pointer. -/
def fillPointers (str : Nat) :
    Nat → List (Nat × List Byte) → Pointers → Pointers
  | i, [], s => fun other => if other = i then 0 else s other
  | i, piece :: pieces, s =>
      fillPointers str (i + 1) pieces fun other =>
        if other = i then str + piece.1 else s other

theorem TextAt.char_mem {mem : Memory} {addr : Nat} {text : List Byte}
    (isText : TextAt mem addr text) {p : Nat} (inside : p < text.length) :
    mem (addr + p) ∈ text := by
  rw [isText.char (Nat.le_of_lt inside), List.getD_eq_getElem _ _ inside]
  exact List.getElem_mem inside

theorem HoldsAt.mem {mem : Memory} {addr : Nat} {text : List Byte}
    (holds : HoldsAt mem addr text) {p : Nat} (inside : p < text.length) :
    mem (addr + p) ∈ text := by
  rw [holds p inside, List.getD_eq_getElem _ _ inside]
  exact List.getElem_mem inside

/-! ## Cleared delimiters -/

section Cleared

variable {delim : Byte} {start length count : Nat} {mem : Memory}

theorem delimsCleared_of_free
    (free : ∀ k < length, mem (start + k) ≠ delim) :
    delimsCleared delim start length mem = mem := by
  funext place
  apply if_neg
  rintro ⟨above, below, same⟩
  apply free (place - start) (by omega)
  rwa [Nat.add_sub_cancel' above]

theorem delimsCleared_one (same : mem start = delim) :
    delimsCleared delim start 1 mem = store mem start 0 := by
  funext place
  unfold delimsCleared store
  by_cases here : place = start
  · rw [if_pos here, if_pos ⟨by omega, by omega, here ▸ same⟩]
  · rw [if_neg here, if_neg (by omega)]

/-- Clearing on from where the clearing has stopped. -/
theorem delimsCleared_append (first second : Nat) :
    delimsCleared delim (start + first) second
        (delimsCleared delim start first mem) =
      delimsCleared delim start (first + second) mem := by
  funext place
  by_cases same : mem place = delim
  · by_cases early : start ≤ place ∧ place < start + first
    · have cleared : delimsCleared delim start first mem place = 0 :=
        if_pos ⟨early.1, early.2, same⟩
      rw [delimsCleared, if_neg (by omega), cleared, delimsCleared,
        if_pos ⟨early.1, by omega, same⟩]
    · have kept : delimsCleared delim start first mem place = mem place :=
        if_neg fun range => early ⟨range.1, range.2.1⟩
      rw [delimsCleared, kept, delimsCleared]
      simp only [same, and_true]
      exact if_congr (by omega) rfl rfl
  · have kept : ∀ from_ count,
        delimsCleared delim from_ count mem place = mem place :=
      fun _ _ => if_neg fun range => same range.2.2
    rw [delimsCleared, kept, kept, if_neg fun range => same range.2.2]

end Cleared

/-! ## The inner loops -/

section Loops

variable {size room str : Nat} {delim : Byte} {mem : Memory}

theorem charIn_eq {j : Nat} (inside : j < size) (mem : Memory) (str : Nat) :
    charIn size mem str j = .ok (mem (str + j)) :=
  if_pos inside

theorem storePointer_eq {i : Nat} (inside : i < room) (s : Pointers)
    (pointer : Nat) :
    storePointer room s i pointer =
      .ok fun other => if other = i then pointer else s other :=
  if_pos inside

theorem clearDelims_eq (count : Nat) :
    ∀ (fuel : Nat) (mem : Memory) (j : Nat),
      (∀ k < count, mem (str + (j + k)) = delim) →
        mem (str + (j + count)) ≠ delim → j + count < size → count < fuel →
          clearDelims size delim str fuel mem j =
            .ok (delimsCleared delim (str + j) count mem, j + count) := by
  induction count with
  | zero =>
      intro fuel mem j _ other inside enough
      obtain ⟨fuel, rfl⟩ : ∃ less, fuel = less + 1 := ⟨fuel - 1, by omega⟩
      have unchanged : delimsCleared delim (str + j) 0 mem = mem := by
        funext place
        exact if_neg (by omega)
      rw [clearDelims, charIn_eq (show j < size from inside), unchanged]
      exact if_neg other
  | succ count inductionHypothesis =>
      intro fuel mem j same other inside enough
      obtain ⟨fuel, rfl⟩ : ∃ less, fuel = less + 1 := ⟨fuel - 1, by omega⟩
      have here : mem (str + j) = delim := same 0 (Nat.succ_pos _)
      have later := inductionHypothesis fuel (store mem (str + j) 0) (j + 1)
      rw [clearDelims, charIn_eq (show j < size by omega)]
      show (if mem (str + j) = delim then clearDelims size delim str fuel
        (store mem (str + j) 0) (j + 1) else _) = _
      rw [if_pos here, later]
      · rw [← delimsCleared_one here, ← Nat.add_assoc str j 1,
          delimsCleared_append, Nat.add_assoc j 1 count, Nat.add_comm 1 count]
      · intro k below
        rw [store_other (by omega), show j + 1 + k = j + (k + 1) by omega]
        exact same (k + 1) (by omega)
      · rwa [store_other (by omega), show j + 1 + count = j + (count + 1) by
          omega]
      · omega
      · omega

theorem skipRun_eq (count : Nat) :
    ∀ (fuel j : Nat),
      (∀ k < count, mem (str + (j + k)) ≠ delim ∧ mem (str + (j + k)) ≠ 0) →
        ¬ (mem (str + (j + count)) ≠ delim ∧ mem (str + (j + count)) ≠ 0) →
          j + count < size → count < fuel →
            skipRun size delim mem str fuel j = .ok (j + count) := by
  induction count with
  | zero =>
      intro fuel j _ stops inside enough
      obtain ⟨fuel, rfl⟩ : ∃ less, fuel = less + 1 := ⟨fuel - 1, by omega⟩
      rw [skipRun, charIn_eq (show j < size from inside)]
      exact if_neg stops
  | succ count inductionHypothesis =>
      intro fuel j goesOn stops inside enough
      obtain ⟨fuel, rfl⟩ : ∃ less, fuel = less + 1 := ⟨fuel - 1, by omega⟩
      have here : mem (str + j) ≠ delim ∧ mem (str + j) ≠ 0 :=
        goesOn 0 (Nat.succ_pos _)
      have later : j + 1 + count = j + (count + 1) := by omega
      rw [skipRun, charIn_eq (show j < size by omega)]
      show (if mem (str + j) ≠ delim ∧ mem (str + j) ≠ 0 then
        skipRun size delim mem str fuel (j + 1) else _) = _
      rw [if_pos here, ← later]
      apply inductionHypothesis
      · intro k below
        rw [show j + 1 + k = j + (k + 1) by omega]
        exact goesOn (k + 1) (by omega)
      · rwa [later]
      · omega
      · omega

/-- The outer loop at the end of the string. -/
theorem splitFrom_nul {j i : Nat} {s : Pointers} (nul : mem (str + j) = 0)
    (inside : j < size) (enoughRoom : i < room) (fuel : Nat) :
    splitFrom size room delim str (fuel + 1) mem s i j =
      .ok (mem, fillPointers str i [] s) := by
  rw [splitFrom, charIn_eq inside]
  show (if mem (str + j) ≠ 0 then _ else
    storePointer room s i 0 >>= fun s => pure (mem, s)) = _
  rw [if_neg (not_not.mpr nul), storePointer_eq enoughRoom]
  rfl

/-- A pass of the outer loop, with `count` delimiters at its start. -/
theorem splitFrom_pass {fuel count j i : Nat} {s : Pointers}
    (notNul : mem (str + j) ≠ 0)
    (same : ∀ k < count, mem (str + (j + k)) = delim)
    (other : mem (str + (j + count)) ≠ delim) (inside : j + count < size)
    (enough : count < fuel) :
    splitFrom size room delim str (fuel + 1) mem s i j =
      if mem (str + (j + count)) ≠ 0 then do
        let s ← storePointer room s i (str + (j + count))
        let next ← skipRun size delim (delimsCleared delim (str + j) count mem)
          str fuel (j + count)
        splitFrom size room delim str fuel
          (delimsCleared delim (str + j) count mem) s (i + 1) next
      else
        splitFrom size room delim str fuel
          (delimsCleared delim (str + j) count mem) s i (j + count) := by
  have kept : delimsCleared delim (str + j) count mem (str + (j + count)) =
      mem (str + (j + count)) := if_neg (by omega)
  rw [splitFrom, charIn_eq (show j < size by omega)]
  show (if mem (str + j) ≠ 0 then
    clearDelims size delim str fuel mem j >>= _ else _) = _
  rw [if_pos notNul, clearDelims_eq count fuel mem j same other inside enough]
  show (charIn size (delimsCleared delim (str + j) count mem) str (j + count)
    >>= _) = _
  rw [charIn_eq inside, kept]
  rfl

/-- The last pass over a string, where only delimiters are left. -/
theorem splitFrom_separators (notNul : delim ≠ 0) {start i fuel : Nat}
    {s : Pointers} {text : List Byte} (blank : ∀ item ∈ text, item = delim)
    (isText : TextAt mem (str + start) text)
    (inside : start + text.length < size) (enoughRoom : i < room)
    (enough : text.length + 1 < fuel) :
    splitFrom size room delim str fuel mem s i start =
      .ok (delimsCleared delim (str + start) text.length mem,
        fillPointers str i [] s) := by
  obtain ⟨fuel, rfl⟩ : ∃ less, fuel = less + 1 + 1 := ⟨fuel - 2, by omega⟩
  have ended : mem (str + (start + text.length)) = 0 := by
    rw [← Nat.add_assoc]
    exact isText.ended
  by_cases empty : text.length = 0
  · rw [empty] at ended ⊢
    rw [delimsCleared_of_free fun k below => absurd below (by omega)]
    exact splitFrom_nul ended (by omega) enoughRoom _
  · have same : ∀ k < text.length, mem (str + (start + k)) = delim := by
      intro k below
      rw [← Nat.add_assoc]
      exact blank _ (isText.char_mem below)
    have first : mem (str + start) ≠ 0 :=
      isText.char_ne_nul (Nat.pos_of_ne_zero empty)
    have last : mem (str + (start + text.length)) ≠ delim := by
      rw [ended]
      exact notNul.symm
    have kept : delimsCleared delim (str + start) text.length mem
        (str + (start + text.length)) = 0 :=
      (if_neg (by omega)).trans ended
    rw [splitFrom_pass first same last inside (by omega),
      if_neg (not_not.mpr ended)]
    exact splitFrom_nul kept inside enoughRoom fuel

section Piece

variable {start : Nat} {front piece rest : List Byte}

/-- Behind the delimiters at the front nothing has changed yet. -/
theorem delimsCleared_behind {place : Nat}
    (behind : start + front.length ≤ place) :
    delimsCleared delim start front.length mem place = mem place :=
  if_neg (by omega)

/-- A pass over a piece. -/
theorem splitFrom_piece {i fuel : Nat} {s : Pointers}
    (blank : ∀ item ∈ front, item = delim) (nonempty : piece ≠ [])
    (free : delim ∉ piece)
    (atRest : ∀ item, rest.head? = some item → item = delim)
    (isText : TextAt mem (str + start) (front ++ (piece ++ rest)))
    (inside : start + front.length + piece.length < size)
    (enoughRoom : i < room) (enough : front.length + piece.length < fuel) :
    splitFrom size room delim str (fuel + 1) mem s i start =
      splitFrom size room delim str fuel
        (delimsCleared delim (str + start) front.length mem)
        (fun other => if other = i then str + (start + front.length)
          else s other)
        (i + 1) (start + front.length + piece.length) := by
  have positive := List.length_pos_iff.mpr nonempty
  have first : mem (str + start) ≠ 0 :=
    isText.char_ne_nul (show 0 < _ by simp only [List.length_append]; omega)
  obtain ⟨frontHolds, -, isLater⟩ := textAt_append.mp isText
  obtain ⟨pieceHolds, pieceNoNul, isRest⟩ := textAt_append.mp isLater
  have same : ∀ k < front.length, mem (str + (start + k)) = delim := by
    intro k below
    rw [← Nat.add_assoc]
    exact blank _ (frontHolds.mem below)
  have goesOn : ∀ k < piece.length,
      mem (str + (start + front.length + k)) ≠ delim ∧
        mem (str + (start + front.length + k)) ≠ 0 := by
    intro k below
    have inPiece := pieceHolds.mem below
    rw [← Nat.add_assoc, ← Nat.add_assoc]
    exact ⟨fun isDelim => free (isDelim ▸ inPiece),
      fun isNul => pieceNoNul (isNul ▸ inPiece)⟩
  have stops :
      ¬ (mem (str + (start + front.length + piece.length)) ≠ delim ∧
        mem (str + (start + front.length + piece.length)) ≠ 0) := by
    rw [← Nat.add_assoc, ← Nat.add_assoc]
    rintro ⟨notDelim, notEnd⟩
    cases rest with
    | nil => exact notEnd (textAt_nil.mp isRest)
    | cons char rest =>
        exact notDelim ((textAt_cons.mp isRest).2.1.trans (atRest char rfl))
  have skipped : skipRun size delim
      (delimsCleared delim (str + start) front.length mem) str fuel
        (start + front.length) =
      .ok (start + front.length + piece.length) := by
    apply skipRun_eq
    · intro k below
      rw [delimsCleared_behind (by omega)]
      exact goesOn k below
    · rwa [delimsCleared_behind (by omega)]
    · exact inside
    · omega
  have head : mem (str + (start + front.length)) ≠ delim ∧
      mem (str + (start + front.length)) ≠ 0 :=
    goesOn 0 positive
  rw [splitFrom_pass first same head.1 (by omega) (by omega),
    if_pos head.2, storePointer_eq enoughRoom]
  show (skipRun size delim _ str fuel (start + front.length) >>= _) = _
  rw [skipped]
  rfl

/-- The delimiters of a string are those before a piece and those behind
it. -/
theorem delimsCleared_piece (free : delim ∉ piece)
    (isText : TextAt mem start (front ++ (piece ++ rest))) :
    delimsCleared delim (start + front.length + piece.length) rest.length
        (delimsCleared delim start front.length mem) =
      delimsCleared delim start (front ++ (piece ++ rest)).length mem := by
  obtain ⟨-, -, isLater⟩ := textAt_append.mp isText
  obtain ⟨pieceHolds, -, -⟩ := textAt_append.mp isLater
  have pieceKept : delimsCleared delim (start + front.length) piece.length
      (delimsCleared delim start front.length mem) =
        delimsCleared delim start front.length mem := by
    apply delimsCleared_of_free
    intro k below
    rw [delimsCleared_behind (Nat.le_add_right _ _)]
    exact fun isDelim => free (isDelim ▸ pieceHolds.mem below)
  rw [List.length_append, List.length_append, ← delimsCleared_append,
    ← delimsCleared_append piece.length, pieceKept]

end Piece

/-- The string from `start` on, cut into its pieces. -/
theorem splitFrom_eq (notNul : delim ≠ 0) {start : Nat} {text : List Byte}
    {pieces : List (Nat × List Byte)} (cuts : Cuts delim start text pieces) :
    ∀ (fuel : Nat) (mem : Memory) (s : Pointers) (i : Nat),
      TextAt mem (str + start) text → start + text.length < size →
        i + pieces.length < room → text.length + 1 < fuel →
          splitFrom size room delim str fuel mem s i start =
            .ok (delimsCleared delim (str + start) text.length mem,
              fillPointers str i pieces s) := by
  induction cuts with
  | separators blank =>
      intro fuel mem s i isText inside enoughRoom enough
      exact splitFrom_separators notNul blank isText inside enoughRoom enough
  | @piece start front piece rest pieces blank nonempty free atRest later
      inductionHypothesis =>
      intro fuel mem s i isText inside enoughRoom enough
      obtain ⟨fuel, rfl⟩ : ∃ less, fuel = less + 1 := ⟨fuel - 1, by omega⟩
      have cleared := delimsCleared_piece free isText
      obtain ⟨-, -, isLater⟩ := textAt_append.mp isText
      obtain ⟨-, -, isRest⟩ := textAt_append.mp isLater
      have positive := List.length_pos_iff.mpr nonempty
      simp only [List.length_append] at inside enough
      rw [List.length_cons] at enoughRoom
      have restKept : TextAt
          (delimsCleared delim (str + start) front.length mem)
          (str + (start + front.length + piece.length)) rest := by
        rw [← Nat.add_assoc, ← Nat.add_assoc]
        exact isRest.congr fun place above _ =>
          delimsCleared_behind (by omega)
      rw [splitFrom_piece blank nonempty free atRest isText (by omega)
        (by omega) (by omega), ← cleared, Nat.add_assoc str, Nat.add_assoc str]
      exact inductionHypothesis fuel _ _ (i + 1) restKept (by omega) (by omega)
        (by omega)

end Loops

/-! ## The pointers and the pieces -/

theorem fillPointers_below (str : Nat) (pieces : List (Nat × List Byte)) :
    ∀ (i : Nat) (s : Pointers), ∀ k < i,
      fillPointers str i pieces s k = s k := by
  induction pieces with
  | nil =>
      intro i s k below
      exact if_neg (by omega)
  | cons piece pieces inductionHypothesis =>
      intro i s k below
      rw [fillPointers, inductionHypothesis (i + 1) _ k (by omega)]
      exact if_neg (by omega)

theorem fillPointers_get (str : Nat) (pieces : List (Nat × List Byte)) :
    ∀ (i : Nat) (s : Pointers) (k : Nat) (inside : k < pieces.length),
      fillPointers str i pieces s (i + k) = str + (pieces[k]).1 := by
  induction pieces with
  | nil =>
      intro i s k inside
      exact absurd inside (Nat.not_lt_zero k)
  | cons piece pieces inductionHypothesis =>
      intro i s k inside
      rw [fillPointers]
      cases k with
      | zero =>
          rw [fillPointers_below _ _ _ _ _ (by omega)]
          exact if_pos rfl
      | succ k =>
          rw [show i + (k + 1) = i + 1 + k by omega]
          exact inductionHypothesis (i + 1) _ k (Nat.lt_of_succ_lt_succ inside)

theorem fillPointers_null (str : Nat) (pieces : List (Nat × List Byte)) :
    ∀ (i : Nat) (s : Pointers),
      fillPointers str i pieces s (i + pieces.length) = 0 := by
  induction pieces with
  | nil =>
      intro i s
      exact if_pos rfl
  | cons piece pieces inductionHypothesis =>
      intro i s
      rw [fillPointers, List.length_cons,
        show i + (pieces.length + 1) = i + 1 + pieces.length by omega]
      exact inductionHypothesis (i + 1) _

/-- Where the delimiters are cleared, a piece is a string. -/
theorem textAt_piece {mem : Memory} {str place : Nat} {delim : Byte}
    {text piece : List Byte} (isText : TextAt mem str text)
    (isPiece : IsPiece delim text place piece) :
    TextAt (delimsCleared delim str text.length mem) (str + place) piece := by
  have char : ∀ i item, text[i]? = some item →
      i < text.length ∧ mem (str + i) = item := by
    intro i item found
    obtain ⟨inside, same⟩ := List.getElem?_eq_some_iff.mp found
    refine ⟨inside, ?_⟩
    rw [isText.char (Nat.le_of_lt inside), List.getD_eq_getElem _ _ inside,
      same]
  have inPiece : ∀ i (inside : i < piece.length),
      text[place + i]? = some piece[i] := by
    intro i inside
    rw [← List.getElem?_drop, ← List.getElem?_eq_getElem inside]
    obtain ⟨back, found⟩ := isPiece.occurs
    rw [← found, List.getElem?_append_left inside]
  have positive := List.length_pos_iff.mpr isPiece.nonempty
  have last := char _ _ (inPiece (piece.length - 1) (by omega))
  constructor
  · rw [holdsAt_append, holdsAt_cons]
    refine ⟨fun i inside => ?_, ?_, holdsAt_nil⟩
    · have found := char _ _ (inPiece i inside)
      rw [List.getD_eq_getElem _ _ inside, ← found.2, ← Nat.add_assoc]
      apply if_neg
      rw [Nat.add_assoc, found.2]
      exact fun range =>
        isPiece.free (range.2.2 ▸ List.getElem_mem inside)
    · rw [Nat.add_assoc]
      cases behind : text[place + piece.length]? with
      | none =>
          have atEnd : place + piece.length = text.length := by
            have beyond := List.getElem?_eq_none_iff.mp behind
            omega
          rw [atEnd]
          exact (if_neg (by omega)).trans isText.ended
      | some item =>
          have found := char _ _ behind
          have isDelim := isPiece.behind item behind
          exact if_pos ⟨by omega, by omega, found.2.trans isDelim⟩
  · intro member
    obtain ⟨i, inside, isNul⟩ := List.getElem_of_mem member
    have found := inPiece i inside
    rw [isNul] at found
    exact isText.noNul (List.mem_of_getElem? found)

/-! ## The whole call -/

/-- After a call the array holds a pointer to each piece in order and a null
pointer, the pieces are strings, and nothing outside of the string has
changed. -/
structure SplitInto (mem : Memory) (str : Nat) (text : List Byte)
    (pieces : List (Nat × List Byte)) (after : Memory) (s : Pointers) :
    Prop where
  pointers : ∀ (k : Nat) (inside : k < pieces.length),
    s k = str + (pieces.get ⟨k, inside⟩).1
  null : s pieces.length = 0
  strings : ∀ piece ∈ pieces, TextAt after (str + piece.1) piece.2
  outside : ∀ place, after place ≠ mem place →
    str ≤ place ∧ place < str + text.length

/-- `split_string` ends without leaving the string, and its pointers are to
the maximal runs without a delimiter. -/
theorem splitString_pieces {mem : Memory} {str : Nat} {delim : Byte}
    {text : List Byte} (isText : TextAt mem str text) (notNul : delim ≠ 0) :
    ∃ pieces : List (Nat × List Byte),
      pieces.Pairwise (fun first second => first.1 < second.1) ∧
      (∀ place piece, (place, piece) ∈ pieces ↔
        IsPiece delim text place piece) ∧
      ∀ fuel room s, text.length + 1 < fuel → pieces.length < room →
        ∃ after pointers,
          splitString fuel (text.length + 1) room mem str delim s =
            .ok (after, pointers) ∧
          SplitInto mem str text pieces after pointers := by
  obtain ⟨pieces, cuts⟩ := exists_cuts delim text 0
  have listed : ∀ place piece, (place, piece) ∈ pieces ↔
      IsPiece delim text place piece := by
    intro place piece
    have member := cuts.mem_iff place piece
    rwa [Nat.zero_add] at member
  refine ⟨pieces, cuts.ordered, listed, ?_⟩
  intro fuel room s enough enoughRoom
  refine ⟨_, _, splitFrom_eq notNul cuts fuel mem s 0 isText (by omega)
    (by omega) enough, ?_, ?_, ?_, ?_⟩
  · intro k inside
    have stored := fillPointers_get str pieces 0 s k inside
    rwa [Nat.zero_add] at stored
  · have last := fillPointers_null str pieces 0 s
    rwa [Nat.zero_add] at last
  · intro piece member
    exact textAt_piece isText ((listed piece.1 piece.2).mp member)
  · intro place changed
    by_contra outside
    exact changed (if_neg fun range => outside ⟨range.1, range.2.1⟩)

/-- The string `,a,,bc,` at address 8. -/
def commaText : List Byte := [0x2C, 0x61, 0x2C, 0x2C, 0x62, 0x63, 0x2C]

def commaMemory : Memory := putField (fun _ => 0) 8 commaText

theorem textAt_commaMemory : TextAt commaMemory 8 commaText := by
  refine ⟨holdsAt_append.mpr ⟨holdsAt_putField _ _ _, ?_⟩, by decide⟩
  exact holdsAt_cons.mpr ⟨rfl, holdsAt_nil⟩

theorem splitString_pieces_comma :
    ∃ pieces : List (Nat × List Byte),
      pieces.Pairwise (fun first second => first.1 < second.1) ∧
      (∀ place piece, (place, piece) ∈ pieces ↔
        IsPiece 0x2C commaText place piece) ∧
      ∀ fuel room s, commaText.length + 1 < fuel → pieces.length < room →
        ∃ after pointers,
          splitString fuel (commaText.length + 1) room commaMemory 8 0x2C s =
            .ok (after, pointers) ∧
          SplitInto commaMemory 8 commaText pieces after pointers :=
  splitString_pieces textAt_commaMemory (by decide)

example : (splitString 9 8 3 commaMemory 8 0x2C fun _ => 1).map
    (fun ended => (List.range 4).map ended.2) = .ok [9, 12, 0, 1] := by
  rfl

end SbuUnix
