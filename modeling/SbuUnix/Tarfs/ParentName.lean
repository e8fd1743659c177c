import SbuUnix.Tarfs.Archive

/-!
# The search for a parent

`get_parent_inode` once more, with the positions at which it reads the name.
The scan goes down from the last character and stops at a slash, or when its
index has become 0; from index 0 it goes on below the name.
-/

namespace SbuUnix

open Outcome

/-! ## The source -/

/-- The bytes at a pointer to a name, with what is in memory on both sides
of the string. -/
def nameChar (around : Int → Byte) (name : List Byte) (i : Int) : Byte :=
  if 0 ≤ i ∧ i ≤ name.length then name.getD i.toNat 0 else around i

/-- `while (file[len] != '/') { len--; if (len == 0) return -1; }`: the index
of the slash, and the indices that are read. -/
def scanBack (file : Int → Byte) :
    Nat → Int → Except Fault (Option Int × List Int)
  | 0, _ => throw .outOfFuel
  | fuel + 1, len =>
      if file len ≠ slash then
        if len - 1 = 0 then
          pure (none, [len])
        else do
          let (found, reads) ← scanBack file fuel (len - 1)
          pure (found, len :: reads)
      else
        pure (some len, [len])

/-- The loop over `global_tarfs`, for the string in `temp_filename`. -/
def findInode (tarfs : List TarFile) (tempFilename : List Byte) : Int :=
  match tarfs.findIdx? fun entry => entry.name = tempFilename with
  | some index => (index : Int) + 4
  | none => -1

/-- `get_parent_inode` and the indices at which it reads `file`. -/
def getParentInodeReads (fuel : Nat) (around : Int → Byte)
    (file : List Byte) (tarfs : List TarFile) :
    Except Fault (Int × List Int) := do
  let (found, reads) ←
    scanBack (nameChar around file) fuel ((file.length : Int) - 1)
  match found with
  | none => pure (-1, reads)
  | some len =>
      if len + 1 < 0 then
        throw .outOfBounds
      else
        pure (findInode tarfs (file.take (len + 1).toNat), reads)

/-! ## What is asked of it -/

/-- The longest prefix of a name that ends in a slash. -/
structure LongestDirectory (name parent : List Byte) : Prop where
  isPrefix : parent <+: name
  ends : parent.getLast? = some slash
  longest : ∀ other, other <+: name → other.getLast? = some slash →
    other.length ≤ parent.length

/-- The numbers that `init_tarfs` gives to the entries of its table. -/
def Numbered (tarfs : List TarFile) : Prop :=
  ∀ index file, tarfs[index]? = some file → file.inode.toNat = index + 4

/-- The search ends, stays inside the name, and finds the first entry that is
the directory of the name. -/
structure FindsParent (name : List Byte) (tarfs : List TarFile)
    (inode : Int) (reads : List Int) : Prop where
  inside : ∀ read ∈ reads, 0 ≤ read ∧ read ≤ name.length
  noSlash : slash ∉ name → inode = -1
  parent : slash ∈ name → name.head? ≠ some slash →
    ∃ parent, LongestDirectory name parent ∧
      inode = match tarfs.find? fun entry => entry.name = parent with
        | some entry => (entry.inode.toNat : Int)
        | none => -1

/-! ## The scan -/

theorem slashIndex_spec (file : List Byte) (len : Nat) :
    match slashIndex file len with
    | none => ∀ i, 0 < i → i ≤ len → file.getD i 0 ≠ slash
    | some last => 0 < last ∧ last ≤ len ∧ file.getD last 0 = slash ∧
        ∀ i, last < i → i ≤ len → file.getD i 0 ≠ slash := by
  induction len with
  | zero =>
      rw [slashIndex]
      intro i positive below
      omega
  | succ len inductionHypothesis =>
      rw [slashIndex]
      by_cases here : file.getD (len + 1) 0 = slash
      · rw [if_pos here]
        refine ⟨Nat.succ_pos _, Nat.le_refl _, here, fun i above below => ?_⟩
        omega
      · rw [if_neg here]
        cases found : slashIndex file len with
        | none =>
            rw [found] at inductionHypothesis
            intro i positive below
            rcases Nat.lt_or_eq_of_le below with earlier | rfl
            · exact inductionHypothesis i positive (by omega)
            · exact here
        | some last =>
            rw [found] at inductionHypothesis
            obtain ⟨positive, inside, isSlash, later⟩ := inductionHypothesis
            refine ⟨positive, by omega, isSlash, fun i above below => ?_⟩
            rcases Nat.lt_or_eq_of_le below with earlier | rfl
            · exact later i above (by omega)
            · exact here

theorem nameChar_inside (around : Int → Byte) {name : List Byte} {i : Nat}
    (inside : i ≤ name.length) : nameChar around name i = name.getD i 0 := by
  rw [nameChar, if_pos (by omega)]
  rfl

/-- From an index above 0 the scan reads down to the last slash, but not
index 0. -/
theorem scanBack_eq (around : Int → Byte) (name : List Byte) (len : Nat) :
    ∀ fuel, len < fuel → len + 1 ≤ name.length →
      ∃ reads,
        scanBack (nameChar around name) fuel ((len + 1 : Nat) : Int) =
          .ok ((slashIndex name (len + 1)).map Int.ofNat, reads) ∧
        ∀ read ∈ reads, 0 ≤ read ∧ read ≤ ((len + 1 : Nat) : Int) := by
  induction len with
  | zero =>
      intro fuel enough inside
      obtain ⟨fuel, rfl⟩ : ∃ less, fuel = less + 1 := ⟨fuel - 1, by omega⟩
      refine ⟨[((0 + 1 : Nat) : Int)], ?_, ?_⟩
      · rw [scanBack, nameChar_inside around inside, slashIndex]
        by_cases here : name.getD (0 + 1) 0 = slash
        · rw [if_neg (not_not.mpr here), if_pos here]
          rfl
        · rw [if_pos here, if_neg here, if_pos (by omega)]
          rfl
      · intro read member
        rw [List.mem_singleton.mp member]
        omega
  | succ len inductionHypothesis =>
      intro fuel enough inside
      obtain ⟨fuel, rfl⟩ : ∃ less, fuel = less + 1 := ⟨fuel - 1, by omega⟩
      rw [scanBack, nameChar_inside around inside, slashIndex]
      by_cases here : name.getD (len + 1 + 1) 0 = slash
      · rw [if_neg (not_not.mpr here), if_pos here]
        refine ⟨_, rfl, fun read member => ?_⟩
        rw [List.mem_singleton.mp member]
        omega
      · obtain ⟨reads, scanned, between⟩ :=
          inductionHypothesis fuel (by omega) (by omega)
        have next : ((len + 1 + 1 : Nat) : Int) - 1 = (len + 1 : Nat) := by
          omega
        rw [if_pos here, if_neg here, next, if_neg (by omega), scanned]
        refine ⟨_, rfl, fun read member => ?_⟩
        rcases List.mem_cons.mp member with first | later
        · omega
        · have bounds := between read later
          omega

/-! ## The directory of a name -/

theorem getD_of_slash_not_mem {name : List Byte} (noSlash : slash ∉ name)
    (i : Nat) : name.getD i 0 ≠ slash := by
  intro isSlash
  by_cases inside : i < name.length
  · rw [List.getD_eq_getElem _ _ inside] at isSlash
    exact noSlash (isSlash ▸ List.getElem_mem inside)
  · rw [List.getD_eq_default _ _ (Nat.not_lt.mp inside)] at isSlash
    exact absurd isSlash (by decide)

theorem slashIndex_noSlash {name : List Byte} (noSlash : slash ∉ name)
    (len : Nat) : slashIndex name len = none := by
  have spec := slashIndex_spec name len
  cases found : slashIndex name len with
  | none => rfl
  | some last =>
      rw [found] at spec
      exact absurd spec.2.2.1 (getD_of_slash_not_mem noSlash last)

/-- A slash that is not the first character is found. -/
theorem slashIndex_found {name : List Byte} (hasSlash : slash ∈ name)
    (notFirst : name.head? ≠ some slash) :
    ∃ last, slashIndex name (name.length - 1) = some last := by
  obtain ⟨i, inside, isSlash⟩ := List.mem_iff_getElem.mp hasSlash
  have positive : 0 < i := by
    apply Nat.pos_of_ne_zero
    rintro rfl
    apply notFirst
    rw [List.head?_eq_getElem?, List.getElem?_eq_getElem inside, isSlash]
  have spec := slashIndex_spec name (name.length - 1)
  cases found : slashIndex name (name.length - 1) with
  | none =>
      rw [found] at spec
      refine absurd ?_ (spec i positive (by omega))
      rw [List.getD_eq_getElem _ _ inside, isSlash]
  | some last => exact ⟨last, rfl⟩

/-- The characters up to the last slash are the directory. -/
theorem longestDirectory_take {name : List Byte} {last : Nat}
    (found : slashIndex name (name.length - 1) = some last) :
    LongestDirectory name (name.take (last + 1)) := by
  have spec := slashIndex_spec name (name.length - 1)
  rw [found] at spec
  obtain ⟨positive, below, isSlash, later⟩ := spec
  have inside : last < name.length := by omega
  constructor
  · exact List.take_prefix _ _
  · rw [List.getLast?_eq_getElem?, List.length_take, Nat.min_eq_left inside,
      Nat.succ_sub_one, List.getElem?_take_of_lt (Nat.lt_succ_self _),
      List.getElem?_eq_getElem inside, ← isSlash,
      List.getD_eq_getElem _ _ inside]
  · intro other isPrefix ends
    rw [List.length_take, Nat.min_eq_left inside]
    by_contra longer
    have shorter := isPrefix.length_le
    have lastOther : name.getD (other.length - 1) 0 = slash := by
      rw [List.getLast?_eq_getElem?, List.getElem?_eq_some_iff] at ends
      obtain ⟨nonempty, endsSlash⟩ := ends
      obtain ⟨rest, rfl⟩ := isPrefix
      rw [List.getD_append _ _ _ _ nonempty,
        List.getD_eq_getElem _ _ nonempty, endsSlash]
    exact later (other.length - 1) (by omega) (by omega) lastOther

/-- The number of an entry is where it stands in the table. -/
theorem findInode_eq {tarfs : List TarFile} (numbered : Numbered tarfs)
    (parent : List Byte) :
    findInode tarfs parent =
      match tarfs.find? fun entry => entry.name = parent with
      | some entry => (entry.inode.toNat : Int)
      | none => -1 := by
  unfold findInode
  cases found : tarfs.findIdx? fun entry => entry.name = parent with
  | none =>
      rw [List.findIdx?_eq_none_iff] at found
      rw [List.find?_eq_none.mpr]
      · intro entry member
        simpa using found entry member
  | some index =>
      obtain ⟨inside, isIndex⟩ := List.findIdx?_eq_some_iff_findIdx_eq.mp found
      rw [List.find?_eq_getElem?_findIdx, isIndex,
        List.getElem?_eq_getElem inside]
      have number := numbered index tarfs[index]
        (List.getElem?_eq_getElem inside)
      dsimp only
      omega

/-! ## The search -/

section Search

variable {around : Int → Byte} {name : List Byte} {tarfs : List TarFile}

/-- On a name of two or more characters. -/
theorem getParentInodeReads_eq (around : Int → Byte) (tarfs : List TarFile)
    (long : 2 ≤ name.length) :
    ∃ reads,
      getParentInodeReads name.length around name tarfs =
        .ok (match slashIndex name (name.length - 1) with
          | some last => findInode tarfs (name.take (last + 1))
          | none => -1, reads) ∧
      ∀ read ∈ reads, 0 ≤ read ∧ read ≤ name.length := by
  obtain ⟨len, length⟩ : ∃ len, name.length = len + 1 + 1 :=
    ⟨name.length - 2, by omega⟩
  obtain ⟨reads, scanned, between⟩ :=
    scanBack_eq around name len name.length (by omega) (by omega)
  have start : (name.length : Int) - 1 = (len + 1 : Nat) := by omega
  have last : name.length - 1 = len + 1 := by omega
  refine ⟨reads, ?_, fun read member => ?_⟩
  · rw [getParentInodeReads, start, scanned, last]
    cases slashIndex name (len + 1) with
    | none => rfl
    | some last =>
        show (if (last : Int) + 1 < 0 then throw Fault.outOfBounds else
          pure (findInode tarfs (name.take ((last : Int) + 1).toNat), reads)) =
            Except.ok (findInode tarfs (name.take (last + 1)), reads)
        rw [if_neg (by omega)]
        rfl
  · have bounds := between read member
    omega

theorem scanBack_start {file : Int → Byte} {fuel : Nat} {len : Int}
    {found : Option Int} {reads : List Int}
    (scanned : scanBack file fuel len = .ok (found, reads)) : len ∈ reads := by
  cases fuel with
  | zero => cases scanned
  | succ fuel =>
      rw [scanBack] at scanned
      split at scanned
      · split at scanned
        · cases scanned
          exact List.mem_singleton_self len
        · obtain ⟨later, -, returned⟩ := exists_of_bind_ok scanned
          cases returned
          exact List.mem_cons_self
      · cases scanned
        exact List.mem_singleton_self len

/-- From the only character of a name, which is no slash, the scan goes on to
index -1. -/
theorem scanBack_below {file : Int → Byte} {fuel : Nat}
    {found : Option Int} {reads : List Int} (noSlash : file 0 ≠ slash)
    (scanned : scanBack file fuel 0 = .ok (found, reads)) : -1 ∈ reads := by
  cases fuel with
  | zero => cases scanned
  | succ fuel =>
      rw [scanBack, if_pos noSlash, if_neg (by decide)] at scanned
      obtain ⟨later, below, returned⟩ := exists_of_bind_ok scanned
      cases returned
      exact List.mem_cons_of_mem _ (scanBack_start below)

/-- A search of a single character that stays inside the name has found that
character. -/
theorem eq_slash_of_inside {char : Byte} {fuel : Nat} {inode : Int}
    {reads : List Int}
    (returned : getParentInodeReads fuel around [char] tarfs =
      .ok (inode, reads))
    (inside : ∀ read ∈ reads, 0 ≤ read) : char = slash := by
  by_contra noSlash
  obtain ⟨⟨found, scanReads⟩, scanned, rest⟩ := exists_of_bind_ok returned
  have below : -1 ∈ scanReads := scanBack_below
    (by rw [nameChar, if_pos (by simp)]; exact noSlash) scanned
  have same : scanReads = reads := by
    cases found with
    | none =>
        cases rest
        rfl
    | some len =>
        dsimp only at rest
        split at rest
        · cases rest
        · cases rest
          rfl
  have positive := inside (-1) (same ▸ below)
  omega

theorem findsParent_of_long (long : 2 ≤ name.length)
    (numbered : Numbered tarfs) :
    ∃ inode reads,
      getParentInodeReads name.length around name tarfs =
        .ok (inode, reads) ∧
      FindsParent name tarfs inode reads := by
  obtain ⟨reads, returned, inside⟩ := getParentInodeReads_eq around tarfs long
  refine ⟨_, reads, returned, inside, ?_, ?_⟩
  · intro noSlash
    rw [slashIndex_noSlash noSlash]
  · intro hasSlash notFirst
    obtain ⟨last, found⟩ := slashIndex_found hasSlash notFirst
    refine ⟨_, longestDirectory_take found, ?_⟩
    rw [found]
    exact findInode_eq numbered _

theorem findsParent_slash :
    ∃ inode reads,
      getParentInodeReads 1 around [slash] tarfs = .ok (inode, reads) ∧
      FindsParent [slash] tarfs inode reads := by
  refine ⟨_, [0], rfl, ?_, ?_, ?_⟩
  · intro read member
    rw [List.mem_singleton.mp member]
    decide
  · intro noSlash
    exact absurd (List.mem_singleton_self slash) noSlash
  · intro _ notFirst
    exact absurd rfl notFirst

/-- The search keeps to a name exactly if it has more than one character, or
is the slash. -/
theorem findsParent_iff (nonempty : name ≠ []) (numbered : Numbered tarfs) :
    (∃ fuel inode reads,
      getParentInodeReads fuel around name tarfs = .ok (inode, reads) ∧
      FindsParent name tarfs inode reads) ↔
      2 ≤ name.length ∨ name = [slash] := by
  constructor
  · rintro ⟨fuel, inode, reads, returned, finds⟩
    match name, nonempty, returned, finds with
    | [char], _, returned, finds =>
        right
        rw [eq_slash_of_inside returned fun read member =>
          (finds.inside read member).1]
    | first :: second :: rest, _, _, _ =>
        left
        simp
  · rintro (long | rfl)
    · exact ⟨name.length, findsParent_of_long long numbered⟩
    · exact ⟨1, findsParent_slash⟩

end Search

/-- `a/` with the number of the first entry. -/
def oneDirectory : List TarFile :=
  [{ name := [0x61, slash], inode := 4, type := directory }]

theorem numbered_oneDirectory : Numbered oneDirectory := by
  intro index file isFile
  match index, isFile with
  | 0, isFile =>
      cases isFile
      rfl

theorem findsParent_oneDirectory :
    (∃ fuel inode reads,
      getParentInodeReads fuel (fun _ => 0) [0x61, slash, 0x62] oneDirectory =
        .ok (inode, reads) ∧
      FindsParent [0x61, slash, 0x62] oneDirectory inode reads) ↔
      2 ≤ [0x61, slash, 0x62].length ∨ [0x61, slash, 0x62] = [slash] :=
  findsParent_iff (by decide) numbered_oneDirectory

/-- The search for the name `a` reads the byte before it. -/
theorem not_findsParent_char :
    getParentInodeReads 2 (fun _ => slash) [0x61] oneDirectory =
        .ok (-1, [0, -1]) ∧
      ¬ ∃ fuel inode reads,
        getParentInodeReads fuel (fun _ => slash) [0x61] oneDirectory =
          .ok (inode, reads) ∧
        FindsParent [0x61] oneDirectory inode reads := by
  refine ⟨rfl, ?_⟩
  rintro ⟨fuel, inode, reads, returned, finds⟩
  have isSlash := eq_slash_of_inside returned fun read member =>
    (finds.inside read member).1
  exact absurd isSlash (by decide)

/-- The search is the one of `init_tarfs`. -/
theorem getParentInode_reads (around : Int → Byte) {name : List Byte}
    (long : 2 ≤ name.length) (s : Tarfs) :
    ∃ inode reads,
      getParentInodeReads name.length around name s.tarfs =
        .ok (inode, reads) ∧
      getParentInode name s = .ok (inode, s) := by
  obtain ⟨reads, returned, -⟩ := getParentInodeReads_eq around s.tarfs long
  refine ⟨_, reads, returned, ?_⟩
  rw [getParentInode_eq long, parentIndex]
  cases slashIndex name (name.length - 1) with
  | none => rfl
  | some last => rfl

/-! ## The table of `init_tarfs` -/

/-- `file_count` counts the entries from 3 on, and so do their numbers. -/
structure Counted (s : Tarfs) : Prop where
  numbered : Numbered s.tarfs
  count : s.fileCount = s.tarfs.length + 3
  room : s.tarfs.length ≤ 100

def SameTable (s next : Tarfs) : Prop :=
  next.tarfs = s.tarfs ∧ next.fileCount = s.fileCount

theorem sameTable_refl (s : Tarfs) : SameTable s s :=
  ⟨rfl, rfl⟩

theorem sameTable_trans (first second third : Tarfs)
    (before : SameTable first second) (after : SameTable second third) :
    SameTable first third :=
  ⟨after.1.trans before.1, after.2.trans before.2⟩

theorem Counted.same {s next : Tarfs} (counted : Counted s)
    (same : SameTable s next) : Counted next := by
  obtain ⟨tarfs, fileCount⟩ := same
  constructor
  · rw [tarfs]
    exact counted.numbered
  · rw [tarfs, fileCount]
    exact counted.count
  · rw [tarfs]
    exact counted.room

theorem numbered_append {tarfs : List TarFile} {file : TarFile}
    (numbered : Numbered tarfs)
    (next : file.inode.toNat = tarfs.length + 4) :
    Numbered (tarfs ++ [file]) := by
  intro index found isFound
  rcases Nat.lt_trichotomy index tarfs.length with before | rfl | behind
  · rw [List.getElem?_append_left before] at isFound
    exact numbered index found isFound
  · rw [List.getElem?_concat_length, Option.some.injEq] at isFound
    rw [← isFound, next]
  · rw [List.getElem?_eq_none (by simp; omega)] at isFound
    cases isFound

theorem keeps_stringAt (fuel : Nat) (addr : Word) :
    Keeps SameTable (stringAt fuel addr) := by
  apply keeps_bind sameTable_trans (keeps_get sameTable_refl)
  intro s
  cases cString s.archive fuel addr with
  | none => exact keeps_throw _
  | some str => exact keeps_pure sameTable_refl str

theorem keeps_storeArchive (addr : Word) (byte : Byte) :
    Keeps SameTable (storeArchive addr byte) :=
  keeps_modify fun _ => ⟨rfl, rfl⟩

theorem keeps_strlenArchive (fuel : Nat) (addr : Word) :
    Keeps SameTable (strlenArchive fuel addr) := by
  apply keeps_bind sameTable_trans (keeps_stringAt fuel addr)
  intro str
  apply keeps_bind sameTable_trans (keeps_storeArchive _ _)
  intro _
  apply keeps_bind sameTable_trans (keeps_storeArchive _ _)
  intro _
  exact keeps_pure sameTable_refl _

/-- Whatever the archive holds, the entries are numbered one after the
other. -/
theorem initLoop_counted (start : Word) (fuel : Nat) :
    ∀ (offset : Int) (s after : Tarfs), Counted s →
      initLoop start fuel offset s = .ok ((), after) → Counted after := by
  induction fuel with
  | zero =>
      intro offset s after counted returned
      cases returned
  | succ fuel inductionHypothesis =>
      intro offset s after counted returned
      rw [initLoop] at returned
      obtain ⟨length, measured, lengthRead, rest⟩ := bind_eq_ok_iff.mp returned
      have countedMeasured :=
        counted.same (keeps_strlenArchive _ _ _ _ _ lengthRead)
      split at rest
      · obtain ⟨size, s₁, sizeRead, rest⟩ := bind_eq_ok_iff.mp rest
        obtain ⟨name, s₂, nameRead, rest⟩ := bind_eq_ok_iff.mp rest
        obtain ⟨type, s₃, typeRead, rest⟩ := bind_eq_ok_iff.mp rest
        obtain ⟨current, s₄, got, rest⟩ := bind_eq_ok_iff.mp rest
        cases got
        have countedRead : Counted s₃ :=
          ((countedMeasured.same (keeps_stringAt _ _ _ _ _ sizeRead)).same
            (keeps_stringAt _ _ _ _ _ nameRead)).same
              (keeps_stringAt _ _ _ _ _ typeRead)
        split at rest
        · rename_i fits
          obtain ⟨parent, s₅, searched, rest⟩ := bind_eq_ok_iff.mp rest
          obtain ⟨_, s₆, stored, rest⟩ := bind_eq_ok_iff.mp rest
          cases stored
          refine inductionHypothesis _ _ _ ⟨?_, ?_, ?_⟩ rest
          · apply numbered_append countedRead.numbered
            have count := countedRead.count
            have room := fits.2
            dsimp only
            rw [BitVec.toNat_ofNat, Nat.mod_eq_of_lt] <;> omega
          · have count := countedRead.count
            simp only [List.length_append, List.length_singleton]
            omega
          · have room := fits.2
            simp only [List.length_append, List.length_singleton]
            omega
        · cases rest
      · cases rest
        exact countedMeasured

/-- The table that `init_tarfs` leaves has the numbers that the search
returns. -/
theorem initTarfs_numbered {fuel : Nat} {start : Word}
    {archive : Word → Byte} {after : Tarfs}
    (returned : initTarfs fuel start { archive := archive } =
      .ok ((), after)) : Numbered after.tarfs := by
  have empty : Counted { archive := archive } := by
    refine ⟨?_, rfl, Nat.zero_le _⟩
    intro index file isFile
    cases isFile
  exact (initLoop_counted start fuel 0 _ after empty returned).numbered

end SbuUnix
