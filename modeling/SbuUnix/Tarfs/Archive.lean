import SbuUnix.Process.Loader
import SbuUnix.Tarfs.Strings

/-!
# Indexing the archive

`init_tarfs` of `sys/tarfs.c` walks over the records of the archive and fills
`global_tarfs`.  `Archive bytes addr entries` says that the bytes from an
address on are a well-formed archive with these entries; for such bytes the
table is `indexed start entries`.
-/

namespace SbuUnix

open Outcome

/-! ## The source -/

/-- The archive in memory, `global_tarfs` up to `file_count`, and
`file_count`. -/
structure Tarfs where
  archive : Word → Byte
  tarfs : List TarFile := []
  fileCount : Nat := 3

abbrev TarfsM := StateT Tarfs (Except Fault)

/-- `'/'` -/
def slash : Byte := 0x2F

/-- `TARFS_HEADER` -/
def tarfsHeader : Int := 512

/-- `DIRECTORY` -/
def directory : Word := 5

/-- A read of a string of the archive. -/
def stringAt (fuel : Nat) (addr : Word) : TarfsM (List Byte) := do
  match cString (← get).archive fuel addr with
  | some str => pure str
  | none => throw .outOfFuel

def storeArchive (addr : Word) (byte : Byte) : TarfsM Unit :=
  modify fun s =>
    { s with
      archive := fun other => if other = addr then byte else s.archive other }

/-- `strlen`, whose call of `strcat` writes two NULs at the end. -/
def strlenArchive (fuel : Nat) (addr : Word) : TarfsM Nat := do
  let str ← stringAt fuel addr
  storeArchive (addr + BitVec.ofNat 64 str.length) 0
  storeArchive (addr + BitVec.ofNat 64 str.length + 1) 0
  pure str.length

/-- `while (file[len] != '/')`, down to index 1; the loop of
`get_parent_inode` goes on at negative indices when it starts at index 0. -/
def lastSlash (file : List Byte) : Nat → TarfsM (Option Nat)
  | 0 => if file.getD 0 0 = slash then pure (some 0) else throw .outOfBounds
  | 1 => if file.getD 1 0 = slash then pure (some 1) else pure none
  | len + 2 =>
      if file.getD (len + 2) 0 = slash then pure (some (len + 2))
      else lastSlash file (len + 1)

/-- `get_parent_inode`, for the name of a new entry of `global_tarfs`. -/
def getParentInode (file : List Byte) : TarfsM Int := do
  if file.length = 0 then
    throw .outOfBounds
  else
    match ← lastSlash file (file.length - 1) with
    | none => pure (-1)
    | some len =>
        match (← get).tarfs.findIdx? fun entry =>
            entry.name = file.take (len + 1) with
        | some index => pure ((index : Int) + 4)
        | none => pure (-1)

/-- What `init_tarfs` adds to `offset` for a record. -/
def stride (size : Int) : Int :=
  if size = 0 then
    tarfsHeader
  else if size.tmod tarfsHeader = 0 then
    int32 (size + tarfsHeader)
  else
    int32 (int32 (int32 (size.tdiv tarfsHeader + 1) * tarfsHeader) +
      tarfsHeader)

/-- The loop of `init_tarfs`. -/
def initLoop (start : Word) : Nat → Int → TarfsM Unit
  | 0, _ => throw .outOfFuel
  | fuel + 1, offset => do
      let iter := start + BitVec.ofInt 64 offset
      if (← strlenArchive fuel iter) ≠ 0 then
        let size := octtodec (atoi (← stringAt fuel (iter + 124)))
        let name ← stringAt fuel iter
        let type := atoi (← stringAt fuel (iter + 156))
        let s ← get
        if name.length + 2 ≤ 100 ∧ s.tarfs.length < 100 then
          let parent ← getParentInode name
          let file : TarFile :=
            { name := name
              size := BitVec.ofInt 64 size
              type := BitVec.ofInt 64 type
              pInode := if parent = -1 then 0 else BitVec.ofInt 64 parent
              addr := start + BitVec.ofInt 64 offset + 512
              inode := BitVec.ofNat 64 (s.fileCount + 1) }
          set
            { s with
              tarfs := s.tarfs ++ [file]
              fileCount := s.fileCount + 1 }
          initLoop start fuel (int32 (offset + stride size))
        else
          throw .outOfBounds

def initTarfs (fuel : Nat) (start : Word) : TarfsM Unit :=
  initLoop start fuel 0

/-! ## Well-formed archives -/

/-- A file or a directory of the archive. -/
structure Entry where
  name : List Byte
  isDirectory : Bool
  contents : List Byte

/-- The bytes of a record: the header and whole blocks of data. -/
def Entry.recordSize (entry : Entry) : Nat :=
  512 + (entry.contents.length + 511) / 512 * 512

/-- A record of the archive: a name of 2 to 98 bytes, padded with NULs; a size
of eleven octal digits and a NUL, whose decimal reading is an `int`; the type,
with an empty link name; and the data. -/
structure Encodes (bytes : Word → Byte) (addr : Word) (entry : Entry) :
    Prop where
  name : EncodedAt bytes addr
    (entry.name ++ List.replicate (100 - entry.name.length) 0)
  nameLength : 2 ≤ entry.name.length ∧ entry.name.length ≤ 98
  noNul : 0 ∉ entry.name
  size : ∃ digits : List Nat, digits.length = 11 ∧ (∀ d ∈ digits, d < 8) ∧
    EncodedAt bytes (addr + 124) (digitChars digits ++ [0]) ∧
      valueOf 8 digits = entry.contents.length ∧ valueOf 10 digits < 2 ^ 31
  type :
    if entry.isDirectory then
      EncodedAt bytes (addr + 156) [0x35, 0] ∧ entry.contents = []
    else
      EncodedAt bytes (addr + 156) [0x30, 0] ∨
        EncodedAt bytes (addr + 156) [0]
  contents : EncodedAt bytes (addr + 512) entry.contents

/-- The records of the entries, and a block of zeros. -/
def Archive (bytes : Word → Byte) : Word → List Entry → Prop
  | addr, [] => EncodedAt bytes addr (List.replicate 512 0)
  | addr, entry :: rest =>
      Encodes bytes addr entry ∧
        Archive bytes (addr + BitVec.ofNat 64 entry.recordSize) rest

/-- Where the record of an entry starts. -/
def offsetOf (entries : List Entry) (index : Nat) : Nat :=
  ((entries.take index).map Entry.recordSize).sum

def archiveSize (entries : List Entry) : Nat :=
  (entries.map Entry.recordSize).sum

/-! ## The table of an archive -/

/-- The last slash of a name up to an index, but not at index 0. -/
def slashIndex (file : List Byte) : Nat → Option Nat
  | 0 => none
  | len + 1 =>
      if file.getD (len + 1) 0 = slash then some (len + 1)
      else slashIndex file len

/-- The entry of a table whose name ends where the last slash of a name is. -/
def parentIndex (table : List TarFile) (file : List Byte) : Option Nat :=
  (slashIndex file (file.length - 1)).bind fun len =>
    table.findIdx? fun entry => entry.name = file.take (len + 1)

/-- What `init_tarfs` stores for an entry behind the others of a table. -/
def fileOf (start : Word) (offset : Nat) (table : List TarFile)
    (entry : Entry) : TarFile where
  name := entry.name
  size := BitVec.ofNat 64 entry.contents.length
  type := if entry.isDirectory then directory else 0
  pInode :=
    match parentIndex table entry.name with
    | some index => BitVec.ofNat 64 (index + 4)
    | none => 0
  addr := start + BitVec.ofNat 64 offset + 512
  inode := BitVec.ofNat 64 (table.length + 4)

def indexFrom (start : Word) :
    Nat → List TarFile → List Entry → List TarFile
  | _, table, [] => table
  | offset, table, entry :: rest =>
      indexFrom start (offset + entry.recordSize)
        (table ++ [fileOf start offset table entry]) rest

/-- `global_tarfs` for an archive. -/
def indexed (start : Word) (entries : List Entry) : List TarFile :=
  indexFrom start 0 [] entries

section Loop

variable {fuel : Nat} {addr : Word} {s : Tarfs} {entry : Entry}

theorem stringAt_eq {str rest : List Byte} (noNul : 0 ∉ str)
    (enough : str.length < fuel)
    (encoded : EncodedAt s.archive addr (str ++ 0 :: rest)) :
    stringAt fuel addr s = .ok (str, s) := by
  unfold stringAt
  rw [bind_of_ok (show (get : TarfsM Tarfs) s = .ok (s, s) from rfl),
    cString_of_encodedAt noNul fuel addr enough encoded]
  rfl

/-- Writing a NUL where one stands changes nothing. -/
theorem storeArchive_same (zero : s.archive addr = 0) :
    storeArchive addr 0 s = .ok ((), s) := by
  have same : (fun other => if other = addr then 0 else s.archive other) =
      s.archive := by
    funext other
    by_cases here : other = addr
    · rw [if_pos here, here, zero]
    · rw [if_neg here]
  unfold storeArchive
  change Except.ok ((), { s with archive := _ }) = _
  rw [same]

theorem strlenArchive_eq {str rest : List Byte} (noNul : 0 ∉ str)
    (enough : str.length < fuel)
    (encoded : EncodedAt s.archive addr (str ++ 0 :: 0 :: rest)) :
    strlenArchive fuel addr s = .ok (str.length, s) := by
  obtain ⟨-, first, second, -⟩ := encodedAt_append.mp encoded
  unfold strlenArchive
  rw [bind_of_ok (stringAt_eq noNul enough encoded),
    bind_of_ok (storeArchive_same first),
    bind_of_ok (storeArchive_same second)]
  rfl

theorem lastSlash_eq (file : List Byte) (len : Nat) :
    lastSlash file (len + 1) s = .ok (slashIndex file (len + 1), s) := by
  induction len with
  | zero =>
      unfold lastSlash slashIndex
      split <;> rfl
  | succ len inductionHypothesis =>
      unfold lastSlash slashIndex
      split
      · rfl
      · exact inductionHypothesis

theorem getParentInode_eq {file : List Byte} (long : 2 ≤ file.length) :
    getParentInode file s =
      .ok (match parentIndex s.tarfs file with
        | some index => (index : Int) + 4
        | none => -1, s) := by
  obtain ⟨len, length⟩ : ∃ len, file.length - 1 = len + 1 :=
    ⟨file.length - 2, by omega⟩
  unfold getParentInode parentIndex
  rw [if_neg (by omega), length, bind_of_ok (lastSlash_eq file len)]
  cases slashIndex file (len + 1) with
  | none => rfl
  | some index =>
      rw [Option.bind_some]
      dsimp only
      rw [bind_of_ok (show (get : TarfsM Tarfs) s = .ok (s, s) from rfl)]
      cases s.tarfs.findIdx? _ <;> rfl

/-- The three cases of the stride round the data up to whole blocks. -/
theorem stride_eq {size : Nat}
    (small : 512 + (size + 511) / 512 * 512 < 2 ^ 31) :
    stride size = (512 + (size + 511) / 512 * 512 : Nat) := by
  have header : tarfsHeader = ((512 : Nat) : Int) := rfl
  have remainder : (size : Int).tmod tarfsHeader = (size % 512 : Nat) := rfl
  have quotient : (size : Int).tdiv tarfsHeader = (size / 512 : Nat) := rfl
  unfold stride
  rw [remainder, quotient, header]
  by_cases empty : size = 0
  · rw [empty]
    rfl
  · rw [if_neg (by exact_mod_cast empty)]
    by_cases whole : size % 512 = 0
    · rw [if_pos (by exact_mod_cast whole), int32_add (by omega)]
      congr 1
      omega
    · rw [if_neg (by exact_mod_cast whole)]
      have next : ((size / 512 : Nat) : Int) + 1 = (size / 512 + 1 : Nat) := by
        push_cast
        rfl
      rw [next, int32_of_small (by omega), int32_mul (by omega),
        int32_add (by omega)]
      congr 1
      omega

theorem addr_add_ofNat (addr : Word) (first second : Nat) :
    addr + BitVec.ofNat 64 (first + second) =
      addr + BitVec.ofNat 64 first + BitVec.ofNat 64 second := by
  rw [BitVec.ofNat_add, BitVec.add_assoc]

/-- What is read of a record. -/
structure Reads (fuel : Nat) (addr : Word) (s : Tarfs) (entry : Entry) :
    Prop where
  length : strlenArchive fuel addr s = .ok (entry.name.length, s)
  name : stringAt fuel addr s = .ok (entry.name, s)
  size : ∃ digits, stringAt fuel (addr + 124) s = .ok (digits, s) ∧
    octtodec (atoi digits) = entry.contents.length
  type : ∃ chars, stringAt fuel (addr + 156) s = .ok (chars, s) ∧
    BitVec.ofInt 64 (atoi chars) = if entry.isDirectory then directory else 0

theorem reads_of_encodes (encodes : Encodes s.archive addr entry)
    (enough : 100 ≤ fuel) : Reads fuel addr s entry := by
  have padded : entry.name ++ List.replicate (100 - entry.name.length) 0 =
      entry.name ++ 0 :: 0 :: List.replicate (98 - entry.name.length) 0 := by
    have length := encodes.nameLength
    rw [show 100 - entry.name.length = (98 - entry.name.length) + 2 from by
      omega]
    rfl
  have name := encodes.name
  rw [padded] at name
  have short : entry.name.length < fuel := by
    have length := encodes.nameLength
    omega
  constructor
  · exact strlenArchive_eq encodes.noNul short name
  · exact stringAt_eq encodes.noNul short name
  · obtain ⟨digits, length, octal, encoded, value, small⟩ := encodes.size
    have decimal : ∀ d ∈ digits, d < 10 := fun d member =>
      Nat.lt_trans (octal d member) (by omega)
    have noNul : 0 ∉ digitChars digits := by
      intro member
      obtain ⟨d, inDigits, zero⟩ := List.mem_map.mp member
      have less := octal d inDigits
      have value := congrArg BitVec.toNat zero
      simp only [BitVec.ofNat_eq_ofNat, BitVec.toNat_ofNat] at value
      omega
    refine ⟨digitChars digits, stringAt_eq noNul ?_ encoded, ?_⟩
    · rw [digitChars, List.length_map, length]
      omega
    · rw [atoi_digitChars decimal small, octtodec_valueOf octal small, value]
  · have type := encodes.type
    have directoryChar : (0 : Byte) ∉ [(0x35 : Byte)] := by decide
    have fileChar : (0 : Byte) ∉ [(0x30 : Byte)] := by decide
    split at type
    · next isDirectory =>
        refine ⟨[0x35], stringAt_eq directoryChar (by simp; omega) type.1, ?_⟩
        rw [if_pos isDirectory]
        decide
    · next isFile =>
        rw [if_neg isFile]
        rcases type with digit | none
        · refine ⟨[0x30], stringAt_eq fileChar (by simp; omega) digit, ?_⟩
          decide
        · refine ⟨[], stringAt_eq (by simp) (by simp; omega) none, ?_⟩
          decide

/-- One pass of the loop over a record. -/
theorem initLoop_cons {start : Word} {offset : Nat}
    (encodes : Encodes s.archive (start + BitVec.ofNat 64 offset) entry)
    (enough : 100 ≤ fuel) (room : s.tarfs.length < 100)
    (count : s.fileCount = s.tarfs.length + 3)
    (small : offset + entry.recordSize < 2 ^ 31) :
    initLoop start (fuel + 1) offset s =
      initLoop start fuel (offset + entry.recordSize : Nat)
        { s with
          tarfs := s.tarfs ++ [fileOf start offset s.tarfs entry]
          fileCount := s.fileCount + 1 } := by
  have reads := reads_of_encodes encodes enough
  obtain ⟨digits, digitsRead, size⟩ := reads.size
  obtain ⟨chars, charsRead, type⟩ := reads.type
  have place : start + BitVec.ofInt 64 offset =
      start + BitVec.ofNat 64 offset := by
    rw [BitVec.ofInt_natCast]
  have long : 2 ≤ entry.name.length := encodes.nameLength.1
  have rounded : stride entry.contents.length = (entry.recordSize : Nat) := by
    apply stride_eq
    unfold Entry.recordSize at small
    omega
  have last : ∀ next, (set next : TarfsM Unit) s = .ok ((), next) := by
    intro next
    rfl
  have parent : ∀ found : Option Nat,
      (if (match found with
          | some index => (index : Int) + 4
          | none => -1) = -1 then (0 : Word)
        else BitVec.ofInt 64 (match found with
          | some index => (index : Int) + 4
          | none => -1)) =
        match found with
        | some index => BitVec.ofNat 64 (index + 4)
        | none => 0 := by
    intro found
    cases found with
    | none => rfl
    | some index =>
        dsimp only
        rw [if_neg (by omega)]
        exact BitVec.ofInt_natCast 64 (index + 4)
  rw [initLoop, place]
  dsimp only
  rw [bind_of_ok reads.length, if_pos (by omega), bind_of_ok digitsRead,
    bind_of_ok reads.name, bind_of_ok charsRead,
    bind_of_ok (show (get : TarfsM Tarfs) s = .ok (s, s) from rfl),
    if_pos ⟨by have length := encodes.nameLength; omega, room⟩,
    bind_of_ok (getParentInode_eq long), bind_of_ok (last _), size, type,
    rounded, int32_add small, parent, count, BitVec.ofInt_natCast]
  rfl

/-- The table that `indexFrom` starts from is the front of its result. -/
theorem indexFrom_length (start : Word) (entries : List Entry) :
    ∀ offset table, (indexFrom start offset table entries).length =
      table.length + entries.length := by
  induction entries with
  | nil =>
      intro offset table
      rfl
  | cons entry rest inductionHypothesis =>
      intro offset table
      rw [indexFrom, inductionHypothesis, List.length_append]
      simp only [List.length_cons, List.length_nil]
      omega

/-- The whole loop, from the block it starts at to the zero block. -/
theorem initLoop_eq {start : Word} {entries : List Entry} :
    ∀ {fuel offset : Nat} {s : Tarfs},
      Archive s.archive (start + BitVec.ofNat 64 offset) entries →
        entries.length + 100 < fuel →
          s.tarfs.length + entries.length ≤ 100 →
            s.fileCount = s.tarfs.length + 3 →
              offset + archiveSize entries < 2 ^ 31 →
                initLoop start fuel offset s =
                  .ok ((), { s with
                    tarfs := indexFrom start offset s.tarfs entries
                    fileCount := s.tarfs.length + entries.length + 3 }) := by
  induction entries with
  | nil =>
      intro fuel offset s archive enough room count small
      obtain ⟨rest, rfl⟩ : ∃ rest, fuel = rest + 1 :=
        ⟨fuel - 1, by omega⟩
      have empty : strlenArchive rest (start + BitVec.ofInt 64 offset) s =
          .ok (0, s) := by
        rw [BitVec.ofInt_natCast]
        exact strlenArchive_eq (show (0 : Byte) ∉ [] from List.not_mem_nil)
          (by simp only [List.length_nil]; omega) archive
      rw [initLoop]
      dsimp only
      rw [bind_of_ok empty, if_neg (by simp), indexFrom, List.length_nil,
        Nat.add_zero, ← count]
      rfl
  | cons entry rest inductionHypothesis =>
      intro fuel offset s archive enough room count small
      obtain ⟨encodes, later⟩ := archive
      obtain ⟨fuel, rfl⟩ : ∃ more, fuel = more + 1 :=
        ⟨fuel - 1, by omega⟩
      simp only [List.length_cons, archiveSize, List.map_cons,
        List.sum_cons] at enough room small ⊢
      have next : (start + BitVec.ofNat 64 offset) +
          BitVec.ofNat 64 entry.recordSize =
            start + BitVec.ofNat 64 (offset + entry.recordSize) :=
        (addr_add_ofNat start offset entry.recordSize).symm
      rw [next] at later
      let after : Tarfs :=
        { s with
          tarfs := s.tarfs ++ [fileOf start offset s.tarfs entry]
          fileCount := s.fileCount + 1 }
      have length : after.tarfs.length = s.tarfs.length + 1 := by
        simp [after]
      have counted : after.fileCount = s.fileCount + 1 := rfl
      have others : initLoop start fuel (offset + entry.recordSize : Nat)
          after = .ok ((), { after with
            tarfs := indexFrom start (offset + entry.recordSize) after.tarfs
              rest
            fileCount := after.tarfs.length + rest.length + 3 }) :=
        inductionHypothesis later (by omega) (by omega) (by omega)
          (by unfold archiveSize; omega)
      have total : s.tarfs.length + 1 + rest.length + 3 =
          s.tarfs.length + (rest.length + 1) + 3 := by
        omega
      rw [initLoop_cons encodes (by omega) (by omega) count (by omega),
        others, length, total]
      rfl

end Loop

/-! ## The entries of the table -/

theorem offsetOf_cons (entry : Entry) (rest : List Entry) (index : Nat) :
    offsetOf (entry :: rest) (index + 1) =
      entry.recordSize + offsetOf rest index := by
  simp [offsetOf]

theorem offsetOf_lt {entries : List Entry} {index : Nat}
    (within : index < entries.length) :
    offsetOf entries index + 512 ≤ archiveSize entries := by
  induction entries generalizing index with
  | nil => exact absurd within (Nat.not_lt_zero index)
  | cons entry rest inductionHypothesis =>
      have size : archiveSize (entry :: rest) =
          entry.recordSize + archiveSize rest := by
        simp [archiveSize]
      rw [size]
      cases index with
      | zero =>
          have header : 512 ≤ entry.recordSize := by
            unfold Entry.recordSize
            omega
          have none : offsetOf (entry :: rest) 0 = 0 := by
            simp [offsetOf]
          omega
      | succ index =>
          have later := inductionHypothesis (Nat.lt_of_succ_lt_succ within)
          rw [offsetOf_cons]
          omega

/-- Each record stands where the sizes of the ones before it say. -/
theorem Archive.encodes {bytes : Word → Byte} {entries : List Entry} :
    ∀ {addr : Word} {index : Nat} (within : index < entries.length),
      Archive bytes addr entries →
        Encodes bytes (addr + BitVec.ofNat 64 (offsetOf entries index))
          entries[index] := by
  induction entries with
  | nil =>
      intro addr index within
      exact absurd within (Nat.not_lt_zero index)
  | cons entry rest inductionHypothesis =>
      intro addr index within archive
      cases index with
      | zero =>
          have none : offsetOf (entry :: rest) 0 = 0 := by
            simp [offsetOf]
          have here : addr + BitVec.ofNat 64 0 = addr := BitVec.add_zero addr
          rw [none, here]
          exact archive.1
      | succ index =>
          rw [offsetOf_cons, addr_add_ofNat]
          exact inductionHypothesis (Nat.lt_of_succ_lt_succ within) archive.2

theorem indexFrom_prefix (start : Word) (entries : List Entry) :
    ∀ offset table, table <+: indexFrom start offset table entries := by
  induction entries with
  | nil =>
      intro offset table
      exact List.prefix_refl table
  | cons entry rest inductionHypothesis =>
      intro offset table
      exact (List.prefix_append table _).trans (inductionHypothesis _ _)

/-- An entry of the table is what is stored behind the ones before it. -/
theorem indexFrom_file (start : Word) (entries : List Entry) :
    ∀ offset table index (within : index < entries.length),
      (indexFrom start offset table entries)[table.length + index]? =
        some (fileOf start (offset + offsetOf entries index)
          ((indexFrom start offset table entries).take
            (table.length + index)) entries[index]) := by
  induction entries with
  | nil =>
      intro offset table index within
      exact absurd within (Nat.not_lt_zero index)
  | cons entry rest inductionHypothesis =>
      intro offset table index within
      cases index with
      | zero =>
          obtain ⟨behind, whole⟩ := indexFrom_prefix start rest
            (offset + entry.recordSize)
            (table ++ [fileOf start offset table entry])
          rw [indexFrom, ← whole]
          simp [offsetOf]
      | succ index =>
          have later := inductionHypothesis (offset + entry.recordSize)
            (table ++ [fileOf start offset table entry]) index
            (Nat.lt_of_succ_lt_succ within)
          have place : (table ++ [fileOf start offset table entry]).length +
              index = table.length + (index + 1) := by
            simp only [List.length_append, List.length_singleton]
            omega
          rw [place, Nat.add_assoc offset, ← offsetOf_cons] at later
          exact later

section Indexed

variable {start : Word} {entries : List Entry}

theorem indexed_length (start : Word) (entries : List Entry) :
    (indexed start entries).length = entries.length := by
  have length := indexFrom_length start entries 0 []
  rwa [List.length_nil, Nat.zero_add] at length

theorem indexed_get (start : Word) {index : Nat}
    (within : index < entries.length) :
    (indexed start entries)[index]? =
      some (fileOf start (offsetOf entries index)
        ((indexed start entries).take index) entries[index]) := by
  have file := indexFrom_file start entries 0 [] index within
  unfold indexed
  simpa only [List.length_nil, Nat.zero_add] using file

/-- The stored names are those of the entries, in their order. -/
theorem indexed_names (start : Word) (entries : List Entry) :
    (indexed start entries).map TarFile.name = entries.map Entry.name := by
  apply List.ext_getElem?
  intro index
  rw [List.getElem?_map, List.getElem?_map]
  by_cases within : index < entries.length
  · rw [indexed_get start within, List.getElem?_eq_getElem within]
    rfl
  · rw [List.getElem?_eq_none (by rw [indexed_length]; omega),
      List.getElem?_eq_none (by omega)]
    rfl

/-- `is_file_exist` finds the first entry with a name. -/
theorem isFileExist_first (start : Word) {index : Nat}
    (within : index < entries.length)
    (first : ∀ earlier (before : earlier < index),
      entries[earlier].name ≠ entries[index].name) :
    isFileExist (indexed start entries) entries[index].name =
      start + BitVec.ofNat 64 (offsetOf entries index) + 512 := by
  have found : (indexed start entries).find?
      (fun file => file.name = entries[index].name) =
        some (fileOf start (offsetOf entries index)
          ((indexed start entries).take index) entries[index]) := by
    apply List.find?_eq_some_iff_getElem.mpr
    refine ⟨by simp [fileOf], index, by rw [indexed_length]; exact within,
      ?_, ?_⟩
    · apply Option.some.inj
      rw [← List.getElem?_eq_getElem, indexed_get start within]
    · intro earlier before
      have inside : earlier < entries.length := Nat.lt_trans before within
      have file := indexed_get start inside
      rw [List.getElem?_eq_getElem (by rw [indexed_length]; exact inside)]
        at file
      rw [Option.some.inj file]
      simpa [fileOf] using first earlier before
  unfold isFileExist
  rw [found]
  rfl

/-- `0` is not the address of a file of an archive that lies in memory. -/
theorem isFileExist_eq_zero_iff
    (inMemory : start.toNat + archiveSize entries + 512 ≤ 2 ^ 64)
    (name : List Byte) :
    isFileExist (indexed start entries) name = 0 ↔
      ∀ entry ∈ entries, entry.name ≠ name := by
  constructor
  · intro zero entry member same
    have some : ∃ index, ∃ within : index < entries.length,
        entries[index].name = name := by
      obtain ⟨index, within, here⟩ := List.mem_iff_getElem.mp member
      exact ⟨index, within, by rw [here]; exact same⟩
    have within := (Nat.find_spec some).1
    have found := (Nat.find_spec some).2
    have address := isFileExist_first start within
      (fun earlier before sameName => Nat.find_min some before
        ⟨Nat.lt_trans before within, sameName.trans found⟩)
    rw [found, zero] at address
    have value := congrArg BitVec.toNat address
    have less := offsetOf_lt within
    simp only [BitVec.ofNat_eq_ofNat, BitVec.toNat_add,
      BitVec.toNat_ofNat] at value
    omega
  · intro absent
    have none : (indexed start entries).find?
        (fun file => file.name = name) = none := by
      apply List.find?_eq_none.mpr
      intro file member
      have stored := List.mem_map_of_mem (f := TarFile.name) member
      rw [indexed_names] at stored
      obtain ⟨entry, inArchive, same⟩ := List.mem_map.mp stored
      simpa [← same] using absent entry inArchive
    unfold isFileExist
    rw [none]

end Indexed

/-- What the table says about an entry of the archive. -/
structure Describes (bytes : Word → Byte) (start : Word) (offset index : Nat)
    (entry : Entry) (file : TarFile) : Prop where
  name : file.name = entry.name
  size : file.size = BitVec.ofNat 64 entry.contents.length
  type : file.type = if entry.isDirectory then directory else 0
  addr : file.addr = start + BitVec.ofNat 64 offset + 512
  contents : EncodedAt bytes file.addr entry.contents
  inode : file.inode = BitVec.ofNat 64 (index + 4)

theorem describes_fileOf {bytes : Word → Byte} {start : Word}
    {offset : Nat} (table : List TarFile) {entry : Entry}
    (encodes : Encodes bytes (start + BitVec.ofNat 64 offset) entry) :
    Describes bytes start offset table.length entry
      (fileOf start offset table entry) :=
  ⟨rfl, rfl, rfl, rfl, encodes.contents, rfl⟩

/-- An archive in memory that the empty table has room for. -/
structure Indexable (s : Tarfs) (start : Word) (entries : List Entry) :
    Prop where
  archive : Archive s.archive start entries
  inMemory : start.toNat + archiveSize entries + 512 ≤ 2 ^ 64
  small : archiveSize entries + 512 < 2 ^ 31
  few : entries.length ≤ 100
  fresh : s.tarfs = [] ∧ s.fileCount = 3

section Init

variable {start : Word} {entries : List Entry} {fuel : Nat} {s : Tarfs}

theorem initTarfs_eq (indexable : Indexable s start entries)
    (enough : entries.length + 100 < fuel) :
    initTarfs fuel start s =
      .ok ((), { s with
        tarfs := indexed start entries
        fileCount := entries.length + 3 }) := by
  have origin : start + BitVec.ofNat 64 0 = start := BitVec.add_zero start
  have few := indexable.few
  have small := indexable.small
  have indexes : initLoop start fuel (0 : Nat) s =
      .ok ((), { s with
        tarfs := indexFrom start 0 s.tarfs entries
        fileCount := s.tarfs.length + entries.length + 3 }) :=
    initLoop_eq (by rw [origin]; exact indexable.archive) enough
      (by rw [indexable.fresh.1, List.length_nil]; omega)
      (by rw [indexable.fresh.1, indexable.fresh.2]; rfl) (by omega)
  rwa [indexable.fresh.1, List.length_nil, Nat.zero_add] at indexes

/-- `init_tarfs` indexes every well-formed archive. -/
theorem initTarfs_indexes (indexable : Indexable s start entries)
    (enough : entries.length + 100 < fuel) :
    ∃ next, initTarfs fuel start s = .ok ((), next) ∧
      next.archive = s.archive ∧
      next.fileCount = entries.length + 3 ∧
      next.tarfs.length = entries.length ∧
      (∀ index (within : index < entries.length), ∃ file,
        next.tarfs[index]? = some file ∧
          Describes next.archive start (offsetOf entries index) index
            entries[index] file) ∧
      (∀ index (within : index < entries.length),
        (∀ earlier (before : earlier < index),
          entries[earlier].name ≠ entries[index].name) →
            isFileExist next.tarfs entries[index].name =
              start + BitVec.ofNat 64 (offsetOf entries index) + 512) ∧
      ∀ name, isFileExist next.tarfs name = 0 ↔
        ∀ entry ∈ entries, entry.name ≠ name := by
  refine ⟨_, initTarfs_eq indexable enough, rfl, rfl,
    indexed_length start entries, ?_,
    fun index within => isFileExist_first start within,
    isFileExist_eq_zero_iff indexable.inMemory⟩
  intro index within
  have earlier : ((indexed start entries).take index).length = index := by
    rw [List.length_take, indexed_length]
    omega
  have describes := describes_fileOf ((indexed start entries).take index)
    (indexable.archive.encodes within)
  rw [earlier] at describes
  exact ⟨_, indexed_get start within, describes⟩

end Init

/-! ### A directory with a file and a sub-directory -/

/-- The 512 bytes of a header. -/
def headerBytes (name : List Byte) (digits : List Nat) (type : Byte) :
    List Byte :=
  name ++ List.replicate (124 - name.length) 0 ++ digitChars digits ++
    List.replicate 21 0 ++ type :: List.replicate 355 0

/-- `d/`, `d/f` with contents `hi`, and `d/e/`. -/
def smallArchive : List Entry :=
  [{ name := [0x64, 0x2F], isDirectory := true, contents := [] },
    { name := [0x64, 0x2F, 0x66]
      isDirectory := false
      contents := [0x68, 0x69] },
    { name := [0x64, 0x2F, 0x65, 0x2F]
      isDirectory := true
      contents := [] }]

def smallStart : Word := 0xFFFFFFFF80210000

def smallField : List Byte :=
  headerBytes [0x64, 0x2F] (List.replicate 11 0) 0x35 ++
    headerBytes [0x64, 0x2F, 0x66] (List.replicate 10 0 ++ [2]) 0x30 ++
      0x68 :: 0x69 :: List.replicate 510 0 ++
        headerBytes [0x64, 0x2F, 0x65, 0x2F] (List.replicate 11 0) 0x35

def smallTarfs : Tarfs where
  archive := listBytes smallStart smallField

theorem encodedAt_smallField {addr : Word} {part : List Byte} (offset : Nat)
    (place : addr = smallStart + BitVec.ofNat 64 offset)
    (inField : offset + part.length ≤ 2 ^ 64 ∧
      (smallField.drop offset).take part.length = part) :
    EncodedAt (listBytes smallStart smallField) addr part := by
  rw [place]
  apply encodedAt_listBytes smallStart smallField part offset inField.1
  intro index within
  conv_rhs => rw [← inField.2]
  simp [List.getD_eq_getElem?_getD, List.getElem?_drop, within]

theorem archive_smallField :
    Archive (listBytes smallStart smallField) smallStart smallArchive := by
  refine ⟨⟨?_, by decide, by decide, ⟨List.replicate 11 0, by decide,
      by decide, ?_, by decide, by decide⟩, ⟨?_, rfl⟩, trivial⟩,
    ⟨?_, by decide, by decide, ⟨List.replicate 10 0 ++ [2], by decide,
      by decide, ?_, by decide, by decide⟩, .inl ?_, ?_⟩,
    ⟨?_, by decide, by decide, ⟨List.replicate 11 0, by decide,
      by decide, ?_, by decide, by decide⟩, ⟨?_, rfl⟩, trivial⟩, ?_⟩
  · exact encodedAt_smallField 0 (by decide) (by decide +kernel)
  · exact encodedAt_smallField 124 (by decide) (by decide +kernel)
  · exact encodedAt_smallField 156 (by decide) (by decide +kernel)
  · exact encodedAt_smallField 512 (by decide) (by decide +kernel)
  · exact encodedAt_smallField 636 (by decide) (by decide +kernel)
  · exact encodedAt_smallField 668 (by decide) (by decide +kernel)
  · exact encodedAt_smallField 1024 (by decide) (by decide +kernel)
  · exact encodedAt_smallField 1536 (by decide) (by decide +kernel)
  · exact encodedAt_smallField 1660 (by decide) (by decide +kernel)
  · exact encodedAt_smallField 1692 (by decide) (by decide +kernel)
  · apply encodedAt_listBytes smallStart smallField (List.replicate 512 0) 2048
      (by rw [List.length_replicate]; omega)
    intro index within
    rw [List.length_replicate] at within
    have behind : smallField.length ≤ 2048 + index :=
      Nat.le_trans (show smallField.length ≤ 2048 by decide +kernel)
        (Nat.le_add_right 2048 index)
    rw [List.getD_eq_default _ _ behind, List.getD_replicate _ within]

theorem indexable_smallTarfs :
    Indexable smallTarfs smallStart smallArchive :=
  ⟨archive_smallField, by decide, by decide, by decide, rfl, rfl⟩

theorem initTarfs_indexes_small :
    ∃ next, initTarfs 200 smallStart smallTarfs = .ok ((), next) ∧
      isFileExist next.tarfs [0x64, 0x2F, 0x66] = smallStart + 1024 := by
  obtain ⟨next, indexes, -, -, -, -, first, -⟩ :=
    initTarfs_indexes indexable_smallTarfs
      (show smallArchive.length + 100 < 200 by decide)
  exact ⟨next, indexes, first 1 (by decide) (by decide)⟩

end SbuUnix
