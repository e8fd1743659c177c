import SbuUnix.Tarfs.Descriptors

/-!
# From the archive to the reader

What `init_tarfs` finds in an archive, `open` and `read` give back: a process
that opens the name of an entry and reads its size in parts of any lengths has
read the contents of the entry.
-/

namespace SbuUnix

open Outcome

/-- The reads of some sizes from one descriptor, with a buffer for each. -/
def partReads (fd : BitVec 32) (parts : List (Word × Nat)) : List FileCall :=
  parts.map fun part => .read fd part.1 (BitVec.ofNat 32 part.2)

/-- How many bytes the reads ask for. -/
def askedFor (parts : List (Word × Nat)) : Nat :=
  (parts.map Prod.snd).sum

section Table

variable {s : Tarfs} {start : Word} {entries : List Entry}

/-- The bytes of a field are those that stand in memory. -/
theorem archiveBytes_of_encodedAt {bytes : Word → Byte} {addr : Word}
    {field : List Byte} (encoded : EncodedAt bytes addr field) :
    archiveBytes bytes addr field.length = field := by
  unfold archiveBytes
  apply List.ext_getElem
  · rw [List.length_map, List.length_range]
  · intro index _ inside
    rw [List.getElem_map, List.getElem_range,
      encodedAt_iff.mp encoded index inside, List.getD_eq_getElem _ _ inside]

/-- A size that fits its eleven octal digits. -/
theorem Indexable.length_lt (indexable : Indexable s start entries)
    {index : Nat} (within : index < entries.length) :
    entries[index].contents.length < 2 ^ 31 := by
  obtain ⟨digits, -, -, -, value, small⟩ :=
    (indexable.archive.encodes within).size
  have less := valueOf_eight_le digits
  omega

/-- The first entry of a name is found, with its contents. -/
theorem Indexable.found (indexable : Indexable s start entries) {index : Nat}
    (within : index < entries.length)
    (first : ∀ entry ∈ entries.take index,
      entry.name ≠ entries[index].name) :
    ∃ file, (indexed start entries).find?
        (fun file => file.name = entries[index].name) = some file ∧
      file.inode = BitVec.ofNat 64 (index + 4) ∧
        file.size.toNat = entries[index].contents.length ∧
          fileBytes s.archive file = entries[index].contents := by
  have stored := indexed_get start within
  have encodes := indexable.archive.encodes within
  have taken : ((indexed start entries).take index).length = index := by
    rw [List.length_take, indexed_length]
    exact Nat.min_eq_left (Nat.le_of_lt within)
  have size : (BitVec.ofNat 64 entries[index].contents.length).toNat =
      entries[index].contents.length := by
    have small := indexable.length_lt within
    rw [BitVec.toNat_ofNat]
    exact Nat.mod_eq_of_lt (Nat.lt_trans small (by decide))
  refine ⟨fileOf start (offsetOf entries index)
    ((indexed start entries).take index) entries[index], ?_, ?_, size, ?_⟩
  · apply List.find?_eq_some_iff_getElem.mpr
    refine ⟨decide_eq_true (Eq.refl entries[index].name), index,
      by rw [indexed_length]; exact within,
      (List.getElem?_eq_some_iff.mp stored).2, ?_⟩
    intro earlier before
    have inside : earlier < entries.length := Nat.lt_trans before within
    have earlierStored := indexed_get start inside
    rw [(List.getElem?_eq_some_iff.mp earlierStored).2, Bool.not_eq_true']
    exact decide_eq_false (first entries[earlier]
      (List.mem_take_iff_getElem.mpr
        ⟨earlier, Nat.lt_min.mpr ⟨before, inside⟩, rfl⟩))
  · exact congrArg (fun count => BitVec.ofNat 64 (count + 4)) taken
  · exact (congrArg (archiveBytes s.archive _) size).trans
      (archiveBytes_of_encodedAt encodes.contents)

end Table

/-! ## Reading on -/

section Reading

variable {tarfs : List TarFile} {archive : Word → Byte} {file : TarFile}
variable {fd : BitVec 32}

/-- A descriptor of the file, from which some bytes have been read. -/
def Reading (tarfs : List TarFile) (archive : Word → Byte) (fd : BitVec 32)
    (bytes : List Byte) (r : Reader) : Prop :=
  (∃ pcb, Agrees tarfs archive r pcb) ∧ r.delivered fd = some bytes

/-- A read of no more than what is left meets the condition. -/
theorem Reading.meets (table : TarTable tarfs) (member : file ∈ tarfs)
    (inode : file.inode = fd.signExtend 64) {bytes : List Byte} {r : Reader}
    (reading : Reading tarfs archive fd bytes r) {size : Nat}
    (fits : bytes.length + size ≤ file.size.toNat) (buf : Word) :
    ReadCondition (.read fd buf (BitVec.ofNat 32 size)) r := by
  have small := table.size file member
  obtain ⟨⟨pcb, agrees⟩, isOpen⟩ := reading
  have natural : (BitVec.ofNat 32 size).toNat = size := by
    rw [BitVec.toNat_ofNat]
    omega
  constructor
  · rw [BitVec.toInt_eq_toNat_of_lt (by omega)]
    exact Int.natCast_nonneg _
  · intro before other delivered otherMember same
    rw [isOpen] at delivered
    cases delivered
    rw [agrees.sameTarfs] at otherMember
    have one : other = file :=
      table.inode_eq otherMember member (same.trans inode.symm)
    rw [natural, one]
    exact Or.inr fits

/-- One read delivers the next part of the file. -/
theorem yields_track_read (table : TarTable tarfs) (member : file ∈ tarfs)
    (inode : file.inode = fd.signExtend 64) {count size : Nat} {r : Reader}
    (reading : Reading tarfs archive fd ((fileBytes archive file).take count)
      r) (fits : count + size ≤ file.size.toNat) (buf : Word) :
    Yields PageFaulted (FileCall.read fd buf (BitVec.ofNat 32 size)).track r
      fun _ next => Reading tarfs archive fd
        ((fileBytes archive file).take (count + size)) next := by
  have small := table.size file member
  have whole : (fileBytes archive file).length = file.size.toNat :=
    archiveBytes_length _ _ _
  have taken : ((fileBytes archive file).take count).length = count := by
    rw [List.length_take, whole]
    omega
  have natural : (BitVec.ofNat 32 size).toNat = size := by
    rw [BitVec.toNat_ofNat]
    omega
  have meets := reading.meets table member inode
    (show ((fileBytes archive file).take count).length + size ≤ _ by
      rw [taken]; exact fits) buf
  obtain ⟨⟨pcb, agrees⟩, isOpen⟩ := reading
  obtain ⟨other, otherMember, otherInode, -, slot, length, -, -, reads⟩ :=
    yields_read_next table agrees isOpen meets
  have one : other = file :=
    table.inode_eq otherMember member (otherInode.trans inode.symm)
  unfold FileCall.track
  rw [yields_bind, yields_onReader]
  apply reads.mono
  rintro result next ⟨rfl, -, -, agreesNext⟩
  have more : (fileBytes archive file).take count ++
      ((fileBytes archive other).drop
        ((fileBytes archive file).take count).length).take
          (BitVec.ofNat 32 size).toNat =
        (fileBytes archive file).take (count + size) := by
    rw [one, taken, natural, ← List.take_add]
  rw [more] at agreesNext
  refine ⟨⟨pcb.advanced slot length, ?_⟩, ?_⟩
  · dsimp only
    rw [isOpen, Option.map_some, more]
    exact agreesNext
  · dsimp only
    rw [if_pos rfl, isOpen, Option.map_some, more]

/-- All reads, as long as they ask for no more than the file has. -/
theorem yields_track_reads (table : TarTable tarfs) (member : file ∈ tarfs)
    (inode : file.inode = fd.signExtend 64) (parts : List (Word × Nat)) :
    ∀ (count : Nat) {r : Reader},
      Reading tarfs archive fd ((fileBytes archive file).take count) r →
        count + askedFor parts ≤ file.size.toNat →
          Yields PageFaulted (runAll FileCall.track (partReads fd parts)) r
            fun _ next => Reading tarfs archive fd
              ((fileBytes archive file).take (count + askedFor parts))
                next := by
  induction parts with
  | nil => exact fun _ _ reading _ => reading
  | cons part rest inductionHypothesis =>
      intro count r reading fits
      have sum : askedFor (part :: rest) = part.2 + askedFor rest := rfl
      rw [sum] at fits ⊢
      apply (yields_bind _ _ r).mpr
      apply (yields_track_read table member inode reading
        (show count + part.2 ≤ _ by omega) part.1).mono
      intro _ next later
      rw [← Nat.add_assoc]
      exact inductionHypothesis (count + part.2) later (by omega)

end Reading

/-! ## Opening and reading -/

section Opening

variable {tarfs : List TarFile} {archive : Word → Byte}

/-- A file that is not open yet is opened at its first byte. -/
theorem yields_track_open (table : TarTable tarfs) {r : Reader} {pcb : Pcb}
    (agrees : Agrees tarfs archive r pcb) {file : TarFile}
    {filename : List Byte} (here : tarfs.find?
      (fun file => file.name = filename) = some file)
    (room : pcb.fileCount.toNat < 5)
    (closed : r.delivered (file.inode.setWidth 32) = none)
    (permission : BitVec 32) :
    Yields PageFaulted (FileCall.openFile filename permission).track r
      fun _ next => Reading tarfs archive (file.inode.setWidth 32) [] next := by
  have condition : ReadCondition (.openFile filename permission) r := by
    constructor
    · intro _ other found
      rw [agrees.found] at found
      cases found
      exact room
    · intro other same before delivered
      rw [agrees.sameTarfs, here] at same
      cases same
      rw [closed] at delivered
      cases delivered
  have opened := agrees_open table agrees condition
  have named : file.name = filename := by
    simpa using List.find?_some here
  have inTable := List.mem_of_find?_eq_some here
  have short : filename.length ≤ 98 := by
    rw [← named]
    exact table.name file inTable
  have inKernel : r.kernel.tarfs.find? (fun file => file.name = filename) =
      some file := by
    rw [agrees.sameTarfs]
    exact here
  unfold FileCall.track at opened ⊢
  rw [yields_bind, yields_onReader, yields_iff_of_ok
    (openFile_found agrees.found room short inKernel),
    if_pos (table.inode_ne inTable)] at opened ⊢
  exact ⟨opened, if_pos rfl⟩

end Opening

/-- A process that has opened nothing, with the small archive. -/
def smallKernel : Kernel :=
  { readerKernel with
    tarfs := indexed smallStart smallArchive
    archive := smallTarfs.archive }

end SbuUnix
