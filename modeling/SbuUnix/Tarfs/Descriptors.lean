import SbuUnix.Tarfs.Archive

/-!
# Reading files

`open`, `read` and `close` of `sys/tarfs.c`.  `open` takes the next of five
slots of the control block and `close` gives none back; `read` advances
`read_addr` but not `size`, and finds a descriptor by its inode in the first
slot that has it.
-/

namespace SbuUnix

open Outcome

/-! ## The source -/

/-- `fd[index]` for an `int` index. -/
def slotAt (index : BitVec 32) : KernelM (Fin 5) :=
  if inside : index.toNat < 5 then
    pure ⟨index.toNat, inside⟩
  else
    throw .outOfBounds

def storeSlot (p : Word) (slot : Fin 5) (update : TarFile → TarFile) :
    KernelM Unit :=
  storePcb p fun pcb =>
    { pcb with
      fd := fun other =>
        if other = slot then update (pcb.fd other) else pcb.fd other }

/-- `open`, which does not use its second argument. -/
def openFile (filename : List Byte) (_permission : BitVec 32) :
    KernelM (BitVec 32) := do
  let curr := (← globals).currProcess
  let fdCount := (← derefPcb curr).fileCount.setWidth 32
  match (← get).tarfs.find? fun file => file.name = filename with
  | some file => do
      let slot ← slotAt fdCount
      let name ← strcpyTo 100 filename
      storeSlot curr slot fun old =>
        { old with
          name := name
          inode := file.inode
          pInode := file.pInode
          size := file.size
          readAddr := file.addr }
      storePcb curr fun pcb => { pcb with fileCount := pcb.fileCount + 1 }
      pure (file.inode.setWidth 32)
  | none => pure (-1)

/-- The search of `read` among the slots below `file_count`. -/
def searchSlots (pcb : Pcb) (fd : BitVec 32) :
    List (Fin 5) → KernelM (Option (Fin 5))
  | [] =>
      if (5 : BitVec 32).slt (pcb.fileCount.setWidth 32) then
        throw .outOfBounds
      else
        pure none
  | slot :: rest =>
      if (BitVec.ofNat 32 slot).slt (pcb.fileCount.setWidth 32) then
        if (pcb.fd slot).inode = fd.signExtend 64 then
          pure (some slot)
        else
          searchSlots pcb fd rest
      else
        pure none

/-- `count` bytes of the archive. -/
def archiveBytes (archive : Word → Byte) (addr : Word) (count : Nat) :
    List Byte :=
  (List.range count).map fun index => archive (addr + BitVec.ofNat 64 index)

/-- `read`, without the line that it prints for a descriptor that is not open.
The list, which is not in the source, is what `memcpy` copies. -/
def read (fd : BitVec 32) (buf : Word) (size : BitVec 32) :
    KernelM (BitVec 32 × List Byte) := do
  let curr := (← globals).currProcess
  let pcb ← derefPcb curr
  match ← searchSlots pcb fd [0, 1, 2, 3, 4] with
  | none => pure (0, [])
  | some slot => do
      let length := (pcb.fd slot).size.setWidth 32
      let content := (pcb.fd slot).readAddr
      let length := if size.slt length then size else length
      storeSlot curr slot fun file =>
        { file with readAddr := file.readAddr + length.signExtend 64 }
      let bytes := archiveBytes (← get).archive content length.toNat
      runPaging (memcpyOut (fun index => bytes.getD index 0) buf length.toNat)
      pure (length, bytes)

/-- `close` -/
def close (_fd : BitVec 32) : KernelM (BitVec 32) :=
  pure 1

/-! ## Runs -/

inductive FileCall where
  | openFile (filename : List Byte) (permission : BitVec 32)
  | read (fd : BitVec 32) (buf : Word) (size : BitVec 32)
  | close (fd : BitVec 32)

def FileCall.serve : FileCall → KernelM Unit
  | .openFile filename permission => do
      let _ ← SbuUnix.openFile filename permission
  | .read fd buf size => do
      let _ ← SbuUnix.read fd buf size
  | .close fd => do
      let _ ← SbuUnix.close fd

/-- What `init_tarfs` promises of the table: inodes in the order of the
entries, names that fit their field and sizes that are an `int`. -/
structure TarTable (tarfs : List TarFile) : Prop where
  few : tarfs.length ≤ 100
  inode : ∀ index (within : index < tarfs.length),
    tarfs[index].inode = BitVec.ofNat 64 (index + 4)
  name : ∀ file ∈ tarfs, file.name.length ≤ 98
  size : ∀ file ∈ tarfs, file.size.toNat < 2 ^ 31

/-- The table of an archive is such a table. -/
theorem tarTable_indexed {s : Tarfs} {start : Word} {entries : List Entry}
    (indexable : Indexable s start entries) :
    TarTable (indexed start entries) := by
  have length := indexed_length start entries
  have entryOf : ∀ file ∈ indexed start entries, ∃ index,
      ∃ within : index < entries.length,
        file = fileOf start (offsetOf entries index)
          ((indexed start entries).take index) entries[index] := by
    intro file member
    obtain ⟨index, within, here⟩ := List.mem_iff_getElem.mp member
    have inside : index < entries.length := by omega
    refine ⟨index, inside, ?_⟩
    have stored := indexed_get start inside
    rw [List.getElem?_eq_getElem within, here] at stored
    exact Option.some.inj stored
  constructor
  · rw [length]
    exact indexable.few
  · intro index within
    have inside : index < entries.length := by omega
    have stored := indexed_get start inside
    rw [List.getElem?_eq_getElem within] at stored
    rw [Option.some.inj stored]
    have taken : ((indexed start entries).take index).length = index := by
      rw [List.length_take]
      omega
    simp only [fileOf, taken]
  · intro file member
    obtain ⟨index, within, rfl⟩ := entryOf file member
    exact (indexable.archive.encodes within).nameLength.2
  · intro file member
    obtain ⟨index, within, rfl⟩ := entryOf file member
    obtain ⟨digits, -, -, -, value, small⟩ :=
      (indexable.archive.encodes within).size
    have less := valueOf_eight_le digits
    simp only [fileOf, BitVec.toNat_ofNat]
    omega

/-! ## What a call does -/

/-- `slot < fd_count` for an `int` `fd_count`. -/
theorem slot_slt {slot : Nat} {count : Word} (small : slot ≤ 5)
    (few : count.toNat ≤ 5) :
    (BitVec.ofNat 32 slot).slt (count.setWidth 32) =
      decide (slot < count.toNat) := by
  have slotInt : (BitVec.ofNat 32 slot).toInt = slot := by
    rw [BitVec.toInt_eq_toNat_of_lt] <;> rw [BitVec.toNat_ofNat] <;> omega
  have countInt : (count.setWidth 32).toInt = count.toNat := by
    rw [BitVec.toInt_eq_toNat_of_lt] <;> rw [BitVec.toNat_setWidth] <;> omega
  rw [BitVec.slt, slotInt, countInt, decide_eq_decide]
  omega

/-- The first slot below `file_count` with an inode. -/
def Pcb.firstSlot (pcb : Pcb) (fd : BitVec 32) : Option (Fin 5) :=
  (List.finRange 5).find? fun slot =>
    slot.val < pcb.fileCount.toNat ∧ (pcb.fd slot).inode = fd.signExtend 64

theorem searchSlots_eq {pcb : Pcb} (few : pcb.fileCount.toNat ≤ 5)
    (fd : BitVec 32) (k : Kernel) :
    ∀ slots : List (Fin 5), slots.Pairwise (· < ·) →
      searchSlots pcb fd slots k =
        .ok (slots.find? fun slot => slot.val < pcb.fileCount.toNat ∧
          (pcb.fd slot).inode = fd.signExtend 64, k) := by
  intro slots ascending
  induction slots with
  | nil =>
      have five : (5 : BitVec 32).slt (pcb.fileCount.setWidth 32) = false := by
        rw [show (5 : BitVec 32) = BitVec.ofNat 32 5 from rfl,
          slot_slt (Nat.le_refl 5) few]
        exact decide_eq_false (by omega)
      unfold searchSlots
      rw [five]
      rfl
  | cons slot rest inductionHypothesis =>
      obtain ⟨above, later⟩ := List.pairwise_cons.mp ascending
      unfold searchSlots
      rw [slot_slt (Nat.le_of_lt slot.isLt) few]
      by_cases within : slot.val < pcb.fileCount.toNat
      · rw [if_pos (decide_eq_true within)]
        by_cases same : (pcb.fd slot).inode = fd.signExtend 64
        · rw [if_pos same, List.find?_cons_of_pos (by simp [within, same])]
          rfl
        · rw [if_neg same, List.find?_cons_of_neg (by simp [same])]
          exact inductionHypothesis later
      · have none : (slot :: rest).find? (fun other =>
            other.val < pcb.fileCount.toNat ∧
              (pcb.fd other).inode = fd.signExtend 64) = none := by
          apply List.find?_eq_none.mpr
          intro other member
          have behind : slot ≤ other := by
            rcases List.mem_cons.mp member with same | inRest
            · exact Fin.le_of_eq same.symm
            · exact Fin.le_of_lt (above other inRest)
          have order : slot.val ≤ other.val := behind
          simp only [decide_eq_true_eq, not_and]
          omega
        rw [if_neg (by simp [within]), none]
        rfl

/-- The control block after a successful `open`. -/
def Pcb.opened (pcb : Pcb) (filename : List Byte) (file : TarFile) : Pcb :=
  { pcb with
    fd := fun other =>
      if other.val = pcb.fileCount.toNat then
        { pcb.fd other with
          name := filename
          inode := file.inode
          pInode := file.pInode
          size := file.size
          readAddr := file.addr }
      else
        pcb.fd other
    fileCount := pcb.fileCount + 1 }

/-- The control block after `read` has advanced a slot. -/
def Pcb.advanced (pcb : Pcb) (slot : Fin 5) (length : BitVec 32) : Pcb :=
  { pcb with
    fd := fun other =>
      if other = slot then
        { pcb.fd other with
          readAddr := (pcb.fd other).readAddr + length.signExtend 64 }
      else
        pcb.fd other }

/-- A new control block for the current process. -/
def Kernel.withCurr (k : Kernel) (pcb : Pcb) : Kernel :=
  { k with procs := k.procs.put k.procs.currProcess pcb }

section Calls

variable {k : Kernel} {pcb : Pcb}

theorem Procs.put_put (t : Procs) (p : Word) (first second : Pcb) :
    (t.put p first).put p second = t.put p second := by
  unfold Procs.put
  congr 1
  funext other
  by_cases same : other = p
  · rw [if_pos same, if_pos same]
  · rw [if_neg same, if_neg same]
    exact if_neg same

theorem Procs.put_self {t : Procs} {p : Word} {pcb : Pcb}
    (found : t.pcb p = some pcb) : t.put p pcb = t := by
  unfold Procs.put
  congr 1
  funext other
  split
  · next same => rw [same, found]
  · rfl

/-- `open` of a file that is there, with a free slot. -/
theorem openFile_found
    (found : k.procs.pcb k.procs.currProcess = some pcb)
    (room : pcb.fileCount.toNat < 5) {filename : List Byte}
    {permission : BitVec 32} {file : TarFile} (short : filename.length ≤ 98)
    (here : k.tarfs.find? (fun file => file.name = filename) = some file) :
    openFile filename permission k =
      .ok (file.inode.setWidth 32, k.withCurr (pcb.opened filename file)) := by
  have index : (pcb.fileCount.setWidth 32).toNat = pcb.fileCount.toNat := by
    rw [BitVec.toNat_setWidth]
    omega
  have slot : slotAt (pcb.fileCount.setWidth 32) k =
      .ok (⟨pcb.fileCount.toNat, room⟩, k) := by
    unfold slotAt
    rw [dif_pos (by omega)]
    simp only [index]
    rfl
  unfold openFile
  rw [bind_of_ok (show globals k = .ok (k.procs, k) from rfl)]
  dsimp only
  rw [bind_of_ok (derefPcb_eq found),
    bind_of_ok (show (get : KernelM Kernel) k = .ok (k, k) from rfl), here]
  dsimp only
  have name : strcpyTo 100 filename k = .ok (filename, k) := by
    unfold strcpyTo
    rw [if_pos (by omega)]
    rfl
  rw [bind_of_ok slot, bind_of_ok name]
  unfold storeSlot
  rw [bind_of_ok (storePcb_eq found), bind_of_ok (storePcb_eq put_same),
    Procs.put_put]
  have same : ∀ other : Fin 5,
      other = ⟨pcb.fileCount.toNat, room⟩ ↔ other.val = pcb.fileCount.toNat :=
    fun other => Fin.ext_iff
  simp only [same]
  rfl

/-- `open` of a missing file. -/
theorem openFile_missing
    (found : k.procs.pcb k.procs.currProcess = some pcb)
    {filename : List Byte} {permission : BitVec 32}
    (missing : k.tarfs.find? (fun file => file.name = filename) = none) :
    openFile filename permission k = .ok (-1, k) := by
  unfold openFile
  rw [bind_of_ok (show globals k = .ok (k.procs, k) from rfl)]
  dsimp only
  rw [bind_of_ok (derefPcb_eq found),
    bind_of_ok (show (get : KernelM Kernel) k = .ok (k, k) from rfl), missing]
  rfl

/-- `read` of a descriptor that is not open. -/
theorem read_closed
    (found : k.procs.pcb k.procs.currProcess = some pcb)
    (few : pcb.fileCount.toNat ≤ 5) {fd : BitVec 32} {buf : Word}
    {size : BitVec 32} (closed : pcb.firstSlot fd = none) :
    read fd buf size k = .ok ((0, []), k) := by
  have search := searchSlots_eq few fd k [0, 1, 2, 3, 4] (by decide)
  change searchSlots pcb fd [0, 1, 2, 3, 4] k =
    .ok (pcb.firstSlot fd, k) at search
  rw [closed] at search
  unfold read
  rw [bind_of_ok (show globals k = .ok (k.procs, k) from rfl)]
  dsimp only
  rw [bind_of_ok (derefPcb_eq found), bind_of_ok search]
  rfl

/-- `length` of `read`. -/
def readLength (file : TarFile) (size : BitVec 32) : BitVec 32 :=
  if size.slt (file.size.setWidth 32) then size else file.size.setWidth 32

theorem Pcb.firstSlot_eq_some_iff {fd : BitVec 32} {slot : Fin 5} :
    pcb.firstSlot fd = some slot ↔
      slot.val < pcb.fileCount.toNat ∧
        (pcb.fd slot).inode = fd.signExtend 64 ∧
          ∀ earlier < slot, (pcb.fd earlier).inode ≠ fd.signExtend 64 := by
  unfold Pcb.firstSlot
  rw [List.find?_eq_some_iff_getElem]
  constructor
  · rintro ⟨chosen, index, inside, here, before⟩
    rw [List.getElem_finRange] at here
    simp only [decide_eq_true_eq] at chosen
    refine ⟨chosen.1, chosen.2, ?_⟩
    intro earlier less same
    have order : earlier.val < slot.val := less
    have position : slot.val = index := by
      rw [← here]
      rfl
    have differs := before earlier.val (by omega)
    rw [List.getElem_finRange] at differs
    simp only [Bool.not_eq_true', decide_eq_false_iff_not] at differs
    exact differs ⟨by change earlier.val < _; omega, same⟩
  · rintro ⟨within, same, before⟩
    refine ⟨by simp [within, same], slot.val, by simp, by simp, ?_⟩
    intro earlier less
    rw [List.getElem_finRange]
    simp only [Bool.not_eq_true', decide_eq_false_iff_not, not_and]
    intro _
    exact before _ less

theorem Pcb.firstSlot_eq_none_iff {fd : BitVec 32} :
    pcb.firstSlot fd = none ↔
      ∀ slot : Fin 5, slot.val < pcb.fileCount.toNat →
        (pcb.fd slot).inode ≠ fd.signExtend 64 := by
  unfold Pcb.firstSlot
  rw [List.find?_eq_none]
  simp

/-- `read` of an open descriptor. -/
theorem read_open
    (found : k.procs.pcb k.procs.currProcess = some pcb)
    (few : pcb.fileCount.toNat ≤ 5) {fd : BitVec 32} {buf : Word}
    {size : BitVec 32} {slot : Fin 5}
    (isOpen : pcb.firstSlot fd = some slot) :
    read fd buf size k =
      (do
        let bytes := archiveBytes k.archive (pcb.fd slot).readAddr
          (readLength (pcb.fd slot) size).toNat
        runPaging (memcpyOut (fun index => bytes.getD index 0) buf
          (readLength (pcb.fd slot) size).toNat)
        pure (readLength (pcb.fd slot) size, bytes))
        (k.withCurr
          (pcb.advanced slot (readLength (pcb.fd slot) size))) := by
  have search := searchSlots_eq few fd k [0, 1, 2, 3, 4] (by decide)
  change searchSlots pcb fd [0, 1, 2, 3, 4] k =
    .ok (pcb.firstSlot fd, k) at search
  rw [isOpen] at search
  unfold read
  rw [bind_of_ok (show globals k = .ok (k.procs, k) from rfl)]
  dsimp only
  rw [bind_of_ok (derefPcb_eq found), bind_of_ok search]
  dsimp only
  unfold storeSlot
  rw [bind_of_ok (storePcb_eq found)]
  rfl

theorem yields_read_open {allowed : Fault → Prop}
    (found : k.procs.pcb k.procs.currProcess = some pcb)
    (few : pcb.fileCount.toNat ≤ 5) {fd : BitVec 32} {buf : Word}
    {size : BitVec 32} {slot : Fin 5}
    (isOpen : pcb.firstSlot fd = some slot)
    {post : BitVec 32 × List Byte → Kernel → Prop} :
    Yields allowed (read fd buf size) k post ↔
      Yields allowed
        (memcpyOut (fun index =>
          (archiveBytes k.archive (pcb.fd slot).readAddr
            (readLength (pcb.fd slot) size).toNat).getD index 0) buf
              (readLength (pcb.fd slot) size).toNat) k.paging
        fun _ paging =>
          post (readLength (pcb.fd slot) size,
            archiveBytes k.archive (pcb.fd slot).readAddr
              (readLength (pcb.fd slot) size).toNat)
            { k.withCurr
                (pcb.advanced slot (readLength (pcb.fd slot) size))
              with paging := paging } := by
  unfold Yields
  rw [read_open found few isOpen]
  exact (yields_bind _ _ _).trans yields_runPaging

end Calls

/-! ## Safety of the descriptor table -/

/-- Nothing but stores to some addresses. -/
inductive StoredTo (addresses : Word → Prop) : Paging → Paging → Prop
  | refl (s : Paging) : StoredTo addresses s s
  | store {s between next : Paging} {v : Word} {byte : Byte}
      (inside : addresses v) (earlier : StoredTo addresses s between)
      (stored : storeByte ptPR v byte between = .ok ((), next)) :
      StoredTo addresses s next

theorem StoredTo.trans {addresses : Word → Prop} {first second third : Paging}
    (earlier : StoredTo addresses first second)
    (later : StoredTo addresses second third) :
    StoredTo addresses first third := by
  induction later with
  | refl => exact earlier
  | store inside _ stored inductionHypothesis =>
      exact .store inside inductionHypothesis stored

/-- The store to an address that is not mapped. -/
def PageFaulted (failure : Fault) : Prop :=
  ∃ v, failure = .pageFault v

theorem yields_memcpyOut {addresses : Word → Prop} (source : Nat → Byte)
    {dest : Word} {count : Nat} (s : Paging)
    (inside : ∀ index < count, addresses (dest + BitVec.ofNat 64 index)) :
    Yields PageFaulted (memcpyOut source dest count) s fun _ next =>
      StoredTo addresses s next := by
  unfold memcpyOut
  apply yields_forUpto (fun _ current => StoredTo addresses s current) count
    (.refl s)
  intro index below current earlier
  have ended : Yields PageFaulted (storeByte ptPR
      (dest + BitVec.ofNat 64 index) (source index)) current
        fun _ _ => True := by
    unfold storeByte
    rw [yields_bind, yields_get]
    cases current.translate ptPR (dest + BitVec.ofNat 64 index) with
    | some entry => trivial
    | none => exact ⟨_, rfl⟩
  apply ended.returned.mono
  rintro _ next ⟨stored, -⟩
  exact .store (inside index below) earlier stored

/-- The addresses of the buffers of some calls. -/
def UserBuffer (calls : List FileCall) (v : Word) : Prop :=
  ∃ fd buf size, .read fd buf size ∈ calls ∧
    ∃ index < size.toNat, v = buf + BitVec.ofNat 64 index

/-- Only descriptors and `file_count` of the current process, and memory at
some addresses, have changed. -/
structure SlotsOnly (addresses : Word → Prop) (k next : Kernel) : Prop where
  procs : ∃ pcb fd count, k.procs.pcb k.procs.currProcess = some pcb ∧
    next.procs = k.procs.put k.procs.currProcess
      { pcb with fd := fd, fileCount := count } ∧
    count.toNat ≤ 5 ∧
    ∀ slot : Fin 5, slot.val < count.toNat → (fd slot).size.toNat < 2 ^ 31
  paging : StoredTo addresses k.paging next.paging
  rest : next = { k with procs := next.procs, paging := next.paging }

/-- The open slots of a process hold files, whose sizes are an `int`. -/
structure Pcb.OpenSlots (pcb : Pcb) : Prop where
  few : pcb.fileCount.toNat ≤ 5
  size : ∀ slot : Fin 5, slot.val < pcb.fileCount.toNat →
    (pcb.fd slot).size.toNat < 2 ^ 31

/-- An `open` that finds its file has a slot left. -/
def OpenCondition (call : FileCall) (k : Kernel) : Prop :=
  match call with
  | .openFile filename _ =>
      (∃ file ∈ k.tarfs, file.name = filename) →
        ∀ pcb, k.procs.pcb k.procs.currProcess = some pcb →
          pcb.fileCount.toNat < 5
  | _ => True

theorem readLength_le {file : TarFile} {size : BitVec 32}
    (small : file.size.toNat < 2 ^ 31) :
    (readLength file size).toNat ≤ size.toNat := by
  have whole : (file.size.setWidth 32).toNat = file.size.toNat := by
    rw [BitVec.toNat_setWidth]
    omega
  unfold readLength
  split
  · exact Nat.le_refl _
  · next notLess =>
    have order : (file.size.setWidth 32).toInt ≤ size.toInt := by
      simpa [BitVec.slt] using notLess
    rw [BitVec.toInt_eq_toNat_of_lt (by omega), whole,
      BitVec.toInt_eq_toNat_cond] at order
    rw [whole]
    split at order
    · omega
    · omega

section Safety

variable {addresses : Word → Prop} {k between : Kernel}

theorem SlotsOnly.refl {pcb : Pcb}
    (found : k.procs.pcb k.procs.currProcess = some pcb)
    (fits : pcb.OpenSlots) : SlotsOnly addresses k k :=
  ⟨⟨pcb, pcb.fd, pcb.fileCount, found, (Procs.put_self found).symm, fits.few,
    fits.size⟩, .refl _, rfl⟩

/-- The control block that such a change leaves. -/
theorem SlotsOnly.current (only : SlotsOnly addresses k between) :
    ∃ pcb, between.procs.pcb between.procs.currProcess = some pcb ∧
      pcb.OpenSlots ∧
      ∀ (fd : Fin 5 → TarFile) (count : Word) (paging : Paging),
        count.toNat ≤ 5 →
          (∀ slot : Fin 5, slot.val < count.toNat →
            (fd slot).size.toNat < 2 ^ 31) →
            StoredTo addresses between.paging paging →
              SlotsOnly addresses k
                { between.withCurr { pcb with fd := fd, fileCount := count }
                  with paging := paging } := by
  obtain ⟨pcb, fd, count, found, procs, few, sizes⟩ := only.procs
  have curr : between.procs.currProcess = k.procs.currProcess := by
    rw [procs]
    rfl
  refine ⟨{ pcb with fd := fd, fileCount := count }, ?_, ⟨few, sizes⟩, ?_⟩
  · rw [curr, procs]
    exact put_same
  · intro nextFd nextCount paging nextFew nextSizes stored
    refine ⟨⟨pcb, nextFd, nextCount, found, ?_, nextFew, nextSizes⟩,
      only.paging.trans stored, ?_⟩
    · unfold Kernel.withCurr
      rw [curr, procs, Procs.put_put]
    · rw [only.rest]
      rfl

/-- One call that meets the condition. -/
theorem slotsOnly_serve (table : TarTable k.tarfs) {call : FileCall}
    (only : SlotsOnly addresses k between)
    (inside : ∀ v, UserBuffer [call] v → addresses v)
    (meets : OpenCondition call between) :
    Yields PageFaulted call.serve between fun _ next =>
      SlotsOnly addresses k next := by
  obtain ⟨pcb, found, fits, changed⟩ := only.current
  have tarfs : between.tarfs = k.tarfs := by
    rw [only.rest]
  cases call with
  | openFile filename permission =>
      unfold FileCall.serve
      cases here : between.tarfs.find? fun file => file.name = filename with
      | none =>
          rw [yields_bind, yields_iff_of_ok (openFile_missing found here)]
          exact only
      | some file =>
          have member := List.mem_of_find?_eq_some here
          have named : file.name = filename := by
            simpa using List.find?_some here
          have room := meets ⟨file, member, named⟩ pcb found
          rw [tarfs] at member
          have short : filename.length ≤ 98 := by
            rw [← named]
            exact table.name file member
          rw [yields_bind, yields_iff_of_ok
            (openFile_found found room short here)]
          have count : (pcb.fileCount + 1).toNat = pcb.fileCount.toNat + 1 := by
            have one : (1 : Word).toNat = 1 := rfl
            rw [BitVec.toNat_add, one]
            omega
          apply changed _ _ _ (by omega) _ (.refl _)
          intro slot within
          dsimp only
          split
          · exact table.size file member
          · exact fits.size slot (by omega)
  | read fd buf size =>
      unfold FileCall.serve
      cases isOpen : pcb.firstSlot fd with
      | none =>
          rw [yields_bind, yields_iff_of_ok (read_closed found fits.few isOpen)]
          exact only
      | some slot =>
          have within := (Pcb.firstSlot_eq_some_iff.mp isOpen).1
          have length : (readLength (pcb.fd slot) size).toNat ≤ size.toNat :=
            readLength_le (fits.size slot within)
          rw [yields_bind, yields_read_open found fits.few isOpen]
          apply (yields_memcpyOut _ between.paging _).mono
          · intro _ paging stored
            apply changed _ _ paging fits.few _ stored
            intro other otherWithin
            dsimp only
            split
            · exact fits.size other otherWithin
            · exact fits.size other otherWithin
          · intro index below
            exact inside _ ⟨fd, buf, size, List.mem_singleton.mpr rfl, index,
              by omega, rfl⟩
  | close fd => exact only

end Safety

/-- In every run of `open`, `read` and `close` calls whose successful opens
have a slot left, only the five slots, `file_count` and the buffers change,
and an `open` that finds all slots in use is refused. -/
theorem slotsOnly_of_run {k : Kernel} {pcb : Pcb} {calls : List FileCall}
    (table : TarTable k.tarfs)
    (found : k.procs.pcb k.procs.currProcess = some pcb)
    (fits : pcb.OpenSlots)
    (meets : EachMeets FileCall.serve OpenCondition calls k) :
    Yields PageFaulted (runAll FileCall.serve calls) k fun _ next =>
      SlotsOnly (UserBuffer calls) k next ∧
        ∀ last filename permission,
          next.procs.pcb next.procs.currProcess = some last →
            last.fileCount = 5 →
              OpenCondition (.openFile filename permission) next →
                openFile filename permission next = .ok (-1, next) := by
  have step : ∀ call ∈ calls, ∀ between,
      SlotsOnly (UserBuffer calls) k between → OpenCondition call between →
        Yields PageFaulted call.serve between fun _ next =>
          SlotsOnly (UserBuffer calls) k next := by
    intro call member between only condition
    apply slotsOnly_serve table only _ condition
    rintro v ⟨fd, buf, size, called, inside⟩
    rw [List.mem_singleton] at called
    exact ⟨fd, buf, size, called ▸ member, inside⟩
  apply (yields_runAll step (.refl found fits) meets).mono
  · intro _ next only
    refine ⟨only, ?_⟩
    intro last filename permission here full condition
    cases missing : next.tarfs.find? fun file => file.name = filename with
    | none => exact openFile_missing here missing
    | some file =>
        have named : file.name = filename := by
          simpa using List.find?_some missing
        have room := condition
          ⟨file, List.mem_of_find?_eq_some missing, named⟩ last here
        rw [full] at room
        exact absurd room (by decide)

/-- `open` of a file that is there, with all slots in use: the slot is
outside `fd`. -/
theorem openFile_full {k : Kernel} {pcb : Pcb}
    (found : k.procs.pcb k.procs.currProcess = some pcb)
    (full : pcb.fileCount = 5) {filename : List Byte}
    {permission : BitVec 32} {file : TarFile}
    (here : k.tarfs.find? (fun file => file.name = filename) = some file) :
    openFile filename permission k = .error .outOfBounds := by
  unfold openFile
  rw [bind_of_ok (show globals k = .ok (k.procs, k) from rfl)]
  dsimp only
  rw [bind_of_ok (derefPcb_eq found),
    bind_of_ok (show (get : KernelM Kernel) k = .ok (k, k) from rfl), here,
    full]
  rfl

/-! ## Sequential reads -/

/-- The kernel, and for each open descriptor what has been read from it since
it was opened. -/
structure Reader where
  kernel : Kernel
  delivered : BitVec 32 → Option (List Byte) := fun _ => none

def onReader {α : Type} (program : KernelM α) :
    StateT Reader (Except Fault) α :=
  zoom Reader.kernel (fun kernel r => { r with kernel := kernel }) program

def setDelivered (fd : BitVec 32)
    (update : Option (List Byte) → Option (List Byte)) :
    StateT Reader (Except Fault) Unit :=
  modify fun r =>
    { r with
      delivered := fun other =>
        if other = fd then update (r.delivered fd) else r.delivered other }

/-- A call, with what it delivers. -/
def FileCall.track : FileCall → StateT Reader (Except Fault) Unit
  | .openFile filename permission => do
      let ret ← onReader (SbuUnix.openFile filename permission)
      if ret ≠ -1 then
        setDelivered ret fun _ => some []
  | .read fd buf size => do
      let result ← onReader (SbuUnix.read fd buf size)
      setDelivered fd fun before => before.map fun bytes => bytes ++ result.2
  | .close fd => do
      let _ ← onReader (SbuUnix.close fd)

def fileBytes (archive : Word → Byte) (file : TarFile) : List Byte :=
  archiveBytes archive file.addr file.size.toNat

/-- At most five opens and no negative sizes; and, beyond the promise of the
callers, no open of a file from which something has been read, and no second
read that asks for more than is left. -/
def ReadCondition (call : FileCall) (r : Reader) : Prop :=
  match call with
  | .openFile filename permission =>
      OpenCondition (.openFile filename permission) r.kernel ∧
        ∀ file,
          r.kernel.tarfs.find? (fun file => file.name = filename) = some file →
            ∀ before, r.delivered (file.inode.setWidth 32) = some before →
              before = []
  | .read fd _ size =>
      0 ≤ size.toInt ∧
        ∀ before file, r.delivered fd = some before →
          file ∈ r.kernel.tarfs → file.inode = fd.signExtend 64 →
            before = [] ∨ before.length + size.toNat ≤ file.size.toNat
  | .close _ => True

theorem archiveBytes_length (archive : Word → Byte) (addr : Word)
    (count : Nat) : (archiveBytes archive addr count).length = count := by
  unfold archiveBytes
  rw [List.length_map, List.length_range]

theorem archiveBytes_add (archive : Word → Byte) (addr : Word)
    (first second : Nat) :
    archiveBytes archive addr (first + second) =
      archiveBytes archive addr first ++
        archiveBytes archive (addr + BitVec.ofNat 64 first) second := by
  unfold archiveBytes
  rw [List.range_add, List.map_append, List.map_map]
  congr 1
  apply List.map_congr_left
  intro index _
  simp only [Function.comp_apply, addr_add_ofNat]

/-- A part of a file. -/
theorem archiveBytes_part {archive : Word → Byte} {file : TarFile}
    {before size : Nat} (within : before ≤ file.size.toNat) :
    archiveBytes archive (file.addr + BitVec.ofNat 64 before)
        (min size (file.size.toNat - before)) =
      ((fileBytes archive file).drop before).take size := by
  have whole : fileBytes archive file =
      archiveBytes archive file.addr before ++
        archiveBytes archive (file.addr + BitVec.ofNat 64 before)
          (file.size.toNat - before) := by
    rw [← archiveBytes_add, Nat.add_sub_cancel' within]
    rfl
  rw [whole, List.drop_left' (archiveBytes_length _ _ _)]
  unfold archiveBytes
  rw [← List.map_take, List.take_range]

/-- The first slot of each open descriptor stands where the reading
stopped. -/
structure Agrees (tarfs : List TarFile) (archive : Word → Byte) (r : Reader)
    (pcb : Pcb) : Prop where
  sameTarfs : r.kernel.tarfs = tarfs
  sameArchive : r.kernel.archive = archive
  found : r.kernel.procs.pcb r.kernel.procs.currProcess = some pcb
  few : pcb.fileCount.toNat ≤ 5
  isOpen : ∀ fd bytes, r.delivered fd = some bytes →
    ∃ file ∈ tarfs, ∃ slot, file.inode = fd.signExtend 64 ∧
      pcb.firstSlot fd = some slot ∧ (pcb.fd slot).size = file.size ∧
      (pcb.fd slot).readAddr = file.addr + BitVec.ofNat 64 bytes.length ∧
      bytes.length ≤ file.size.toNat ∧
      bytes = archiveBytes archive file.addr bytes.length
  closed : ∀ fd, r.delivered fd = none → pcb.firstSlot fd = none

/-- What `read` copies without overrunning the file. -/
theorem readLength_eq {file slot : TarFile} {size : BitVec 32}
    {before : Nat} (same : slot.size = file.size)
    (small : file.size.toNat < 2 ^ 31) (natural : 0 ≤ size.toInt)
    (condition : before = 0 ∨ before + size.toNat ≤ file.size.toNat) :
    (readLength slot size).toNat =
      min size.toNat (file.size.toNat - before) := by
  have whole : (file.size.setWidth 32).toNat = file.size.toNat := by
    rw [BitVec.toNat_setWidth]
    omega
  have sizeInt : size.toInt = size.toNat := by
    rw [BitVec.toInt_eq_toNat_cond] at natural ⊢
    split
    · rfl
    · next large =>
      rw [if_neg large] at natural
      omega
  have wholeInt : (file.size.setWidth 32).toInt = file.size.toNat := by
    rw [BitVec.toInt_eq_toNat_of_lt (by omega), whole]
  unfold readLength
  rw [same, BitVec.slt, sizeInt, wholeInt]
  split
  · next less =>
    have order : size.toNat < file.size.toNat := by
      exact_mod_cast of_decide_eq_true less
    omega
  · next notLess =>
    have order : ¬ size.toNat < file.size.toNat := by
      simpa using notLess
    rw [whole]
    omega

section Reads

variable {tarfs : List TarFile} {archive : Word → Byte} {r : Reader}
variable {pcb : Pcb}

theorem yields_onReader {allowed : Fault → Prop} {α : Type}
    {program : KernelM α} {post : α → Reader → Prop} :
    Yields allowed (onReader program) r post ↔
      Yields allowed program r.kernel fun value kernel =>
        post value { r with kernel := kernel } :=
  yields_zoom program r

theorem TarTable.inode_eq (table : TarTable tarfs) {first second : TarFile}
    (firstMember : first ∈ tarfs) (secondMember : second ∈ tarfs)
    (same : first.inode = second.inode) : first = second := by
  obtain ⟨i, inside, rfl⟩ := List.mem_iff_getElem.mp firstMember
  obtain ⟨j, otherInside, rfl⟩ := List.mem_iff_getElem.mp secondMember
  have few := table.few
  rw [table.inode i inside, table.inode j otherInside, ← BitVec.toNat_inj,
    BitVec.toNat_ofNat, BitVec.toNat_ofNat] at same
  have index : i = j := by omega
  subst index
  rfl

/-- The descriptor of a file is its inode. -/
theorem TarTable.signExtend_inode (table : TarTable tarfs) {file : TarFile}
    (member : file ∈ tarfs) :
    (file.inode.setWidth 32).signExtend 64 = file.inode := by
  obtain ⟨i, inside, rfl⟩ := List.mem_iff_getElem.mp member
  have few := table.few
  have low : ((tarfs[i].inode).setWidth 32).msb = false := by
    rw [table.inode i inside, BitVec.msb_eq_decide]
    simp only [BitVec.toNat_setWidth, BitVec.toNat_ofNat]
    exact decide_eq_false (by omega)
  rw [BitVec.signExtend_eq_setWidth_of_msb_false low, table.inode i inside,
    ← BitVec.toNat_inj]
  simp only [BitVec.toNat_setWidth, BitVec.toNat_ofNat]
  omega

theorem TarTable.inode_ne (table : TarTable tarfs) {file : TarFile}
    (member : file ∈ tarfs) : file.inode.setWidth 32 ≠ -1 := by
  intro same
  have wide := table.signExtend_inode member
  obtain ⟨i, inside, rfl⟩ := List.mem_iff_getElem.mp member
  have few := table.few
  rw [same, table.inode i inside] at wide
  have value := congrArg BitVec.toNat wide
  rw [BitVec.toNat_ofNat] at value
  have ones : ((-1 : BitVec 32).signExtend 64).toNat = 2 ^ 64 - 1 := by
    decide
  omega

/-- The new slot of `open` is the first one of its inode when no other slot
has it. -/
theorem firstSlot_opened (few : pcb.fileCount.toNat < 5)
    {filename : List Byte} {file : TarFile} (fd : BitVec 32) :
    (pcb.opened filename file).firstSlot fd =
      match pcb.firstSlot fd with
      | some slot => some slot
      | none =>
          if file.inode = fd.signExtend 64 then
            some ⟨pcb.fileCount.toNat, few⟩
          else
            none := by
  have one : (1 : Word).toNat = 1 := rfl
  have count : (pcb.opened filename file).fileCount.toNat =
      pcb.fileCount.toNat + 1 := by
    change (pcb.fileCount + 1).toNat = _
    rw [BitVec.toNat_add, one]
    omega
  have slotOf : ∀ slot : Fin 5, slot.val ≠ pcb.fileCount.toNat →
      ((pcb.opened filename file).fd slot).inode = (pcb.fd slot).inode := by
    intro slot other
    exact congrArg TarFile.inode (if_neg other)
  have newSlot : ((pcb.opened filename file).fd
      ⟨pcb.fileCount.toNat, few⟩).inode = file.inode := by
    unfold Pcb.opened
    dsimp only
    rw [if_pos rfl]
  cases before : pcb.firstSlot fd with
  | some slot =>
      obtain ⟨within, same, first⟩ := Pcb.firstSlot_eq_some_iff.mp before
      apply Pcb.firstSlot_eq_some_iff.mpr
      refine ⟨by omega, by rw [slotOf slot (by omega)]; exact same, ?_⟩
      intro earlier less
      have order : earlier.val < slot.val := less
      rw [slotOf earlier (by omega)]
      exact first earlier less
  | none =>
      have absent := Pcb.firstSlot_eq_none_iff.mp before
      dsimp only
      split
      · next same =>
        apply Pcb.firstSlot_eq_some_iff.mpr
        refine ⟨by rw [count]; exact Nat.lt_succ_self _,
          newSlot.trans same, ?_⟩
        intro earlier less
        have order : earlier.val < pcb.fileCount.toNat := less
        rw [slotOf earlier (by omega)]
        exact absent earlier order
      · next other =>
        apply Pcb.firstSlot_eq_none_iff.mpr
        intro slot within
        by_cases new : slot.val = pcb.fileCount.toNat
        · have here : slot = ⟨pcb.fileCount.toNat, few⟩ := Fin.ext new
          rw [here, newSlot]
          exact other
        · rw [slotOf slot new]
          exact absent slot (by omega)

/-- Reading moves no slot to another file. -/
theorem firstSlot_advanced (slot : Fin 5) (length : BitVec 32)
    (fd : BitVec 32) :
    (pcb.advanced slot length).firstSlot fd = pcb.firstSlot fd := by
  have same : ∀ other,
      ((pcb.advanced slot length).fd other).inode = (pcb.fd other).inode := by
    intro other
    unfold Pcb.advanced
    dsimp only
    split <;> rfl
  unfold Pcb.firstSlot
  simp only [same]
  rfl

/-- `open` in agreement with what has been read. -/
theorem agrees_open (table : TarTable tarfs)
    (agrees : Agrees tarfs archive r pcb) {filename : List Byte}
    {permission : BitVec 32}
    (meets : ReadCondition (.openFile filename permission) r) :
    Yields PageFaulted (FileCall.openFile filename permission).track r
      fun _ next => ∃ pcb, Agrees tarfs archive next pcb := by
  unfold FileCall.track
  rw [yields_bind, yields_onReader]
  cases here : r.kernel.tarfs.find? fun file => file.name = filename with
  | none =>
      rw [yields_iff_of_ok (openFile_missing agrees.found here),
        if_neg (by simp)]
      exact ⟨pcb, agrees⟩
  | some file =>
      have inTable := List.mem_of_find?_eq_some here
      have named : file.name = filename := by
        simpa using List.find?_some here
      have room := meets.1 ⟨file, inTable, named⟩ pcb agrees.found
      have unread := meets.2 file here
      rw [agrees.sameTarfs] at inTable
      have short : filename.length ≤ 98 := by
        rw [← named]
        exact table.name file inTable
      have wide := table.signExtend_inode inTable
      have one : (1 : Word).toNat = 1 := rfl
      rw [yields_iff_of_ok (openFile_found agrees.found room short here),
        if_pos (table.inode_ne inTable)]
      refine ⟨pcb.opened filename file, agrees.sameTarfs, agrees.sameArchive,
        put_same, ?_, ?_, ?_⟩
      · change (pcb.fileCount + 1).toNat ≤ 5
        rw [BitVec.toNat_add, one]
        omega
      · intro fd bytes delivered
        dsimp only at delivered
        rw [firstSlot_opened room]
        by_cases opened : fd = file.inode.setWidth 32
        · rw [if_pos opened] at delivered
          cases delivered
          refine ⟨file, inTable, ?_⟩
          rw [opened, wide]
          cases before : r.delivered (file.inode.setWidth 32) with
          | none =>
              rw [agrees.closed _ before]
              dsimp only
              rw [if_pos rfl]
              refine ⟨⟨pcb.fileCount.toNat, room⟩, rfl, rfl, ?_, ?_,
                Nat.zero_le _, rfl⟩
              · unfold Pcb.opened
                dsimp only
                rw [if_pos rfl]
              · unfold Pcb.opened
                dsimp only
                rw [if_pos rfl]
                exact (BitVec.add_zero _).symm
          | some bytes =>
              -- the file is open already, and nothing has been read from it
              obtain ⟨other, member, slot, inode, first, size, addr, -, -⟩ :=
                agrees.isOpen _ bytes before
              have same : other = file :=
                table.inode_eq member inTable (inode.trans wide)
              rw [unread bytes before] at addr
              have slotWithin := (Pcb.firstSlot_eq_some_iff.mp first).1
              have old : (pcb.opened filename file).fd slot = pcb.fd slot :=
                if_neg (by omega)
              rw [first]
              exact ⟨slot, rfl, rfl, by rw [old, size, same],
                by rw [old, addr, same], Nat.zero_le _, rfl⟩
        · rw [if_neg opened] at delivered
          obtain ⟨other, member, slot, inode, first, size, addr, within,
            copied⟩ := agrees.isOpen fd bytes delivered
          have slotWithin := (Pcb.firstSlot_eq_some_iff.mp first).1
          have old : (pcb.opened filename file).fd slot = pcb.fd slot :=
            if_neg (by omega)
          rw [first]
          exact ⟨other, member, slot, inode, rfl, by rw [old]; exact size,
            by rw [old]; exact addr, within, copied⟩
      · intro fd closed
        dsimp only at closed
        rw [firstSlot_opened room]
        by_cases opened : fd = file.inode.setWidth 32
        · rw [if_pos opened] at closed
          cases closed
        · rw [if_neg opened] at closed
          rw [agrees.closed fd closed]
          dsimp only
          rw [if_neg fun same => opened (by rw [same, setWidth_signExtend])]

/-- `read` of an open descriptor delivers the next bytes of its file. -/
theorem yields_read_next (table : TarTable tarfs)
    (agrees : Agrees tarfs archive r pcb) {fd : BitVec 32} {buf : Word}
    {size : BitVec 32} {before : List Byte}
    (isOpen : r.delivered fd = some before)
    (meets : ReadCondition (.read fd buf size) r) :
    ∃ file ∈ tarfs, file.inode = fd.signExtend 64 ∧
      before = archiveBytes archive file.addr before.length ∧
      ∃ slot length, length.toNat =
          min size.toNat (file.size.toNat - before.length) ∧
        before.length ≤ file.size.toNat ∧
        Yields PageFaulted (read fd buf size) r.kernel fun result next =>
          result = (length, ((fileBytes archive file).drop before.length).take
            size.toNat) ∧
          memcpyOut (fun index => result.2.getD index 0) buf length.toNat
            r.kernel.paging = .ok ((), next.paging) ∧
          next = { r.kernel.withCurr (pcb.advanced slot length) with
            paging := next.paging } ∧
          Agrees tarfs archive
            { kernel := next
              delivered := fun other =>
                if other = fd then some (before ++ result.2)
                else r.delivered other }
            (pcb.advanced slot length) := by
  obtain ⟨file, member, slot, inode, first, sameSize, addr, within, copied⟩ :=
    agrees.isOpen fd before isOpen
  have small := table.size file member
  have condition : before.length = 0 ∨
      before.length + size.toNat ≤ file.size.toNat := by
    have inTable := member
    rw [← agrees.sameTarfs] at inTable
    rcases meets.2 before file isOpen inTable inode with empty | fits
    · exact .inl (by rw [empty]; rfl)
    · exact .inr fits
  have length := readLength_eq sameSize small meets.1 condition
  have lengthWide :
      (readLength (pcb.fd slot) size).signExtend 64 =
        BitVec.ofNat 64 (readLength (pcb.fd slot) size).toNat := by
    have low : (readLength (pcb.fd slot) size).msb = false := by
      rw [BitVec.msb_eq_decide]
      exact decide_eq_false (by omega)
    rw [BitVec.signExtend_eq_setWidth_of_msb_false low,
      BitVec.ofNat_toNat]
  have next : archiveBytes archive (pcb.fd slot).readAddr
      (readLength (pcb.fd slot) size).toNat =
        ((fileBytes archive file).drop before.length).take size.toNat := by
    rw [addr, length]
    exact archiveBytes_part within
  refine ⟨file, member, inode, copied, slot, readLength (pcb.fd slot) size,
    length, within, ?_⟩
  rw [yields_read_open agrees.found agrees.few first, agrees.sameArchive,
    next]
  have ended : Yields PageFaulted
      (memcpyOut (fun index =>
        (((fileBytes archive file).drop before.length).take size.toNat).getD
          index 0) buf (readLength (pcb.fd slot) size).toNat) r.kernel.paging
        fun _ next => StoredTo (fun _ => True) r.kernel.paging next :=
    yields_memcpyOut _ r.kernel.paging fun _ _ => trivial
  apply ended.returned.mono
  rintro _ paging ⟨returned, -⟩
  refine ⟨rfl, returned, rfl, ?_⟩
  refine ⟨agrees.sameTarfs, agrees.sameArchive, put_same, agrees.few, ?_, ?_⟩
  · intro other bytes delivered
    dsimp only at delivered
    rw [firstSlot_advanced]
    by_cases same : other = fd
    · rw [if_pos same] at delivered
      cases delivered
      rw [same]
      have total : (before ++ ((fileBytes archive file).drop
          before.length).take size.toNat).length =
            before.length + (readLength (pcb.fd slot) size).toNat := by
        rw [List.length_append, ← next, archiveBytes_length]
      refine ⟨file, member, slot, inode, first, ?_, ?_, ?_, ?_⟩
      · unfold Pcb.advanced
        dsimp only
        rw [if_pos rfl]
        exact sameSize
      · unfold Pcb.advanced
        dsimp only
        rw [if_pos rfl, total, addr_add_ofNat, ← addr, ← lengthWide]
      · rw [total]
        omega
      · rw [total, archiveBytes_add, ← copied, ← addr, next]
    · rw [if_neg same] at delivered
      obtain ⟨otherFile, otherMember, otherSlot, otherInode, otherFirst,
        otherSize, otherAddr, rest⟩ := agrees.isOpen other bytes delivered
      have different : otherSlot ≠ slot := by
        intro sameSlot
        have here := (Pcb.firstSlot_eq_some_iff.mp first).2.1
        have there := (Pcb.firstSlot_eq_some_iff.mp otherFirst).2.1
        rw [sameSlot, here] at there
        have narrow := congrArg (BitVec.setWidth 32) there
        rw [setWidth_signExtend, setWidth_signExtend] at narrow
        exact same narrow.symm
      have old : (pcb.advanced slot (readLength (pcb.fd slot) size)).fd
          otherSlot = pcb.fd otherSlot :=
        if_neg different
      exact ⟨otherFile, otherMember, otherSlot, otherInode, otherFirst,
        by rw [old]; exact otherSize, by rw [old]; exact otherAddr, rest⟩
  · intro other closed
    dsimp only at closed
    rw [firstSlot_advanced]
    by_cases same : other = fd
    · rw [if_pos same] at closed
      cases closed
    · rw [if_neg same] at closed
      exact agrees.closed other closed

theorem agrees_track (table : TarTable tarfs)
    (agrees : ∃ pcb, Agrees tarfs archive r pcb) {call : FileCall}
    (meets : ReadCondition call r) :
    Yields PageFaulted call.track r fun _ next =>
      ∃ pcb, Agrees tarfs archive next pcb := by
  obtain ⟨pcb, agrees⟩ := agrees
  cases call with
  | openFile filename permission => exact agrees_open table agrees meets
  | read fd buf size =>
      unfold FileCall.track
      rw [yields_bind, yields_onReader]
      cases isOpen : r.delivered fd with
      | none =>
          rw [yields_iff_of_ok
            (read_closed agrees.found agrees.few (agrees.closed fd isOpen))]
          refine ⟨pcb, agrees.sameTarfs, agrees.sameArchive, agrees.found,
            agrees.few, ?_, ?_⟩
          · intro other bytes delivered
            dsimp only at delivered
            split at delivered
            · rw [isOpen] at delivered
              cases delivered
            · exact agrees.isOpen other bytes delivered
          · intro other closed
            by_cases same : other = fd
            · rw [same]
              exact agrees.closed fd isOpen
            · dsimp only at closed
              rw [if_neg same] at closed
              exact agrees.closed other closed
      | some before =>
          obtain ⟨_, _, _, _, slot, length, _, _, reads⟩ :=
            yields_read_next table agrees isOpen meets
          apply reads.mono
          rintro result next ⟨-, -, -, agreesNext⟩
          refine ⟨pcb.advanced slot length, ?_⟩
          dsimp only
          rw [isOpen]
          exact agreesNext
  | close fd => exact ⟨pcb, agrees⟩

end Reads

/-- A process that has opened nothing. -/
theorem agrees_fresh {k : Kernel} {pcb : Pcb}
    (found : k.procs.pcb k.procs.currProcess = some pcb)
    (fresh : pcb.fileCount = 0) :
    Agrees k.tarfs k.archive { kernel := k } pcb := by
  have none : pcb.fileCount.toNat = 0 := by
    rw [fresh]
    rfl
  refine ⟨rfl, rfl, found, by omega, fun fd bytes delivered => ?_,
    fun fd _ => ?_⟩
  · cases delivered
  · apply Pcb.firstSlot_eq_none_iff.mpr
    intro slot within
    omega

/-- In every run of calls that meet the condition, what has been read from a
descriptor is a prefix of its file; and a `read` that meets it delivers the
next bytes of the file, as many as are asked for and left. -/
theorem reads_of_run {k : Kernel} {pcb : Pcb} {calls : List FileCall}
    {r : Reader} (table : TarTable k.tarfs)
    (found : k.procs.pcb k.procs.currProcess = some pcb)
    (fresh : pcb.fileCount = 0)
    (meets : EachMeets FileCall.track ReadCondition calls { kernel := k })
    (returned : runAll FileCall.track calls { kernel := k } = .ok ((), r)) :
    (∀ fd bytes, r.delivered fd = some bytes → ∃ file ∈ k.tarfs,
      file.inode = fd.signExtend 64 ∧ bytes <+: fileBytes k.archive file) ∧
    ∀ fd buf size before ret bytes next, r.delivered fd = some before →
      ReadCondition (.read fd buf size) r →
        read fd buf size r.kernel = .ok ((ret, bytes), next) →
          ∃ file ∈ k.tarfs, file.inode = fd.signExtend 64 ∧
            bytes = ((fileBytes k.archive file).drop before.length).take
              size.toNat ∧
            ret.toNat = min size.toNat (file.size.toNat - before.length) ∧
            memcpyOut (fun index => bytes.getD index 0) buf ret.toNat
              r.kernel.paging = .ok ((), next.paging) := by
  have run := yields_runAll
    (fun _ _ _ agrees condition => agrees_track table agrees condition)
    ⟨pcb, agrees_fresh found fresh⟩ meets
  obtain ⟨last, agrees⟩ := yields_of_ok run returned
  constructor
  · intro fd bytes delivered
    obtain ⟨file, member, _, inode, _, _, _, within, copied⟩ :=
      agrees.isOpen fd bytes delivered
    refine ⟨file, member, inode, ?_⟩
    rw [copied]
    unfold fileBytes
    rw [← Nat.add_sub_cancel' within, archiveBytes_add]
    exact List.prefix_append _ _
  · intro fd buf size before ret bytes next isOpen condition called
    obtain ⟨file, member, inode, _, slot, length, value, _, reads⟩ :=
      yields_read_next table agrees isOpen condition
    obtain ⟨result, copied, -, -⟩ := yields_of_ok reads called
    cases result
    exact ⟨file, member, inode, rfl, value, copied⟩

/-! ### A file of three bytes -/

def readerPcb : Pcb where
  pid := 2

/-- A process with a mapped buffer; the table has the file `ab` with contents
`abc`. -/
def readerKernel : Kernel where
  paging :=
    { mem := fun frame _ => entryOf (frame + 1) userFlags
      freeMap := fun _ => 0
      cr3 := pageAddr 16 }
  procs :=
    { pcb := fun p => if p = 0xFFFFFFFF80400000 then some readerPcb else none
      currProcess := 0xFFFFFFFF80400000 }
  tarfs :=
    [{ name := [0x61, 0x62]
       size := 3
       addr := 0xFFFFFFFF80210200
       inode := 4 }]
  archive := listBytes 0xFFFFFFFF80210200 [0x61, 0x62, 0x63]

theorem tarTable_readerKernel : TarTable readerKernel.tarfs := by
  have one : readerKernel.tarfs.length = 1 := rfl
  refine ⟨by omega, ?_, by decide, by decide⟩
  intro index within
  have first : index = 0 := by omega
  subst first
  rfl

theorem openSlots_readerPcb : readerPcb.OpenSlots :=
  ⟨by decide, by decide⟩

def readerBuffer : Word := 0x400000

/-- `open("ab")`, a read of two bytes and a `close`. -/
theorem slotsOnly_of_run_reader :
    Yields PageFaulted
      (runAll FileCall.serve
        [.openFile [0x61, 0x62] 0, .read 4 readerBuffer 2, .close 4])
      readerKernel fun _ next =>
        SlotsOnly (UserBuffer
          [.openFile [0x61, 0x62] 0, .read 4 readerBuffer 2, .close 4])
          readerKernel next := by
  have meets : EachMeets FileCall.serve OpenCondition
      [.openFile [0x61, 0x62] 0, .read 4 readerBuffer 2, .close 4]
        readerKernel := by
    refine ⟨fun _ pcb found => ?_, fun _ _ =>
      ⟨trivial, fun _ _ => ⟨trivial, fun _ _ => trivial⟩⟩⟩
    cases found
    decide
  exact (slotsOnly_of_run tarTable_readerKernel rfl openSlots_readerPcb
    meets).mono fun _ _ holds => holds.1

/-- After five opens the sixth one writes outside the five slots. -/
theorem openFile_outOfBounds :
    ∃ next, runAll FileCall.serve
        (List.replicate 5 (.openFile [0x61, 0x62] 0)) readerKernel =
          .ok ((), next) ∧
      openFile [0x61, 0x62] 0 next = .error .outOfBounds := by
  have five : shown (fun _ k =>
      ((k.procs.pcb k.procs.currProcess).map Pcb.fileCount,
        k.tarfs.find? fun file => file.name = [0x61, 0x62]))
      (runAll FileCall.serve
        (List.replicate 5 (.openFile [0x61, 0x62] 0)) readerKernel) =
          some (some 5, readerKernel.tarfs.head?) := by
    decide +kernel
  obtain ⟨_, next, returned, seen⟩ := exists_of_shown five
  obtain ⟨pcb, found, count⟩ :=
    Option.map_eq_some_iff.mp (congrArg Prod.fst seen)
  exact ⟨next, returned, openFile_full found count (congrArg Prod.snd seen)⟩

/-- A read of two bytes and a read of the last one. -/
theorem reads_of_run_reader :
    ∃ r, runAll FileCall.track
        [.openFile [0x61, 0x62] 0, .read 4 readerBuffer 2]
          { kernel := readerKernel } = .ok ((), r) ∧
      ∀ ret bytes next,
        read 4 readerBuffer 1 r.kernel = .ok ((ret, bytes), next) →
          ret.toNat = 1 ∧ bytes = [0x63] := by
  have opened : shown (fun _ r => r.delivered 4)
      (FileCall.track (.openFile [0x61, 0x62] 0)
        { kernel := readerKernel }) = some (some []) := by
    decide +kernel
  have both : shown (fun _ r => (r.delivered 4, r.kernel.tarfs))
      (runAll FileCall.track
        [.openFile [0x61, 0x62] 0, .read 4 readerBuffer 2]
          { kernel := readerKernel }) =
            some (some [0x61, 0x62], readerKernel.tarfs) := by
    decide +kernel
  have meets : EachMeets FileCall.track ReadCondition
      [.openFile [0x61, 0x62] 0, .read 4 readerBuffer 2]
        { kernel := readerKernel } := by
    refine ⟨⟨fun _ pcb found => ?_, fun _ _ _ delivered => nomatch delivered⟩,
      fun r returned => ⟨⟨by decide, ?_⟩, fun _ _ => trivial⟩⟩
    · cases found
      decide
    · intro before _ delivered _ _
      have empty := shown_of_ok opened returned
      rw [delivered] at empty
      exact .inl (Option.some.inj empty)
  obtain ⟨_, r, returned, seen⟩ := exists_of_shown both
  have delivered : r.delivered 4 = some [0x61, 0x62] :=
    congrArg Prod.fst seen
  have tarfs : r.kernel.tarfs = readerKernel.tarfs := congrArg Prod.snd seen
  refine ⟨r, returned, ?_⟩
  intro ret bytes next called
  obtain ⟨-, reads⟩ :=
    reads_of_run tarTable_readerKernel rfl rfl meets returned
  have condition : ReadCondition (.read 4 readerBuffer 1) r := by
    refine ⟨by decide, ?_⟩
    intro before file isOpen member _
    rw [delivered] at isOpen
    cases isOpen
    rw [tarfs] at member
    cases List.mem_singleton.mp member
    exact .inr (by decide)
  obtain ⟨file, member, -, copied, length, -⟩ :=
    reads 4 readerBuffer 1 _ ret bytes next delivered condition called
  cases List.mem_singleton.mp member
  exact ⟨length, copied.trans (by decide)⟩

/-- Of the three bytes, two are read; the next read of two bytes delivers the
last one and the byte behind the file. -/
theorem reads_overrun :
    ∃ r, runAll FileCall.track
        [.openFile [0x61, 0x62] 0, .read 4 readerBuffer 2]
          { kernel := readerKernel } = .ok ((), r) ∧
      r.delivered 4 = some [0x61, 0x62] ∧
      ∃ next, read 4 readerBuffer 2 r.kernel =
        .ok ((2, [0x63, 0]), next) := by
  have both : shown (fun _ r => r.delivered 4)
      (runAll FileCall.track
        [.openFile [0x61, 0x62] 0, .read 4 readerBuffer 2]
          { kernel := readerKernel }) = some (some [0x61, 0x62]) := by
    decide +kernel
  have third : shown (fun result _ => result)
      ((do
        runAll FileCall.track
          [.openFile [0x61, 0x62] 0, .read 4 readerBuffer 2]
        onReader (read 4 readerBuffer 2)) { kernel := readerKernel }) =
          some (2, [0x63, 0]) := by
    decide +kernel
  obtain ⟨result, last, returned, seen⟩ := exists_of_shown third
  obtain ⟨_, r, ran, called⟩ := bind_eq_ok_iff.mp returned
  have delivered := shown_of_ok both ran
  refine ⟨r, ran, delivered, ?_⟩
  unfold onReader zoom at called
  cases ending : read 4 readerBuffer 2 r.kernel with
  | ok pair =>
      rw [ending] at called
      cases called
      have value : pair.1 = (2, [0x63, 0]) := seen
      exact ⟨pair.2, by rw [← value]⟩
  | error failure =>
      rw [ending] at called
      cases called

end SbuUnix
