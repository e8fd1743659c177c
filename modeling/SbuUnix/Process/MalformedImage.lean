import SbuUnix.Process.Loader

/-!
# Images that do not fit their file

`load_binaries` knows the address of an image, and not its size.  The script
of an image is what the loader does with it: the bytes it reads, in the order
of the source, and the page loops it enters.  Memory plays no part in it; a
run that returns has followed the script to its end.
-/

namespace SbuUnix

open Outcome

/-! ## Scripts -/

inductive ImageEvent where
  | read (addr : Word)
  | mapPages (start stop : Word)

/-- A result, and the events on the way to it. -/
structure Scripted (α : Type) where
  value : α
  events : List ImageEvent

instance : Monad Scripted where
  pure value := ⟨value, []⟩
  bind first rest :=
    ⟨(rest first.value).value, first.events ++ (rest first.value).events⟩

def fetch (bytes : Word → Byte) (addr : Word) : Scripted Byte :=
  ⟨bytes addr, [.read addr]⟩

/-- `count` bytes from an address, as a number. -/
def fetchField (bytes : Word → Byte) (addr : Word) : Nat → Scripted Word
  | 0 => pure 0
  | count + 1 => do
      let byte ← fetch bytes addr
      let rest ← fetchField bytes (addr + 1) count
      pure ((rest <<< 8) ||| byte.setWidth 64)

/-- The bytes of the image that `memcpy` reads. -/
def fetchAll (addr : Word) (count : Nat) : Scripted Unit :=
  ⟨(), (List.range count).map fun i => .read (addr + BitVec.ofNat 64 i)⟩

/-- The page loop of a segment. -/
def enterPages (start stop : Word) : Scripted Unit :=
  ⟨(), [.mapPages start stop]⟩

/-- The comparisons of `elf_check_header`, up to the first that fails. -/
def checkBytes (bytes : Word → Byte) (addr : Word) :
    List Byte → Scripted Bool
  | [] => pure true
  | magic :: rest => do
      let byte ← fetch bytes addr
      if byte = magic then checkBytes bytes (addr + 1) rest else pure false

def elfMagic : List Byte := [0x7F, 0x45, 0x4C, 0x46]

def phdrAddr (bytes : Word → Byte) (elfHdr : Word) (i : Nat) : Word :=
  elfHdr + elfPhoff bytes elfHdr + BitVec.ofNat 64 (56 * i)

/-- The body of the loop of `load_binaries`; `false` for its `return -1`. -/
def scriptSegment (bytes : Word → Byte) (elfHdr : Word) (i : Nat) :
    Scripted Bool := do
  let ePhoff ← fetchField bytes (elfHdr + 32) 8
  let phdr := elfHdr + ePhoff + BitVec.ofNat 64 (56 * i)
  let pVaddr ← fetchField bytes (phdr + 16) 8
  let pMemsz ← fetchField bytes (phdr + 40) 8
  let pType ← fetchField bytes phdr 4
  if pType.setWidth 32 = ptLoad then
    if pVaddr + pMemsz ≤ pVaddr then
      pure false
    else do
      enterPages (removeFlag pVaddr) (pVaddr + pMemsz)
      let pFlags ← fetchField bytes (phdr + 4) 4
      if pFlags.setWidth 32 = (pfR ||| pfX) ∨
          pFlags.setWidth 32 = (pfR ||| pfW) then do
        let pOffset ← fetchField bytes (phdr + 8) 8
        let pFilesz ← fetchField bytes (phdr + 32) 8
        fetchAll (elfHdr + pOffset) (pFilesz.setWidth 32).toNat
        pure true
      else
        pure true
  else
    pure true

def scriptSegments (bytes : Word → Byte) (elfHdr : Word) :
    List Nat → Scripted Bool
  | [] => pure true
  | i :: rest => do
      if ← scriptSegment bytes elfHdr i then
        scriptSegments bytes elfHdr rest
      else
        pure false

/-- What `load_binaries` does with an image. -/
def script (bytes : Word → Byte) (elfHdr : Word) : Scripted Bool :=
  if elfHdr = 0 then
    pure false
  else do
    if ← checkBytes bytes elfHdr elfMagic then
      let _ ← fetchField bytes (elfHdr + 24) 8
      let ePhnum ← fetchField bytes (elfHdr + 56) 2
      scriptSegments bytes elfHdr (List.range ePhnum.toNat)
    else
      pure false

/-- All events of a script meet a condition. -/
def Scripted.All {α : Type} (condition : ImageEvent → Prop)
    (script : Scripted α) : Prop :=
  ∀ event ∈ script.events, condition event

section Scripts

variable {α β : Type} {condition : ImageEvent → Prop}
variable {bytes : Word → Byte} {elfHdr : Word}

@[simp]
theorem Scripted.pure_value (value : α) :
    (pure value : Scripted α).value = value :=
  rfl

@[simp]
theorem Scripted.bind_value (first : Scripted α) (rest : α → Scripted β) :
    (first >>= rest).value = (rest first.value).value :=
  rfl

@[simp]
theorem Scripted.all_pure (value : α) :
    Scripted.All condition (pure value : Scripted α) :=
  fun _ member => absurd member List.not_mem_nil

@[simp]
theorem Scripted.all_bind (first : Scripted α) (rest : α → Scripted β) :
    Scripted.All condition (first >>= rest) ↔
      Scripted.All condition first ∧
        Scripted.All condition (rest first.value) :=
  List.forall_mem_append

@[simp]
theorem all_fetch (addr : Word) :
    Scripted.All condition (fetch bytes addr) ↔ condition (.read addr) :=
  List.forall_mem_singleton

@[simp]
theorem all_enterPages (start stop : Word) :
    Scripted.All condition (enterPages start stop) ↔
      condition (.mapPages start stop) :=
  List.forall_mem_singleton

@[simp]
theorem fetchField_value (addr : Word) (count : Nat) :
    (fetchField bytes addr count).value = readField bytes addr count := by
  induction count generalizing addr with
  | zero => rfl
  | succ count inductionHypothesis =>
      rw [fetchField, readField, Scripted.bind_value, Scripted.bind_value,
        inductionHypothesis]
      rfl

theorem add_one_add (addr : Word) (i : Nat) :
    addr + 1 + BitVec.ofNat 64 i = addr + BitVec.ofNat 64 (i + 1) := by
  rw [BitVec.ofNat_add, BitVec.add_assoc]
  congr 1
  exact BitVec.add_comm _ _

theorem all_fetchField (addr : Word) (count : Nat) :
    Scripted.All condition (fetchField bytes addr count) ↔
      ∀ i < count, condition (.read (addr + BitVec.ofNat 64 i)) := by
  induction count generalizing addr with
  | zero => simp [fetchField]
  | succ count inductionHypothesis =>
      rw [fetchField, Scripted.all_bind, Scripted.all_bind, all_fetch,
        inductionHypothesis]
      simp only [add_one_add, Scripted.all_pure, and_true]
      constructor
      · rintro ⟨first, rest⟩ i inside
        cases i with
        | zero => simpa using first
        | succ i => exact rest i (Nat.lt_of_succ_lt_succ inside)
      · intro all
        refine ⟨by simpa using all 0 (Nat.succ_pos _), fun i inside => ?_⟩
        exact all (i + 1) (Nat.succ_lt_succ inside)

theorem all_fetchAll (addr : Word) (count : Nat) :
    Scripted.All condition (fetchAll addr count) ↔
      ∀ i < count, condition (.read (addr + BitVec.ofNat 64 i)) := by
  unfold Scripted.All fetchAll
  simp

theorem Scripted.all_ite (choice : Prop) [Decidable choice]
    (first second : Scripted α) :
    Scripted.All condition (if choice then first else second) ↔
      (choice → Scripted.All condition first) ∧
        (¬ choice → Scripted.All condition second) := by
  by_cases holds : choice <;> simp [holds]

end Scripts

/-! ## The program headers -/

/-- The header at an index of the table. -/
def phdrOf (bytes : Word → Byte) (elfHdr : Word) (i : Nat) : ElfPhdr :=
  elfPhdrAt bytes (phdrAddr bytes elfHdr i)

/-- `add_mmstruct` refuses the area of a segment. -/
def ElfPhdr.Refused (phdr : ElfPhdr) : Prop :=
  phdr.pType = ptLoad ∧ phdr.stop ≤ phdr.pVaddr

instance (phdr : ElfPhdr) : Decidable phdr.Refused :=
  inferInstanceAs (Decidable (_ ∧ _))

/-- The number of bytes that `memcpy` takes, whose counter has 32 bits. -/
def ElfPhdr.copyCount (phdr : ElfPhdr) : Nat :=
  (phdr.pFilesz.setWidth 32).toNat

section Headers

variable {condition : ImageEvent → Prop}
variable {bytes : Word → Byte} {elfHdr : Word}

theorem scriptSegment_value (i : Nat) :
    (scriptSegment bytes elfHdr i).value = true ↔
      ¬ (phdrOf bytes elfHdr i).Refused := by
  unfold scriptSegment ElfPhdr.Refused phdrOf phdrAddr elfPhdrAt ElfPhdr.stop
    elfPhoff
  simp only [Scripted.bind_value, fetchField_value]
  split
  · next load =>
      split
      · next refused =>
          exact iff_of_false Bool.false_ne_true fun accepted =>
            accepted ⟨load, refused⟩
      · next accepted =>
          have goesOn : ∀ choice : Prop, [Decidable choice] →
              ∀ copied : Scripted Bool, copied.value = true →
                (if choice then copied else pure true).value = true := by
            intro choice _ copied ends
            split
            · exact ends
            · rfl
          exact iff_of_true (goesOn _ _ rfl) fun both => accepted both.2
  · next skipped => exact iff_of_true rfl fun both => skipped both.1

theorem scriptSegments_value (indices : List Nat) :
    (scriptSegments bytes elfHdr indices).value = true ↔
      ∀ i ∈ indices, ¬ (phdrOf bytes elfHdr i).Refused := by
  induction indices with
  | nil => simp [scriptSegments]
  | cons i rest inductionHypothesis =>
      rw [scriptSegments, Scripted.bind_value, List.forall_mem_cons,
        ← scriptSegment_value, ← inductionHypothesis]
      split
      · next accepted => simp [accepted]
      · next refused => simp [refused]

/-- What the loop does with a header that it reaches. -/
theorem all_scriptSegment (i : Nat) :
    Scripted.All condition (scriptSegment bytes elfHdr i) ↔
      (∀ j < 8, condition (.read (elfHdr + 32 + BitVec.ofNat 64 j))) ∧
      (∀ j < 8, condition
        (.read (phdrAddr bytes elfHdr i + 16 + BitVec.ofNat 64 j))) ∧
      (∀ j < 8, condition
        (.read (phdrAddr bytes elfHdr i + 40 + BitVec.ofNat 64 j))) ∧
      (∀ j < 4, condition
        (.read (phdrAddr bytes elfHdr i + BitVec.ofNat 64 j))) ∧
      ((phdrOf bytes elfHdr i).pType = ptLoad →
        ¬ (phdrOf bytes elfHdr i).Refused →
          condition (.mapPages (phdrOf bytes elfHdr i).start
            (phdrOf bytes elfHdr i).stop) ∧
          (∀ j < 4, condition
            (.read (phdrAddr bytes elfHdr i + 4 + BitVec.ofNat 64 j))) ∧
          ((phdrOf bytes elfHdr i).copied = true →
            (∀ j < 8, condition
              (.read (phdrAddr bytes elfHdr i + 8 + BitVec.ofNat 64 j))) ∧
            (∀ j < 8, condition
              (.read (phdrAddr bytes elfHdr i + 32 + BitVec.ofNat 64 j))) ∧
            ∀ j < (phdrOf bytes elfHdr i).copyCount, condition
              (.read (elfHdr + (phdrOf bytes elfHdr i).pOffset +
                BitVec.ofNat 64 j)))) := by
  have unrefused : (phdrOf bytes elfHdr i).pType = ptLoad →
      (¬ (phdrOf bytes elfHdr i).Refused ↔
        ¬ (phdrOf bytes elfHdr i).stop ≤
          (phdrOf bytes elfHdr i).pVaddr) := by
    intro load
    simp [ElfPhdr.Refused, load]
  have isCopied : (phdrOf bytes elfHdr i).copied = true ↔
      (phdrOf bytes elfHdr i).pFlags = (pfR ||| pfX) ∨
        (phdrOf bytes elfHdr i).pFlags = (pfR ||| pfW) := by
    simp [ElfPhdr.copied]
  rw [isCopied]
  unfold scriptSegment
  simp only [Scripted.all_bind, fetchField_value, all_fetchField]
  refine and_congr_right fun _ => and_congr_right fun _ =>
    and_congr_right fun _ => and_congr_right fun _ => ?_
  rw [Scripted.all_ite]
  simp only [Scripted.all_pure, implies_true, and_true]
  apply imp_congr_right
  intro load
  rw [unrefused load, Scripted.all_ite]
  simp only [Scripted.all_pure, implies_true, true_and]
  apply imp_congr_right
  intro accepted
  simp only [Scripted.all_bind, all_enterPages, fetchField_value,
    all_fetchField]
  refine and_congr_right fun _ => and_congr_right fun _ => ?_
  rw [Scripted.all_ite]
  simp only [Scripted.all_pure, implies_true, and_true]
  apply imp_congr_right
  intro copied
  simp only [Scripted.all_bind, fetchField_value, all_fetchField,
    all_fetchAll, Scripted.all_pure, and_true]
  rfl

/-- The loop reaches a header when it refuses none before it. -/
theorem all_scriptSegments (first count : Nat) :
    Scripted.All condition
        (scriptSegments bytes elfHdr (List.range' first count)) ↔
      ∀ i < count,
        (∀ j < i, ¬ (phdrOf bytes elfHdr (first + j)).Refused) →
          Scripted.All condition (scriptSegment bytes elfHdr (first + i)) := by
  induction count generalizing first with
  | zero => simp [scriptSegments]
  | succ count inductionHypothesis =>
      have later : ∀ i, first + 1 + i = first + (i + 1) := by omega
      rw [List.range'_succ, scriptSegments, Scripted.all_bind,
        Scripted.all_ite, scriptSegment_value, inductionHypothesis]
      simp only [Scripted.all_pure, implies_true, and_true, later]
      constructor
      · rintro ⟨here, others⟩ i inside reached
        cases i with
        | zero => exact here
        | succ i =>
            apply others (reached 0 (Nat.succ_pos _)) i
              (Nat.lt_of_succ_lt_succ inside)
            exact fun j before => reached (j + 1) (Nat.succ_lt_succ before)
      · intro all
        refine ⟨all 0 (Nat.succ_pos _) (by simp), ?_⟩
        intro accepted i inside reached
        apply all (i + 1) (Nat.succ_lt_succ inside)
        intro j before
        cases j with
        | zero => exact accepted
        | succ j => exact reached j (Nat.lt_of_succ_lt_succ before)

/-- A magic byte is compared when those before it agree. -/
theorem all_checkBytes (addr : Word) (magic : List Byte) :
    Scripted.All condition (checkBytes bytes addr magic) ↔
      ∀ j < magic.length,
        (∀ m < j, magic[m]? = some (bytes (addr + BitVec.ofNat 64 m))) →
          condition (.read (addr + BitVec.ofNat 64 j)) := by
  induction magic generalizing addr with
  | nil => simp [checkBytes]
  | cons byte rest inductionHypothesis =>
      rw [checkBytes, Scripted.all_bind, all_fetch, Scripted.all_ite,
        inductionHypothesis]
      simp only [Scripted.all_pure, implies_true, and_true, add_one_add]
      constructor
      · rintro ⟨first, others⟩ j inside agree
        cases j with
        | zero => simpa using first
        | succ j =>
            have same : bytes addr = byte := by
              simpa using (agree 0 (Nat.succ_pos _)).symm
            apply others same j (Nat.lt_of_succ_lt_succ inside)
            intro m earlier
            exact agree (m + 1) (Nat.succ_lt_succ earlier)
      · intro all
        refine ⟨by simpa using all 0 (Nat.succ_pos _) (by simp), ?_⟩
        intro same j inside agree
        apply all (j + 1) (Nat.succ_lt_succ inside)
        intro m earlier
        cases m with
        | zero =>
            have here : bytes addr = byte := same
            simpa using here.symm
        | succ m => exact agree m (Nat.lt_of_succ_lt_succ earlier)

theorem checkBytes_cons_value (addr : Word) (byte : Byte)
    (rest : List Byte) :
    (checkBytes bytes addr (byte :: rest)).value =
      (bytes addr == byte && (checkBytes bytes (addr + 1) rest).value) := by
  rw [checkBytes, Scripted.bind_value]
  by_cases same : bytes addr = byte
  · have here : (fetch bytes addr).value = byte := same
    rw [if_pos here, same, beq_self_eq_true, Bool.true_and]
  · have here : ¬ (fetch bytes addr).value = byte := same
    rw [if_neg here, beq_eq_false_iff_ne.mpr same, Bool.false_and]
    rfl

theorem checkBytes_value (notNull : elfHdr ≠ 0) :
    (checkBytes bytes elfHdr elfMagic).value =
      elfCheckHeader bytes elfHdr := by
  have two : elfHdr + 1 + 1 = elfHdr + 2 := BitVec.add_assoc _ _ _
  have three : elfHdr + 2 + 1 = elfHdr + 3 := BitVec.add_assoc _ _ _
  have nonzero : (elfHdr != 0) = true := bne_iff_ne.mpr notNull
  rw [elfMagic, checkBytes_cons_value, checkBytes_cons_value,
    checkBytes_cons_value, checkBytes_cons_value, two, three,
    elfCheckHeader, nonzero, Bool.true_and, Bool.and_assoc, Bool.and_assoc]
  simp only [checkBytes, Scripted.pure_value, Bool.and_true]

end Headers

/-! ## Bounds -/

/-- A byte of the file of `size` bytes at an address. -/
def InFile (addr : Word) (size : Nat) (a : Word) : Prop :=
  (a - addr).toNat < size

/-- The page loop of a segment comes to an end. -/
def PagesEnd (start stop : Word) : Prop :=
  ∃ passes : Nat, ¬ start + BitVec.ofNat 64 (4096 * passes) ≤ stop

def ImageEvent.Safe (addr : Word) (size : Nat) : ImageEvent → Prop
  | .read a => InFile addr size a
  | .mapPages start stop => PagesEnd start stop

/-- Where a program header lies in the file. -/
def phdrOffset (bytes : Word → Byte) (elfHdr : Word) (i : Nat) : Nat :=
  (phdrAddr bytes elfHdr i - elfHdr).toNat

/-- The headers and the contents of all segments lie in the file. -/
def ImageInside (bytes : Word → Byte) (addr : Word) (size : Nat) : Prop :=
  64 ≤ size ∧ ∀ i < elfPhnum bytes addr,
    phdrOffset bytes addr i + 56 ≤ size ∧
      ((phdrOf bytes addr i).pType = ptLoad →
        (phdrOf bytes addr i).pFilesz = 0 ∨
          (phdrOf bytes addr i).pOffset.toNat +
            (phdrOf bytes addr i).pFilesz.toNat ≤ size)

/-- A malformed file does no harm: every byte read is its own, every page
loop ends, and an image that does not lie inside is rejected. -/
structure HandledSafely (bytes : Word → Byte) (addr : Word) (size : Nat) :
    Prop where
  safe : Scripted.All (ImageEvent.Safe addr size) (script bytes addr)
  rejects : ¬ ImageInside bytes addr size → (script bytes addr).value = false

/-- What the loop needs of a header that it reaches: the fields lie in the
file, and if the area is not refused, so do the bytes that are copied, and
the page loop stops before the last page of the address space. -/
def SegmentBounded (bytes : Word → Byte) (addr : Word) (size i : Nat) :
    Prop :=
  phdrOffset bytes addr i + 48 ≤ size ∧
    ((phdrOf bytes addr i).pType = ptLoad →
      ¬ (phdrOf bytes addr i).Refused →
        (phdrOf bytes addr i).stop.toNat < 2 ^ 64 - 4096 ∧
          ((phdrOf bytes addr i).copied = true →
            (phdrOf bytes addr i).copyCount = 0 ∨
              (phdrOf bytes addr i).pOffset.toNat +
                (phdrOf bytes addr i).copyCount ≤ size))

/-- The file is long enough for what the loader takes from it without
asking: up to the first wrong magic byte, then up to the first refused
segment, and for an accepted image all of it. -/
structure WellBounded (bytes : Word → Byte) (addr : Word) (size : Nat) :
    Prop where
  magic : ∀ j < 4,
    (∀ m < j, elfMagic[m]? = some (bytes (addr + BitVec.ofNat 64 m))) →
      j < size
  header : elfCheckHeader bytes addr = true → 58 ≤ size
  reached : elfCheckHeader bytes addr = true → ∀ i < elfPhnum bytes addr,
    (∀ j < i, ¬ (phdrOf bytes addr j).Refused) →
      SegmentBounded bytes addr size i
  accepted : elfCheckHeader bytes addr = true →
    (∀ i < elfPhnum bytes addr, ¬ (phdrOf bytes addr i).Refused) →
      ImageInside bytes addr size

section Bounds

variable {bytes : Word → Byte} {addr : Word} {size : Nat}

/-- The offset of a byte behind a word. -/
theorem toNat_sub_addr (a : Word) (k : Nat) :
    (a + BitVec.ofNat 64 k - addr).toNat =
      ((a - addr).toNat + k) % 2 ^ 64 := by
  have moved : a + BitVec.ofNat 64 k - addr =
      a - addr + BitVec.ofNat 64 k := by
    rw [BitVec.sub_eq_add_neg, BitVec.sub_eq_add_neg, BitVec.add_assoc,
      BitVec.add_comm (BitVec.ofNat 64 k), ← BitVec.add_assoc]
  rw [moved, BitVec.toNat_add, BitVec.toNat_ofNat]
  omega

/-- A range of bytes lies in the file when it begins and ends there. -/
theorem range_inFile (small : size < 2 ^ 64) (a : Word) {count : Nat}
    (positive : 0 < count) :
    (∀ j < count, InFile addr size (a + BitVec.ofNat 64 j)) ↔
      (a - addr).toNat + count ≤ size := by
  unfold InFile
  simp only [toNat_sub_addr]
  have bound := (a - addr).isLt
  constructor
  · intro inside
    by_contra beyond
    have first := inside 0 positive
    rw [Nat.add_zero, Nat.mod_eq_of_lt bound] at first
    have last := inside (size - (a - addr).toNat) (by omega)
    rw [Nat.add_sub_cancel' (Nat.le_of_lt first),
      Nat.mod_eq_of_lt small] at last
    omega
  · intro fits j below
    rw [Nat.mod_eq_of_lt (by omega)]
    omega

/-- The same from a field of a header on. -/
theorem field_inFile (small : size < 2 ^ 32) (a : Word) {k count : Nat}
    (positive : 0 < count) (low : (a - addr).toNat < 2 ^ 32)
    (near : k < 2 ^ 32) :
    (∀ j < count, InFile addr size
        (a + BitVec.ofNat 64 k + BitVec.ofNat 64 j)) ↔
      (a - addr).toNat + k + count ≤ size := by
  rw [range_inFile (by omega) _ positive, toNat_sub_addr,
    Nat.mod_eq_of_lt (by omega)]

theorem pagesEnd_iff (phdr : ElfPhdr) :
    PagesEnd phdr.start phdr.stop ↔ phdr.stop.toNat < 2 ^ 64 - 4096 := by
  have startLow : phdr.start.toNat < 2 ^ 64 := phdr.start.isLt
  have aligned : phdr.start.toNat % 4096 = 0 := by
    rw [ElfPhdr.start, toNat_removeFlag]
    exact Nat.mul_mod_left _ 4096
  unfold PagesEnd
  simp only [BitVec.le_def, BitVec.toNat_add, BitVec.toNat_ofNat]
  constructor
  · rintro ⟨passes, behind⟩
    omega
  · intro before
    refine ⟨(2 ^ 64 - 4096 - phdr.start.toNat) / 4096, ?_⟩
    omega

/-- The pass of the loop for a header is safe when the header is bounded. -/
theorem safe_scriptSegment (small : size < 2 ^ 32) (long : 58 ≤ size)
    (i : Nat) :
    Scripted.All (ImageEvent.Safe addr size) (scriptSegment bytes addr i) ↔
      SegmentBounded bytes addr size i := by
  have wide : size < 2 ^ 64 := by omega
  rw [all_scriptSegment]
  simp only [ImageEvent.Safe, pagesEnd_iff]
  have tableOffset : ∀ j < 8, InFile addr size
      (addr + 32 + BitVec.ofNat 64 j) := by
    have zero : (addr - addr).toNat = 0 := by
      rw [BitVec.sub_self]
      rfl
    apply (field_inFile (k := 32) small addr (by decide) (by omega)
      (by decide)).mpr
    omega
  unfold SegmentBounded
  constructor
  · rintro ⟨-, -, memsz, type, load⟩
    have begins := (range_inFile wide _ (by decide)).mp type
    have ends := (field_inFile (k := 40) small _ (by decide)
      (by omega) (by decide)).mp memsz
    refine ⟨by unfold phdrOffset; omega, fun isLoad accepted => ?_⟩
    obtain ⟨pages, -, copies⟩ := load isLoad accepted
    refine ⟨pages, fun copied => ?_⟩
    obtain ⟨-, -, contents⟩ := copies copied
    rcases Nat.eq_zero_or_pos (phdrOf bytes addr i).copyCount with
      none | some
    · exact Or.inl none
    · right
      have range := (range_inFile wide _ some).mp contents
      have offset : (addr + (phdrOf bytes addr i).pOffset - addr).toNat =
          (phdrOf bytes addr i).pOffset.toNat := by
        rw [BitVec.add_comm, BitVec.add_sub_cancel]
      rw [offset] at range
      exact range
  · rintro ⟨inside, load⟩
    have low : (phdrAddr bytes addr i - addr).toNat + 48 ≤ size := inside
    have field : ∀ k count, 0 < count → k + count ≤ 48 → ∀ j < count,
        InFile addr size
          (phdrAddr bytes addr i + BitVec.ofNat 64 k + BitVec.ofNat 64 j) := by
      intro k count positive near
      apply (field_inFile small _ positive (by omega) (by omega)).mpr
      omega
    refine ⟨tableOffset, field 16 8 (by decide) (by decide),
      field 40 8 (by decide) (by decide), ?_, fun isLoad accepted => ?_⟩
    · exact (range_inFile wide _ (by decide)).mpr (by omega)
    · obtain ⟨pages, copies⟩ := load isLoad accepted
      refine ⟨pages, field 4 4 (by decide) (by decide), fun copied =>
        ⟨field 8 8 (by decide) (by decide),
          field 32 8 (by decide) (by decide), ?_⟩⟩
      rcases copies copied with none | range
      · rw [none]
        exact fun _ below => absurd below (Nat.not_lt_zero _)
      · rcases Nat.eq_zero_or_pos (phdrOf bytes addr i).copyCount with
          none | some
        · rw [none]
          exact fun _ below => absurd below (Nat.not_lt_zero _)
        · apply (range_inFile wide _ some).mpr
          rw [BitVec.add_comm, BitVec.add_sub_cancel]
          exact range

/-- An image is accepted when its magic is right and no area is refused. -/
theorem script_value (notNull : addr ≠ 0) :
    (script bytes addr).value = true ↔
      elfCheckHeader bytes addr = true ∧
        ∀ i < elfPhnum bytes addr, ¬ (phdrOf bytes addr i).Refused := by
  rw [script, if_neg notNull, Scripted.bind_value, checkBytes_value notNull]
  by_cases magic : elfCheckHeader bytes addr = true
  · rw [if_pos magic, Scripted.bind_value, Scripted.bind_value,
      scriptSegments_value, fetchField_value]
    simp [magic, elfPhnum]
  · rw [if_neg magic]
    simp [magic]

theorem safe_script (small : size < 2 ^ 32) (notNull : addr ≠ 0) :
    Scripted.All (ImageEvent.Safe addr size) (script bytes addr) ↔
      (∀ j < 4,
        (∀ m < j, elfMagic[m]? = some (bytes (addr + BitVec.ofNat 64 m))) →
          j < size) ∧
      (elfCheckHeader bytes addr = true → 58 ≤ size ∧
        ∀ i < elfPhnum bytes addr,
          (∀ j < i, ¬ (phdrOf bytes addr j).Refused) →
            SegmentBounded bytes addr size i) := by
  have zero : (addr - addr).toNat = 0 := by
    rw [BitVec.sub_self]
    rfl
  have offset : ∀ j < 4, (addr + BitVec.ofNat 64 j - addr).toNat = j := by
    intro j inside
    rw [toNat_sub_addr, zero, Nat.zero_add, Nat.mod_eq_of_lt (by omega)]
  have fieldOf : ∀ k count, 0 < count → k < 2 ^ 32 →
      ((∀ j < count, InFile addr size
          (addr + BitVec.ofNat 64 k + BitVec.ofNat 64 j)) ↔
        k + count ≤ size) := by
    intro k count positive near
    rw [field_inFile small addr positive (by omega) near, zero,
      Nat.zero_add]
  have entry : (∀ j < 8, InFile addr size
      (addr + 24 + BitVec.ofNat 64 j)) ↔ 32 ≤ size := by
    have field := fieldOf 24 8 (by decide) (by decide)
    exact field
  have phnum : (∀ j < 2, InFile addr size
      (addr + 56 + BitVec.ofNat 64 j)) ↔ 58 ≤ size := by
    have field := fieldOf 56 2 (by decide) (by decide)
    exact field
  rw [script, if_neg notNull, Scripted.all_bind, all_checkBytes,
    Scripted.all_ite, checkBytes_value notNull]
  simp only [Scripted.all_pure, implies_true, and_true, Scripted.all_bind,
    all_fetchField, fetchField_value, ImageEvent.Safe, entry, phnum]
  refine and_congr ?_ (imp_congr_right fun _ => ?_)
  · refine forall_congr' fun j => imp_congr_right fun inside => ?_
    unfold InFile
    rw [offset j inside]
  · constructor
    · rintro ⟨-, long, segments⟩
      refine ⟨long, fun i inside reached => ?_⟩
      rw [List.range_eq_range', all_scriptSegments] at segments
      have safe := segments i inside
      simp only [Nat.zero_add] at safe
      exact (safe_scriptSegment small long i).mp (safe reached)
    · rintro ⟨long, reached⟩
      refine ⟨by omega, long, ?_⟩
      rw [List.range_eq_range', all_scriptSegments]
      simp only [Nat.zero_add]
      exact fun i inside unrefused =>
        (safe_scriptSegment small long i).mpr (reached i inside unrefused)

theorem handledSafely_iff_wellBounded (small : size < 2 ^ 32)
    (notNull : addr ≠ 0) :
    HandledSafely bytes addr size ↔ WellBounded bytes addr size := by
  constructor
  · rintro ⟨safe, rejects⟩
    obtain ⟨magic, checked⟩ := (safe_script small notNull).mp safe
    refine ⟨magic, fun isElf => (checked isElf).1,
      fun isElf => (checked isElf).2, fun isElf accepted => ?_⟩
    by_contra outside
    have refused := rejects outside
    rw [(script_value notNull).mpr ⟨isElf, accepted⟩] at refused
    cases refused
  · rintro ⟨magic, header, reached, accepted⟩
    refine ⟨(safe_script small notNull).mpr
      ⟨magic, fun isElf => ⟨header isElf, reached isElf⟩⟩,
      fun outside => ?_⟩
    rw [← Bool.not_eq_true, script_value notNull]
    rintro ⟨isElf, unrefused⟩
    exact outside (accepted isElf unrefused)

end Bounds

/-! ## Runs follow the script -/

def ImageEvent.Ends : ImageEvent → Prop
  | .read _ => True
  | .mapPages start stop => PagesEnd start stop

section Runs

variable {fuel : Nat} {proc elfHdr : Word} {bytes : Word → Byte}

theorem yields_skip {α β : Type} {program : KernelM α}
    {rest : α → KernelM β} {k : Kernel} {post : β → Kernel → Prop}
    (continues : ∀ value next, Yields AnyFault (rest value) next post) :
    Yields AnyFault (program >>= rest) k post := by
  rw [yields_bind, yields_anyFault]
  exact fun value next _ => continues value next

/-- The page loop returns only when it ends. -/
theorem pagesEnd_of_mapSegment {cr3Addr stop : Word} (fuel : Nat) :
    ∀ {start value : Word} {s next : Paging},
      mapSegment fuel cr3Addr start stop s = .ok (value, next) →
        PagesEnd start stop := by
  induction fuel with
  | zero =>
      intro start value s next returned
      cases returned
  | succ fuel inductionHypothesis =>
      intro start value s next returned
      rw [mapSegment] at returned
      split at returned
      · obtain ⟨_, _, _, rest⟩ := bind_eq_ok_iff.mp returned
        obtain ⟨_, _, _, rest⟩ := bind_eq_ok_iff.mp rest
        obtain ⟨_, _, _, rest⟩ := bind_eq_ok_iff.mp rest
        obtain ⟨passes, behind⟩ := inductionHypothesis rest
        refine ⟨passes + 1, ?_⟩
        have moved : start + BitVec.ofNat 64 (4096 * (passes + 1)) =
            start + 4096 + BitVec.ofNat 64 (4096 * passes) := by
          rw [Nat.mul_succ, Nat.add_comm, BitVec.ofNat_add,
            BitVec.add_assoc]
          rfl
        rw [moved]
        exact behind
      · next behind =>
          exact ⟨0, by simpa using behind⟩

theorem yields_loadSegment {phdr : ElfPhdr} (k : Kernel) :
    Yields AnyFault (loadSegment fuel proc elfHdr phdr) k fun loaded _ =>
      (loaded = true ↔ ¬ phdr.stop ≤ phdr.pVaddr) ∧
        (¬ phdr.stop ≤ phdr.pVaddr → PagesEnd phdr.start phdr.stop) := by
  rw [loadSegment]
  refine yields_skip fun block _ => yields_skip fun mm next => ?_
  cases added : addMmstruct mm _ with
  | none =>
      have refused := addMmstruct_eq_none_iff.mp added
      exact ⟨iff_of_false Bool.false_ne_true fun accepted =>
        accepted refused, fun accepted => absurd refused accepted⟩
  | some whole =>
      have accepted : ¬ phdr.stop ≤ phdr.pVaddr := by
        intro refused
        rw [addMmstruct_eq_none_iff.mpr refused] at added
        cases added
      refine yields_skip fun _ _ => yields_skip fun _ between => ?_
      rw [yields_bind, yields_runPaging, yields_anyFault]
      intro stop paging mapped
      have ends := pagesEnd_of_mapSegment fuel mapped
      refine yields_skip fun _ _ => yields_skip fun _ _ => ?_
      rw [yields_ite]
      constructor
      · intro _
        refine yields_skip fun _ _ => yields_skip fun _ _ => ?_
        refine yields_skip fun _ _ => yields_skip fun _ _ => ?_
        apply yields_skip
        intro _ _
        exact ⟨iff_of_true rfl accepted, fun _ => ends⟩
      · exact fun _ => ⟨iff_of_true rfl accepted, fun _ => ends⟩

theorem yields_loadSegments (indices : List Nat) :
    ∀ k : Kernel, Yields AnyFault
      (loadSegments fuel proc elfHdr (indices.map (phdrOf bytes elfHdr))) k
        fun loaded _ =>
          loaded = (scriptSegments bytes elfHdr indices).value ∧
            Scripted.All ImageEvent.Ends
              (scriptSegments bytes elfHdr indices) := by
  induction indices with
  | nil => exact fun _ => ⟨rfl, Scripted.all_pure true⟩
  | cons i rest inductionHypothesis =>
      intro k
      have verdict : (scriptSegment bytes elfHdr i).value = true ↔
          ¬ (phdrOf bytes elfHdr i).Refused := scriptSegment_value i
      have pass : Scripted.All ImageEvent.Ends
          (scriptSegment bytes elfHdr i) ↔
            ((phdrOf bytes elfHdr i).pType = ptLoad →
              ¬ (phdrOf bytes elfHdr i).Refused →
                PagesEnd (phdrOf bytes elfHdr i).start
                  (phdrOf bytes elfHdr i).stop) := by
        rw [all_scriptSegment]
        simp only [ImageEvent.Ends, implies_true, true_and, and_true]
      rw [List.map_cons, loadSegments, scriptSegments, Scripted.bind_value,
        Scripted.all_bind, yields_ite]
      constructor
      · intro load
        rw [yields_bind]
        apply (yields_loadSegment k).mono
        rintro loaded next ⟨accepts, ends⟩
        have unrefused : ¬ (phdrOf bytes elfHdr i).Refused ↔
            ¬ (phdrOf bytes elfHdr i).stop ≤
              (phdrOf bytes elfHdr i).pVaddr :=
          not_congr ⟨And.right, fun behind => ⟨load, behind⟩⟩
        have passes : Scripted.All ImageEvent.Ends
            (scriptSegment bytes elfHdr i) :=
          pass.mpr fun _ accepted => ends (unrefused.mp accepted)
        rw [yields_ite]
        constructor
        · intro isLoaded
          rw [if_pos (verdict.mpr (unrefused.mpr (accepts.mp isLoaded)))]
          apply (inductionHypothesis next).mono
          exact fun _ _ rest => ⟨rest.1, passes, rest.2⟩
        · intro notLoaded
          have refused : ¬ (scriptSegment bytes elfHdr i).value = true :=
            fun accepted => notLoaded
              (accepts.mpr (unrefused.mp (verdict.mp accepted)))
          rw [if_neg refused]
          exact ⟨rfl, passes, Scripted.all_pure false⟩
      · intro skipped
        have unrefused : ¬ (phdrOf bytes elfHdr i).Refused :=
          fun refused => skipped refused.1
        rw [if_pos (verdict.mpr unrefused)]
        apply (inductionHypothesis k).mono
        exact fun _ _ rest => ⟨rest.1,
          pass.mpr fun load => absurd load skipped, rest.2⟩

theorem yields_loadHeapAndStack (k : Kernel) :
    Yields AnyFault (loadHeapAndStack proc) k fun loaded _ =>
      loaded = true := by
  rw [loadHeapAndStack]
  refine yields_skip fun heap _ => yields_skip fun mm next => ?_
  cases added : addMmstruct mm _ with
  | none =>
      have refused : heapAddr + 4096 ≤ heapAddr :=
        addMmstruct_eq_none_iff.mp added
      exact absurd refused (by decide)
  | some whole =>
      refine yields_skip fun _ _ => yields_skip fun stack _ => ?_
      apply yields_skip
      intro mm next
      cases added : addMmstruct mm _ with
      | none =>
          have refused : stackEnd ≤ stackAddr :=
            addMmstruct_eq_none_iff.mp added
          exact absurd refused (by decide)
      | some whole =>
          exact yields_skip fun _ _ => yields_skip fun _ _ => rfl

/-- A call of `load_binaries` that returns has followed the script of the
image: it returns what the script does, and every page loop has ended. -/
theorem loadBinaries_follows {k next : Kernel} {loaded : Bool}
    (returned : loadBinaries fuel proc elfHdr k = .ok (loaded, next)) :
    loaded = (script k.archive elfHdr).value ∧
      Scripted.All ImageEvent.Ends (script k.archive elfHdr) := by
  have follows : Yields AnyFault (loadBinaries fuel proc elfHdr) k
      fun loaded _ => loaded = (script k.archive elfHdr).value ∧
        Scripted.All ImageEvent.Ends (script k.archive elfHdr) := by
    rw [loadBinaries, yields_bind, yields_get]
    by_cases isNull : elfHdr = 0
    · have noMagic : ¬ elfCheckHeader k.archive elfHdr = true := by
        simp [elfCheckHeader, isNull]
      rw [if_neg noMagic, script, if_pos isNull]
      exact ⟨rfl, Scripted.all_pure false⟩
    · have checked : Scripted.All ImageEvent.Ends
          (checkBytes k.archive elfHdr elfMagic) := by
        rw [all_checkBytes]
        exact fun _ _ _ => trivial
      rw [script, if_neg isNull, Scripted.bind_value, Scripted.all_bind,
        checkBytes_value isNull]
      by_cases magic : elfCheckHeader k.archive elfHdr = true
      · rw [if_pos magic, if_pos magic]
        apply yields_skip
        intro _ stored
        have headers : elfPhdrs k.archive elfHdr =
            (List.range (elfPhnum k.archive elfHdr)).map
              (phdrOf k.archive elfHdr) := rfl
        rw [yields_bind, headers]
        apply (yields_loadSegments _ stored).mono
        rintro loaded next ⟨verdict, ends⟩
        have fields : ∀ addr count, Scripted.All ImageEvent.Ends
            (fetchField k.archive addr count) := by
          intro addr count
          rw [all_fetchField]
          exact fun _ _ => trivial
        simp only [Scripted.bind_value, Scripted.all_bind, fetchField_value]
        rw [yields_ite]
        constructor
        · intro isLoaded
          apply (yields_loadHeapAndStack next).mono
          rintro _ _ rfl
          exact ⟨isLoaded.symm.trans verdict, checked, fields _ _,
            fields _ _, ends⟩
        · intro notLoaded
          rw [Bool.not_eq_true] at notLoaded
          exact ⟨notLoaded.symm.trans verdict, checked, fields _ _,
            fields _ _, ends⟩
      · rw [if_neg magic, if_neg magic]
        exact ⟨rfl, checked, Scripted.all_pure false⟩
  have result := yields_of_ok follows returned
  exact result

end Runs

/-! ## Files of any length -/

/-- An image of 120 bytes with one segment of 16 bytes to be read and
executed, whose contents lie at 256 times a number. -/
def sampleImage (part : Byte) (a : Word) : Byte :=
  match (a - 0xFFFFFFFF80210000).toNat with
  | 0 => 0x7F
  | 1 => 0x45
  | 2 => 0x4C
  | 3 => 0x46
  | 32 => 64
  | 56 => 1
  | 64 => 1
  | 68 => 5
  | 73 => part
  | 82 => 0x40
  | 96 => 16
  | 104 => 16
  | _ => 0

end SbuUnix
