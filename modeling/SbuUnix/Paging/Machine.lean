import SbuUnix.Library.Outcome
import SbuUnix.Paging.Words

/-!
# Memory, the frame map and the allocator

`Paging` is the part of the machine that the paging code works on: physical
memory by frames of 512 words, the 256-word bitmap `free_map`, and CR3.
Kernel pointers into the linear map are physical accesses; a virtual address
of a process is translated by walking the tables CR3 selects, without a TLB.
-/

namespace SbuUnix

open Outcome

/-- Ways an operation stops that the kernel has no answer to;
`overwritesRecord` is a store to a frame whose contents are not kept in
`Paging`. -/
inductive Fault where
  | noFreeFrame
  | pageFault (address : Word)
  | nullPointer
  | outOfBounds
  | outOfFuel
  | overwritesRecord
  deriving DecidableEq, Repr

/-- The failures of an operation that only lacks a free frame. -/
def Exhausted (failure : Fault) : Prop :=
  failure = .noFreeFrame

theorem exhausted_noFreeFrame : Exhausted .noFreeFrame :=
  rfl

/-- No restriction on how an operation fails. -/
def AnyFault (_ : Fault) : Prop :=
  True

theorem anyFault (failure : Fault) : AnyFault failure :=
  trivial

theorem yields_stop {σ α : Type} (failure : Fault) (state : σ)
    {post : α → σ → Prop} :
    Yields AnyFault (throw failure : StateT σ (Except Fault) α) state post :=
  trivial

theorem yields_anyFault {σ α : Type} {program : StateT σ (Except Fault) α}
    {state : σ} {post : α → σ → Prop} :
    Yields AnyFault program state post ↔
      ∀ value next, program state = .ok (value, next) → post value next := by
  constructor
  · intro yields value next returned
    exact yields_of_ok yields returned
  · intro holds
    unfold Yields
    split
    · next value next returned => exact holds value next returned
    · exact anyFault _

abbrev Page := Fin 512 → Word

structure Paging where
  mem : Nat → Page
  freeMap : Nat → Word
  cr3 : Word

abbrev PagingM := StateT Paging (Except Fault)

/-- The number of frames that the 256 words of `free_map` describe. -/
def frameCount : Nat := 16384

namespace Paging

/-- The bit of a frame in `free_map` is set. -/
def isFree (s : Paging) (frame : Nat) : Bool :=
  decide (frame < frameCount) && (s.freeMap (frame / 64)).getLsbD (frame % 64)

def writePage (s : Paging) (frame : Nat) (page : Page) : Paging :=
  { s with mem := fun other => if other = frame then page else s.mem other }

def writeWord (s : Paging) (frame : Nat) (index : Fin 512) (word : Word) :
    Paging :=
  { s with mem := fun other position =>
      if other = frame ∧ position = index then
        word
      else
        s.mem other position }

def writeMap (s : Paging) (index : Nat) (word : Word) : Paging :=
  { s with freeMap := fun other =>
      if other = index then word else s.freeMap other }

/-- `map[val/64] |= (1ull << (val%64))` -/
def setFree (s : Paging) (frame : Nat) : Paging :=
  s.writeMap (frame / 64)
    (s.freeMap (frame / 64) ||| BitVec.twoPow 64 (frame % 64))

/-- `map[val/64] &= ~(1ull << (val%64))` -/
def unsetFree (s : Paging) (frame : Nat) : Paging :=
  s.writeMap (frame / 64)
    (s.freeMap (frame / 64) &&& ~~~ BitVec.twoPow 64 (frame % 64))

end Paging

/-! ## Bits and frames -/

/-- `set_bit`; an index past the 256 words leaves the bitmap. -/
def setBit (val : Nat) : PagingM Unit :=
  if val / 64 < 256 then
    modify fun s => s.setFree val
  else
    throw .outOfBounds

/-- `unset_bit` -/
def unsetBit (val : Nat) : PagingM Unit :=
  if val / 64 < 256 then
    modify fun s => s.unsetFree val
  else
    throw .outOfBounds

/-- The index of the first set bit, `none` for the source's `-1`. -/
def getFirstpage (freeMap : Nat → Word) : Option Nat :=
  (List.range 256).findSome? fun i =>
    (List.range 64).findSome? fun j =>
      if hasFlag (freeMap i) (BitVec.twoPow 64 j) then
        some (i * 64 + j)
      else
        none

/-- Without a free frame the source goes on with page index `2^64 - 1` and
clears a bit at `free_map + 2^61 - 8`, an address no page table maps. -/
def allocateVirtPage : PagingM Word := do
  match getFirstpage (← get).freeMap with
  | some pageIndex =>
      unsetBit pageIndex
      pure (pageAddr pageIndex)
  | none => throw .noFreeFrame

/-- `memset(page, 0, PAGE_SIZE)` on a page of the linear map. -/
def memsetPage (frame : Nat) : PagingM Unit :=
  modify fun s => s.writePage frame fun _ => 0

/-- `memcpy(source, destination, PAGE_SIZE)` on pages of the linear map. -/
def memcpyPage (source destination : Nat) : PagingM Unit :=
  modify fun s => s.writePage destination (s.mem source)

def writeEntry (table : Nat) (index : Fin 512) (entry : Word) :
    PagingM Unit :=
  modify fun s => s.writeWord table index entry

/-- `set_CR3` -/
def setCR3 (pml4Addr : Word) : PagingM Unit :=
  modify fun s => { s with cr3 := pml4Addr }

/-! ## Address translation -/

/-- The processor's walk: every entry on the way has all the flags of
`need`. -/
def mmuWalk (mem : Nat → Page) (need : Word) :
    Nat → List (Fin 512) → Option Word
  | _, [] => none
  | table, [index] =>
      if mem table index &&& need = need then some (mem table index) else none
  | table, index :: path =>
      if mem table index &&& need = need then
        mmuWalk mem need (frameOf (mem table index)) path
      else
        none

/-- The leaf entry through which the processor accesses an address. -/
def Paging.translate (s : Paging) (need vAddress : Word) : Option Word :=
  mmuWalk s.mem need (kernelFrame s.cr3) (pageOf vAddress).reverse

def wordIndex (vAddress : Word) : Fin 512 :=
  Fin.ofNat 512 (vAddress.toNat / 8)

/-- The byte of a page at the offset of an address. -/
def Page.byteAt (page : Page) (vAddress : Word) : Byte :=
  byteOf (page (wordIndex vAddress)) (vAddress.toNat % 8)

/-- A page with the byte at the offset of an address replaced. -/
def Page.setByteAt (page : Page) (vAddress : Word) (byte : Byte) : Page :=
  fun index =>
    if index = wordIndex vAddress then
      setByte (page index) (vAddress.toNat % 8) byte
    else
      page index

/-- A load through the page tables with access rights `need`. -/
def loadByte (need vAddress : Word) : PagingM Byte := do
  let s ← get
  match s.translate need vAddress with
  | some entry => pure (Page.byteAt (s.mem (frameOf entry)) vAddress)
  | none => throw (.pageFault vAddress)

/-- A store through the page tables with access rights `need`. -/
def storeByte (need vAddress : Word) (byte : Byte) : PagingM Unit := do
  let s ← get
  match s.translate need vAddress with
  | some entry =>
      let frame := frameOf entry
      set (s.writePage frame (Page.setByteAt (s.mem frame) vAddress byte))
  | none => throw (.pageFault vAddress)

/-- The frame that the kernel reaches at a virtual page address.  The kernel
runs with CR0.WP clear: a present page is enough, also for a store. -/
def kernelPage (vAddress : Word) : PagingM Nat := do
  match (← get).translate ptPR vAddress with
  | some entry => pure (frameOf entry)
  | none => throw (.pageFault vAddress)

/-! ## What the operations do to frames -/

namespace Paging

variable {s : Paging} {frame other : Nat} {index position : Fin 512}
variable {word : Word} {page : Page}

@[simp]
theorem writePage_same : (s.writePage frame page).mem frame = page := by
  simp [writePage]

theorem writePage_of_ne (different : other ≠ frame) :
    (s.writePage frame page).mem other = s.mem other := by
  simp [writePage, different]

@[simp]
theorem writePage_freeMap : (s.writePage frame page).freeMap = s.freeMap :=
  rfl

@[simp]
theorem writePage_cr3 : (s.writePage frame page).cr3 = s.cr3 :=
  rfl

@[simp]
theorem writeWord_same :
    (s.writeWord frame index word).mem frame index = word := by
  simp [writeWord]

theorem writeWord_of_ne_frame (different : other ≠ frame) :
    (s.writeWord frame index word).mem other = s.mem other := by
  funext position
  simp [writeWord, different]

theorem writeWord_of_ne_index (different : position ≠ index) :
    (s.writeWord frame index word).mem other position =
      s.mem other position := by
  simp [writeWord, different]

@[simp]
theorem writeWord_freeMap :
    (s.writeWord frame index word).freeMap = s.freeMap :=
  rfl

@[simp]
theorem writeWord_cr3 : (s.writeWord frame index word).cr3 = s.cr3 :=
  rfl

@[simp]
theorem setFree_mem : (s.setFree frame).mem = s.mem :=
  rfl

@[simp]
theorem setFree_cr3 : (s.setFree frame).cr3 = s.cr3 :=
  rfl

@[simp]
theorem unsetFree_mem : (s.unsetFree frame).mem = s.mem :=
  rfl

@[simp]
theorem unsetFree_cr3 : (s.unsetFree frame).cr3 = s.cr3 :=
  rfl

@[simp]
theorem isFree_writePage :
    (s.writePage frame page).isFree other = s.isFree other :=
  rfl

@[simp]
theorem isFree_writeWord :
    (s.writeWord frame index word).isFree other = s.isFree other :=
  rfl

@[simp]
theorem isFree_setCr3 :
    ({ s with cr3 := word } : Paging).isFree other = s.isFree other :=
  rfl

theorem lt_of_isFree (free : s.isFree frame = true) : frame < frameCount := by
  simp only [isFree, Bool.and_eq_true, decide_eq_true_eq] at free
  exact free.1

private theorem twoPow_bit (frame other : Nat) :
    (BitVec.twoPow 64 (frame % 64)).getLsbD (other % 64) =
      decide (other % 64 = frame % 64) := by
  have small : frame % 64 < 64 := Nat.mod_lt _ (by decide)
  rw [BitVec.getLsbD_twoPow]
  by_cases same : frame % 64 = other % 64
  · simp [same, Nat.mod_lt other (show 0 < 64 by decide)]
  · simp [same, Ne.symm same]

private theorem eq_of_div_of_mod
    (sameWord : other / 64 = frame / 64)
    (sameBit : other % 64 = frame % 64) : other = frame := by
  omega

theorem isFree_unsetFree :
    (s.unsetFree frame).isFree other =
      (s.isFree other && decide (other ≠ frame)) := by
  simp only [isFree, unsetFree, writeMap]
  by_cases sameWord : other / 64 = frame / 64
  · rw [if_pos sameWord, BitVec.getLsbD_and, BitVec.getLsbD_not,
      twoPow_bit, sameWord]
    have inside : other % 64 < 64 := Nat.mod_lt _ (by decide)
    by_cases sameBit : other % 64 = frame % 64
    · have same := eq_of_div_of_mod sameWord sameBit
      simp [same]
    · have different : other ≠ frame := fun same => sameBit (by rw [same])
      simp [sameBit, different, inside]
  · have different : other ≠ frame := fun same => sameWord (by rw [same])
    simp [sameWord, different]

theorem isFree_setFree :
    (s.setFree frame).isFree other =
      (s.isFree other ||
        decide (other = frame) && decide (other < frameCount)) := by
  simp only [isFree, setFree, writeMap]
  by_cases sameWord : other / 64 = frame / 64
  · rw [if_pos sameWord, BitVec.getLsbD_or, twoPow_bit, sameWord]
    by_cases sameBit : other % 64 = frame % 64
    · have same := eq_of_div_of_mod sameWord sameBit
      subst same
      cases decide (other < frameCount) <;> simp
    · have different : other ≠ frame := fun same => sameBit (by rw [same])
      simp [sameBit, different]
  · have different : other ≠ frame := fun same => sameWord (by rw [same])
    simp [sameWord, different]

end Paging

/-! ## The allocator -/

private theorem hasFlag_twoPow (word : Word) {bit : Nat} (inside : bit < 64) :
    hasFlag word (BitVec.twoPow 64 bit) = word.getLsbD bit := by
  unfold hasFlag
  cases set : word.getLsbD bit with
  | true =>
      have kept :
          (word &&& BitVec.twoPow 64 bit).getLsbD bit = true := by
        simp [set, inside]
      have nonzero : word &&& BitVec.twoPow 64 bit ≠ 0 := by
        intro zero
        rw [zero] at kept
        simp at kept
      simpa using nonzero
  | false =>
      have zero : word &&& BitVec.twoPow 64 bit = 0 := by
        apply BitVec.eq_of_getLsbD_eq
        intro position _
        simp only [BitVec.getLsbD_and, BitVec.getLsbD_twoPow]
        by_cases same : bit = position
        · subst same
          simp [set]
        · simp [same]
      rw [zero]
      decide

/-- The scan finds a frame whose bit is set. -/
theorem isFree_of_getFirstpage {s : Paging} {frame : Nat}
    (found : getFirstpage s.freeMap = some frame) :
    s.isFree frame = true := by
  unfold getFirstpage at found
  obtain ⟨i, iMember, inner⟩ := List.exists_of_findSome?_eq_some found
  obtain ⟨j, jMember, here⟩ := List.exists_of_findSome?_eq_some inner
  have iSmall : i < 256 := List.mem_range.mp iMember
  have jSmall : j < 64 := List.mem_range.mp jMember
  rw [hasFlag_twoPow _ jSmall] at here
  split at here
  · next set =>
      cases here
      have word : (i * 64 + j) / 64 = i := by omega
      have bit : (i * 64 + j) % 64 = j := by omega
      have below : i * 64 + j < frameCount := by
        simp only [frameCount]
        omega
      simp [Paging.isFree, word, bit, below, set]
  · cases here

/-- The scan fails only when no bit is set. -/
theorem isFree_eq_false_of_getFirstpage {s : Paging}
    (exhausted : getFirstpage s.freeMap = none) (frame : Nat) :
    s.isFree frame = false := by
  by_cases below : frame < frameCount
  · unfold getFirstpage at exhausted
    have wordSmall : frame / 64 < 256 := by
      simp only [frameCount] at below
      omega
    have bitSmall : frame % 64 < 64 := Nat.mod_lt _ (by decide)
    have inner :=
      List.findSome?_eq_none_iff.mp exhausted (frame / 64)
        (List.mem_range.mpr wordSmall)
    have here :=
      List.findSome?_eq_none_iff.mp inner (frame % 64)
        (List.mem_range.mpr bitSmall)
    rw [hasFlag_twoPow _ bitSmall] at here
    have unset : (s.freeMap (frame / 64)).getLsbD (frame % 64) = false := by
      by_contra set
      simp [set] at here
    simp [Paging.isFree, unset]
  · simp [Paging.isFree, below]

/-- What an allocation returns and changes. -/
theorem allocateVirtPage_eq_ok {s next : Paging} {page : Word}
    (returned : allocateVirtPage s = .ok (page, next)) :
    ∃ frame, s.isFree frame = true ∧ page = pageAddr frame ∧
      next = s.unsetFree frame := by
  unfold allocateVirtPage at returned
  obtain ⟨_, _, read, rest⟩ := bind_eq_ok_iff.mp returned
  cases read
  cases found : getFirstpage s.freeMap with
  | none =>
      simp only [found] at rest
      cases rest
  | some frame =>
      have free := isFree_of_getFirstpage found
      have below := Paging.lt_of_isFree free
      have wordSmall : frame / 64 < 256 := by
        simp only [frameCount] at below
        omega
      simp only [found, unsetBit, if_pos wordSmall] at rest
      cases rest
      exact ⟨frame, free, rfl, rfl⟩

/-- An allocation fails only for lack of a free frame; otherwise it takes a
free frame and changes nothing else. -/
theorem yields_allocateVirtPage {allowed : Fault → Prop} {s : Paging}
    {post : Word → Paging → Prop} (exhausted : allowed .noFreeFrame)
    (allocated : ∀ frame, s.isFree frame = true →
      post (pageAddr frame) (s.unsetFree frame)) :
    Yields allowed allocateVirtPage s post := by
  unfold Yields
  split
  · next page next returned =>
      obtain ⟨frame, free, rfl, rfl⟩ := allocateVirtPage_eq_ok returned
      exact allocated frame free
  · next failure failed =>
      have same : failure = .noFreeFrame := by
        unfold allocateVirtPage at failed
        simp only [bind, StateT.bind, Except.bind, get, getThe,
          MonadStateOf.get, StateT.get, pure, Except.pure] at failed
        cases found : getFirstpage s.freeMap with
        | none =>
            simp only [found] at failed
            cases failed
            rfl
        | some frame =>
            have below := Paging.lt_of_isFree (isFree_of_getFirstpage found)
            have wordSmall : frame / 64 < 256 := by
              simp only [frameCount] at below
              omega
            simp only [found, unsetBit, if_pos wordSmall] at failed
            cases failed
      rw [same]
      exact exhausted

/-! ## Bytes of pages -/

theorem Page.byteAt_setByteAt_same
    (page : Page) (vAddress : Word) (byte : Byte) :
    (page.setByteAt vAddress byte).byteAt vAddress = byte := by
  simp only [Page.byteAt, Page.setByteAt, if_pos]
  exact byteOf_setByte_same _ (Nat.mod_lt _ (by decide)) byte

theorem Page.byteAt_setByteAt_of_ne
    (page : Page) {vAddress other : Word} (byte : Byte)
    (different : other.toNat % pageSize ≠ vAddress.toNat % pageSize) :
    (page.setByteAt vAddress byte).byteAt other = page.byteAt other := by
  simp only [Page.byteAt, Page.setByteAt]
  by_cases sameWord : wordIndex other = wordIndex vAddress
  · rw [if_pos sameWord]
    apply byteOf_setByte_ne
    intro sameByte
    apply different
    have words :
        other.toNat / 8 % 512 = vAddress.toNat / 8 % 512 := by
      simpa [wordIndex, Fin.ofNat, Fin.ext_iff] using sameWord
    simp only [pageSize]
    omega
  · rw [if_neg sameWord]

@[simp]
theorem Page.byteAt_zero (vAddress : Word) :
    Page.byteAt (fun _ => 0) vAddress = 0 := by
  simp [Page.byteAt, byteOf]

end SbuUnix
