import Mathlib.Data.BitVec
import Mathlib.Tactic.Common
import Mathlib.Tactic.Ring
import Mathlib.Data.Nat.Bitwise

/-!
# Machine words, addresses and page-table entries

The kernel computes on `uint64_t`; page-table entries and addresses are
`BitVec 64`.  Every frame the kernel handles is reached through the linear map
at `KERNEL_ADDR`, so a pointer `KERNEL_ADDR | p` is modelled by the frame
behind it, `kernelFrame p`.  Frames are numbered by `Nat`.
-/

namespace SbuUnix

abbrev Word := BitVec 64
abbrev Byte := BitVec 8

def pageSize : Nat := 4096

def ptPR : Word := 0x01
def ptWR : Word := 0x02
def ptU : Word := 0x04

/-- Bit 9, `0x1 << 9`, marks an entry as copy-on-write. -/
def ptCow : Word := 0x200

def kernelAddr : Word := 0xFFFFFFFF80000000
def stackAddr : Word := 0x444ff000000
def stackEnd : Word := 0x444ff010000
def heapAddr : Word := 0x400ee000000
def heapEnd : Word := 0x400ee010000

/-- `addr & 0xFFFFFFFFFFFFF000` -/
def removeFlag (addr : Word) : Word :=
  addr &&& 0xFFFFFFFFFFFFF000

/-- `entry & flag`, read as a condition. -/
def hasFlag (entry flag : Word) : Bool :=
  (entry &&& flag) != 0

/-- `page_index * PAGE_SIZE` -/
def pageAddr (frame : Nat) : Word :=
  BitVec.ofNat 64 (frame * pageSize)

/-- The frame behind the pointer `KERNEL_ADDR | p` in the linear map. -/
def kernelFrame (p : Word) : Nat :=
  ((kernelAddr ||| p) - kernelAddr).toNat / pageSize

/-- The frame an entry points to. -/
def frameOf (entry : Word) : Nat :=
  kernelFrame (removeFlag entry)

/-- What an entry points to when its present bit is set. -/
def childOf (entry : Word) : Option Nat :=
  if hasFlag entry ptPR then some (frameOf entry) else none

/-- A table has entries, so that `Fin 512` has its literals. -/
instance instNeZeroEntries : NeZero 512 := ⟨by decide⟩

/-- `(vAddress >> offset) & 0x1FF` -/
def tableIndex (offset : Nat) (vAddress : Word) : Fin 512 :=
  Fin.ofNat 512 (vAddress >>> offset).toNat

def pml4Index : Word → Fin 512 := tableIndex 39
def pdptIndex : Word → Fin 512 := tableIndex 30
def pdIndex : Word → Fin 512 := tableIndex 21
def ptIndex : Word → Fin 512 := tableIndex 12

/-- The page of an address, as the walk that leads to its entry: the deepest
index first. -/
def pageOf (vAddress : Word) : List (Fin 512) :=
  [ptIndex vAddress, pdIndex vAddress, pdptIndex vAddress,
    pml4Index vAddress]

/-! ## Flags and frames of entries -/

theorem removeFlag_or (first second : Word) :
    removeFlag (first ||| second) =
      removeFlag first ||| removeFlag second := by
  unfold removeFlag
  exact BitVec.and_or_distrib_right

private theorem pageAddr_eq_shiftLeft (frame : Nat) :
    pageAddr frame = BitVec.ofNat 64 frame <<< 12 := by
  apply BitVec.eq_of_toNat_eq
  simp [pageAddr, pageSize, Nat.shiftLeft_eq]

private theorem offsetMask_eq :
    (0xFFFFFFFFFFFFF000 : Word) = BitVec.allOnes 64 <<< 12 := by
  decide

theorem removeFlag_pageAddr (frame : Nat) :
    removeFlag (pageAddr frame) = pageAddr frame := by
  rw [removeFlag, pageAddr_eq_shiftLeft, offsetMask_eq]
  apply BitVec.eq_of_getLsbD_eq
  intro bit bound
  simp only [BitVec.getLsbD_and, BitVec.getLsbD_shiftLeft,
    BitVec.getLsbD_allOnes]
  by_cases low : bit < 12
  · simp [low]
  · have inside : bit - 12 < 64 := by omega
    simp [low, bound, inside]

theorem removeFlag_eq_shift (addr : Word) :
    removeFlag addr = (addr >>> 12) <<< 12 := by
  rw [removeFlag, offsetMask_eq]
  apply BitVec.eq_of_getLsbD_eq
  intro bit bound
  simp only [BitVec.getLsbD_and, BitVec.getLsbD_shiftLeft,
    BitVec.getLsbD_ushiftRight, BitVec.getLsbD_allOnes]
  by_cases low : bit < 12
  · simp [low]
  · have position : 12 + (bit - 12) = bit := by omega
    have inside : bit - 12 < 64 := by omega
    simp [low, bound, inside, position]

/-- The page of an address starts at the multiple of 4096 below it. -/
theorem toNat_removeFlag (addr : Word) :
    (removeFlag addr).toNat = addr.toNat / pageSize * pageSize := by
  have bound := addr.isLt
  rw [removeFlag_eq_shift, BitVec.toNat_shiftLeft, BitVec.toNat_ushiftRight,
    Nat.shiftLeft_eq, Nat.shiftRight_eq_div_pow]
  unfold pageSize
  omega

theorem pageAddr_toNat {frame : Nat} (small : frame < 524288) :
    (pageAddr frame).toNat = frame * pageSize := by
  simp only [pageAddr, pageSize, BitVec.toNat_ofNat]
  omega

theorem kernelAddr_toNat : kernelAddr.toNat = 18446744071562067968 := by
  decide

/-- The address of a frame in the linear map. -/
theorem linear_toNat {frame : Nat} (small : frame < 524288) :
    (kernelAddr ||| pageAddr frame).toNat =
      kernelAddr.toNat + frame * pageSize := by
  have base : kernelAddr.toNat = 8589934591 <<< 31 := by decide
  rw [BitVec.toNat_or, pageAddr_toNat small, base,
    Nat.shiftLeft_add_eq_or_of_lt]
  simp only [pageSize]
  omega

theorem linear_eq_add {frame : Nat} (small : frame < 524288) :
    kernelAddr ||| pageAddr frame = kernelAddr + pageAddr frame := by
  apply BitVec.eq_of_toNat_eq
  rw [linear_toNat small, BitVec.toNat_add, pageAddr_toNat small,
    kernelAddr_toNat]
  simp only [pageSize]
  omega

/-- The linear map is one to one on the frames below 2 GiB. -/
theorem kernelFrame_pageAddr {frame : Nat} (small : frame < 524288) :
    kernelFrame (pageAddr frame) = frame := by
  have offset :
      ((kernelAddr ||| pageAddr frame) - kernelAddr).toNat =
        frame * pageSize := by
    rw [BitVec.toNat_sub, linear_toNat small, kernelAddr_toNat]
    simp only [pageSize]
    omega
  rw [kernelFrame, offset]
  exact Nat.mul_div_cancel frame (by decide)

/-- Building a fresh entry and reading it back: the flags are the ones put
in. -/
theorem hasFlag_or (first second flag : Word) :
    hasFlag (first ||| second) flag =
      (hasFlag first flag || hasFlag second flag) := by
  unfold hasFlag
  have distributed :
      (first ||| second) &&& flag =
        (first &&& flag) ||| (second &&& flag) :=
    BitVec.and_or_distrib_right
  rw [distributed]
  by_cases firstZero : first &&& flag = 0
  · simp [firstZero]
  · have joined : (first &&& flag) ||| (second &&& flag) ≠ 0 := by
      intro zero
      apply firstZero
      have absorbed :
          (first &&& flag) &&&
              ((first &&& flag) ||| (second &&& flag)) =
            first &&& flag := by
        apply BitVec.eq_of_getLsbD_eq
        intro bit _
        simp only [BitVec.getLsbD_and, BitVec.getLsbD_or]
        cases first.getLsbD bit <;> cases flag.getLsbD bit <;> simp
      rw [zero] at absorbed
      simpa using absorbed.symm
    have firstSet : (first &&& flag != 0) = true := by
      simpa using firstZero
    have joinedSet :
        ((first &&& flag) ||| (second &&& flag) != 0) = true := by
      simpa using joined
    rw [firstSet, joinedSet, Bool.true_or]

/-- A page address carries no flag. -/
theorem hasFlag_removeFlag
    (entry : Word) {flag : Word} (low : removeFlag flag = 0) :
    hasFlag (removeFlag entry) flag = false := by
  have cleared : removeFlag entry &&& flag = 0 := by
    have moved :
        removeFlag entry &&& flag = entry &&& removeFlag flag := by
      unfold removeFlag
      apply BitVec.eq_of_getLsbD_eq
      intro bit _
      simp only [BitVec.getLsbD_and]
      cases entry.getLsbD bit <;> cases flag.getLsbD bit <;> simp
    rw [moved, low]
    simp
  simp [hasFlag, cleared]

theorem hasFlag_pageAddr
    (frame : Nat) {flag : Word} (low : removeFlag flag = 0) :
    hasFlag (pageAddr frame) flag = false := by
  rw [← removeFlag_pageAddr]
  exact hasFlag_removeFlag _ low

/-- The entry for a frame with some flags in the low twelve bits. -/
def entryOf (frame : Nat) (flags : Word) : Word :=
  pageAddr frame ||| flags

theorem removeFlag_entryOf
    (frame : Nat) {flags : Word} (low : removeFlag flags = 0) :
    removeFlag (entryOf frame flags) = pageAddr frame := by
  rw [entryOf, removeFlag_or, removeFlag_pageAddr, low]
  simp

theorem hasFlag_entryOf
    (frame : Nat) (flags : Word) {flag : Word}
    (low : removeFlag flag = 0) :
    hasFlag (entryOf frame flags) flag = hasFlag flags flag := by
  rw [entryOf, hasFlag_or, hasFlag_pageAddr frame low]
  simp

theorem frameOf_of_removeFlag
    {entry : Word} {frame : Nat} (small : frame < 524288)
    (address : removeFlag entry = pageAddr frame) :
    frameOf entry = frame := by
  rw [frameOf, address, kernelFrame_pageAddr small]

theorem pageAddr_injective
    {first second : Nat} (firstSmall : first < 524288)
    (secondSmall : second < 524288)
    (same : pageAddr first = pageAddr second) : first = second := by
  rw [← kernelFrame_pageAddr firstSmall, same,
    kernelFrame_pageAddr secondSmall]

theorem childOf_eq_some_iff {entry : Word} {frame : Nat} :
    childOf entry = some frame ↔
      hasFlag entry ptPR = true ∧ frameOf entry = frame := by
  unfold childOf
  by_cases present : hasFlag entry ptPR = true <;> simp [present]

theorem childOf_eq_none_iff {entry : Word} :
    childOf entry = none ↔ hasFlag entry ptPR = false := by
  unfold childOf
  by_cases present : hasFlag entry ptPR = true <;> simp [present]

@[simp]
theorem childOf_isSome {entry : Word} :
    (childOf entry).isSome = hasFlag entry ptPR := by
  unfold childOf
  by_cases present : hasFlag entry ptPR = true <;> simp [present]

@[simp]
theorem childOf_zero : childOf 0#64 = none := by
  decide

/-! ## Bytes of words -/

/-- Byte `k` of a word, the least significant one first. -/
def byteOf (word : Word) (k : Nat) : Byte :=
  word.extractLsb' (8 * k) 8

/-- A word with byte `k` replaced. -/
def setByte (word : Word) (k : Nat) (byte : Byte) : Word :=
  (word &&& ~~~ ((0xFF : Word) <<< (8 * k))) |||
    (byte.setWidth 64 <<< (8 * k))

private theorem byteMask_getLsbD (bit : Nat) :
    (0xFF : Word).getLsbD bit = decide (bit < 8) := by
  have mask : (0xFF : Word) = (BitVec.allOnes 8).setWidth 64 := by decide
  rw [mask, BitVec.getLsbD_setWidth, BitVec.getLsbD_allOnes]
  by_cases low : bit < 8
  · have inside : bit < 64 := by omega
    simp [low, inside]
  · simp [low]

theorem byteOf_setByte_same
    (word : Word) {k : Nat} (inside : k < 8) (byte : Byte) :
    byteOf (setByte word k byte) k = byte := by
  apply BitVec.eq_of_getLsbD_eq
  intro bit bound
  have position : 8 * k + bit < 64 := by omega
  simp only [byteOf, setByte, BitVec.getLsbD_extractLsb',
    BitVec.getLsbD_or, BitVec.getLsbD_and, BitVec.getLsbD_not,
    BitVec.getLsbD_shiftLeft, BitVec.getLsbD_setWidth,
    byteMask_getLsbD, bound, position, decide_true, Bool.true_and]
  have offset : 8 * k + bit - 8 * k = bit := by omega
  have reached : ¬ 8 * k + bit < 8 * k := by omega
  have small : bit < 64 := by omega
  simp [offset, reached, bound, small]

theorem byteOf_setByte_ne
    (word : Word) {j k : Nat} (different : j ≠ k) (byte : Byte) :
    byteOf (setByte word k byte) j = byteOf word j := by
  apply BitVec.eq_of_getLsbD_eq
  intro bit bound
  simp only [byteOf, setByte, BitVec.getLsbD_extractLsb',
    BitVec.getLsbD_or, BitVec.getLsbD_and, BitVec.getLsbD_not,
    BitVec.getLsbD_shiftLeft, BitVec.getLsbD_setWidth,
    byteMask_getLsbD, bound, decide_true, Bool.true_and]
  by_cases inside : 8 * j + bit < 64
  · by_cases below : 8 * j + bit < 8 * k
    · simp [inside, below]
    · have above : ¬ (8 * j + bit - 8 * k < 8) := by omega
      have outside : byte.getLsbD (8 * j + bit - 8 * k) = false :=
        BitVec.getLsbD_of_ge _ _ (by omega)
      simp [inside, below, above, outside]
  · have beyond : word.getLsbD (8 * j + bit) = false :=
      BitVec.getLsbD_of_ge _ _ (by omega)
    simp [inside, beyond]

/-- An `int` that is widened and cut again. -/
theorem setWidth_signExtend (value : BitVec 32) :
    (value.signExtend 64).setWidth 32 = value := by
  apply BitVec.eq_of_getLsbD_eq
  intro index inside
  rw [BitVec.getLsbD_setWidth, BitVec.getLsbD_signExtend]
  simp [inside]
  omega

end SbuUnix
