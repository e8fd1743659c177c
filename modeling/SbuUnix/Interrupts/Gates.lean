import SbuUnix.Interrupts.Stubs
import SbuUnix.Library.BitFields
import SbuUnix.Paging.Words

/-!
# Gates and descriptors

`sys/idt.c`, `sys/gdt.c` and the gates that `init_picirr` of `sys/pic.c` sets.
The tables are packed structures; `decodeGate` and the others read them as the
processor does.
-/

namespace SbuUnix

open BitFields

/-! ## The interrupt descriptor table -/

structure IdtEntry where
  addrLow : BitVec 16 := 0
  selector : BitVec 16 := 0
  always0 : BitVec 8 := 0
  flags : BitVec 8 := 0
  addrMid : BitVec 16 := 0
  addrHigh : BitVec 32 := 0
  reserved : BitVec 32 := 0

/-- The packed structure, lowest field first. -/
def IdtEntry.fields (entry : IdtEntry) : List (Nat × Nat) :=
  [(16, entry.addrLow.toNat), (16, entry.selector.toNat),
    (8, entry.always0.toNat), (8, entry.flags.toNat),
    (16, entry.addrMid.toNat), (32, entry.addrHigh.toNat),
    (32, entry.reserved.toNat)]

/-- `entries` of `sys/idt.c` -/
abbrev Idt := BitVec 8 → IdtEntry

def setIdtGate (entries : Idt) (num : BitVec 8) (baseAddr : Word)
    (sel : BitVec 16) (gate : BitVec 8) : Idt := fun other =>
  if other = num then
    { entries num with
      addrLow := baseAddr.setWidth 16
      addrMid := (baseAddr >>> 16).setWidth 16
      addrHigh := (baseAddr >>> 32).setWidth 32
      selector := sel
      always0 := 0
      flags := gate }
  else
    entries other

/-- `INTR_14`, `INTR_32`, `INTR_33` and `INTR_128` -/
def Irq.vector : Irq → BitVec 8
  | .pageFault => 14
  | .timer => 32
  | .keyboard => 33
  | .systemCall => 128

/-- The gates of `init_picirr`, with `IDT_SEL` and `INTERRUPT_GATE`. -/
def initPicirr (isr : Irq → Word) (entries : Idt) : Idt :=
  let entries := setIdtGate entries 32 (isr .timer) 0x08 0x8E
  let entries := setIdtGate entries 33 (isr .keyboard) 0x08 0x8E
  let entries := setIdtGate entries 14 (isr .pageFault) 0x08 0x8E
  setIdtGate entries 128 (isr .systemCall) 0x08 0xEE

/-- A gate of 16 bytes, as the processor reads it. -/
structure Gate where
  offset : Nat
  selector : Nat
  ist : Nat
  type : Nat
  dpl : Nat
  present : Nat
  deriving DecidableEq

def decodeGate (n : Nat) : Gate where
  offset := slice 0 16 n + 2 ^ 16 * slice 48 16 n + 2 ^ 32 * slice 64 32 n
  selector := slice 16 16 n
  ist := slice 32 3 n
  type := slice 40 4 n
  dpl := slice 45 2 n
  present := slice 47 1 n

/-- `int num` in user mode goes through the gate. -/
def Gate.UserCallable (gate : Gate) : Prop :=
  gate.present = 1 ∧ 3 ≤ gate.dpl

/-! ## The global descriptor table -/

/-- The first entries of `gdt`; the last two are for the TSS. -/
def gdt : List Nat :=
  [0,
    0x00180000000000 + 0x00800000000000 + 0x20000000000000,
    0x00100000000000 + 0x00800000000000 + 0x00020000000000,
    0,
    0x00100000000000 + 0x00800000000000 + 0x00020000000000 + 0x00600000000000,
    0x00180000000000 + 0x00800000000000 + 0x00600000000000 + 0x20000000000000]

/-- A segment of code or data, as the processor reads it. -/
structure Segment where
  executable : Nat
  codeOrData : Nat
  dpl : Nat
  present : Nat
  long : Nat
  deriving DecidableEq

def decodeSegment (n : Nat) : Segment where
  executable := slice 43 1 n
  codeOrData := slice 44 1 n
  dpl := slice 45 2 n
  present := slice 47 1 n
  long := slice 53 1 n

structure SysSegmentDescriptor where
  sdLolimit : BitVec 16 := 0
  sdLobase : BitVec 24 := 0
  sdType : BitVec 5 := 0
  sdDpl : BitVec 2 := 0
  sdP : BitVec 1 := 0
  sdHilimit : BitVec 4 := 0
  sdXx1 : BitVec 3 := 0
  sdGran : BitVec 1 := 0
  sdHibase : BitVec 40 := 0
  sdXx2 : BitVec 8 := 0
  sdZero : BitVec 5 := 0
  sdXx3 : BitVec 19 := 0

def SysSegmentDescriptor.fields (sd : SysSegmentDescriptor) :
    List (Nat × Nat) :=
  [(16, sd.sdLolimit.toNat), (24, sd.sdLobase.toNat), (5, sd.sdType.toNat),
    (2, sd.sdDpl.toNat), (1, sd.sdP.toNat), (4, sd.sdHilimit.toNat),
    (3, sd.sdXx1.toNat), (1, sd.sdGran.toNat), (40, sd.sdHibase.toNat),
    (8, sd.sdXx2.toNat), (5, sd.sdZero.toNat), (19, sd.sdXx3.toNat)]

/-- `sizeof(struct tss_t)` -/
def tssSize : Nat := 104

/-- The stores of `init_gdt`. -/
def initGdt (tss : Word) (sd : SysSegmentDescriptor) : SysSegmentDescriptor :=
  { sd with
    sdLolimit := BitVec.ofNat 16 (tssSize - 1)
    sdLobase := tss.setWidth 24
    sdType := 9
    sdDpl := 0
    sdP := 1
    sdHilimit := 0
    sdGran := 0
    sdHibase := (tss >>> 24).setWidth 40 }

/-- A system descriptor of 16 bytes, as the processor reads it. -/
structure SystemSegment where
  limit : Nat
  base : Nat
  type : Nat
  codeOrData : Nat
  dpl : Nat
  present : Nat
  granularity : Nat
  deriving DecidableEq

def decodeSystemSegment (n : Nat) : SystemSegment where
  limit := slice 0 16 n + 2 ^ 16 * slice 48 4 n
  base := slice 16 24 n + 2 ^ 24 * slice 56 8 n + 2 ^ 32 * slice 64 32 n
  type := slice 40 4 n
  codeOrData := slice 44 1 n
  dpl := slice 45 2 n
  present := slice 47 1 n
  granularity := slice 55 1 n

/-! ## What the processor reads -/

theorem decodeGate_fields (entry : IdtEntry) :
    decodeGate (pack entry.fields) =
      { offset := entry.addrLow.toNat + 2 ^ 16 * entry.addrMid.toNat +
          2 ^ 32 * entry.addrHigh.toNat
        selector := entry.selector.toNat
        ist := slice 0 3 entry.always0.toNat
        type := slice 0 4 entry.flags.toNat
        dpl := slice 5 2 entry.flags.toNat
        present := slice 7 1 entry.flags.toNat } := by
  have low : slice 0 16 (pack entry.fields) = entry.addrLow.toNat % 2 ^ 16 :=
    slice_pack [] (entry.fields.take 1) (entry.fields.drop 1)
  have sel : slice 16 16 (pack entry.fields) =
      entry.selector.toNat % 2 ^ 16 :=
    slice_pack (entry.fields.take 1) [(16, entry.selector.toNat)]
      (entry.fields.drop 2)
  have zero : slice 32 8 (pack entry.fields) = entry.always0.toNat % 2 ^ 8 :=
    slice_pack (entry.fields.take 2) [(8, entry.always0.toNat)]
      (entry.fields.drop 3)
  have flags : slice 40 8 (pack entry.fields) = entry.flags.toNat % 2 ^ 8 :=
    slice_pack (entry.fields.take 3) [(8, entry.flags.toNat)]
      (entry.fields.drop 4)
  have mid : slice 48 16 (pack entry.fields) = entry.addrMid.toNat % 2 ^ 16 :=
    slice_pack (entry.fields.take 4) [(16, entry.addrMid.toNat)]
      (entry.fields.drop 5)
  have high : slice 64 32 (pack entry.fields) =
      entry.addrHigh.toNat % 2 ^ 32 :=
    slice_pack (entry.fields.take 5) [(32, entry.addrHigh.toNat)]
      (entry.fields.drop 6)
  rw [Nat.mod_eq_of_lt (BitVec.isLt _)] at low sel zero flags mid high
  have ist := @slice_slice 32 8 0 3 (pack entry.fields) (by decide)
  have type := @slice_slice 40 8 0 4 (pack entry.fields) (by decide)
  have dpl := @slice_slice 40 8 5 2 (pack entry.fields) (by decide)
  have present := @slice_slice 40 8 7 1 (pack entry.fields) (by decide)
  rw [zero] at ist
  rw [flags] at type dpl present
  unfold decodeGate
  rw [low, mid, high, sel, ist, type, dpl, present]

/-- The three parts of a base address. -/
theorem base_cut (base : Word) :
    (base.setWidth 16).toNat + 2 ^ 16 * ((base >>> 16).setWidth 16).toNat +
      2 ^ 32 * ((base >>> 32).setWidth 32).toNat = base.toNat := by
  simp only [BitVec.toNat_setWidth, BitVec.toNat_ushiftRight,
    Nat.shiftRight_eq_div_pow]
  omega

/-- A gate that is set is read as it was asked for. -/
theorem decodeGate_setIdtGate (entries : Idt) (num : BitVec 8)
    (baseAddr : Word) (sel : BitVec 16) (gate : BitVec 8) :
    decodeGate (pack (setIdtGate entries num baseAddr sel gate num).fields) =
      { offset := baseAddr.toNat
        selector := sel.toNat
        ist := 0
        type := slice 0 4 gate.toNat
        dpl := slice 5 2 gate.toNat
        present := slice 7 1 gate.toNat } := by
  rw [decodeGate_fields, setIdtGate, if_pos rfl]
  dsimp only
  rw [base_cut]
  rfl

theorem setIdtGate_other {entries : Idt} {num other : BitVec 8}
    {baseAddr : Word} {sel : BitVec 16} {gate : BitVec 8}
    (different : other ≠ num) :
    setIdtGate entries num baseAddr sel gate other = entries other :=
  if_neg different

/-- The gates that `init_picirr` leaves in an empty table. -/
theorem decodeGate_initPicirr (isr : Irq → Word) (irq : Irq) :
    decodeGate (pack (initPicirr isr (fun _ => {}) irq.vector).fields) =
      { offset := (isr irq).toNat
        selector := 8
        ist := 0
        type := 0xE
        dpl := if irq = .systemCall then 3 else 0
        present := 1 } := by
  unfold initPicirr
  cases irq with
  | systemCall => exact decodeGate_setIdtGate _ 128 _ _ _
  | pageFault =>
      rw [setIdtGate_other (by decide)]
      exact decodeGate_setIdtGate _ 14 _ _ _
  | keyboard =>
      rw [setIdtGate_other (by decide), setIdtGate_other (by decide)]
      exact decodeGate_setIdtGate _ 33 _ _ _
  | timer =>
      rw [setIdtGate_other (by decide), setIdtGate_other (by decide),
        setIdtGate_other (by decide)]
      exact decodeGate_setIdtGate _ 32 _ _ _

theorem decodeGate_initPicirr_other (isr : Irq → Word) {num : BitVec 8}
    (other : ∀ irq : Irq, num ≠ irq.vector) :
    (decodeGate (pack (initPicirr isr (fun _ => {}) num).fields)).present =
      0 := by
  have empty : initPicirr isr (fun _ => {}) num = {} := by
    have call : num ≠ 128 := other .systemCall
    have fault : num ≠ 14 := other .pageFault
    have keyboard : num ≠ 33 := other .keyboard
    have timer : num ≠ 32 := other .timer
    unfold initPicirr
    rw [setIdtGate_other call, setIdtGate_other fault,
      setIdtGate_other keyboard, setIdtGate_other timer]
  rw [empty, decodeGate_fields]
  rfl

/-- The descriptor of the TSS, whatever its reserved fields hold. -/
theorem decodeSystemSegment_initGdt (tss : Word) (sd : SysSegmentDescriptor) :
    decodeSystemSegment (pack (initGdt tss sd).fields) =
      { limit := tssSize - 1
        base := tss.toNat
        type := 9
        codeOrData := 0
        dpl := 0
        present := 1
        granularity := 0 } := by
  generalize same : initGdt tss sd = after
  have lobase : slice 16 24 (pack after.fields) =
      after.sdLobase.toNat % 2 ^ 24 :=
    slice_pack (after.fields.take 1) [(24, after.sdLobase.toNat)]
      (after.fields.drop 2)
  have hibase : slice 56 40 (pack after.fields) =
      after.sdHibase.toNat % 2 ^ 40 :=
    slice_pack (after.fields.take 8) [(40, after.sdHibase.toNat)]
      (after.fields.drop 9)
  have lolimit : slice 0 16 (pack after.fields) =
      after.sdLolimit.toNat % 2 ^ 16 :=
    slice_pack [] [(16, after.sdLolimit.toNat)] (after.fields.drop 1)
  have type : slice 40 5 (pack after.fields) = after.sdType.toNat % 2 ^ 5 :=
    slice_pack (after.fields.take 2) [(5, after.sdType.toNat)]
      (after.fields.drop 3)
  have dpl : slice 45 2 (pack after.fields) = after.sdDpl.toNat % 2 ^ 2 :=
    slice_pack (after.fields.take 3) [(2, after.sdDpl.toNat)]
      (after.fields.drop 4)
  have present : slice 47 1 (pack after.fields) = after.sdP.toNat % 2 ^ 1 :=
    slice_pack (after.fields.take 4) [(1, after.sdP.toNat)]
      (after.fields.drop 5)
  have hilimit : slice 48 4 (pack after.fields) =
      after.sdHilimit.toNat % 2 ^ 4 :=
    slice_pack (after.fields.take 5) [(4, after.sdHilimit.toNat)]
      (after.fields.drop 6)
  have gran : slice 55 1 (pack after.fields) = after.sdGran.toNat % 2 ^ 1 :=
    slice_pack (after.fields.take 7) [(1, after.sdGran.toNat)]
      (after.fields.drop 8)
  have high : slice 56 40 (pack after.fields) =
      slice 56 8 (pack after.fields) +
        2 ^ 8 * slice 64 32 (pack after.fields) :=
    slice_add 56 8 32 (pack after.fields)
  have typeBits := @slice_slice 40 5 0 4 (pack after.fields) (by decide)
  have systemBit := @slice_slice 40 5 4 1 (pack after.fields) (by decide)
  rw [type] at typeBits systemBit
  unfold decodeSystemSegment
  rw [lolimit, hilimit, lobase, dpl, present, gran, ← typeBits, ← systemBit]
  have base : after.sdLobase.toNat % 2 ^ 24 +
      2 ^ 24 * slice 56 8 (pack after.fields) +
        2 ^ 32 * slice 64 32 (pack after.fields) = tss.toNat := by
    have cutHigh : after.sdHibase.toNat = tss.toNat / 2 ^ 24 := by
      rw [← same, initGdt, BitVec.toNat_setWidth, BitVec.toNat_ushiftRight,
        Nat.shiftRight_eq_div_pow]
      omega
    have cutLow : after.sdLobase.toNat = tss.toNat % 2 ^ 24 := by
      rw [← same, initGdt, BitVec.toNat_setWidth]
    omega
  rw [base, ← same]
  simp [initGdt, tssSize, slice]

/-- `init_gdt` and `init_picirr`, for all addresses of the TSS and of the
stubs: the processor finds the TSS and, at the four vectors, interrupt gates to
the stubs in the kernel's code segment, no other gate is present, and a user
comes in by `int` through vector 128 only. -/
theorem tables_decode (tss : Word) (sd : SysSegmentDescriptor)
    (isr : Irq → Word) :
    decodeSystemSegment (pack (initGdt tss sd).fields) =
        { limit := tssSize - 1
          base := tss.toNat
          type := 9
          codeOrData := 0
          dpl := 0
          present := 1
          granularity := 0 } ∧
      (∀ irq : Irq,
        decodeGate (pack (initPicirr isr (fun _ => {}) irq.vector).fields) =
          { offset := (isr irq).toNat
            selector := 8
            ist := 0
            type := 0xE
            dpl := if irq = .systemCall then 3 else 0
            present := 1 }) ∧
        decodeSegment (gdt.getD (8 / 8) 0) =
            { executable := 1
              codeOrData := 1
              dpl := 0
              present := 1
              long := 1 } ∧
          ∀ num, (decodeGate
              (pack (initPicirr isr (fun _ => {}) num).fields)).UserCallable ↔
            num = 128 := by
  refine ⟨decodeSystemSegment_initGdt tss sd, decodeGate_initPicirr isr,
    by decide, ?_⟩
  intro num
  constructor
  · rintro ⟨present, callable⟩
    by_contra other
    have device : ∀ irq : Irq, num = irq.vector → False := by
      intro irq here
      rw [here, decodeGate_initPicirr isr irq] at callable
      by_cases call : irq = .systemCall
      · exact other (here.trans (by rw [call]; rfl))
      · rw [if_neg call] at callable
        exact absurd callable (Nat.not_succ_le_zero 2)
    rw [decodeGate_initPicirr_other isr device] at present
    cases present
  · rintro rfl
    rw [show (128 : BitVec 8) = Irq.systemCall.vector from rfl,
      decodeGate_initPicirr isr .systemCall]
    exact ⟨rfl, Nat.le_refl 3⟩

end SbuUnix
