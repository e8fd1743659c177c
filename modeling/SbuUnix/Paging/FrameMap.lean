import SbuUnix.Paging.Machine

/-!
# The initial frame map

`init_paging` marks the frames of one memory region as free: it clears the
256 words of `free_map`, counts the frames up to the end of the region in an
`int`, and sets the bit of every frame whose address, computed in an `int` as
well, is at or above the end of the kernel image and the bitmap.  It compares
no frame with the base of the region and no index with the size of the bitmap.
-/

namespace SbuUnix

open Outcome

/-- The globals of `paging.c` while the kernel boots. -/
structure Boot where
  paging : Paging
  physfreeStart : Word
  physfreeEnd : Word
  cr3 : Word
  pml4 : Word
  pdpt : Word
  pd : Word
  pt : Word

abbrev BootM := StateT Boot (Except Fault)

/-- An operation on memory and the frame map. -/
def onFrames {α : Type} (program : PagingM α) : BootM α :=
  zoom Boot.paging (fun paging k => { k with paging := paging }) program

/-- `memset(free_map, 0, 256 * sizeof(uint64_t))` -/
def clearFreeMap : PagingM Unit :=
  modify fun s =>
    { s with freeMap := fun index =>
        if index < 256 then 0 else s.freeMap index }

/-- `end = (base + length) / PAGE_SIZE`, kept in an `int`. -/
def countedFrames (base length : Word) : Int :=
  (((base + length) / 4096).setWidth 32).toInt

/-- `address = start * PAGE_SIZE`, a product of two `int`s that is then
widened to 64 bits. -/
def frameAddress (start : Nat) : Word :=
  (BitVec.ofNat 32 start * 4096#32).signExtend 64

/-- The body of the loop: an address below `physfree_start` is skipped. -/
def markFrame (start : Nat) : BootM Unit := do
  if frameAddress start < (← get).physfreeStart then
    pure ()
  else
    onFrames (setBit start)

/-- `init_paging` -/
def initPaging (_physbase physfree base length : Word) : BootM Unit := do
  onFrames clearFreeMap
  modify fun k => { k with
    physfreeStart := physfree + 2048
    physfreeEnd := base + length }
  forUpto (countedFrames base length).toNat markFrame

/-! ## Addresses of frames -/

theorem frameAddress_toNat (start : Nat) :
    (frameAddress start).toNat =
      if start % 1048576 < 524288 then
        start % 1048576 * 4096
      else
        start % 1048576 * 4096 + 18446744069414584320 := by
  have product :
      (BitVec.ofNat 32 start * 4096#32).toNat = start % 1048576 * 4096 := by
    rw [BitVec.toNat_mul, BitVec.toNat_ofNat]
    simp only [BitVec.toNat_ofNat]
    omega
  unfold frameAddress
  rw [BitVec.toNat_signExtend, BitVec.toNat_setWidth, product,
    BitVec.msb_eq_decide, product]
  by_cases low : start % 1048576 < 524288
  · rw [if_pos low, if_neg (by simp; omega)]
    omega
  · rw [if_neg low, if_pos (by simp; omega)]
    omega

/-- Below 2 GiB the computed address is the address. -/
theorem frameAddress_toNat_of_lt {start : Nat} (below : start < 524288) :
    (frameAddress start).toNat = start * 4096 := by
  rw [frameAddress_toNat, Nat.mod_eq_of_lt (by omega), if_pos below]

/-- Computed addresses grow with the frame number up to 4 GiB. -/
theorem frameAddress_mono {first second : Nat}
    (ordered : first % 1048576 ≤ second) (below : second < 1048576) :
    (frameAddress first).toNat ≤ (frameAddress second).toNat := by
  rw [frameAddress_toNat, frameAddress_toNat, Nat.mod_eq_of_lt below]
  split <;> split <;> omega

/-! ## The loop -/

/-- The code sets the bit of this frame when it comes to it. -/
def Marks (kernelEnd : Word) (start : Nat) : Prop :=
  ¬ frameAddress start < kernelEnd

instance (kernelEnd : Word) (start : Nat) :
    Decidable (Marks kernelEnd start) :=
  inferInstanceAs (Decidable (¬ _))

/-- Some bit that the loop sets lies past the bitmap. -/
def Overruns (kernelEnd : Word) (count : Nat) : Prop :=
  ∃ start, start < count ∧ Marks kernelEnd start ∧ frameCount ≤ start

/-- The frame map after a number of passes. -/
structure MarkedBelow (before : Boot) (count : Nat) (after : Boot) : Prop where
  inside : ¬ Overruns before.physfreeStart count
  bits : ∀ frame, after.paging.isFree frame = true ↔
    before.paging.isFree frame = true ∨
      frame < count ∧ Marks before.physfreeStart frame
  beyond : ∀ index, 256 ≤ index →
    after.paging.freeMap index = before.paging.freeMap index
  kernelEnd : after.physfreeStart = before.physfreeStart

theorem markedBelow_zero (k : Boot) : MarkedBelow k 0 k where
  inside := by
    rintro ⟨start, below, _⟩
    omega
  bits := by
    intro frame
    constructor
    · exact Or.inl
    · intro either
      rcases either with before | ⟨below, _⟩
      · exact before
      · omega
  beyond := fun _ _ => rfl
  kernelEnd := rfl

theorem overruns_succ {kernelEnd : Word} {count : Nat} :
    Overruns kernelEnd (count + 1) ↔
      Overruns kernelEnd count ∨
        Marks kernelEnd count ∧ frameCount ≤ count := by
  constructor
  · intro overruns
    obtain ⟨start, below, marks, outside⟩ := overruns
    rcases Nat.lt_succ_iff_lt_or_eq.mp below with earlier | here
    · exact Or.inl ⟨start, earlier, marks, outside⟩
    · subst here
      exact Or.inr ⟨marks, outside⟩
  · intro either
    rcases either with ⟨start, below, marks, outside⟩ | ⟨marks, outside⟩
    · exact ⟨start, by omega, marks, outside⟩
    · exact ⟨count, by omega, marks, outside⟩

theorem MarkedBelow.skip {before after : Boot} {count : Nat}
    (marked : MarkedBelow before count after)
    (skipped : ¬ Marks before.physfreeStart count) :
    MarkedBelow before (count + 1) after where
  inside := by
    intro overruns
    rcases overruns_succ.mp overruns with earlier | ⟨marks, _⟩
    · exact marked.inside earlier
    · exact skipped marks
  bits := by
    intro frame
    rw [marked.bits frame]
    apply or_congr Iff.rfl
    constructor
    · intro earlier
      exact ⟨by omega, earlier.2⟩
    · intro below
      have different : frame ≠ count := by
        intro same
        subst same
        exact skipped below.2
      exact ⟨by omega, below.2⟩
  beyond := marked.beyond
  kernelEnd := marked.kernelEnd

theorem MarkedBelow.mark {before after : Boot} {count : Nat}
    (marked : MarkedBelow before count after)
    (marks : Marks before.physfreeStart count)
    (inside : count < frameCount) :
    MarkedBelow before (count + 1)
      { after with paging := after.paging.setFree count } where
  inside := by
    intro overruns
    rcases overruns_succ.mp overruns with earlier | ⟨_, outside⟩
    · exact marked.inside earlier
    · omega
  bits := by
    intro frame
    rw [Paging.isFree_setFree, Bool.or_eq_true, marked.bits frame, or_assoc]
    apply or_congr Iff.rfl
    constructor
    · intro either
      rcases either with earlier | here
      · exact ⟨by omega, earlier.2⟩
      · simp only [Bool.and_eq_true, decide_eq_true_eq] at here
        rw [here.1]
        exact ⟨Nat.lt_succ_self count, marks⟩
    · intro below
      rcases Nat.lt_succ_iff_lt_or_eq.mp below.1 with earlier | here
      · exact Or.inl ⟨earlier, below.2⟩
      · right
        simp [here, inside]
  beyond := by
    intro index outside
    rw [← marked.beyond index outside]
    have different : index ≠ count / 64 := by
      simp only [frameCount] at inside
      omega
    simp [Paging.setFree, Paging.writeMap, different]
  kernelEnd := marked.kernelEnd

/-- One pass either steps past the bitmap or marks its frame. -/
theorem yields_markFrame {before current : Boot} {count : Nat}
    (marked : MarkedBelow before count current) :
    Yields (fun _ => Overruns before.physfreeStart (count + 1))
      (markFrame count) current fun _ next =>
        MarkedBelow before (count + 1) next := by
  unfold markFrame
  rw [yields_bind, yields_get, marked.kernelEnd, yields_ite]
  constructor
  · intro low
    rw [yields_pure]
    exact marked.skip fun marks => marks low
  · intro marks
    unfold onFrames setBit
    rw [yields_zoom, yields_ite]
    constructor
    · intro inside
      rw [yields_modify]
      apply marked.mark marks
      simp only [frameCount]
      omega
    · intro outside
      rw [yields_throw, overruns_succ]
      right
      refine ⟨marks, ?_⟩
      simp only [frameCount]
      omega

theorem Overruns.mono {kernelEnd : Word} {fewer more : Nat}
    (overruns : Overruns kernelEnd fewer) (grows : fewer ≤ more) :
    Overruns kernelEnd more := by
  obtain ⟨start, below, marks, outside⟩ := overruns
  exact ⟨start, by omega, marks, outside⟩

/-- The whole loop fails only by a store past the bitmap. -/
theorem yields_markFrames (k : Boot) (count : Nat) :
    Yields (fun _ => Overruns k.physfreeStart count)
      (forUpto count markFrame) k fun _ next =>
        MarkedBelow k count next := by
  apply yields_forUpto (fun index next => MarkedBelow k index next) count
  · exact markedBelow_zero k
  · intro index below current marked
    apply (yields_markFrame marked).weaken
    intro failure overruns
    exact overruns.mono (by omega)

/-- `init_paging` marks the frames it counts and fails only by a store past
the bitmap. -/
theorem yields_initPaging (physbase physfree base length : Word) (k : Boot) :
    Yields
      (fun _ => Overruns (physfree + 2048) (countedFrames base length).toNat)
      (initPaging physbase physfree base length) k fun _ booted =>
        ¬ Overruns (physfree + 2048) (countedFrames base length).toNat ∧
          (∀ frame, booted.paging.isFree frame = true ↔
            frame < (countedFrames base length).toNat ∧
              Marks (physfree + 2048) frame) ∧
          ∀ index, 256 ≤ index →
            booted.paging.freeMap index = k.paging.freeMap index := by
  unfold initPaging onFrames clearFreeMap
  rw [yields_bind, yields_zoom, yields_modify, yields_bind, yields_modify]
  generalize (countedFrames base length).toNat = count
  generalize physfree + 2048 = kernelEnd
  apply (yields_markFrames _ count).mono
  intro _ booted marked
  refine ⟨marked.inside, ?_, ?_⟩
  · intro frame
    rw [marked.bits frame]
    apply or_iff_right
    intro free
    have below := Paging.lt_of_isFree free
    have inside : frame / 64 < 256 := by
      simp only [frameCount] at below
      omega
    simp [Paging.isFree, inside] at free
  · intro index outside
    rw [marked.beyond index outside]
    exact if_neg (Nat.not_lt.mpr outside)

/-! ## The frames that are to be marked -/

/-- The whole frame lies in the region and at or above the end of the kernel
image and the bitmap. -/
def Usable (physfree base length : Word) (frame : Nat) : Prop :=
  base.toNat ≤ frame * 4096 ∧
    (frame + 1) * 4096 ≤ base.toNat + length.toNat ∧
    physfree.toNat + 2048 ≤ frame * 4096

/-- The boot marks exactly the usable frames and stores nothing past the
bitmap. -/
def MarksUsable (physbase physfree base length : Word) (k : Boot) : Prop :=
  ∃ booted, initPaging physbase physfree base length k = .ok ((), booted) ∧
    (∀ frame, frame < frameCount →
      (booted.paging.isFree frame = true ↔
        Usable physfree base length frame)) ∧
    ∀ index, 256 ≤ index →
      booted.paging.freeMap index = k.paging.freeMap index

/-- The first frame that starts at or above an address. -/
def frameFrom (address : Nat) : Nat :=
  (address + 4095) / 4096

/-- The frames of the region that the bitmap can hold end here. -/
def regionFrames (base length : Word) : Nat :=
  min ((base.toNat + length.toNat) / 4096) frameCount

/-- No frame that the code counts starts at or above the end of the bitmap,
as far as the code's own addresses tell. -/
def NothingMarked (kernelEnd : Word) (count : Nat) : Prop :=
  count = 0 ∨ frameAddress (min count 1048576 - 1) < kernelEnd

theorem nothingMarked_iff {kernelEnd : Word} {count : Nat} :
    NothingMarked kernelEnd count ↔
      ∀ start, start < count → ¬ Marks kernelEnd start := by
  unfold NothingMarked Marks
  constructor
  · intro nothing start below
    rcases nothing with none | last
    · omega
    · rw [not_not, BitVec.lt_def]
      rw [BitVec.lt_def] at last
      have grows : (frameAddress start).toNat ≤
          (frameAddress (min count 1048576 - 1)).toNat := by
        apply frameAddress_mono
        · omega
        · omega
      omega
  · intro none
    rcases Nat.eq_zero_or_pos count with zero | positive
    · exact Or.inl zero
    · right
      exact not_not.mp (none (min count 1048576 - 1) (by omega))

/-- The loop stays inside the bitmap when the count does, or when it sets no
bit at all. -/
theorem not_overruns_iff {kernelEnd : Word} {count : Nat} :
    ¬ Overruns kernelEnd count ↔
      count ≤ frameCount ∨ NothingMarked kernelEnd count := by
  constructor
  · intro inside
    rcases Nat.lt_or_ge frameCount count with many | few
    · right
      right
      by_contra marks
      apply inside
      refine ⟨min count 1048576 - 1, by omega, marks, ?_⟩
      simp only [frameCount] at many ⊢
      omega
    · exact Or.inl few
  · intro either overruns
    obtain ⟨start, below, marks, outside⟩ := overruns
    rcases either with few | nothing
    · omega
    · exact nothingMarked_iff.mp nothing start below marks

theorem marks_iff {kernelEnd : Word} {frame : Nat}
    (below : frame < frameCount) :
    Marks kernelEnd frame ↔ kernelEnd.toNat ≤ frame * 4096 := by
  unfold Marks
  simp only [frameCount] at below
  rw [BitVec.lt_def, frameAddress_toNat_of_lt (by omega), Nat.not_lt]

theorem usable_iff {physfree base length : Word} {frame : Nat}
    (below : frame < frameCount) :
    Usable physfree base length frame ↔
      frameFrom base.toNat ≤ frame ∧ frame < regionFrames base length ∧
        frameFrom (physfree.toNat + 2048) ≤ frame := by
  unfold Usable frameFrom regionFrames
  simp only [frameCount] at below ⊢
  constructor
  · intro usable
    refine ⟨?_, ?_, ?_⟩ <;> omega
  · intro usable
    refine ⟨?_, ?_, ?_⟩ <;> omega

/-- Exactness in terms of what the loop counts. -/
theorem marksUsable_iff_counts {physbase physfree base length : Word}
    {k : Boot} :
    MarksUsable physbase physfree base length k ↔
      ¬ Overruns (physfree + 2048) (countedFrames base length).toNat ∧
        ∀ frame, frame < frameCount →
          (frame < (countedFrames base length).toNat ∧
              (physfree + 2048).toNat ≤ frame * 4096 ↔
            Usable physfree base length frame) := by
  have yields := yields_initPaging physbase physfree base length k
  constructor
  · intro exactly
    obtain ⟨booted, returned, bits, _⟩ := exactly
    have holds := yields_of_ok yields returned
    refine ⟨holds.1, ?_⟩
    intro frame below
    rw [← bits frame below, holds.2.1 frame, marks_iff below]
  · intro counts
    obtain ⟨_, booted, returned, holds⟩ :=
      yields.returns fun _ overruns => absurd overruns counts.1
    refine ⟨booted, returned, ?_, holds.2.2⟩
    intro frame below
    rw [← counts.2 frame below, holds.2.1 frame, marks_iff below]

/-! ## When the map is exact -/

/-- The code counts the region as it is: it starts no later than the first
frame above the bitmap and ends inside the bitmap's 64 MiB, or at a frame whose
number an `int` shows as the first one past them. -/
structure CountedExactly (physfree base length : Word) : Prop where
  addressable : physfree.toNat + 2048 < 18446744073709551616
  starts : base.toNat ≤ frameFrom (physfree.toNat + 2048) * 4096
  ends : (base.toNat + length.toNat) / 4096 ≤ frameCount ∨
    countedFrames base length = frameCount

/-- There is nothing to mark and the code marks nothing. -/
structure NothingToMark (physfree base length : Word) : Prop where
  marked :
    NothingMarked (physfree + 2048) (countedFrames base length).toNat
  usable : regionFrames base length ≤
    max (frameFrom (physfree.toNat + 2048)) (frameFrom base.toNat)

theorem countedFrames_toNat (base length : Word) :
    (countedFrames base length).toNat =
      if (base.toNat + length.toNat) % 18446744073709551616 / 4096 %
          4294967296 < 2147483648 then
        (base.toNat + length.toNat) % 18446744073709551616 / 4096 % 4294967296
      else
        0 := by
  unfold countedFrames
  rw [BitVec.toInt_eq_toNat_cond, BitVec.toNat_setWidth, BitVec.toNat_udiv,
    BitVec.toNat_add]
  have pageSize : (4096 : Word).toNat = 4096 := rfl
  rw [pageSize]
  split <;> split <;> omega

/-- The count is the number of frames of the region that the bitmap holds. -/
theorem countedFrames_eq_iff {base length : Word} :
    (countedFrames base length).toNat = regionFrames base length ↔
      (base.toNat + length.toNat) / 4096 ≤ frameCount ∨
        countedFrames base length = frameCount := by
  have counted := countedFrames_toNat base length
  unfold regionFrames
  simp only [frameCount]
  constructor
  · intro same
    omega
  · intro either
    rcases either with inside | full
    · rw [counted, Nat.min_eq_left inside]
      split <;> omega
    · rw [full] at counted ⊢
      split at counted <;> omega

theorem kernelEnd_toNat (physfree : Word) :
    (physfree + 2048).toNat =
      (physfree.toNat + 2048) % 18446744073709551616 :=
  BitVec.toNat_add physfree 2048

/-- Nothing usable lies below the two bounds of the region. -/
theorem NothingToMark.not_usable {physfree base length : Word}
    (nothing : NothingToMark physfree base length) {frame : Nat}
    (below : frame < frameCount) :
    ¬ Usable physfree base length frame := by
  rw [usable_iff below]
  have usable := nothing.usable
  omega

theorem marksUsable_of_nothingToMark {physbase physfree base length : Word}
    {k : Boot} (nothing : NothingToMark physfree base length) :
    MarksUsable physbase physfree base length k := by
  rw [marksUsable_iff_counts]
  refine ⟨not_overruns_iff.mpr (Or.inr nothing.marked), ?_⟩
  intro frame below
  constructor
  · intro counted
    have marks := (marks_iff below).mpr counted.2
    exact absurd marks (nothingMarked_iff.mp nothing.marked frame counted.1)
  · intro usable
    exact absurd usable (nothing.not_usable below)

theorem marksUsable_of_countedExactly {physbase physfree base length : Word}
    {k : Boot} (exactly : CountedExactly physfree base length) :
    MarksUsable physbase physfree base length k := by
  rw [marksUsable_iff_counts, countedFrames_eq_iff.mpr exactly.ends]
  have few : regionFrames base length ≤ frameCount := Nat.min_le_right _ _
  refine ⟨not_overruns_iff.mpr (Or.inl few), ?_⟩
  intro frame below
  have kernelEnd := kernelEnd_toNat physfree
  rw [Nat.mod_eq_of_lt exactly.addressable] at kernelEnd
  have starts := exactly.starts
  rw [usable_iff below, kernelEnd]
  unfold frameFrom at starts ⊢
  omega

/-- A marked frame forces the count and the base to be right. -/
theorem countedExactly_of_marks {physfree base length : Word} {marked : Nat}
    (exactly : ∀ frame, frame < frameCount →
      (frame < (countedFrames base length).toNat ∧
          (physfree + 2048).toNat ≤ frame * 4096 ↔
        Usable physfree base length frame))
    (few : (countedFrames base length).toNat ≤ frameCount)
    (below : marked < (countedFrames base length).toNat)
    (marks : Marks (physfree + 2048) marked) :
    CountedExactly physfree base length := by
  rw [marks_iff (by omega)] at marks
  have kernelEnd := kernelEnd_toNat physfree
  -- The first frame at or above the end of the bitmap, and the last one.
  have first := exactly (frameFrom (physfree + 2048).toNat) (by
    unfold frameFrom
    omega)
  have last := exactly ((countedFrames base length).toNat - 1) (by omega)
  have next := exactly (countedFrames base length).toNat
  generalize counted : (countedFrames base length).toNat = count at *
  generalize (physfree + 2048).toNat = start at *
  have firstUsable := first.mp (by
    unfold frameFrom
    omega)
  have lastUsable := last.mp (by omega)
  unfold Usable frameFrom at firstUsable
  unfold Usable at lastUsable next
  have same : start = physfree.toNat + 2048 := by omega
  refine ⟨by omega, ?_, ?_⟩
  · rw [← same]
    exact firstUsable.1
  · rw [← countedFrames_eq_iff, counted]
    unfold regionFrames
    rcases Nat.lt_or_ge count frameCount with small | full
    · have notCounted := mt (next small).mpr (by omega)
      omega
    · omega

/-- The initial map is exact when the code counts the region as it is, or
when the region has no frame to mark and the code finds none. -/
theorem initPaging_marksUsable_iff (physbase physfree base length : Word)
    (k : Boot) :
    MarksUsable physbase physfree base length k ↔
      NothingToMark physfree base length ∨
        CountedExactly physfree base length := by
  constructor
  · intro exactly
    rw [marksUsable_iff_counts] at exactly
    obtain ⟨inside, exactly⟩ := exactly
    by_cases nothing :
        NothingMarked (physfree + 2048) (countedFrames base length).toNat
    · left
      refine ⟨nothing, ?_⟩
      by_contra room
      have below : max (frameFrom (physfree.toNat + 2048))
          (frameFrom base.toNat) < frameCount := by
        have few : regionFrames base length ≤ frameCount :=
          Nat.min_le_right _ _
        omega
      have usable : Usable physfree base length
          (max (frameFrom (physfree.toNat + 2048)) (frameFrom base.toNat)) := by
        rw [usable_iff below]
        omega
      have counted := (exactly _ below).mpr usable
      exact nothingMarked_iff.mp nothing _ counted.1
        ((marks_iff below).mpr counted.2)
    · right
      have few := (not_overruns_iff.mp inside).resolve_right nothing
      rw [nothingMarked_iff] at nothing
      push Not at nothing
      obtain ⟨marked, below, marks⟩ := nothing
      exact countedExactly_of_marks exactly few below marks
  · intro either
    rcases either with nothing | counted
    · exact marksUsable_of_nothingToMark nothing
    · exact marksUsable_of_countedExactly counted

/-- A machine before the boot, with nothing in memory. -/
def emptyBoot : Boot where
  paging := ⟨fun _ _ => 0, fun _ => 0, 0⟩
  physfreeStart := 0
  physfreeEnd := 0
  cr3 := 0
  pml4 := 0
  pdpt := 0
  pd := 0
  pt := 0

/-- A region from 1 MiB to just below 128 MiB, with the kernel image ending
at 3 MiB: frames from 64 MiB on have no bit in the map. -/
theorem not_marksUsable_128MiB :
    ¬ MarksUsable 0x200000 0x300000 0x100000 0x7ee0000 emptyBoot := by
  rw [marksUsable_iff_counts]
  intro exactly
  apply exactly.1
  exact ⟨frameCount, by decide, by decide, le_refl _⟩

end SbuUnix
