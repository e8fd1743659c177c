import SbuUnix.Paging.FrameOwnership
import SbuUnix.Paging.LinearMap

/-!
# The kernel half of the address spaces

Every PML4 page holds the same entry 511, so all address spaces translate
the addresses below it alike.  The invariant is a typing of the frames: a
table of one tier points to tables of the tier below, and no tier is below
the user half that is also below entry 511.  It says nothing about owners,
so that `map_phys_to_virt_addr` is allowed on every address.

`copy_parent_tables` fills frames it does not clear.  A frame that holds an
old entry keeps no tier; the results are about runs whose copies take no
such frame, and the last section has one that does.
-/

namespace SbuUnix

open TableForest Outcome

/-! ## Tiers -/

inductive Half where
  | user
  | kernel
  deriving DecidableEq, Repr

/-- What the words of a frame are read as. -/
inductive Tier where
  | pml4
  | table (half : Half) (level : Nat)
  deriving DecidableEq, Repr

/-- The half of the addresses below an entry of a PML4 page. -/
def halfBelow (index : Fin 512) : Half :=
  if index = 511 then .kernel else .user

/-- The tier of the tables that an entry may point to; the last tables point
to pages of any kind. -/
def Tier.below : Tier → Fin 512 → Option Tier
  | .pml4, index => some (.table (halfBelow index) 1)
  | .table half level, _ =>
      if level < 3 then some (.table half (level + 1)) else none

/-- The tables in memory agree with the tiers, and the PML4 pages with each
other. -/
structure Tiered (tier : Nat → Option Tier) (top : Word) (s : Paging) :
    Prop where
  present : hasFlag top ptPR = true
  base : tier (frameOf top) = some (.table .kernel 1)
  roots : ∀ frame, tier frame = some .pml4 → s.mem frame 511 = top
  tables : ∀ frame own index lower,
    tier frame = some own → own.below index = some lower →
      hasFlag (s.mem frame index) ptPR = true →
        tier (frameOf (s.mem frame index)) = some lower
  free : ∀ frame, s.isFree frame = true → tier frame = none

/-- What an operation keeps of the tiers: those of all frames in use, and
the present entries of the kernel's tables. -/
structure Retypes (tier : Nat → Option Tier) (top : Word) (s : Paging)
    (changed : Nat → Option Tier) (next : Paging) : Prop where
  tiered : Tiered changed top next
  kept : ∀ frame, s.isFree frame = false → changed frame = tier frame
  fewer : ∀ frame, next.isFree frame = true → s.isFree frame = true
  untouched : ∀ frame, next.isFree frame = true →
    next.mem frame = s.mem frame
  kernel : ∀ frame level index, tier frame = some (.table .kernel level) →
    hasFlag (s.mem frame index) ptPR = true →
      hasFlag (next.mem frame index) ptPR = true ∧
        (level < 3 → next.mem frame index = s.mem frame index)
  cr3 : next.cr3 = s.cr3

/-- `tier` with the tier of one frame replaced. -/
def setTier (tier : Nat → Option Tier) (frame : Nat) (value : Tier) :
    Nat → Option Tier :=
  fun other => if other = frame then some value else tier other

section Tiers

variable {tier changed final : Nat → Option Tier} {top : Word}
variable {s next last : Paging} {frame table : Nat} {index : Fin 512}
variable {own lower : Tier} {word : Word}

@[simp]
theorem setTier_same {value : Tier} :
    setTier tier frame value frame = some value := by
  simp [setTier]

theorem setTier_of_ne {value : Tier} {other : Nat}
    (different : other ≠ frame) :
    setTier tier frame value other = tier other := by
  simp [setTier, different]

theorem Tiered.used (tiered : Tiered tier top s)
    (known : tier frame = some own) : s.isFree frame = false := by
  cases free : s.isFree frame with
  | false => rfl
  | true =>
      rw [tiered.free frame free] at known
      cases known

/-- A word that points where its slot allows may be stored in a table. -/
theorem Tiered.writeWord (tiered : Tiered tier top s)
    (known : tier table = some own)
    (notTop : own = .pml4 → index ≠ 511)
    (points : ∀ lower, own.below index = some lower →
      hasFlag word ptPR = true → tier (frameOf word) = some lower) :
    Tiered tier top (s.writeWord table index word) where
  present := tiered.present
  base := tiered.base
  roots := by
    intro frame root
    by_cases same : frame = table
    · subst same
      rw [root] at known
      rw [Paging.writeWord_of_ne_index (Ne.symm
        (notTop (Option.some.inj known).symm))]
      exact tiered.roots frame root
    · rw [Paging.writeWord_of_ne_frame same]
      exact tiered.roots frame root
  tables := by
    intro frame other place lower frameTier slot
    by_cases same : frame = table ∧ place = index
    · rcases same with ⟨rfl, rfl⟩
      rw [known] at frameTier
      cases frameTier
      rw [Paging.writeWord_same]
      exact points lower slot
    · have unchanged :
          (s.writeWord table index word).mem frame place =
            s.mem frame place :=
        if_neg same
      rw [unchanged]
      exact tiered.tables frame other place lower frameTier slot
  free := tiered.free

/-- Frames without a tier may hold anything. -/
theorem Tiered.writePage {page : Page} (tiered : Tiered tier top s)
    (noTable : tier frame = none) :
    Tiered tier top (s.writePage frame page) where
  present := tiered.present
  base := tiered.base
  roots := by
    intro other root
    have different : other ≠ frame := by
      rintro rfl
      rw [noTable] at root
      cases root
    rw [Paging.writePage_of_ne different]
    exact tiered.roots other root
  tables := by
    intro other own place lower known
    have different : other ≠ frame := by
      rintro rfl
      rw [noTable] at known
      cases known
    rw [Paging.writePage_of_ne different]
    exact tiered.tables other own place lower known
  free := tiered.free

theorem Tiered.unsetFree (tiered : Tiered tier top s) :
    Tiered tier top (s.unsetFree frame) where
  present := tiered.present
  base := tiered.base
  roots := tiered.roots
  tables := tiered.tables
  free := by
    intro other free
    rw [Paging.isFree_unsetFree] at free
    exact tiered.free other (Bool.and_elim_left free)

/-- A frame without a tier gets one, when its words allow it. -/
theorem Tiered.adopt (tiered : Tiered tier top s) {value : Tier}
    (noTable : tier frame = none) (used : s.isFree frame = false)
    (root : value = .pml4 → s.mem frame 511 = top)
    (points : ∀ index lower, value.below index = some lower →
      hasFlag (s.mem frame index) ptPR = true →
        tier (frameOf (s.mem frame index)) = some lower) :
    Tiered (setTier tier frame value) top s where
  present := tiered.present
  base := by
    rw [setTier_of_ne, tiered.base]
    intro same
    have known := tiered.base
    rw [same, noTable] at known
    cases known
  roots := by
    intro other known
    by_cases same : other = frame
    · subst same
      rw [setTier_same] at known
      exact root (Option.some.inj known)
    · rw [setTier_of_ne same] at known
      exact tiered.roots other known
  tables := by
    intro other own place lower known slot present
    have below : tier (frameOf (s.mem other place)) = some lower := by
      by_cases same : other = frame
      · subst same
        rw [setTier_same] at known
        cases known
        exact points place lower slot present
      · rw [setTier_of_ne same] at known
        exact tiered.tables other own place lower known slot present
    rw [setTier_of_ne, below]
    intro same
    rw [same, noTable] at below
    cases below
  free := by
    intro other free
    have different : other ≠ frame := by
      rintro rfl
      rw [used] at free
      cases free
    rw [setTier_of_ne different]
    exact tiered.free other free

theorem Retypes.refl (tiered : Tiered tier top s) :
    Retypes tier top s tier s where
  tiered := tiered
  kept := fun _ _ => rfl
  fewer := fun _ free => free
  untouched := fun _ _ => rfl
  kernel := fun _ _ _ _ present => ⟨present, fun _ => rfl⟩
  cr3 := rfl

theorem Retypes.used (first : Retypes tier top s changed next)
    (used : s.isFree frame = false) : next.isFree frame = false := by
  cases free : next.isFree frame with
  | false => rfl
  | true =>
      rw [first.fewer frame free] at used
      cases used

/-- A frame with a tier keeps it. -/
theorem Retypes.keeps (first : Retypes tier top s changed next)
    (tiered : Tiered tier top s) (known : tier frame = some own) :
    changed frame = some own := by
  rw [first.kept frame (tiered.used known), known]

theorem Retypes.trans (tiered : Tiered tier top s)
    (first : Retypes tier top s changed next)
    (second : Retypes changed top next final last) :
    Retypes tier top s final last where
  tiered := second.tiered
  kept := by
    intro frame used
    rw [second.kept frame (first.used used), first.kept frame used]
  fewer := fun frame free => first.fewer frame (second.fewer frame free)
  untouched := by
    intro frame free
    rw [second.untouched frame free,
      first.untouched frame (second.fewer frame free)]
  kernel := by
    intro frame level index known present
    have here := first.kernel frame level index known present
    have later := second.kernel frame level index
      (first.keeps tiered known) here.1
    refine ⟨later.1, fun inner => ?_⟩
    rw [later.2 inner, here.2 inner]
  cr3 := second.cr3.trans first.cr3

/-- A store to a table keeps the tiers, unless it clears a present entry of
the kernel or redirects one above its last tables. -/
theorem Retypes.writeWord (tiered : Tiered tier top s)
    (known : tier table = some own)
    (notTop : own = .pml4 → index ≠ 511)
    (points : ∀ lower, own.below index = some lower →
      hasFlag word ptPR = true → tier (frameOf word) = some lower)
    (stays : ∀ level, own = .table .kernel level →
      hasFlag (s.mem table index) ptPR = true →
        hasFlag word ptPR = true ∧ ¬ level < 3) :
    Retypes tier top s tier (s.writeWord table index word) where
  tiered := tiered.writeWord known notTop points
  kept := fun _ _ => rfl
  fewer := fun _ free => free
  untouched := by
    intro frame free
    apply Paging.writeWord_of_ne_frame
    rintro rfl
    rw [tiered.free _ free] at known
    cases known
  kernel := by
    intro frame level place frameTier present
    by_cases same : frame = table ∧ place = index
    · rcases same with ⟨rfl, rfl⟩
      rw [known] at frameTier
      have kept := stays level (Option.some.inj frameTier) present
      rw [Paging.writeWord_same]
      exact ⟨kept.1, fun inner => absurd inner kept.2⟩
    · have unchanged :
          (s.writeWord table index word).mem frame place =
            s.mem frame place :=
        if_neg same
      rw [unchanged]
      exact ⟨present, fun _ => rfl⟩
  cr3 := rfl

/-- A frame that is taken and filled has no tier yet. -/
theorem Retypes.take (tiered : Tiered tier top s)
    (free : s.isFree frame = true) (page : Page) :
    Retypes tier top s tier ((s.unsetFree frame).writePage frame page) where
  tiered := tiered.unsetFree.writePage (tiered.free frame free)
  kept := fun _ _ => rfl
  fewer := by
    intro other still
    rw [Paging.isFree_writePage, Paging.isFree_unsetFree] at still
    exact Bool.and_elim_left still
  untouched := by
    intro other still
    rw [Paging.isFree_writePage, Paging.isFree_unsetFree] at still
    apply Paging.writePage_of_ne
    exact of_decide_eq_true (Bool.and_elim_right still)
  kernel := by
    intro other level index known present
    have different : other ≠ frame := by
      rintro rfl
      rw [tiered.free _ free] at known
      cases known
    rw [Paging.writePage_of_ne different]
    exact ⟨present, fun _ => rfl⟩
  cr3 := rfl

/-- A frame that is taken and left as it is has no tier yet. -/
theorem Retypes.unsetFree (tiered : Tiered tier top s) :
    Retypes tier top s tier (s.unsetFree frame) where
  tiered := tiered.unsetFree
  kept := fun _ _ => rfl
  fewer := by
    intro other still
    rw [Paging.isFree_unsetFree] at still
    exact Bool.and_elim_left still
  untouched := fun _ _ => rfl
  kernel := fun _ _ _ _ present => ⟨present, fun _ => rfl⟩
  cr3 := rfl

/-- A frame that was free before an operation and is in use after it may get
a tier then. -/
theorem Retypes.adopt (first : Retypes tier top s changed next)
    {value : Tier} (free : s.isFree frame = true)
    (noTable : changed frame = none) (used : next.isFree frame = false)
    (root : value = .pml4 → next.mem frame 511 = top)
    (points : ∀ index lower, value.below index = some lower →
      hasFlag (next.mem frame index) ptPR = true →
        changed (frameOf (next.mem frame index)) = some lower) :
    Retypes tier top s (setTier changed frame value) next where
  tiered := first.tiered.adopt noTable used root points
  kept := by
    intro other inUse
    rw [setTier_of_ne, first.kept other inUse]
    rintro rfl
    rw [free] at inUse
    cases inUse
  fewer := first.fewer
  untouched := first.untouched
  kernel := first.kernel
  cr3 := first.cr3

/-- A page without a tier may be filled again. -/
theorem Retypes.writePage (first : Retypes tier top s changed next)
    (tiered : Tiered tier top s) (noTable : changed frame = none)
    (used : next.isFree frame = false) (page : Page) :
    Retypes tier top s changed (next.writePage frame page) where
  tiered := first.tiered.writePage noTable
  kept := first.kept
  fewer := first.fewer
  untouched := by
    intro other free
    rw [Paging.writePage_of_ne, first.untouched other free]
    rintro rfl
    rw [Paging.isFree_writePage, used] at free
    cases free
  kernel := by
    intro other level index known present
    rw [Paging.writePage_of_ne]
    · exact first.kernel other level index known present
    · rintro rfl
      rw [first.keeps tiered known] at noTable
      cases noTable
  cr3 := first.cr3

/-- A word of a page without a tier may be anything. -/
theorem Retypes.writeHeld (first : Retypes tier top s changed next)
    (tiered : Tiered tier top s) (noTable : changed frame = none)
    (used : next.isFree frame = false) (index : Fin 512) (word : Word) :
    Retypes tier top s changed (next.writeWord frame index word) := by
  have asPage : next.writeWord frame index word =
      next.writePage frame fun place =>
        if place = index then word else next.mem frame place := by
    unfold Paging.writeWord Paging.writePage
    congr 1
    funext other place
    by_cases same : other = frame
    · simp [same]
    · simp [same]
  rw [asPage]
  exact first.writePage tiered noTable used _

end Tiers

/-! ## The mappers -/

/-- The tier of the last table on the way to an address. -/
def lastTier (vAddress : Word) : Tier :=
  .table (halfBelow (pml4Index vAddress)) 3

/-- The walk below entry 511 finds a page. -/
def Mapped (top : Word) (s : Paging) (vAddress : Word) : Prop :=
  ∃ pd pt,
    childOf (s.mem (frameOf top) (pdptIndex vAddress)) = some pd ∧
      childOf (s.mem pd (pdIndex vAddress)) = some pt ∧
        hasFlag (s.mem pt (ptIndex vAddress)) ptPR = true

section Mappers

variable {tier changed : Nat → Option Tier} {top : Word}
variable {s next : Paging} {frame table below : Nat} {index : Fin 512}
variable {own lower : Tier} {flags vAddress : Word}

/-- A table below an entry of a tiered table. -/
theorem Tiered.child (tiered : Tiered tier top s)
    (known : tier table = some own) (slot : own.below index = some lower)
    (points : childOf (s.mem table index) = some below) :
    tier below = some lower := by
  obtain ⟨present, rfl⟩ := childOf_eq_some_iff.mp points
  exact tiered.tables table own index lower known slot present

theorem Retypes.child (first : Retypes tier top s changed next)
    {level : Nat} (known : tier table = some (.table .kernel level))
    (inner : level < 3)
    (points : childOf (s.mem table index) = some below) :
    childOf (next.mem table index) = some below := by
  have present := (childOf_eq_some_iff.mp points).1
  rw [(first.kernel table level index known present).2 inner]
  exact points

/-- What is mapped below entry 511 stays mapped. -/
theorem Mapped.kept (mapped : Mapped top s vAddress)
    (tiered : Tiered tier top s)
    (first : Retypes tier top s changed next) :
    Mapped top next vAddress := by
  obtain ⟨pd, pt, toPd, toPt, present⟩ := mapped
  have pdTier : tier pd = some (.table .kernel 2) :=
    tiered.child tiered.base rfl toPd
  have ptTier : tier pt = some (.table .kernel 3) :=
    tiered.child pdTier rfl toPt
  exact ⟨pd, pt, first.child tiered.base (by decide) toPd,
    first.child pdTier (by decide) toPt,
    (first.kernel pt 3 _ ptTier present).1⟩

/-- One level of a mapping ends in a table of the tier below. -/
theorem yields_nextTable_tiered (low : removeFlag flags = 0)
    (flagged : hasFlag flags ptPR = true) (tiered : Tiered tier top s)
    (known : tier table = some own) (slot : own.below index = some lower) :
    Yields AnyFault (nextTable flags table index) s fun below next =>
      ∃ changed, Retypes tier top s changed next ∧
        changed below = some lower ∧
          childOf (next.mem table index) = some below := by
  rw [nextTable, yields_bind, yields_get]
  by_cases present : hasFlag (s.mem table index) ptPR = true
  · rw [if_pos present, yields_pure]
    have points := childOf_eq_some_iff.mpr ⟨present, rfl⟩
    exact ⟨tier, Retypes.refl tiered, tiered.child known slot points,
      points⟩
  · rw [if_neg present, yields_bind]
    apply yields_allocateVirtPage (anyFault _)
    intro frame free
    have small := Paging.lt_of_isFree free
    rw [yields_bind, memsetPage, yields_modify, yields_bind, writeEntry,
      yields_modify, yields_pure,
      kernelFrame_pageAddr (lt_of_lt_frameCount small)]
    have different : table ≠ frame := by
      rintro rfl
      rw [tiered.free _ free] at known
      cases known
    have taken : Retypes tier top s (setTier tier frame lower)
        ((s.unsetFree frame).writePage frame fun _ => 0) := by
      refine (Retypes.take tiered free _).adopt free
        (tiered.free frame free) (by simp [Paging.isFree_unsetFree]) ?_ ?_
      · -- No slot is above a PML4 page.
        rintro rfl
        cases own with
        | pml4 => cases slot
        | table half level =>
            simp only [Tier.below] at slot
            split at slot <;> cases slot
      · intro place deeper _ set
        rw [Paging.writePage_same] at set
        exact absurd set (by decide)
    have points := childOf_entryOf small low flagged
    have linked : Retypes tier top s (setTier tier frame lower)
        (((s.unsetFree frame).writePage frame fun _ => 0).writeWord table
          index (entryOf frame flags)) := by
      refine taken.trans tiered (Retypes.writeWord taken.tiered
        (taken.keeps tiered known) ?_ ?_ ?_)
      · rintro rfl rfl
        rw [tiered.roots table known] at present
        exact present tiered.present
      · intro other otherSlot _
        rw [slot] at otherSlot
        cases otherSlot
        rw [(childOf_eq_some_iff.mp points).2]
        exact setTier_same
      · intro level _ set
        rw [Paging.writePage_of_ne different] at set
        exact absurd set present
    refine ⟨_, linked, setTier_same, ?_⟩
    rw [Paging.writeWord_same]
    exact points

/-- The three levels of both mappers end in a last table of the address. -/
theorem yields_tables {root : Nat} {rest : Nat → PagingM Unit}
    {post : Unit → Paging → Prop} (low : removeFlag flags = 0)
    (flagged : hasFlag flags ptPR = true) (tiered : Tiered tier top s)
    (rooted : tier root = some .pml4)
    (continues : ∀ changed pt next, Retypes tier top s changed next →
      changed pt = some (lastTier vAddress) →
        (pml4Index vAddress = 511 → ∃ pd,
          childOf (next.mem (frameOf top) (pdptIndex vAddress)) = some pd ∧
            childOf (next.mem pd (pdIndex vAddress)) = some pt) →
          Yields AnyFault (rest pt) next post) :
    Yields AnyFault
      (do
        let pdpt ← nextTable flags root (pml4Index vAddress)
        let pd ← nextTable flags pdpt (pdptIndex vAddress)
        let pt ← nextTable flags pd (pdIndex vAddress)
        rest pt) s post := by
  rw [yields_bind]
  apply (yields_nextTable_tiered low flagged tiered rooted rfl).mono
  rintro pdpt one ⟨oneTier, toOne, pdptTier, toPdpt⟩
  rw [yields_bind]
  apply (yields_nextTable_tiered low flagged toOne.tiered pdptTier
    rfl).mono
  rintro pd two ⟨twoTier, toTwo, pdTier, toPd⟩
  rw [yields_bind]
  apply (yields_nextTable_tiered low flagged toTwo.tiered pdTier
    rfl).mono
  rintro pt three ⟨threeTier, toThree, ptTier, toPt⟩
  refine continues threeTier pt three
    ((toOne.trans tiered toTwo).trans tiered toThree) ptTier fun kernel => ?_
  have half : halfBelow (pml4Index vAddress) = .kernel := if_pos kernel
  have isBase : frameOf top = pdpt := by
    rw [kernel, toOne.tiered.roots root (toOne.keeps tiered rooted)] at toPdpt
    exact (childOf_eq_some_iff.mp toPdpt).2
  rw [isBase]
  have pdptNow : twoTier pdpt = some (.table .kernel 1) := by
    rw [toTwo.keeps toOne.tiered pdptTier, half]
  exact ⟨pd, toThree.child pdptNow (by decide) toPd, toPt⟩

/-- The leaf entry of a mapping may point anywhere. -/
theorem Retypes.writeLeaf {half : Half} {word : Word}
    (tiered : Tiered tier top s)
    (known : tier table = some (.table half 3))
    (set : half = .kernel → hasFlag word ptPR = true) :
    Retypes tier top s tier (s.writeWord table index word) := by
  refine Retypes.writeWord tiered known (by rintro ⟨⟩) ?_ ?_
  · rintro lower ⟨⟩
  · intro level same _
    cases same
    exact ⟨set rfl, by decide⟩

/-- `map_phys_to_virt_addr` keeps the tiers, for every address. -/
theorem yields_mapPhysToVirtAddr_tiered {phys : Word}
    (tiered : Tiered tier top s)
    (rooted : tier (kernelFrame s.cr3) = some .pml4) :
    Yields AnyFault (mapPhysToVirtAddr vAddress phys) s fun _ next =>
      (∃ changed, Retypes tier top s changed next) ∧
        (pml4Index vAddress = 511 → Mapped top next vAddress) := by
  rw [mapPhysToVirtAddr, yields_bind, yields_get]
  apply yields_tables (by decide) (by decide) tiered rooted
  intro changed pt next first ptTier walk
  rw [writeEntry, yields_modify]
  have set : hasFlag (phys ||| (ptPR ||| ptWR)) ptPR = true := by
    rw [hasFlag_or, Bool.or_eq_true]
    exact Or.inr (by decide)
  have written : Retypes changed top next changed
      (next.writeWord pt (ptIndex vAddress) (phys ||| (ptPR ||| ptWR))) :=
    Retypes.writeLeaf first.tiered ptTier fun _ => set
  refine ⟨⟨changed, first.trans tiered written⟩, fun kernel => ?_⟩
  obtain ⟨pd, toPd, toPt⟩ := walk kernel
  have pdTier : changed pd = some (.table .kernel 2) :=
    first.tiered.child first.tiered.base rfl toPd
  refine ⟨pd, pt, written.child first.tiered.base (by decide) toPd,
    written.child pdTier (by decide) toPt, ?_⟩
  rw [Paging.writeWord_same]
  exact set

/-- `map_phys_to_user_virt_addr` keeps the tiers. -/
theorem yields_mapPhysToUserVirtAddr_tiered {phys cr3Addr : Word}
    (tiered : Tiered tier top s)
    (rooted : tier (kernelFrame cr3Addr) = some .pml4) :
    Yields AnyFault (mapPhysToUserVirtAddr vAddress phys cr3Addr) s
      fun _ next => ∃ changed, Retypes tier top s changed next := by
  rw [mapPhysToUserVirtAddr]
  apply yields_tables (by decide) (by decide) tiered rooted
  intro changed pt next first ptTier _
  rw [yields_bind]
  apply yields_allocateVirtPage (anyFault _)
  intro frame free
  have small := Paging.lt_of_isFree free
  rw [yields_bind, memsetPage, yields_modify, yields_bind, memcpyPage,
    yields_modify, writeEntry, yields_modify,
    kernelFrame_pageAddr (lt_of_lt_frameCount small)]
  have cleared := Retypes.take first.tiered free fun _ => 0
  have filled := cleared.writePage first.tiered
    (first.tiered.free frame free) (by simp [Paging.isFree_unsetFree])
    (((next.unsetFree frame).writePage frame fun _ => 0).mem
      (kernelFrame phys))
  have set : hasFlag (entryOf frame userFlags) ptPR = true := by
    rw [hasFlag_entryOf _ _ (by decide)]
    decide
  exact ⟨changed, (first.trans tiered filled).trans tiered
    (Retypes.writeLeaf filled.tiered ptTier fun _ => set)⟩

/-- `kmalloc` keeps the tiers and maps its frames below entry 511. -/
theorem yields_kmallocPages_tiered :
    ∀ (count : Nat) {tier : Nat → Option Tier} {s : Paging},
      Tiered tier top s → tier (kernelFrame s.cr3) = some .pml4 →
        Yields AnyFault (kmallocPages count) s fun frames next =>
          ∃ changed, Retypes tier top s changed next ∧
            ∀ frame ∈ frames, Mapped top next (linearAddr frame)
  | 0, tier, _, tiered, _ =>
      ⟨tier, Retypes.refl tiered, fun _ member => absurd member
        List.not_mem_nil⟩
  | count + 1, tier, s, tiered, rooted => by
      rw [kmallocPages, yields_bind]
      apply yields_allocateVirtPage (anyFault _)
      intro frame free
      have small := lt_of_lt_frameCount (Paging.lt_of_isFree free)
      have taken : Retypes tier top s tier (s.unsetFree frame) :=
        Retypes.unsetFree tiered
      have inUse : (s.unsetFree frame).isFree frame = false := by
        simp [Paging.isFree_unsetFree]
      rw [yields_bind]
      apply (yields_mapPhysToVirtAddr_tiered taken.tiered rooted).mono
      rintro _ mapped ⟨⟨changed, first⟩, linear⟩
      have noTable : changed frame = none := by
        rw [first.kept frame inUse, tiered.free frame free]
      rw [yields_bind, memsetPage, yields_modify, kernelFrame_pageAddr small]
      have cleared := (Retypes.refl first.tiered).writePage
        first.tiered noTable (first.used inUse) fun _ => 0
      have toCleared := (taken.trans tiered first).trans tiered cleared
      have here : Mapped top (mapped.writePage frame fun _ => 0)
          (linearAddr frame) :=
        (linear (pml4Index_kernelAddr _)).kept first.tiered cleared
      rw [yields_bind]
      refine (yields_kmallocPages_tiered count cleared.tiered
        ?_).mono ?_
      · rw [toCleared.cr3]
        exact toCleared.keeps tiered rooted
      rintro later next ⟨final, rest, all⟩
      rw [yields_pure]
      refine ⟨final, toCleared.trans tiered rest, ?_⟩
      intro other member
      rcases List.mem_cons.mp member with rfl | behind
      · exact here.kept cleared.tiered rest
      · exact all other behind

theorem yields_kmalloc_tiered (size : Int) (tiered : Tiered tier top s)
    (rooted : tier (kernelFrame s.cr3) = some .pml4) :
    Yields AnyFault (kmalloc size) s fun block next =>
      ∃ changed, Retypes tier top s changed next ∧
        ∀ frame ∈ block.2, Mapped top next (linearAddr frame) := by
  rw [kmalloc, yields_bind]
  apply (yields_kmallocPages_tiered (numPage size) tiered rooted).mono
  rintro frames next kept
  rw [yields_pure]
  exact kept

/-- `create_user_address_space` returns one more PML4 page. -/
theorem yields_createUserAddressSpace_tiered (tiered : Tiered tier top s)
    (rooted : tier (kernelFrame s.cr3) = some .pml4) :
    Yields AnyFault createUserAddressSpace s fun cr3Addr next =>
      ∃ changed, Retypes tier top s changed next ∧
        changed (kernelFrame cr3Addr) = some .pml4 := by
  rw [createUserAddressSpace, yields_bind]
  apply yields_allocateVirtPage (anyFault _)
  intro frame free
  have small := lt_of_lt_frameCount (Paging.lt_of_isFree free)
  have taken : Retypes tier top s tier (s.unsetFree frame) :=
    Retypes.unsetFree tiered
  have inUse : (s.unsetFree frame).isFree frame = false := by
    simp [Paging.isFree_unsetFree]
  rw [yields_bind]
  apply (yields_mapPhysToVirtAddr_tiered taken.tiered rooted).mono
  rintro _ mapped ⟨⟨changed, first⟩, -⟩
  have toMapped := taken.trans tiered first
  have noTable : changed frame = none := by
    rw [first.kept frame inUse, tiered.free frame free]
  have usedNow := first.used inUse
  rw [yields_bind, memsetPage, yields_modify, yields_bind, yields_get,
    yields_bind, writeEntry, yields_modify, yields_pure,
    kernelFrame_pageAddr small]
  have rootNow : changed (kernelFrame mapped.cr3) = some .pml4 := by
    rw [toMapped.cr3]
    exact toMapped.keeps tiered rooted
  have different : kernelFrame mapped.cr3 ≠ frame := by
    intro same
    rw [same, noTable] at rootNow
    cases rootNow
  have copied : (mapped.writePage frame fun _ => 0).mem
      (kernelFrame mapped.cr3) 511 = top := by
    rw [Paging.writePage_of_ne different]
    exact first.tiered.roots _ rootNow
  rw [Paging.writePage_cr3, copied]
  have filled := (toMapped.writePage tiered noTable usedNow
    fun _ => 0).writeHeld tiered noTable usedNow 511 top
  refine ⟨_, filled.adopt free noTable usedNow ?_ ?_, setTier_same⟩
  · intro _
    exact Paging.writeWord_same
  · intro index lower slot set
    by_cases last : index = 511
    · subst last
      rw [Paging.writeWord_same]
      cases slot
      exact first.tiered.base
    · rw [Paging.writeWord_of_ne_index last, Paging.writePage_same] at set
      exact absurd set (by decide)

end Mappers

/-! ## The copy of a fork -/

/-- No frame is given back, and CR3 stays. -/
structure OnlyTakes (s next : Paging) : Prop where
  fewer : ∀ frame, next.isFree frame = true → s.isFree frame = true
  cr3 : next.cr3 = s.cr3

/-- The frames taken between two states held no present entry before. -/
def CleanTaken (s next : Paging) : Prop :=
  ∀ frame, s.isFree frame = true → next.isFree frame = false →
    ∀ index, hasFlag (s.mem frame index) ptPR = false

section Takes

variable {s next last : Paging}

theorem OnlyTakes.refl (s : Paging) : OnlyTakes s s :=
  ⟨fun _ free => free, rfl⟩

theorem OnlyTakes.trans (s next last : Paging) (first : OnlyTakes s next)
    (second : OnlyTakes next last) : OnlyTakes s last where
  fewer := fun frame free => first.fewer frame (second.fewer frame free)
  cr3 := second.cr3.trans first.cr3

theorem OnlyTakes.used (first : OnlyTakes s next) {frame : Nat}
    (used : s.isFree frame = false) : next.isFree frame = false := by
  cases free : next.isFree frame with
  | false => rfl
  | true =>
      rw [first.fewer frame free] at used
      cases used

theorem onlyTakes_allocateVirtPage : Keeps OnlyTakes allocateVirtPage := by
  intro s page next returned
  obtain ⟨frame, _, _, rfl⟩ := allocateVirtPage_eq_ok returned
  refine ⟨fun other still => ?_, rfl⟩
  rw [Paging.isFree_unsetFree] at still
  exact Bool.and_elim_left still

theorem onlyTakes_writeEntry (table : Nat) (index : Fin 512) (entry : Word) :
    Keeps OnlyTakes (writeEntry table index entry) :=
  keeps_modify fun _ => ⟨fun _ free => free, rfl⟩

theorem onlyTakes_copyPt (pt cPt : Nat) :
    Keeps OnlyTakes (copyPt pt cPt) := by
  apply keeps_forUpto OnlyTakes.refl OnlyTakes.trans
  intro i
  apply keeps_bind OnlyTakes.trans (keeps_get OnlyTakes.refl)
  intro s
  apply keeps_ite
  · exact keeps_bind OnlyTakes.trans (onlyTakes_writeEntry _ _ _) fun _ =>
      keeps_bind OnlyTakes.trans (onlyTakes_writeEntry _ _ _) fun _ =>
        onlyTakes_writeEntry _ _ _
  · exact keeps_pure OnlyTakes.refl _

/-- One pass of an outer loop of `copy_parent_tables`. -/
def copyEntry (below : Nat → Nat → PagingM Unit) (table cTable : Nat)
    (index : Fin 512) : PagingM Unit := do
  let entry := (← get).mem table index
  if hasFlag entry ptPR then
    let child ← allocateVirtPage
    writeEntry cTable index (child ||| userFlags)
    below (frameOf entry) (kernelFrame child)

theorem copyLevel_eq (count : Nat) (below : Nat → Nat → PagingM Unit)
    (table cTable : Nat) :
    copyLevel count below table cTable =
      forUpto count fun i => copyEntry below table cTable (Fin.ofNat 512 i) :=
  rfl

variable {below : Nat → Nat → PagingM Unit}

theorem onlyTakes_copyEntry
    (takes : ∀ table cTable, Keeps OnlyTakes (below table cTable))
    (table cTable : Nat) (index : Fin 512) :
    Keeps OnlyTakes (copyEntry below table cTable index) := by
  apply keeps_bind OnlyTakes.trans (keeps_get OnlyTakes.refl)
  intro s
  apply keeps_ite
  · exact keeps_bind OnlyTakes.trans onlyTakes_allocateVirtPage fun _ =>
      keeps_bind OnlyTakes.trans (onlyTakes_writeEntry _ _ _) fun _ =>
        takes _ _
  · exact keeps_pure OnlyTakes.refl _

theorem onlyTakes_copyLevel (count : Nat)
    (takes : ∀ table cTable, Keeps OnlyTakes (below table cTable))
    (table cTable : Nat) :
    Keeps OnlyTakes (copyLevel count below table cTable) := by
  rw [copyLevel_eq]
  exact keeps_forUpto OnlyTakes.refl OnlyTakes.trans
    (fun i => onlyTakes_copyEntry takes table cTable (Fin.ofNat 512 i)) count

/-- The first part of clean work is clean. -/
theorem CleanTaken.first (clean : CleanTaken s last)
    (second : OnlyTakes next last) : CleanTaken s next := by
  intro frame free taken index
  exact clean frame free (second.used taken) index

end Takes

section Copy

variable {tier changed : Nat → Option Tier} {top : Word}
variable {s next last : Paging} {table cTable level : Nat}
variable {index : Fin 512} {own lower : Tier}
variable {below : Nat → Nat → PagingM Unit}

/-- So is the rest of it, when the first part kept the free frames. -/
theorem CleanTaken.rest (clean : CleanTaken s last)
    (first : Retypes tier top s changed next) : CleanTaken next last := by
  intro frame free taken index
  rw [first.untouched frame free]
  exact clean frame (first.fewer frame free) taken index

/-- What a table of the copy loops is filled with: it may not be one of the
kernel's. -/
theorem Retypes.linkUser {word : Word} (tiered : Tiered tier top s)
    (known : tier table = some own)
    (slot : own.below index = some (.table .user level))
    (points : tier (frameOf word) = some (.table .user level)) :
    Retypes tier top s tier (s.writeWord table index word) := by
  refine Retypes.writeWord tiered known ?_ ?_ ?_
  · rintro rfl rfl
    cases slot
  · intro other otherSlot _
    rw [slot] at otherSlot
    rw [← otherSlot]
    exact points
  · rintro kernelLevel rfl _
    simp only [Tier.below] at slot
    split at slot <;> cases slot

/-- What the loops below an entry do, when they only fill clean frames. -/
def CopiesTier (top : Word) (lower : Tier)
    (below : Nat → Nat → PagingM Unit) : Prop :=
  ∀ {tier : Nat → Option Tier} {s : Paging} {table cTable : Nat},
    Tiered tier top s → tier table = some lower →
      tier cTable = some lower →
        Yields AnyFault (below table cTable) s fun _ next =>
          CleanTaken s next → ∃ changed, Retypes tier top s changed next

theorem copiesTier_copyPt (top : Word) :
    CopiesTier top (.table .user 3) copyPt := by
  intro tier s pt cPt tiered ptTier cPtTier
  have copied : Yields AnyFault (copyPt pt cPt) s fun _ next =>
      Retypes tier top s tier next := by
    unfold copyPt
    refine yields_forUpto (fun _ current => Retypes tier top s tier current)
      512 (Retypes.refl tiered) fun i _ current first => ?_
    rw [yields_bind, yields_get, yields_ite]
    refine ⟨fun _ => ?_, fun _ => first⟩
    rw [yields_bind, writeEntry, yields_modify, yields_bind, writeEntry,
      yields_modify, writeEntry, yields_modify]
    have writes : ∀ {now : Paging} {pt : Nat} (word : Word),
        Retypes tier top s tier now →
          tier pt = some (.table .user 3) →
            Retypes tier top s tier
              (now.writeWord pt (Fin.ofNat 512 i) word) := by
      intro now pt word before known
      exact before.trans tiered
        (Retypes.writeLeaf before.tiered known (by rintro ⟨⟩))
    exact writes _ (writes _ (writes _ first ptTier) ptTier) cPtTier
  exact copied.mono fun _ next retypes _ => ⟨tier, retypes⟩

theorem yields_copyEntry
    (slot : own.below index = some (.table .user level))
    (takes : ∀ table cTable, Keeps OnlyTakes (below table cTable))
    (copies : CopiesTier top (.table .user level) below)
    (tiered : Tiered tier top s) (known : tier table = some own)
    (cKnown : tier cTable = some own) :
    Yields AnyFault (copyEntry below table cTable index) s fun _ next =>
      CleanTaken s next → ∃ changed, Retypes tier top s changed next := by
  rw [copyEntry, yields_bind, yields_get, yields_ite]
  refine ⟨fun present => ?_, fun _ _ => ⟨tier, Retypes.refl tiered⟩⟩
  rw [yields_bind]
  apply yields_allocateVirtPage (anyFault _)
  intro frame free
  have small := Paging.lt_of_isFree free
  have taken : (s.unsetFree frame).isFree frame = false := by
    simp [Paging.isFree_unsetFree]
  rw [yields_bind, writeEntry, yields_modify,
    kernelFrame_pageAddr (lt_of_lt_frameCount small)]
  by_cases clean : ∀ index, hasFlag (s.mem frame index) ptPR = false
  · have adopted : Retypes tier top s
        (setTier tier frame (.table .user level)) (s.unsetFree frame) := by
      refine (Retypes.unsetFree tiered).adopt free (tiered.free frame free)
        taken (by rintro ⟨⟩) ?_
      intro place deeper _ set
      rw [Paging.unsetFree_mem, clean place] at set
      cases set
    have target : frameOf (entryOf frame userFlags) = frame :=
      Owned.eq_frameOf small (removeFlag_entryOf frame (by decide))
    have linked := adopted.trans tiered
      (Retypes.linkUser adopted.tiered (adopted.keeps tiered cKnown) slot
        (by rw [target]; exact setTier_same))
    have parentTier :=
      linked.keeps tiered
        (tiered.tables table own index _ known slot present)
    apply (copies linked.tiered parentTier setTier_same).mono
    intro _ last retypes cleanTaken
    obtain ⟨final, second⟩ := retypes (cleanTaken.rest linked)
    exact ⟨final, linked.trans tiered second⟩
  · apply yields_anyFault.mpr
    intro _ last returned cleanTaken
    have later := takes _ _ _ _ _ returned
    exact absurd (cleanTaken frame free (later.used taken)) clean

theorem copiesTier_copyLevel {count : Nat}
    (slots : ∀ i, i < count →
      own.below (Fin.ofNat 512 i) = some (.table .user level))
    (takes : ∀ table cTable, Keeps OnlyTakes (below table cTable))
    (copies : CopiesTier top (.table .user level) below) :
    CopiesTier top own (copyLevel count below) := by
  intro tier s table cTable tiered known cKnown
  rw [copyLevel_eq]
  refine (yields_forUpto (fun _ current => OnlyTakes s current ∧
      (CleanTaken s current →
        ∃ changed, Retypes tier top s changed current))
    count ⟨OnlyTakes.refl s, fun _ => ⟨tier, Retypes.refl tiered⟩⟩
    fun i inside current => ?_).mono fun _ _ => And.right
  rintro ⟨before, retyped⟩
  have passes := onlyTakes_copyEntry takes table cTable (Fin.ofNat 512 i)
  by_cases clean : CleanTaken s current
  · obtain ⟨changed, first⟩ := retyped clean
    apply (passes.yields (yields_copyEntry (slots i inside) takes copies
      first.tiered (first.keeps tiered known)
      (first.keeps tiered cKnown))).mono
    rintro _ next ⟨later, retypes⟩
    refine ⟨before.trans _ _ _ later, fun cleanNext => ?_⟩
    obtain ⟨final, second⟩ := retypes (cleanNext.rest first)
    exact ⟨final, first.trans tiered second⟩
  · apply yields_anyFault.mpr
    intro _ next returned
    have later := passes _ _ _ returned
    exact ⟨before.trans _ _ _ later, fun cleanNext =>
      absurd (cleanNext.first later) clean⟩

theorem userSlot (i : Nat) (inside : i < 511) :
    Tier.pml4.below (Fin.ofNat 512 i) = some (.table .user 1) := by
  have notLast : Fin.ofNat 512 i ≠ 511 := by
    intro same
    have value := congrArg Fin.val same
    simp only [Fin.ofNat] at value
    omega
  rw [Tier.below, halfBelow, if_neg notLast]

/-- `copy_parent_tables` keeps the tiers, if it fills clean frames. -/
theorem yields_copyParentTables_tiered {cr3Addr : Word}
    (tiered : Tiered tier top s)
    (rooted : tier (kernelFrame s.cr3) = some .pml4)
    (cRooted : tier (kernelFrame cr3Addr) = some .pml4) :
    Yields AnyFault (copyParentTables cr3Addr) s fun _ next =>
      CleanTaken s next → ∃ changed, Retypes tier top s changed next := by
  have copiesPd : CopiesTier top (.table .user 2) copyPd :=
    copiesTier_copyLevel (fun _ _ => rfl) onlyTakes_copyPt
      (copiesTier_copyPt top)
  have takesPd := onlyTakes_copyLevel 512 onlyTakes_copyPt
  have copiesPdpt : CopiesTier top (.table .user 1) copyPdpt :=
    copiesTier_copyLevel (fun _ _ => rfl) takesPd copiesPd
  have takesPdpt := onlyTakes_copyLevel 512 takesPd
  have copiesPml4 : CopiesTier top .pml4 copyPml4 :=
    copiesTier_copyLevel userSlot takesPdpt copiesPdpt
  rw [copyParentTables, yields_bind, yields_get, yields_bind]
  apply (copiesPml4 tiered rooted cRooted).mono
  intro _ copied retypes
  rw [yields_bind, yields_get, writeEntry, yields_modify]
  intro clean
  obtain ⟨changed, first⟩ := retypes clean
  have same : copied.mem (kernelFrame s.cr3) 511 =
      copied.mem (kernelFrame cr3Addr) 511 := by
    rw [first.tiered.roots _ (first.keeps tiered rooted),
      first.tiered.roots _ (first.keeps tiered cRooted)]
  have rewritten : copied.writeWord (kernelFrame cr3Addr) 511
      (copied.mem (kernelFrame s.cr3) 511) = copied := by
    rw [same]
    unfold Paging.writeWord
    congr 1
    funext frame place
    split
    · next here => rw [here.1, here.2]
    · rfl
  rw [rewritten]
  exact ⟨changed, first⟩

end Copy

/-! ## Runs -/

/-- The operations on the tables of all address spaces; those without an
address space work on the tables in CR3. -/
inductive SpaceRequest where
  | create
  | copy (cr3Addr : Word)
  | mapKernel (vAddress phys : Word)
  | kmalloc (size : Int)
  | mapUser (vAddress phys cr3Addr : Word)
  | switch (cr3Addr : Word)

namespace SpaceRequest

def serve : SpaceRequest → AllocationM Unit
  | .create => do
      let cr3Addr ← inPaging createUserAddressSpace
      modify fun m => { m with spaces := cr3Addr :: m.spaces }
  | .copy cr3Addr => inPaging (copyParentTables cr3Addr)
  | .mapKernel vAddress phys => inPaging (mapPhysToVirtAddr vAddress phys)
  | .kmalloc size => do
      let block ← inPaging (SbuUnix.kmalloc size)
      modify fun m => { m with kmalloced := block.2 ++ m.kmalloced }
  | .mapUser vAddress phys cr3Addr =>
      inPaging (mapPhysToUserVirtAddr vAddress phys cr3Addr)
  | .switch cr3Addr => inPaging (setCR3 cr3Addr)

/-- The address spaces are those created so far, and user pages lie outside
entry 511. -/
def Permitted : SpaceRequest → Allocation → Prop
  | .create, _ => True
  | .copy cr3Addr, m => cr3Addr ∈ m.spaces
  | .mapKernel _ _, _ => True
  | .kmalloc _, _ => True
  | .mapUser vAddress _ cr3Addr, m =>
      pml4Index vAddress ≠ 511 ∧ cr3Addr ∈ m.spaces
  | .switch cr3Addr, m => cr3Addr ∈ m.spaces

/-- A copy fills no frame that holds a present entry when it starts. -/
def FillsClean (request : SpaceRequest) (m : Allocation) : Prop :=
  ∀ cr3Addr, request = .copy cr3Addr →
    ∀ next, serve request m = .ok ((), next) →
      CleanTaken m.paging next.paging

end SpaceRequest

/-- The boot tables: the PML4 page in CR3 has a present entry 511, and no
table is free or of two tiers. -/
structure BootTables (m : Allocation) : Prop where
  spaces : m.spaces = [m.paging.cr3]
  kmalloced : m.kmalloced = []
  tables : ∃ tier, Tiered tier
    (m.paging.mem (kernelFrame m.paging.cr3) 511) m.paging ∧
      tier (kernelFrame m.paging.cr3) = some .pml4

/-- The walk of an address in the address space of a CR3 value. -/
def Allocation.translate (m : Allocation) (cr3Addr need vAddress : Word) :
    Option Word :=
  { m.paging with cr3 := cr3Addr }.translate need vAddress

/-- All address spaces share the kernel half, with the blocks of `kmalloc`
in it. -/
structure KernelCoherent (m : Allocation) : Prop where
  entries : ∀ cr3Addr ∈ m.spaces, ∀ otherCr3 ∈ m.spaces,
    m.paging.mem (kernelFrame cr3Addr) 511 =
      m.paging.mem (kernelFrame otherCr3) 511
  translations : ∀ cr3Addr ∈ m.spaces, ∀ otherCr3 ∈ m.spaces,
    ∀ need vAddress, pml4Index vAddress = 511 →
      m.translate cr3Addr need vAddress = m.translate otherCr3 need vAddress
  blocks : ∀ frame ∈ m.kmalloced, ∀ cr3Addr ∈ m.spaces, ∀ vAddress,
    removeFlag vAddress = linearAddr frame →
      (m.translate cr3Addr ptPR vAddress).isSome = true

/-- The invariant of the runs. -/
structure Shared (tier : Nat → Option Tier) (top : Word) (m : Allocation) :
    Prop where
  tiered : Tiered tier top m.paging
  roots : ∀ cr3Addr ∈ m.spaces, tier (kernelFrame cr3Addr) = some .pml4
  current : m.paging.cr3 ∈ m.spaces
  mapped : ∀ frame ∈ m.kmalloced, Mapped top m.paging (linearAddr frame)

/-- No free frame holds a present entry. -/
def FreeClean (s : Paging) : Prop :=
  ∀ frame, s.isFree frame = true → ∀ index,
    hasFlag (s.mem frame index) ptPR = false

section Runs

variable {tier changed : Nat → Option Tier} {top : Word} {m : Allocation}

theorem Retypes.freeClean {s next : Paging}
    (first : Retypes tier top s changed next) (clean : FreeClean s) :
    FreeClean next := by
  intro frame free index
  rw [first.untouched frame free]
  exact clean frame (first.fewer frame free) index

theorem Shared.rooted (shared : Shared tier top m) :
    tier (kernelFrame m.paging.cr3) = some .pml4 :=
  shared.roots _ shared.current

theorem Shared.retype (shared : Shared tier top m) {next : Paging}
    (retypes : Retypes tier top m.paging changed next) :
    Shared changed top { m with paging := next } where
  tiered := retypes.tiered
  roots := fun cr3Addr member =>
    retypes.keeps shared.tiered (shared.roots cr3Addr member)
  current := by
    rw [retypes.cr3]
    exact shared.current
  mapped := fun frame member =>
    (shared.mapped frame member).kept shared.tiered retypes

/-- Every operation keeps the address spaces together, and clean free frames
clean. -/
theorem yields_serve_shared {request : SpaceRequest}
    (shared : Shared tier top m) (permitted : request.Permitted m)
    (clean : request.FillsClean m) :
    Yields AnyFault request.serve m fun _ next =>
      (∃ changed, Shared changed top next) ∧
        (FreeClean m.paging → FreeClean next.paging) := by
  have tiered := shared.tiered
  have rooted := shared.rooted
  cases request with
  | create =>
      rw [SpaceRequest.serve, yields_bind, yields_inPaging]
      apply (yields_createUserAddressSpace_tiered tiered rooted).mono
      rintro cr3Addr next ⟨changed, retypes, newRoot⟩
      have later := shared.retype retypes
      rw [yields_modify]
      refine ⟨⟨changed, { later with roots := ?_, current := ?_ }⟩,
        retypes.freeClean⟩
      · intro other member
        rcases List.mem_cons.mp member with rfl | old
        · exact newRoot
        · exact later.roots other old
      · exact List.mem_cons_of_mem _ later.current
  | copy cr3Addr =>
      have ending : Yields AnyFault (SpaceRequest.serve (.copy cr3Addr)) m
          fun _ next => CleanTaken m.paging next.paging →
            (∃ changed, Shared changed top next) ∧
              (FreeClean m.paging → FreeClean next.paging) := by
        rw [SpaceRequest.serve, yields_inPaging]
        apply (yields_copyParentTables_tiered tiered rooted
          (shared.roots cr3Addr permitted)).mono
        intro _ next retypes cleanTaken
        obtain ⟨changed, first⟩ := retypes cleanTaken
        exact ⟨⟨changed, shared.retype first⟩, first.freeClean⟩
      apply ending.returned.mono
      rintro _ next ⟨returned, keeps⟩
      exact keeps (clean cr3Addr rfl next returned)
  | mapKernel vAddress phys =>
      rw [SpaceRequest.serve, yields_inPaging]
      apply (yields_mapPhysToVirtAddr_tiered tiered rooted).mono
      rintro _ next ⟨⟨changed, retypes⟩, -⟩
      exact ⟨⟨changed, shared.retype retypes⟩, retypes.freeClean⟩
  | kmalloc size =>
      rw [SpaceRequest.serve, yields_bind, yields_inPaging]
      apply (yields_kmalloc_tiered size tiered rooted).mono
      rintro block next ⟨changed, retypes, linear⟩
      have later := shared.retype retypes
      rw [yields_modify]
      refine ⟨⟨changed, { later with mapped := ?_ }⟩, retypes.freeClean⟩
      intro frame member
      rcases List.mem_append.mp member with new | old
      · exact linear frame new
      · exact later.mapped frame old
  | mapUser vAddress phys cr3Addr =>
      rw [SpaceRequest.serve, yields_inPaging]
      apply (yields_mapPhysToUserVirtAddr_tiered tiered
        (shared.roots cr3Addr permitted.2)).mono
      rintro _ next ⟨changed, retypes⟩
      exact ⟨⟨changed, shared.retype retypes⟩, retypes.freeClean⟩
  | switch cr3Addr =>
      rw [SpaceRequest.serve, yields_inPaging, setCR3, yields_modify]
      have switched : Tiered tier top { m.paging with cr3 := cr3Addr } :=
        ⟨tiered.present, tiered.base, tiered.roots, tiered.tables,
          tiered.free⟩
      exact ⟨⟨tier, switched, shared.roots, permitted, shared.mapped⟩,
        fun freeClean => freeClean⟩

/-- What lies below entry 511 is mapped in every address space. -/
theorem Mapped.isSome {s : Paging} {root : Nat} {vAddress : Word}
    (mapped : Mapped top s vAddress) (kernel : pml4Index vAddress = 511)
    (entry : s.mem root 511 = top) (present : hasFlag top ptPR = true) :
    (mmuWalk s.mem ptPR root (pageOf vAddress).reverse).isSome = true := by
  obtain ⟨pd, pt, toPd, toPt, leaf⟩ := mapped
  have toPdpt : childOf (s.mem root 511) = some (frameOf top) := by
    rw [entry]
    exact childOf_eq_some_iff.mpr ⟨present, rfl⟩
  rw [mmuWalk_ptPR_eq_lookup]
  simp only [pageOf, kernel, lookup, tableAt, Option.bind_some, toPdpt, toPd,
    toPt, childOf_isSome, leaf]
  simp

theorem Shared.kernelCoherent (shared : Shared tier top m) :
    KernelCoherent m := by
  have entries : ∀ cr3Addr ∈ m.spaces,
      m.paging.mem (kernelFrame cr3Addr) 511 = top := fun cr3Addr member =>
    shared.tiered.roots _ (shared.roots cr3Addr member)
  constructor
  · intro cr3Addr member otherCr3 otherMember
    rw [entries cr3Addr member, entries otherCr3 otherMember]
  · intro cr3Addr member otherCr3 otherMember need vAddress kernel
    simp only [Allocation.translate, Paging.translate, pageOf,
      List.reverse_cons, List.reverse_nil, List.nil_append, List.cons_append,
      mmuWalk, kernel, entries cr3Addr member, entries otherCr3 otherMember]
  · intro frame block cr3Addr member vAddress page
    have samePage : pageOf vAddress = pageOf (linearAddr frame) := by
      rw [← pageOf_removeFlag, page]
    rw [Allocation.translate, Paging.translate, samePage]
    exact (shared.mapped frame block).isSome (pml4Index_kernelAddr _)
      (entries cr3Addr member) shared.tiered.present

theorem BootTables.shared (boot : BootTables m) :
    ∃ tier, Shared tier (m.paging.mem (kernelFrame m.paging.cr3) 511) m := by
  obtain ⟨tier, tiered, rooted⟩ := boot.tables
  refine ⟨tier, tiered, ?_, ?_, ?_⟩
  · intro cr3Addr member
    rw [boot.spaces, List.mem_singleton] at member
    rw [member, rooted]
  · rw [boot.spaces]
    exact List.mem_singleton.mpr rfl
  · intro frame member
    rw [boot.kmalloced] at member
    exact absurd member List.not_mem_nil

theorem Shared.serve {request : SpaceRequest} {next : Allocation}
    (shared : ∃ tier, Shared tier top m)
    (condition : request.Permitted m ∧ request.FillsClean m)
    (returned : request.serve m = .ok ((), next)) :
    (∃ changed, Shared changed top next) ∧
      (FreeClean m.paging → FreeClean next.paging) := by
  obtain ⟨tier, shared⟩ := shared
  have kept :=
    yields_of_ok (yields_serve_shared shared condition.1 condition.2) returned
  exact kept

/-- Clean free frames are enough: the operations give no frame back. -/
theorem eachMeets_fillsClean (requests : List SpaceRequest) :
    ∀ {m : Allocation}, (∃ tier, Shared tier top m) →
      FreeClean m.paging →
      EachMeets SpaceRequest.serve SpaceRequest.Permitted requests m →
        EachMeets SpaceRequest.serve
          (fun request m => request.Permitted m ∧ request.FillsClean m)
          requests m := by
  induction requests with
  | nil => exact fun _ _ _ => trivial
  | cons request rest inductionHypothesis =>
      intro m shared clean permitted
      have fills : request.FillsClean m :=
        fun _ _ _ _ frame free _ index => clean frame free index
      refine ⟨⟨permitted.1, fills⟩, fun next returned => ?_⟩
      have kept := Shared.serve shared ⟨permitted.1, fills⟩ returned
      exact inductionHypothesis kept.1 (kept.2 clean)
        (permitted.2 next returned)

end Runs

/-! ## Two runs from a boot state -/

/-- Only entry 511 of the PML4 page is present, and leads to an empty
table. -/
def bootMem (frame : Nat) (index : Fin 512) : Word :=
  if frame = 16 ∧ index = 511 then entryOf 17 (ptPR ||| ptWR) else 0

def bootAllocation : Allocation where
  paging := { emptyPaging with mem := bootMem }
  spaces := [pageAddr 16]
  kmalloced := []

def bootTier (frame : Nat) : Option Tier :=
  if frame = 16 then
    some .pml4
  else if frame = 17 then
    some (.table .kernel 1)
  else
    none

/-- The boot tables, whatever the frames that are no tables hold. -/
theorem bootTables_of_mem {mem : Nat → Page}
    (same : ∀ frame < 64, mem frame = bootMem frame) :
    BootTables
      { bootAllocation with paging := { emptyPaging with mem := mem } } := by
  have root : kernelFrame emptyPaging.cr3 = 16 := by decide
  have entry : mem 16 511 = entryOf 17 (ptPR ||| ptWR) := by
    rw [same 16 (by decide)]
    rfl
  refine ⟨rfl, rfl, bootTier, ?_, ?_⟩
  · show Tiered bootTier (mem (kernelFrame emptyPaging.cr3) 511) _
    rw [root, entry]
    refine ⟨by decide, by decide, ?_, ?_, ?_⟩
    · intro frame known
      have isRoot : frame = 16 := by
        unfold bootTier at known
        split at known
        · assumption
        · split at known <;> cases known
      rw [isRoot]
      exact entry
    · intro frame own index lower known slot present
      have low : frame < 64 := by
        unfold bootTier at known
        split at known
        · omega
        · split at known
          · omega
          · cases known
      have here : { emptyPaging with mem := mem }.mem frame index =
          bootMem frame index := congrFun (same frame low) index
      rw [here] at present ⊢
      unfold bootMem at present ⊢
      split at present
      · next top =>
          rw [if_pos top]
          rw [top.1] at known
          cases known
          rw [top.2] at slot
          cases slot
          decide
      · exact absurd present (by decide)
    · intro frame free
      have above := le_of_isFree_emptyPaging free
      unfold bootTier
      rw [if_neg (by omega), if_neg (by omega)]
  · show bootTier (kernelFrame emptyPaging.cr3) = _
    rw [root]
    rfl

theorem bootTables_bootAllocation : BootTables bootAllocation :=
  bootTables_of_mem fun _ _ => rfl

/-- No address space is given up. -/
def MoreSpaces (m next : Allocation) : Prop :=
  m.spaces ⊆ next.spaces

theorem MoreSpaces.trans (m next last : Allocation)
    (first : MoreSpaces m next) (second : MoreSpaces next last) :
    MoreSpaces m last :=
  List.Subset.trans first second

theorem moreSpaces_inPaging {α : Type} (program : PagingM α) :
    Keeps MoreSpaces (inPaging program) := by
  have always : Keeps (fun _ _ : Paging => True) program :=
    fun _ _ _ _ => trivial
  exact keeps_zoom always fun m _ _ => List.Subset.refl m.spaces

theorem spaces_serve {request : SpaceRequest} {m next : Allocation}
    (returned : request.serve m = .ok ((), next)) :
    m.spaces ⊆ next.spaces := by
  have zoomed := @moreSpaces_inPaging
  have kept : Keeps MoreSpaces request.serve := by
    cases request with
    | create =>
        exact keeps_bind MoreSpaces.trans (zoomed _) fun cr3Addr =>
          keeps_modify fun m => List.subset_cons_self cr3Addr m.spaces
    | kmalloc size =>
        exact keeps_bind MoreSpaces.trans (zoomed _) fun _ =>
          keeps_modify fun m => List.Subset.refl m.spaces
    | copy cr3Addr => exact zoomed _
    | mapKernel vAddress phys => exact zoomed _
    | mapUser vAddress phys cr3Addr => exact zoomed _
    | switch cr3Addr => exact zoomed _
  exact kept m () next returned

theorem SpaceRequest.Permitted.mono {request : SpaceRequest}
    {m next : Allocation} (permitted : request.Permitted m)
    (more : m.spaces ⊆ next.spaces) : request.Permitted next := by
  cases request with
  | create => trivial
  | copy cr3Addr => exact more permitted
  | mapKernel vAddress phys => trivial
  | kmalloc size => trivial
  | mapUser vAddress phys cr3Addr => exact ⟨permitted.1, more permitted.2⟩
  | switch cr3Addr => exact more permitted

/-- What is permitted now stays so. -/
theorem eachMeets_permitted (requests : List SpaceRequest) :
    ∀ {m : Allocation}, (∀ request ∈ requests, request.Permitted m) →
      EachMeets SpaceRequest.serve SpaceRequest.Permitted requests m := by
  induction requests with
  | nil => exact fun _ => trivial
  | cons request rest inductionHypothesis =>
      intro m permitted
      refine ⟨permitted request List.mem_cons_self, fun next returned =>
        inductionHypothesis fun other member => ?_⟩
      exact (permitted other (List.mem_cons_of_mem _ member)).mono
        (spaces_serve returned)

/-- Runs that begin with a new address space and go on in it. -/
theorem eachMeets_create {rest : List SpaceRequest} {m : Allocation}
    {spaces : List Word}
    (created : shown (fun _ next => next.spaces)
      (SpaceRequest.create.serve m) = some spaces)
    (permitted : ∀ request ∈ rest,
      request.Permitted { m with spaces := spaces }) :
    EachMeets SpaceRequest.serve SpaceRequest.Permitted (.create :: rest)
      m := by
  refine ⟨trivial, fun next returned => eachMeets_permitted rest ?_⟩
  intro request member
  apply (permitted request member).mono
  rw [shown_of_ok created returned]
  exact List.Subset.refl _

/-- A second address space with a copy of the first one's page, and a block
taken there. -/
def forkRun : List SpaceRequest :=
  [.create, .mapUser 0x1000 0 (pageAddr 16), .copy (pageAddr 64),
    .switch (pageAddr 64), .mapKernel 0x2000 0, .kmalloc 6000]

/-- As before with an old page table in frame 71: its words 1 and 2 point to
itself and to the PML4 page. -/
def staleMem (frame : Nat) (index : Fin 512) : Word :=
  if frame = 71 ∧ index = 1 then
    entryOf 71 userFlags
  else if frame = 71 ∧ index = 2 then
    entryOf 16 userFlags
  else
    bootMem frame index

def staleAllocation : Allocation :=
  { bootAllocation with paging := { emptyPaging with mem := staleMem } }

/-- The copy takes frame 71 for a table of the child, and the child's next
page is mapped through the old words. -/
def staleRun : List SpaceRequest :=
  [.create, .mapUser 0x1000 0 (pageAddr 16), .copy (pageAddr 64),
    .mapUser 0x405FF000 0 (pageAddr 64)]

end SbuUnix
