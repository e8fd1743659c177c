import SbuUnix.Library.TableForest
import SbuUnix.Paging.Tables

/-!
# Ownership of frames

`kind` is a ghost map that says what every frame is used for: a PML4 page, a
table that hangs from one slot, a private user page of one leaf entry, a
copy-on-write page, a table of the kernel half, held by the kernel, or free.
`Owned kind s` says that the tables in memory agree with it.  Uniqueness of
table pages and of private pages is a consequence: the kind of a frame names
the one slot that may point to it.
-/

namespace SbuUnix

open TableForest

inductive Kind where
  | free
  | held
  | pml4
  | table (level : Nat) (parent : Nat) (index : Fin 512)
  | page (pt : Nat) (index : Fin 512)
  | shared
  | kernelTable (level : Nat)
  deriving DecidableEq, Repr

namespace Kind

/-- The depth of a table of the user half below its PML4 page. -/
def depth : Kind → Option Nat
  | .pml4 => some 0
  | .table level _ _ => some level
  | _ => none

/-- The slot a table of the user half hangs from. -/
def slot : Kind → Nat × Fin 512
  | .table _ parent index => (parent, index)
  | _ => (0, 0)

/-- Frames whose words are read as entries. -/
def IsTable : Kind → Prop
  | .pml4 => True
  | .table _ _ _ => True
  | .kernelTable _ => True
  | _ => False

theorem isTable_of_depth {kind : Kind} {level : Nat}
    (known : kind.depth = some level) : kind.IsTable := by
  cases kind <;> trivial

theorem eq_table_of_depth {kind : Kind} {level : Nat}
    (known : kind.depth = some (level + 1)) :
    ∃ parent index, kind = .table (level + 1) parent index := by
  cases kind with
  | table ownLevel parent index =>
      cases known
      exact ⟨parent, index, rfl⟩
  | _ => cases known

/-- A PML4 page is the root of its tables. -/
theorem depth_root {kind : Nat → Kind} {root : Nat}
    (rooted : kind root = .pml4) : (kind root).depth = some 0 := by
  rw [rooted]
  rfl

/-- Frames of this kind may be the target of the checked entry at a slot. -/
def HangsFrom (owner : Nat) (index : Fin 512) : Kind → Prop
  | .table _ parent position => parent = owner ∧ position = index
  | .page pt position => pt = owner ∧ position = index
  | .shared => True
  | .kernelTable _ => True
  | _ => False

end Kind

/-- The slots of the user half: all but entry 511 of a PML4 page. -/
def ownedIndex (level : Nat) (index : Fin 512) : Prop :=
  level = 0 → index ≠ 511

/-- An entry of the user half that points to a table. -/
structure UserTable (entry : Word) : Prop where
  writable : hasFlag entry ptWR = true
  user : hasFlag entry ptU = true
  notCow : hasFlag entry ptCow = false

/-- A leaf entry that maps a page of its own. -/
structure PrivateLeaf (entry : Word) : Prop where
  writable : hasFlag entry ptWR = true
  user : hasFlag entry ptU = true
  notCow : hasFlag entry ptCow = false

/-- A leaf entry that shares its page until the next write. -/
structure SharedLeaf (entry : Word) : Prop where
  readOnly : hasFlag entry ptWR = false
  user : hasFlag entry ptU = true
  cow : hasFlag entry ptCow = true

/-- A present entry points to a frame of an expected kind. -/
def Below (kind : Nat → Kind) (entry : Word) (expected : Kind → Prop) :
    Prop :=
  hasFlag entry ptPR = true →
    ∃ target, target < frameCount ∧ removeFlag entry = pageAddr target ∧
      expected (kind target)

/-- What the entry at a slot may be, by the kind of the frame it is in. -/
def EntryOk (kind : Nat → Kind) (owner : Nat) (index : Fin 512)
    (entry : Word) : Prop :=
  match kind owner with
  | .pml4 =>
      if index = 511 then
        Below kind entry fun below => below = .kernelTable 1
      else
        Below kind entry fun below =>
          UserTable entry ∧ below = .table 1 owner index
  | .table level _ _ =>
      if level < 3 then
        Below kind entry fun below =>
          UserTable entry ∧ below = .table (level + 1) owner index
      else
        Below kind entry fun below =>
          PrivateLeaf entry ∧ below = .page owner index ∨
            SharedLeaf entry ∧ below = .shared
  | .kernelTable level =>
      if level < 3 then
        Below kind entry fun below => below = .kernelTable (level + 1)
      else
        True
  | _ => True

/-- The tables in memory and the bitmap agree with the kinds of frames. -/
structure Owned (kind : Nat → Kind) (s : Paging) : Prop where
  entries : ∀ owner index, EntryOk kind owner index (s.mem owner index)
  free : ∀ frame, s.isFree frame = true → kind frame = .free

/-- Every frame of the free map reads as zero. -/
def FreeZero (s : Paging) : Prop :=
  ∀ frame, s.isFree frame = true → ∀ index, s.mem frame index = 0

/-- `kind` with the kind of one frame replaced. -/
def setKind (kind : Nat → Kind) (frame : Nat) (value : Kind) : Nat → Kind :=
  fun other => if other = frame then value else kind other

section Entries

variable {kind changed : Nat → Kind} {owner frame : Nat} {index : Fin 512}
variable {entry : Word} {value : Kind}

@[simp]
theorem setKind_same : setKind kind frame value frame = value := by
  simp [setKind]

theorem setKind_of_ne {other : Nat} (different : other ≠ frame) :
    setKind kind frame value other = kind other := by
  simp [setKind, different]

theorem below_of_absent {expected : Kind → Prop}
    (absent : hasFlag entry ptPR = false) : Below kind entry expected := by
  intro present
  rw [absent] at present
  cases present

theorem below_zero {expected : Kind → Prop} : Below kind 0 expected :=
  below_of_absent (by decide)

theorem Below.mono {expected weaker : Kind → Prop}
    (below : Below kind entry expected)
    (implied : ∀ target, expected (kind target) →
      weaker (changed target)) :
    Below changed entry weaker := by
  intro present
  obtain ⟨target, small, address, holds⟩ := below present
  exact ⟨target, small, address, implied target holds⟩

/-- An absent entry is allowed in every table. -/
theorem entryOk_of_absent (absent : hasFlag entry ptPR = false) :
    EntryOk kind owner index entry := by
  unfold EntryOk
  cases kind owner with
  | pml4 =>
      dsimp only
      split <;> exact below_of_absent absent
  | table level parent position =>
      dsimp only
      split <;> exact below_of_absent absent
  | kernelTable level =>
      dsimp only
      split
      · exact below_of_absent absent
      · trivial
  | free => trivial
  | held => trivial
  | page pt position => trivial
  | shared => trivial

theorem entryOk_zero : EntryOk kind owner index 0 :=
  entryOk_of_absent (by decide)

/-- A frame that is no table may hold anything. -/
theorem entryOk_of_not_isTable
    (noTable : ¬ (kind owner).IsTable) : EntryOk kind owner index entry := by
  unfold EntryOk
  cases same : kind owner <;> simp_all [Kind.IsTable]

/-- Entries stay allowed when no frame they may point to changes its
kind. -/
theorem EntryOk.congr
    (allowed : EntryOk kind owner index entry)
    (sameOwner : changed owner = kind owner)
    (sameTargets : ∀ target, (kind target).HangsFrom owner index →
      changed target = kind target) :
    EntryOk changed owner index entry := by
  unfold EntryOk at allowed ⊢
  rw [sameOwner]
  cases ownerKind : kind owner with
  | pml4 =>
      simp only [ownerKind] at allowed ⊢
      split at allowed
      · next last =>
          rw [if_pos last]
          apply allowed.mono
          intro target holds
          rw [sameTargets target (by rw [holds]; trivial), holds]
      · next inner =>
          rw [if_neg inner]
          refine allowed.mono fun target holds => ⟨holds.1, ?_⟩
          rw [sameTargets target (by rw [holds.2]; exact ⟨rfl, rfl⟩),
            holds.2]
  | table level parent position =>
      simp only [ownerKind] at allowed ⊢
      split at allowed
      · next inner =>
          rw [if_pos inner]
          refine allowed.mono fun target holds => ⟨holds.1, ?_⟩
          rw [sameTargets target (by rw [holds.2]; exact ⟨rfl, rfl⟩),
            holds.2]
      · next leaf =>
          rw [if_neg leaf]
          apply allowed.mono
          intro target holds
          rcases holds with ⟨isPrivate, pageKind⟩ | ⟨isShared, sharedKind⟩
          · left
            refine ⟨isPrivate, ?_⟩
            rw [sameTargets target (by rw [pageKind]; exact ⟨rfl, rfl⟩),
              pageKind]
          · right
            refine ⟨isShared, ?_⟩
            rw [sameTargets target (by rw [sharedKind]; trivial), sharedKind]
  | kernelTable level =>
      simp only [ownerKind] at allowed ⊢
      split at allowed
      · next inner =>
          rw [if_pos inner]
          apply allowed.mono
          intro target holds
          rw [sameTargets target (by rw [holds]; trivial), holds]
      · next leaf =>
          rw [if_neg leaf]
          trivial
  | free => trivial
  | held => trivial
  | page pt position => trivial
  | shared => trivial

end Entries

/-! ## Reading the tables -/

namespace Owned

variable {kind : Nat → Kind} {s : Paging}

/-- A present entry above the leaves points to the table its slot owns. -/
theorem below_inner (owned : Owned kind s)
    {owner : Nat} {level : Nat} {index : Fin 512}
    (ownerDepth : (kind owner).depth = some level) (inner : level < 3)
    (permitted : ownedIndex level index)
    (present : hasFlag (s.mem owner index) ptPR = true) :
    ∃ target, target < frameCount ∧
      removeFlag (s.mem owner index) = pageAddr target ∧
      UserTable (s.mem owner index) ∧
      kind target = .table (level + 1) owner index := by
  have allowed := owned.entries owner index
  unfold EntryOk at allowed
  cases ownerKind : kind owner with
  | pml4 =>
      rw [ownerKind] at ownerDepth
      cases ownerDepth
      simp only [ownerKind] at allowed
      rw [if_neg (permitted rfl)] at allowed
      exact allowed present
  | table ownLevel parent position =>
      rw [ownerKind] at ownerDepth
      cases ownerDepth
      simp only [ownerKind] at allowed
      rw [if_pos inner] at allowed
      exact allowed present
  | _ =>
      rw [ownerKind] at ownerDepth
      cases ownerDepth

/-- A present leaf entry maps a page of its own or a shared one. -/
theorem below_leaf (owned : Owned kind s)
    {owner : Nat} {parent : Nat} {position index : Fin 512}
    (ownerKind : kind owner = .table 3 parent position)
    (present : hasFlag (s.mem owner index) ptPR = true) :
    ∃ target, target < frameCount ∧
      removeFlag (s.mem owner index) = pageAddr target ∧
      (PrivateLeaf (s.mem owner index) ∧ kind target = .page owner index ∨
        SharedLeaf (s.mem owner index) ∧ kind target = .shared) := by
  have allowed := owned.entries owner index
  unfold EntryOk at allowed
  simp only [ownerKind] at allowed
  rw [if_neg (by decide)] at allowed
  exact allowed present

theorem eq_frameOf {entry : Word} {target : Nat}
    (small : target < frameCount)
    (address : removeFlag entry = pageAddr target) :
    frameOf entry = target :=
  frameOf_of_removeFlag
    (Nat.lt_trans small (by simp only [frameCount]; decide)) address

theorem hung (owned : Owned kind s) :
    Hung childOf ownedIndex 3 s.mem (fun frame => (kind frame).depth)
      (fun frame => (kind frame).slot) where
  below := by
    intro table level index target tableDepth inner permitted points
    obtain ⟨present, frame⟩ := childOf_eq_some_iff.mp points
    obtain ⟨found, small, address, _, foundKind⟩ :=
      owned.below_inner tableDepth inner permitted present
    have same : found = target := (eq_frameOf small address).symm.trans frame
    subst same
    rw [foundKind]
    exact ⟨rfl, rfl⟩

end Owned

/-! ## An empty machine -/

/-- Cleared memory, an empty PML4 page in frame 16, and the frames from 64 on
free. -/
def emptyPaging : Paging where
  mem := fun _ _ => 0
  freeMap := fun index => if index = 0 then 0 else BitVec.allOnes 64
  cr3 := pageAddr 16

def emptyKind (frame : Nat) : Kind :=
  if frame = 16 then
    .pml4
  else if frame < 64 then
    .held
  else
    .free

theorem le_of_isFree_emptyPaging {frame : Nat}
    (free : emptyPaging.isFree frame = true) : 64 ≤ frame := by
  by_contra low
  have firstWord : frame / 64 = 0 := by omega
  simp [Paging.isFree, emptyPaging, firstWord] at free

theorem owned_emptyPaging : Owned emptyKind emptyPaging where
  entries := fun _ _ => entryOk_zero
  free := by
    intro frame free
    have above := le_of_isFree_emptyPaging free
    have notRoot : frame ≠ 16 := by omega
    rw [emptyKind, if_neg notRoot, if_neg (Nat.not_lt.mpr above)]

theorem freeZero_emptyPaging : FreeZero emptyPaging :=
  fun _ _ _ => rfl

end SbuUnix
