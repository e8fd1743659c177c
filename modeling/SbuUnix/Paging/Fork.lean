import SbuUnix.Paging.Translation

/-!
# Forking an address space

`copy_parent_tables` builds tables for the child and turns every user page of
the parent into a copy-on-write page of both.  `Shares` says what has been
done after some of the pages were covered; the four nested loops are followed
by one statement about each level, and every pass adds the pages below one
slot.
-/

namespace SbuUnix

open TableForest Outcome

structure Shares (kind : Nat → Kind) (s : Paging)
    (changed : Nat → Kind) (next : Paging) (parent child : Nat)
    (covered : List (Fin 512) → Prop) : Prop where
  owned : Owned changed next
  kinds : ∀ frame, s.isFree frame = false →
    changed frame = kind frame ∨
      (∃ pt index, kind frame = .page pt index) ∧ changed frame = .shared
  pages : ∀ frame, s.isFree frame = false → ¬ (kind frame).IsTable →
    next.mem frame = s.mem frame
  tables : ∀ root path table, kind root = .pml4 →
    OwnedPath ownedIndex path → path.length ≤ 3 →
      tableAt childOf s.mem root path = some table →
        tableAt childOf next.mem root path = some table
  walks : ∀ root path, kind root = .pml4 → OwnedPath ownedIndex path →
    path.length ≤ 3 → ¬ (root = child ∧ covered path) →
      tableAt childOf next.mem root path = tableAt childOf s.mem root path
  shared : ∀ root path, root = parent ∨ root = child →
    OwnedPath ownedIndex path → path.length = 4 → covered path →
      lookup childOf next.mem root path =
        (lookup childOf s.mem parent path).map cowEntry
  kept : ∀ root path, kind root = .pml4 → OwnedPath ownedIndex path →
    path.length = 4 → ¬ ((root = parent ∨ root = child) ∧ covered path) →
      lookup childOf next.mem root path = lookup childOf s.mem root path
  fewer : ∀ frame, next.isFree frame = true → s.isFree frame = true
  untouched : ∀ frame, next.isFree frame = true →
    next.mem frame = s.mem frame
  cr3 : next.cr3 = s.cr3

namespace Shares

variable {kind changed final : Nat → Kind} {s next last : Paging}
variable {parent child frame : Nat}
variable {covered more : List (Fin 512) → Prop}

theorem used (shares : Shares kind s changed next parent child covered)
    (used : s.isFree frame = false) : next.isFree frame = false := by
  cases free : next.isFree frame with
  | false => rfl
  | true =>
      rw [shares.fewer frame free] at used
      cases used

theorem freeZero (shares : Shares kind s changed next parent child covered)
    (zero : FreeZero s) : FreeZero next := by
  intro frame free index
  rw [shares.untouched frame free]
  exact zero frame (shares.fewer frame free) index

/-- A frame in use that is no private page keeps its kind. -/
theorem kind_of_ne_page
    (shares : Shares kind s changed next parent child covered)
    (used : s.isFree frame = false)
    (noPage : ∀ pt index, kind frame ≠ .page pt index) :
    changed frame = kind frame := by
  rcases shares.kinds frame used with same | ⟨⟨pt, index, isPage⟩, _⟩
  · exact same
  · exact absurd isPage (noPage pt index)

theorem root (shares : Shares kind s changed next parent child covered)
    (owned : Owned kind s) (rooted : kind frame = .pml4) :
    changed frame = .pml4 := by
  rw [shares.kind_of_ne_page
    (owned.used_of_kind (by rw [rooted]; exact Kind.noConfusion))
    (by rw [rooted]; exact fun _ _ => Kind.noConfusion), rooted]

/-- No frame in use becomes or stops being a table. -/
theorem isTable_iff (shares : Shares kind s changed next parent child covered)
    (used : s.isFree frame = false) :
    (changed frame).IsTable ↔ (kind frame).IsTable := by
  rcases shares.kinds frame used with same | ⟨⟨pt, index, isPage⟩, isShared⟩
  · rw [same]
  · rw [isPage, isShared]
    rfl

/-- Pages that neither process has need no pass. -/
theorem of_absent (owned : Owned kind s)
    (absent : ∀ root path, root = parent ∨ root = child →
      OwnedPath ownedIndex path → path.length = 4 → covered path →
        lookup childOf s.mem root path = none) :
    Shares kind s kind s parent child covered where
  owned := owned
  kinds := fun _ _ => Or.inl rfl
  pages := fun _ _ _ => rfl
  tables := fun _ _ _ _ _ _ reached => reached
  walks := fun _ _ _ _ _ _ => rfl
  shared := by
    intro root path member legal full inside
    rw [absent root path member legal full inside,
      absent parent path (Or.inl rfl) legal full inside]
    rfl
  kept := fun _ _ _ _ _ _ => rfl
  fewer := fun _ free => free
  untouched := fun _ _ => rfl
  cr3 := rfl

/-- The same pages, described in another way; more walks may be given up. -/
theorem recover (shares : Shares kind s changed next parent child covered)
    (weaker : ∀ path, covered path → more path)
    (same : ∀ path, OwnedPath ownedIndex path → path.length = 4 →
      more path → covered path) :
    Shares kind s changed next parent child more where
  owned := shares.owned
  kinds := shares.kinds
  pages := shares.pages
  tables := shares.tables
  walks := fun root path rooted legal short outside =>
    shares.walks root path rooted legal short fun inside =>
      outside ⟨inside.1, weaker path inside.2⟩
  shared := fun root path member legal full inside =>
    shares.shared root path member legal full (same path legal full inside)
  kept := fun root path rooted legal full outside =>
    shares.kept root path rooted legal full fun inside =>
      outside ⟨inside.1, weaker path inside.2⟩
  fewer := shares.fewer
  untouched := shares.untouched
  cr3 := shares.cr3

/-- Two passes over different pages. -/
theorem trans (first : Shares kind s changed next parent child covered)
    (second : Shares changed next final last parent child more)
    (owned : Owned kind s) (parentRoot : kind parent = .pml4)
    (childRoot : kind child = .pml4)
    (apart : ∀ path, path.length = 4 → covered path → ¬ more path) :
    Shares kind s final last parent child
      fun path => covered path ∨ more path where
  owned := second.owned
  kinds := by
    intro frame used
    rcases second.kinds frame (first.used used) with
      same | ⟨⟨pt, index, isPage⟩, isShared⟩
    · rw [same]
      exact first.kinds frame used
    · rcases first.kinds frame used with same | ⟨_, alreadyShared⟩
      · rw [same] at isPage
        exact Or.inr ⟨⟨pt, index, isPage⟩, isShared⟩
      · rw [alreadyShared] at isPage
        cases isPage
  pages := by
    intro frame used noTable
    rw [second.pages frame (first.used used)
      (by rw [first.isTable_iff used]; exact noTable),
      first.pages frame used noTable]
  tables := fun root path table rooted legal short reached =>
    second.tables root path table (first.root owned rooted) legal short
      (first.tables root path table rooted legal short reached)
  walks := by
    intro root path rooted legal short outside
    rw [second.walks root path (first.root owned rooted) legal short
      fun inside => outside ⟨inside.1, Or.inr inside.2⟩]
    exact first.walks root path rooted legal short
      fun inside => outside ⟨inside.1, Or.inl inside.2⟩
  shared := by
    intro root path member legal full inside
    have rooted : kind root = .pml4 := by
      rcases member with same | same <;> rw [same]
      · exact parentRoot
      · exact childRoot
    by_cases late : more path
    · have early : ¬ covered path := fun here => apart path full here late
      rw [second.shared root path member legal full late,
        first.kept parent path parentRoot legal full
          fun here => early here.2]
    · rw [second.kept root path (first.root owned rooted) legal full
        fun here => late here.2]
      exact first.shared root path member legal full
        (inside.resolve_right late)
  kept := by
    intro root path rooted legal full outside
    rw [second.kept root path (first.root owned rooted) legal full
      fun here => outside ⟨here.1, Or.inr here.2⟩]
    exact first.kept root path rooted legal full
      fun here => outside ⟨here.1, Or.inl here.2⟩
  fewer := fun frame free => first.fewer frame (second.fewer frame free)
  untouched := by
    intro frame free
    rw [second.untouched frame free,
      first.untouched frame (second.fewer frame free)]
  cr3 := second.cr3.trans first.cr3

/-- An extension before a pass, when its new walks are the child's and
covered by the pass. -/
theorem after_extends (extension : Extends kind s changed next)
    (owned : Owned kind s) (parentRoot : kind parent = .pml4)
    (walks : ∀ root path, kind root = .pml4 → OwnedPath ownedIndex path →
      path.length ≤ 3 → ¬ (root = child ∧ covered path) →
        tableAt childOf next.mem root path =
          tableAt childOf s.mem root path)
    (shares : Shares changed next final last parent child covered) :
    Shares kind s final last parent child covered where
  owned := shares.owned
  kinds := by
    intro frame used
    rw [← extension.kinds frame used]
    exact shares.kinds frame (extension.used used)
  pages := by
    intro frame used noTable
    rw [shares.pages frame (extension.used used)
      (by rw [extension.kinds frame used]; exact noTable),
      extension.pages frame used noTable]
  tables := fun root path table rooted legal short reached =>
    shares.tables root path table (extension.root owned rooted) legal short
      (extension.tables root path table rooted legal short reached)
  walks := by
    intro root path rooted legal short outside
    rw [shares.walks root path (extension.root owned rooted) legal short
      outside]
    exact walks root path rooted legal short outside
  shared := by
    intro root path member legal full inside
    rw [shares.shared root path member legal full inside,
      extension.lookups parent path parentRoot legal full]
  kept := by
    intro root path rooted legal full outside
    rw [shares.kept root path (extension.root owned rooted) legal full
      outside, extension.lookups root path rooted legal full]
  fewer := fun frame free => extension.fewer frame (shares.fewer frame free)
  untouched := by
    intro frame free
    rw [shares.untouched frame free,
      extension.untouched frame (shares.fewer frame free)]
  cr3 := shares.cr3.trans extension.cr3

end Shares

/-! ## One leaf entry -/

theorem removeFlag_cowEntry (entry : Word) :
    removeFlag (cowEntry entry) = removeFlag entry := by
  rw [cowEntry, removeFlag_or, removeFlag_removeFlag,
    show removeFlag (ptPR ||| ptU ||| ptCow) = 0 by decide]
  simp

theorem frameOf_cowEntry (entry : Word) :
    frameOf (cowEntry entry) = frameOf entry := by
  rw [frameOf, removeFlag_cowEntry, frameOf]

theorem hasFlag_cowEntry (entry : Word) {flag : Word}
    (low : removeFlag flag = 0) :
    hasFlag (cowEntry entry) flag =
      hasFlag (ptPR ||| ptU ||| ptCow) flag := by
  rw [cowEntry, hasFlag_or, hasFlag_removeFlag entry low]
  simp

theorem childOf_cowEntry (entry : Word) :
    childOf (cowEntry entry) = some (frameOf entry) := by
  rw [childOf_eq_some_iff, frameOf_cowEntry]
  refine ⟨?_, rfl⟩
  rw [hasFlag_cowEntry entry (by decide)]
  decide

theorem sharedLeaf_cowEntry (entry : Word) : SharedLeaf (cowEntry entry) where
  readOnly := by rw [hasFlag_cowEntry entry (by decide)]; decide
  user := by rw [hasFlag_cowEntry entry (by decide)]; decide
  cow := by rw [hasFlag_cowEntry entry (by decide)]; decide

theorem Paging.writeWord_writeWord (s : Paging) (frame : Nat)
    (index : Fin 512) (first second : Word) :
    (s.writeWord frame index first).writeWord frame index second =
      s.writeWord frame index second := by
  simp only [Paging.writeWord]
  congr 1
  funext other position
  split <;> rfl

section Leaf

variable {kind : Nat → Kind} {s : Paging} {parent child pt cPt : Nat}
variable {index : Fin 512} {path : List (Fin 512)}

/-- The entry that both processes get is allowed in any page table once its
frame is shared. -/
theorem entryOk_cowEntry {changed : Nat → Kind} {owner up : Nat}
    {position : Fin 512} {entry : Word}
    (ownerKind : changed owner = .table 3 up position)
    (small : frameOf entry < frameCount)
    (address : removeFlag entry = pageAddr (frameOf entry))
    (isShared : changed (frameOf entry) = .shared) :
    EntryOk changed owner index (cowEntry entry) := by
  unfold EntryOk
  rw [ownerKind]
  dsimp only
  rw [if_neg (by decide)]
  refine fun _ => ⟨frameOf entry, small, ?_, ?_⟩
  · rw [removeFlag_cowEntry, address]
  · exact Or.inr ⟨sharedLeaf_cowEntry entry, isShared⟩

/-- Clearing a leaf entry lets its frame become a shared one. -/
theorem Owned.share_cleared (owned : Owned kind s) {up : Nat}
    {position : Fin 512} (ptKind : kind pt = .table 3 up position)
    (present : hasFlag (s.mem pt index) ptPR = true) :
    Owned (SbuUnix.setKind kind (frameOf (s.mem pt index)) .shared)
      (s.writeWord pt index 0) := by
  obtain ⟨target, small, address, leaf⟩ := owned.below_leaf ptKind present
  rw [Owned.eq_frameOf small address]
  have cleared : Owned kind (s.writeWord pt index 0) :=
    owned.writeWord entryOk_zero
  have notFree : kind target ≠ .free := by
    rcases leaf with ⟨_, known⟩ | ⟨_, known⟩ <;>
    · rw [known]
      exact Kind.noConfusion
  rcases leaf with ⟨_, known⟩ | ⟨_, known⟩
  · refine cleared.setKind_of_absent (fun owner place hangs => ?_)
      (fun place => entryOk_of_not_isTable ?_) (owned.used_of_kind notFree)
    · rw [known] at hangs
      rw [← hangs.1, ← hangs.2, Paging.writeWord_same]
      decide
    · rw [setKind_same]
      exact fun isTable => isTable
  · have same : SbuUnix.setKind kind target .shared = kind := by
      funext other
      by_cases here : other = target
      · rw [here, setKind_same, known]
      · exact setKind_of_ne here
    rw [same]
    exact cleared

/-- Both entries of one page after its pass. -/
def sharePage (s : Paging) (pt cPt : Nat) (index : Fin 512) : Paging :=
  (s.writeWord pt index (cowEntry (s.mem pt index))).writeWord cPt index
    (cowEntry (s.mem pt index))

/-- Only the two tables are written. -/
theorem sharePage_mem_of_not_isTable (ptTable : (kind pt).IsTable)
    (cPtTable : (kind cPt).IsTable) {frame : Nat}
    (noTable : ¬ (kind frame).IsTable) :
    (sharePage s pt cPt index).mem frame = s.mem frame := by
  have notPt : frame ≠ pt := by
    rintro rfl
    exact noTable ptTable
  have notCPt : frame ≠ cPt := by
    rintro rfl
    exact noTable cPtTable
  rw [sharePage, Paging.writeWord_of_ne_frame notCPt,
    Paging.writeWord_of_ne_frame notPt]

/-- The page of a leaf is no table. -/
theorem ne_leaf_of_isTable {target table : Nat}
    (targetKind : kind target = .page pt index ∨ kind target = .shared)
    (isTable : (kind table).IsTable) : table ≠ target := by
  rintro rfl
  rcases targetKind with known | known <;>
  · rw [known] at isTable
    exact isTable

theorem Shares.sharePage (owned : Owned kind s)
    (parentRoot : kind parent = .pml4) (childRoot : kind child = .pml4)
    (different : parent ≠ child)
    (legal : OwnedPath ownedIndex (index :: path)) (full : path.length = 3)
    (reached : tableAt childOf s.mem parent path = some pt)
    (childReached : tableAt childOf s.mem child path = some cPt)
    (present : hasFlag (s.mem pt index) ptPR = true) :
    Shares kind s (setKind kind (frameOf (s.mem pt index)) .shared)
      (sharePage s pt cPt index) parent child (· = index :: path) := by
  have depthOf : ∀ {root table : Nat}, kind root = .pml4 →
      tableAt childOf s.mem root path = some table →
        (kind table).depth = some 3 := by
    intro root table rooted walk
    rw [← full]
    exact owned.hung.depth_tableAt (Kind.depth_root rooted) legal.1
      (Nat.le_of_eq full) walk
  obtain ⟨up, position, ptKind⟩ :=
    Kind.eq_table_of_depth (depthOf parentRoot reached)
  obtain ⟨cUp, cPosition, cPtKind⟩ :=
    Kind.eq_table_of_depth (depthOf childRoot childReached)
  obtain ⟨target, small, address, leaf⟩ := owned.below_leaf ptKind present
  have targetKind : kind target = .page pt index ∨ kind target = .shared :=
    leaf.imp And.right And.right
  have sameTarget := Owned.eq_frameOf small address
  have cleared := owned.share_cleared ptKind present
  have found : lookup childOf s.mem parent (index :: path) =
      some (s.mem pt index) := by
    rw [lookup_cons_of_eq_some reached, childOf_isSome, if_pos present]
  rw [sameTarget] at cleared ⊢
  have keeps : ∀ {table : Nat}, (kind table).IsTable →
      setKind kind target .shared table = kind table :=
    fun isTable => setKind_of_ne (ne_leaf_of_isTable targetKind isTable)
  have entryOk : ∀ {owner ownerUp : Nat} {ownerPosition : Fin 512},
      kind owner = .table 3 ownerUp ownerPosition →
        EntryOk (setKind kind target .shared) owner index
          (cowEntry (s.mem pt index)) := by
    intro owner ownerUp ownerPosition ownerKind
    have now := (keeps (by rw [ownerKind]; trivial)).trans ownerKind
    exact entryOk_cowEntry now (by rw [sameTarget]; exact small)
      (by rw [sameTarget]; exact address)
      (by rw [sameTarget]; exact setKind_same)
  have parentDone :
      Owned (setKind kind target .shared)
        (s.writeWord pt index (cowEntry (s.mem pt index))) := by
    have written := cleared.writeWord (entryOk ptKind)
    rw [Paging.writeWord_writeWord] at written
    exact written
  have rooted : ∀ {root : Nat}, kind root = .pml4 →
      setKind kind target .shared root = .pml4 := by
    intro root known
    rw [keeps (by rw [known]; trivial), known]
  have walks : ∀ {root : Nat} {walk : List (Fin 512)},
      kind root = .pml4 → OwnedPath ownedIndex walk → walk.length ≤ 3 →
        tableAt childOf (SbuUnix.sharePage s pt cPt index).mem root walk =
          tableAt childOf s.mem root walk := by
    intro root walk known walkLegal short
    refine (parentDone.tableAt_writeLeaf _ _ ?_ (rooted known) walkLegal
      short).trans (owned.tableAt_writeLeaf _ _ (by rw [ptKind]; rfl) known
        walkLegal short)
    rw [keeps (by rw [cPtKind]; trivial), cPtKind]
    rfl
  have entryPresent :
      (childOf (cowEntry (s.mem pt index))).isSome = true := by
    rw [childOf_cowEntry]
    rfl
  -- The lookup of a page after the write for the parent and both writes.
  have lookups : ∀ {root : Nat} {walk : List (Fin 512)},
      kind root = .pml4 → OwnedPath ownedIndex walk → walk.length = 4 →
        lookup childOf (SbuUnix.sharePage s pt cPt index).mem root walk =
          if root = child ∧ walk = index :: path then
            some (cowEntry (s.mem pt index))
          else if root = parent ∧ walk = index :: path then
            some (cowEntry (s.mem pt index))
          else
            lookup childOf s.mem root walk := by
    intro root walk known walkLegal walkFull
    have first :=
      owned.lookup_writeLeaf index (cowEntry (s.mem pt index)) parentRoot
        legal.1 full reached known walkLegal walkFull entryPresent
    have childReachedNow :=
      (owned.tableAt_writeLeaf index (cowEntry (s.mem pt index))
        (depthOf parentRoot reached) childRoot legal.1
        (Nat.le_of_eq full)).trans childReached
    rw [← first]
    exact parentDone.lookup_writeLeaf _ _ (rooted childRoot) legal.1 full
      childReachedNow (rooted known) walkLegal walkFull entryPresent
  have memOther : ∀ {frame : Nat}, ¬ (kind frame).IsTable →
      (SbuUnix.sharePage s pt cPt index).mem frame = s.mem frame := by
    intro frame noTable
    exact sharePage_mem_of_not_isTable (by rw [ptKind]; trivial)
      (by rw [cPtKind]; trivial) noTable
  exact
    { owned := parentDone.writeWord (entryOk cPtKind)
      kinds := by
        intro frame _
        by_cases here : frame = target
        · rw [here, setKind_same]
          rcases targetKind with known | known
          · exact Or.inr ⟨⟨pt, index, known⟩, rfl⟩
          · exact Or.inl known.symm
        · exact Or.inl (setKind_of_ne here)
      pages := fun frame _ noTable => memOther noTable
      tables := by
        intro root walk table known walkLegal short walked
        rw [walks known walkLegal short]
        exact walked
      walks := fun root walk known walkLegal short _ =>
        walks known walkLegal short
      shared := by
        intro root walk member walkLegal walkFull here
        subst here
        rw [found]
        rcases member with same | same
        · rw [same, lookups parentRoot walkLegal walkFull,
            if_neg (fun inside => different inside.1), if_pos ⟨rfl, rfl⟩]
          rfl
        · rw [same, lookups childRoot walkLegal walkFull,
            if_pos ⟨rfl, rfl⟩]
          rfl
      kept := by
        intro root walk known walkLegal walkFull outside
        rw [lookups known walkLegal walkFull, if_neg, if_neg]
        · exact fun inside => outside ⟨Or.inl inside.1, inside.2⟩
        · exact fun inside => outside ⟨Or.inr inside.1, inside.2⟩
      fewer := fun frame free => free
      untouched := by
        intro frame free
        apply memOther
        rw [owned.free frame free]
        exact fun isTable => isTable
      cr3 := rfl }

end Leaf

end SbuUnix
