import SbuUnix.Paging.Ownership

/-!
# Extensions of the paging state

Most operations only add: they take free frames, hang tables below absent
entries and fill the frames they took.  `Extends kind s changed next` states
what such an operation keeps: the kinds and contents of all frames in use,
every walk that ended somewhere, and every lookup of a user page.
-/

namespace SbuUnix

open TableForest Outcome

/-! ## Elementary edits -/

namespace Owned

variable {kind : Nat → Kind} {s next : Paging} {frame : Nat}
variable {index : Fin 512} {entry : Word} {value : Kind}

/-- A frame may change its kind when the slots that may point to it are
absent. -/
theorem setKind_of_absent (owned : Owned kind s)
    (absent : ∀ owner position, (kind frame).HangsFrom owner position →
      hasFlag (s.mem owner position) ptPR = false)
    (entries : ∀ position,
      EntryOk (setKind kind frame value) frame position
        (s.mem frame position))
    (used : s.isFree frame = false) :
    Owned (setKind kind frame value) s where
  entries := by
    intro owner position
    by_cases same : owner = frame
    · rw [same]
      exact entries position
    · by_cases slot : (kind frame).HangsFrom owner position
      · exact entryOk_of_absent (absent owner position slot)
      · refine (owned.entries owner position).congr
          (setKind_of_ne same) fun target hangs => ?_
        apply setKind_of_ne
        intro sameTarget
        rw [sameTarget] at hangs
        exact slot hangs
  free := by
    intro other free
    have different : other ≠ frame := by
      intro same
      rw [same, used] at free
      cases free
    rw [setKind_of_ne different]
    exact owned.free other free

/-- A frame that no checked entry points to may change its kind. -/
theorem setKind (owned : Owned kind s)
    (unreferenced : ∀ owner position,
      ¬ (kind frame).HangsFrom owner position)
    (entries : ∀ position,
      EntryOk (setKind kind frame value) frame position
        (s.mem frame position))
    (used : s.isFree frame = false) :
    Owned (setKind kind frame value) s :=
  owned.setKind_of_absent
    (fun owner position hangs =>
      absurd hangs (unreferenced owner position)) entries used

/-- Only the contents of tables matter, and frames may leave the free map. -/
theorem congr (owned : Owned kind s)
    (sameTables : ∀ other, (kind other).IsTable →
      next.mem other = s.mem other)
    (fewer : ∀ other, next.isFree other = true → s.isFree other = true) :
    Owned kind next where
  entries := by
    intro owner position
    by_cases table : (kind owner).IsTable
    · rw [sameTables owner table]
      exact owned.entries owner position
    · exact entryOk_of_not_isTable table
  free := fun other free => owned.free other (fewer other free)

theorem writeWord (owned : Owned kind s)
    (allowed : EntryOk kind frame index entry) :
    Owned kind (s.writeWord frame index entry) where
  entries := by
    intro owner position
    by_cases sameFrame : owner = frame
    · by_cases sameIndex : position = index
      · rw [sameFrame, sameIndex, Paging.writeWord_same]
        exact allowed
      · rw [Paging.writeWord_of_ne_index sameIndex]
        exact owned.entries owner position
    · rw [Paging.writeWord_of_ne_frame sameFrame]
      exact owned.entries owner position
  free := owned.free

theorem writePage (owned : Owned kind s) {page : Page}
    (noTable : ¬ (kind frame).IsTable) :
    Owned kind (s.writePage frame page) := by
  refine owned.congr (fun other table => ?_) fun other free => free
  apply Paging.writePage_of_ne
  intro same
  rw [same] at table
  exact noTable table

theorem unsetFree (owned : Owned kind s) :
    Owned kind (s.unsetFree frame) := by
  refine owned.congr (fun other _ => rfl) fun other free => ?_
  rw [Paging.isFree_unsetFree, Bool.and_eq_true] at free
  exact free.1

theorem used_of_kind (owned : Owned kind s)
    (notFree : kind frame ≠ .free) : s.isFree frame = false := by
  cases free : s.isFree frame with
  | false => rfl
  | true => exact absurd (owned.free frame free) notFree

/-- A frame of the free map becomes a frame the kernel holds. -/
theorem allocate (owned : Owned kind s) (free : s.isFree frame = true) :
    Owned (SbuUnix.setKind kind frame .held) (s.unsetFree frame) := by
  refine owned.unsetFree.setKind (fun owner position hangs => ?_)
    (fun position => ?_) (by simp [Paging.isFree_unsetFree])
  · rw [owned.free frame free] at hangs
    exact hangs
  · apply entryOk_of_not_isTable
    intro table
    rw [setKind_same] at table
    exact table

end Owned

/-! ## Extensions -/

structure Extends (kind : Nat → Kind) (s : Paging)
    (changed : Nat → Kind) (next : Paging) : Prop where
  owned : Owned changed next
  kinds : ∀ frame, s.isFree frame = false → changed frame = kind frame
  pages : ∀ frame, s.isFree frame = false → ¬ (kind frame).IsTable →
    next.mem frame = s.mem frame
  tables : ∀ root path table, kind root = .pml4 →
    OwnedPath ownedIndex path → path.length ≤ 3 →
      tableAt childOf s.mem root path = some table →
        tableAt childOf next.mem root path = some table
  lookups : ∀ root path, kind root = .pml4 →
    OwnedPath ownedIndex path → path.length = 4 →
      lookup childOf next.mem root path = lookup childOf s.mem root path
  fewer : ∀ frame, next.isFree frame = true → s.isFree frame = true
  untouched : ∀ frame, next.isFree frame = true →
    next.mem frame = s.mem frame
  cr3 : next.cr3 = s.cr3

namespace Extends

variable {kind changed final : Nat → Kind} {s next last : Paging}
variable {frame : Nat} {page : Page}

theorem refl (owned : Owned kind s) : Extends kind s kind s where
  owned := owned
  kinds := fun _ _ => rfl
  pages := fun _ _ _ => rfl
  tables := fun _ _ _ _ _ _ reached => reached
  lookups := fun _ _ _ _ _ => rfl
  fewer := fun _ free => free
  untouched := fun _ _ => rfl
  cr3 := rfl

theorem used (extension : Extends kind s changed next)
    (used : s.isFree frame = false) : next.isFree frame = false := by
  cases free : next.isFree frame with
  | false => rfl
  | true =>
      rw [extension.fewer frame free] at used
      cases used

/-- The kind of a frame in use is kept. -/
theorem kind_of_ne_free (extension : Extends kind s changed next)
    (owned : Owned kind s) (notFree : kind frame ≠ .free) :
    changed frame = kind frame :=
  extension.kinds frame (owned.used_of_kind notFree)

theorem root (extension : Extends kind s changed next)
    (owned : Owned kind s) {root : Nat} (rooted : kind root = .pml4) :
    changed root = .pml4 := by
  rw [extension.kind_of_ne_free owned (by rw [rooted]; decide), rooted]

theorem freeZero (extension : Extends kind s changed next)
    (zero : FreeZero s) : FreeZero next := by
  intro frame free index
  rw [extension.untouched frame free]
  exact zero frame (extension.fewer frame free) index

theorem trans (first : Extends kind s changed next)
    (second : Extends changed next final last) (owned : Owned kind s) :
    Extends kind s final last where
  owned := second.owned
  kinds := by
    intro frame used
    rw [second.kinds frame (first.used used), first.kinds frame used]
  pages := by
    intro frame used noTable
    have noTableLater : ¬ (changed frame).IsTable := by
      rw [first.kinds frame used]
      exact noTable
    rw [second.pages frame (first.used used) noTableLater,
      first.pages frame used noTable]
  tables := by
    intro root path table rooted legal short reached
    exact second.tables root path table (first.root owned rooted) legal short
      (first.tables root path table rooted legal short reached)
  lookups := by
    intro root path rooted legal full
    rw [second.lookups root path (first.root owned rooted) legal full,
      first.lookups root path rooted legal full]
  fewer := fun frame free => first.fewer frame (second.fewer frame free)
  untouched := by
    intro frame free
    rw [second.untouched frame free,
      first.untouched frame (second.fewer frame free)]
  cr3 := second.cr3.trans first.cr3

/-- Taking a frame from the free map. -/
theorem allocate (owned : Owned kind s) (free : s.isFree frame = true) :
    Extends kind s (setKind kind frame .held) (s.unsetFree frame) where
  owned := owned.allocate free
  kinds := by
    intro other used
    apply setKind_of_ne
    intro same
    rw [same, free] at used
    cases used
  pages := fun _ _ _ => rfl
  tables := fun _ _ _ _ _ _ reached => reached
  lookups := fun _ _ _ _ _ => rfl
  fewer := by
    intro other stillFree
    rw [Paging.isFree_unsetFree, Bool.and_eq_true] at stillFree
    exact stillFree.1
  untouched := fun _ _ => rfl
  cr3 := rfl

/-- Filling a frame that was free at the start and is no table now. -/
theorem writeFresh (extension : Extends kind s changed next)
    (owned : Owned kind s) (fresh : s.isFree frame = true)
    (taken : next.isFree frame = false)
    (noTable : ¬ (changed frame).IsTable) :
    Extends kind s changed (next.writePage frame page) where
  owned := extension.owned.writePage noTable
  kinds := extension.kinds
  pages := by
    intro other used otherNoTable
    have different : other ≠ frame := by
      intro same
      rw [same, fresh] at used
      cases used
    rw [Paging.writePage_of_ne different]
    exact extension.pages other used otherNoTable
  tables := by
    intro root path table rooted legal short reached
    have before :=
      extension.tables root path table rooted legal short reached
    have rootedNow := extension.root owned rooted
    rw [extension.owned.hung.tableAt_congr (Kind.depth_root rootedNow) legal
      (Nat.le_succ_of_le short) (fun other level position otherDepth _ _ => ?_)]
    · exact before
    · have different : other ≠ frame := by
        intro same
        rw [same] at otherDepth
        exact noTable (Kind.isTable_of_depth otherDepth)
      rw [Paging.writePage_of_ne different]
  lookups := by
    intro root path rooted legal full
    rw [← extension.lookups root path rooted legal full]
    have rootedNow := extension.root owned rooted
    refine extension.owned.hung.lookup_congr (Kind.depth_root rootedNow) legal
      (Nat.le_of_eq full) fun other level position otherDepth _ _ => ?_
    have different : other ≠ frame := by
      intro same
      rw [same] at otherDepth
      exact noTable (Kind.isTable_of_depth otherDepth)
    rw [Paging.writePage_of_ne different]
  fewer := extension.fewer
  untouched := by
    intro other free
    have different : other ≠ frame := by
      intro same
      rw [same] at free
      rw [Paging.isFree_writePage, taken] at free
      cases free
    rw [Paging.writePage_of_ne different]
    exact extension.untouched other free
  cr3 := extension.cr3

/-- Writing an entry that makes a fresh frame a table.  The walks and lookups
are the caller's part: they depend on which half the slot lies in. -/
theorem link (table : Nat) (index : Fin 512) (entry : Word) (value : Kind)
    (extension : Extends kind s changed next) (owned : Owned kind s)
    (fresh : s.isFree frame = true) (taken : next.isFree frame = false)
    (heldNow : changed frame = .held)
    (cleared : ∀ position, next.mem frame position = 0)
    (tableKind : (kind table).IsTable)
    (allowed : EntryOk (setKind changed frame value) table index entry)
    (tables : ∀ root path found, changed root = .pml4 →
      OwnedPath ownedIndex path → path.length ≤ 3 →
        tableAt childOf next.mem root path = some found →
          tableAt childOf (next.writeWord table index entry).mem root path =
            some found)
    (lookups : ∀ root path, changed root = .pml4 →
      OwnedPath ownedIndex path → path.length = 4 →
        lookup childOf (next.writeWord table index entry).mem root path =
          lookup childOf next.mem root path) :
    Extends kind s (setKind changed frame value)
      (next.writeWord table index entry) := by
  have tableUsed : s.isFree table = false := by
    apply owned.used_of_kind
    intro same
    rw [same] at tableKind
    exact tableKind
  exact
    { owned := by
        refine Owned.writeWord ?_ allowed
        refine extension.owned.setKind (fun owner position hangs => ?_)
          (fun position => ?_) taken
        · rw [heldNow] at hangs
          exact hangs
        · rw [cleared position]
          exact entryOk_zero
      kinds := by
        intro other used
        have different : other ≠ frame := by
          intro same
          rw [same, fresh] at used
          cases used
        rw [setKind_of_ne different]
        exact extension.kinds other used
      pages := by
        intro other used otherNoTable
        have different : other ≠ table := by
          intro same
          rw [same] at otherNoTable
          exact otherNoTable tableKind
        rw [Paging.writeWord_of_ne_frame different]
        exact extension.pages other used otherNoTable
      tables := by
        intro root path found rooted legal short reached
        exact tables root path found (extension.root owned rooted) legal
          short (extension.tables root path found rooted legal short reached)
      lookups := by
        intro root path rooted legal full
        rw [lookups root path (extension.root owned rooted) legal full]
        exact extension.lookups root path rooted legal full
      fewer := extension.fewer
      untouched := by
        intro other free
        have different : other ≠ table := by
          intro same
          rw [same] at free
          rw [Paging.isFree_writeWord, extension.used tableUsed] at free
          cases free
        rw [Paging.writeWord_of_ne_frame different]
        exact extension.untouched other free
      cr3 := extension.cr3 }

end Extends

/-! ## Tables below the user half -/

theorem userTable_entryOf (frame : Nat) :
    UserTable (entryOf frame userFlags) where
  writable := by rw [hasFlag_entryOf _ _ (by decide)]; decide
  user := by rw [hasFlag_entryOf _ _ (by decide)]; decide
  notCow := by rw [hasFlag_entryOf _ _ (by decide)]; decide

theorem childOf_entryOf {frame : Nat} {flags : Word}
    (small : frame < frameCount) (low : removeFlag flags = 0)
    (present : hasFlag flags ptPR = true) :
    childOf (entryOf frame flags) = some frame := by
  rw [childOf_eq_some_iff]
  refine ⟨?_, Owned.eq_frameOf small (removeFlag_entryOf frame low)⟩
  rw [hasFlag_entryOf _ _ (by decide)]
  exact present

theorem below_entryOf {kind : Nat → Kind} {frame : Nat} {flags : Word}
    {expected : Kind → Prop} (small : frame < frameCount)
    (low : removeFlag flags = 0) (holds : expected (kind frame)) :
    Below kind (entryOf frame flags) expected :=
  fun _ => ⟨frame, small, removeFlag_entryOf frame low, holds⟩

theorem lt_of_lt_frameCount {frame : Nat} (small : frame < frameCount) :
    frame < 524288 := by
  simp only [frameCount] at small
  omega

section UserTables

variable {kind : Nat → Kind} {s : Paging} {table level : Nat}
variable {index : Fin 512} {allowed : Fault → Prop}

/-- `s` after a frame was taken, cleared and linked as the table below an
entry. -/
def hangTable (s : Paging) (table : Nat) (index : Fin 512) (frame : Nat) :
    Paging :=
  ((s.unsetFree frame).writePage frame fun _ => 0).writeWord table index
    (entryOf frame userFlags)

/-- The kinds after a frame became the table below an entry. -/
def hangKind (kind : Nat → Kind) (level table : Nat) (index : Fin 512)
    (frame : Nat) : Nat → Kind :=
  setKind (setKind kind frame .held) frame (.table (level + 1) table index)

section Hang

variable {frame : Nat}

theorem hangTable_entry :
    childOf ((hangTable s table index frame).mem table index) =
      childOf (entryOf frame userFlags) := by
  rw [hangTable, Paging.writeWord_same]

theorem hangTable_mem_frame (different : frame ≠ table)
    (position : Fin 512) :
    (hangTable s table index frame).mem frame position = 0 := by
  rw [hangTable, Paging.writeWord_of_ne_frame different,
    Paging.writePage_same]

end Hang

theorem Owned.ne_frame_of_free (owned : Owned kind s) {frame : Nat}
    (free : s.isFree frame = true)
    (tableDepth : (kind table).depth = some level) : frame ≠ table := by
  intro same
  rw [← same, owned.free frame free] at tableDepth
  cases tableDepth

/-- Walks see a table hung below an absent entry only where they end at
it. -/
theorem Owned.tableAt_hangTable (owned : Owned kind s) {root frame : Nat}
    {path : List (Fin 512)} (rooted : kind root = .pml4)
    (legal : OwnedPath ownedIndex path) (short : path.length ≤ 4)
    (tableDepth : (kind table).depth = some level)
    (free : s.isFree frame = true)
    (absent : hasFlag (s.mem table index) ptPR = false) :
    tableAt childOf (hangTable s table index frame).mem root path =
        tableAt childOf s.mem root path ∨
      tableAt childOf (hangTable s table index frame).mem root path =
        some frame := by
  have different := owned.ne_frame_of_free free tableDepth
  have cleared :
      tableAt childOf
          ((s.unsetFree frame).writePage frame fun _ => 0).mem root path =
        tableAt childOf s.mem root path := by
    refine owned.hung.tableAt_congr (Kind.depth_root rooted) legal short
      fun other otherLevel position otherDepth _ _ => ?_
    have away := owned.ne_frame_of_free free otherDepth
    rw [Paging.writePage_of_ne away.symm]
    rfl
  rw [← cleared]
  refine (tableAt_hang root ?_
    (childOf_entryOf (Paging.lt_of_isFree free) (by decide) (by decide))
    different (fun position => ?_) path).imp_right fun hung => hung.2
  · rw [Paging.writePage_of_ne different.symm]
    exact childOf_eq_none_iff.mpr absent
  · rw [Paging.writePage_same]
    exact childOf_zero

/-- Taking a frame and clearing it. -/
theorem Extends.takeCleared {frame : Nat} (owned : Owned kind s)
    (free : s.isFree frame = true) :
    Extends kind s (setKind kind frame .held)
      ((s.unsetFree frame).writePage frame fun _ => 0) := by
  apply (Extends.allocate owned free).writeFresh owned free
  · simp [Paging.isFree_unsetFree]
  · rw [setKind_same]
    exact fun isTable => isTable

/-- Hanging a fresh table extends the state. -/
theorem Extends.hangTable {frame : Nat} (owned : Owned kind s)
    (tableDepth : (kind table).depth = some level) (inner : level < 3)
    (permitted : ownedIndex level index) (free : s.isFree frame = true)
    (absent : hasFlag (s.mem table index) ptPR = false) :
    Extends kind s (hangKind kind level table index frame)
      (hangTable s table index frame) := by
  have small := Paging.lt_of_isFree free
  have tableKind := Kind.isTable_of_depth tableDepth
  have different := owned.ne_frame_of_free free tableDepth
  have noEntry : childOf (s.mem table index) = none :=
    childOf_eq_none_iff.mpr absent
  have points : childOf (entryOf frame userFlags) = some frame :=
    childOf_entryOf small (by decide) (by decide)
  have taken := Extends.takeCleared owned free
  have sameEntry :
      ((s.unsetFree frame).writePage frame fun _ => 0).mem table index =
        s.mem table index := by
    rw [Paging.writePage_of_ne different.symm]
    rfl
  have tableDepthNow :
      (setKind kind frame .held table).depth = some level := by
    rw [setKind_of_ne different.symm]
    exact tableDepth
  have cleared :
      ∀ position, childOf
        (((s.unsetFree frame).writePage frame fun _ => 0).mem frame
          position) = none := by
    intro position
    rw [Paging.writePage_same]
    exact childOf_zero
  refine Extends.link table index (entryOf frame userFlags)
    (.table (level + 1) table index) taken owned free
    (by simp [Paging.isFree_unsetFree]) setKind_same
    (fun position => by rw [Paging.writePage_same]) tableKind ?_ ?_ ?_
  · unfold EntryOk
    have same :
        setKind (setKind kind frame .held) frame
            (.table (level + 1) table index) table =
          kind table := by
      rw [setKind_of_ne different.symm, setKind_of_ne different.symm]
    rw [same]
    cases known : kind table with
    | pml4 =>
        rw [known] at tableDepth
        cases tableDepth
        dsimp only
        rw [if_neg (permitted rfl)]
        exact below_entryOf small (by decide)
          ⟨userTable_entryOf frame, setKind_same⟩
    | table ownLevel parent position =>
        rw [known] at tableDepth
        cases tableDepth
        dsimp only
        rw [if_pos inner]
        exact below_entryOf small (by decide)
          ⟨userTable_entryOf frame, setKind_same⟩
    | _ =>
        rw [known] at tableDepth
        cases tableDepth
  · intro root path found _ _ _ reached
    exact tableAt_hang_of_eq_some (by rw [sameEntry]; exact noEntry) points
      different cleared reached
  · intro root path rooted legal full
    exact taken.owned.hung.lookup_hang (Kind.depth_root rooted) tableDepthNow
      inner (by rw [sameEntry]; exact noEntry) points different cleared
      legal full

/-- A level of a mapping in the user half: afterwards the slot points to a
table, and nothing else has changed for any user. -/
theorem yields_nextTable_user (exhausted : allowed .noFreeFrame)
    (owned : Owned kind s) (tableDepth : (kind table).depth = some level)
    (inner : level < 3) (permitted : ownedIndex level index) :
    Yields allowed (nextTable userFlags table index) s fun below next =>
      ∃ changed, Extends kind s changed next ∧
        childOf (next.mem table index) = some below ∧
        changed below = .table (level + 1) table index := by
  rw [nextTable, yields_bind, yields_get]
  by_cases present : hasFlag (s.mem table index) ptPR = true
  · obtain ⟨target, small, address, _, targetKind⟩ :=
      owned.below_inner tableDepth inner permitted present
    rw [if_pos present, yields_pure]
    refine ⟨kind, Extends.refl owned, ?_, ?_⟩
    · exact childOf_eq_some_iff.mpr ⟨present, rfl⟩
    · rw [Owned.eq_frameOf small address]
      exact targetKind
  · rw [if_neg present, yields_bind]
    apply yields_allocateVirtPage exhausted
    intro frame free
    have small := Paging.lt_of_isFree free
    rw [kernelFrame_pageAddr (lt_of_lt_frameCount small)]
    refine ⟨_, Extends.hangTable owned tableDepth inner permitted free
      (by simpa using present), ?_, setKind_same⟩
    exact hangTable_entry.trans (childOf_entryOf small (by decide)
      (by decide))

end UserTables

/-! ## Tables of the kernel half -/

/-- A slot above the leaves of the kernel half: entry 511 of a PML4 page, or
any entry of a kernel table that points to tables. -/
def KernelSlot (kind : Nat → Kind) (table : Nat) (index : Fin 512)
    (level : Nat) : Prop :=
  kind table = .pml4 ∧ index = 511 ∧ level = 0 ∨
    kind table = .kernelTable level ∧ level < 3

section KernelTables

variable {kind : Nat → Kind} {s : Paging} {table level : Nat}
variable {index : Fin 512} {flags entry : Word} {allowed : Fault → Prop}

theorem KernelSlot.isTable (slot : KernelSlot kind table index level) :
    (kind table).IsTable := by
  rcases slot with ⟨known, _, _⟩ | ⟨known, _⟩
  · rw [known]
    trivial
  · rw [known]
    trivial

theorem KernelSlot.entryOk_iff (slot : KernelSlot kind table index level) :
    EntryOk kind table index entry ↔
      Below kind entry fun below => below = .kernelTable (level + 1) := by
  unfold EntryOk
  rcases slot with ⟨known, last, root⟩ | ⟨known, inner⟩
  · simp only [known]
    rw [if_pos last, root]
  · simp only [known]
    rw [if_pos inner]

/-- No walk of the user half reads a slot of the kernel half. -/
theorem KernelSlot.ne_owned (slot : KernelSlot kind table index level)
    {other otherLevel : Nat} {position : Fin 512}
    (otherDepth : (kind other).depth = some otherLevel)
    (permitted : ownedIndex otherLevel position) :
    ¬ (other = table ∧ position = index) := by
  intro same
  rcases slot with ⟨known, last, _⟩ | ⟨known, _⟩
  · rw [same.1, known] at otherDepth
    cases otherDepth
    exact permitted rfl (same.2.trans last)
  · rw [same.1, known] at otherDepth
    cases otherDepth

theorem Owned.tableAt_writeKernel (owned : Owned kind s)
    (slot : KernelSlot kind table index level)
    {root : Nat} {path : List (Fin 512)} (rooted : kind root = .pml4)
    (legal : OwnedPath ownedIndex path) (short : path.length ≤ 4) :
    tableAt childOf (s.writeWord table index entry).mem root path =
      tableAt childOf s.mem root path := by
  refine owned.hung.tableAt_congr (Kind.depth_root rooted) legal short
    fun other otherLevel position otherDepth _ permitted => ?_
  show childOf (if other = table ∧ position = index then entry
    else s.mem other position) = _
  rw [if_neg (slot.ne_owned otherDepth permitted)]

theorem Owned.lookup_writeKernel (owned : Owned kind s)
    (slot : KernelSlot kind table index level)
    {root : Nat} {path : List (Fin 512)} (rooted : kind root = .pml4)
    (legal : OwnedPath ownedIndex path) (full : path.length = 4) :
    lookup childOf (s.writeWord table index entry).mem root path =
      lookup childOf s.mem root path := by
  refine owned.hung.lookup_congr (Kind.depth_root rooted) legal
    (Nat.le_of_eq full)
    fun other otherLevel position otherDepth _ permitted => ?_
  exact if_neg (slot.ne_owned otherDepth permitted)

/-- A level of a mapping in the kernel half. -/
theorem yields_nextTable_kernel (exhausted : allowed .noFreeFrame)
    (low : removeFlag flags = 0) (owned : Owned kind s)
    (slot : KernelSlot kind table index level) :
    Yields allowed (nextTable flags table index) s fun below next =>
      ∃ changed, Extends kind s changed next ∧
        changed below = .kernelTable (level + 1) := by
  rw [nextTable, yields_bind, yields_get]
  by_cases present : hasFlag (s.mem table index) ptPR = true
  · obtain ⟨target, small, address, targetKind⟩ :=
      slot.entryOk_iff.mp (owned.entries table index) present
    rw [if_pos present, yields_pure]
    refine ⟨kind, Extends.refl owned, ?_⟩
    rw [Owned.eq_frameOf small address]
    exact targetKind
  · rw [if_neg present, yields_bind]
    apply yields_allocateVirtPage exhausted
    intro frame free
    have small := Paging.lt_of_isFree free
    have different : frame ≠ table := by
      intro same
      have tableKind := slot.isTable
      rw [← same, owned.free frame free] at tableKind
      exact tableKind
    have taken := Extends.takeCleared owned free
    have slotHeld :
        KernelSlot (setKind kind frame .held) table index level := by
      unfold KernelSlot
      rw [setKind_of_ne different.symm]
      exact slot
    have slotNow :
        KernelSlot (setKind (setKind kind frame .held) frame
          (.kernelTable (level + 1))) table index level := by
      unfold KernelSlot
      rw [setKind_of_ne different.symm]
      exact slotHeld
    have linked :=
      Extends.link table index (entryOf frame flags)
        (.kernelTable (level + 1)) taken owned free
        (by simp [Paging.isFree_unsetFree]) setKind_same
        (fun position => by rw [Paging.writePage_same]) slot.isTable
        (slotNow.entryOk_iff.mpr
          (below_entryOf small low setKind_same))
        (fun root path found rooted legal short reached => by
          rw [taken.owned.tableAt_writeKernel slotHeld rooted legal
            (Nat.le_succ_of_le short)]
          exact reached)
        (fun root path rooted legal full =>
          taken.owned.lookup_writeKernel slotHeld rooted legal full)
    rw [kernelFrame_pageAddr (lt_of_lt_frameCount small)]
    exact ⟨_, linked, setKind_same⟩

end KernelTables

end SbuUnix
