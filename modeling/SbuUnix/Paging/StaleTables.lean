import SbuUnix.Paging.CopyTables
import SbuUnix.Paging.UserMapping

/-!
# The tables of a fork in frames as they are

`copy_parent_tables` takes a frame for each table of the parent, in the order
of its loops, and fills the entries that are present in the parent's table.
It does not clear the frame: what the frame held at the other indices is read
as entries of the child.
-/

namespace SbuUnix

open TableForest Outcome

/-! ## The frames of the child's tables -/

/-- The number of tables that hang below the first entries of a table. -/
def tablesBelow (s : Paging) : Nat → Nat → Nat → Nat
  | 0, _, _ => 0
  | levels + 1, table, count =>
      ((List.range count).map fun i =>
        match childOf (s.mem table (Fin.ofNat 512 i)) with
        | some below => tablesBelow s levels below 512 + 1
        | none => 0).sum

/-- The number of frames that were taken when the loop over the entries of the
parent's table on a path begins. -/
def framesBefore (s : Paging) (parent : Nat) : List (Fin 512) → Nat
  | [] => 0
  | index :: path =>
      framesBefore s parent path +
        (match tableAt childOf s.mem parent path with
        | some table => tablesBelow s (3 - path.length) table index.val
        | none => 0) + 1

/-- The frame in which the table on a path is copied. -/
def copyFrame (s : Paging) (parent child : Nat) (path : List (Fin 512)) :
    Nat :=
  match path with
  | [] => child
  | _ :: _ => s.supply (framesBefore s parent path - 1)

/-- A present entry of the parent's tables in the user half. -/
structure ParentEntry (s : Paging) (parent : Nat) (path : List (Fin 512)) :
    Prop where
  legal : OwnedPath ownedIndex path
  short : path.length ≤ 4
  present : (tableAt childOf s.mem parent path).isSome = true

/-- Where an entry of a frame leads when the copy is made: an entry that the
copy fills leads to the copy of the table or to the parent's page, every other
one to where it leads now. -/
def Points (s : Paging) (parent child frame : Nat) (index : Fin 512)
    (target : Nat) : Prop :=
  (∃ path, ParentEntry s parent (index :: path) ∧
    copyFrame s parent child path = frame ∧
    if path.length < 3 then
      target = copyFrame s parent child (index :: path)
    else
      tableAt childOf s.mem parent (index :: path) = some target) ∨
  (∀ path, ParentEntry s parent (index :: path) →
    copyFrame s parent child path ≠ frame) ∧
    childOf (s.mem frame index) = some target

/-- Some walk of so many further entries from a frame succeeds when the copy
is made. -/
def Leads (s : Paging) (parent child : Nat) : Nat → Nat → Prop
  | 0, _ => True
  | steps + 1, frame =>
      ∃ index target, Points s parent child frame index target ∧
        Leads s parent child steps target

/-- In the frames that are taken for the child's tables, no present entry at
an index where the parent's table has none starts a walk to a page. -/
def NothingStale (s : Paging) (parent child : Nat) : Prop :=
  ∀ path index target, path ≠ [] → path.length ≤ 3 → ParentEntry s parent path →
    tableAt childOf s.mem parent (index :: path) = none →
      childOf (s.mem (copyFrame s parent child path) index) = some target →
        ¬ Leads s parent child (3 - path.length) target

/-- The child maps what the parent maps, shared until the next write, and the
parent maps what it mapped. -/
structure ForksExactly (s next : Paging) (parent child : Nat) : Prop where
  succeeds : ∀ v, pml4Index v ≠ 511 →
    ((entryAt next child v).isSome = true ↔
      (entryAt s parent v).isSome = true)
  shares : ∀ v entry, pml4Index v ≠ 511 → entryAt s parent v = some entry →
    ∃ shared, entryAt next child v = some shared ∧
      entryAt next parent v = some shared ∧
      frameOf shared = frameOf entry ∧ hasFlag shared ptPR = true ∧
      hasFlag shared ptU = true ∧ hasFlag shared ptCow = true ∧
      hasFlag shared ptWR = false
  keeps : ∀ v, (entryAt next parent v).map frameOf =
    (entryAt s parent v).map frameOf

/-! ## The memory while the tables are copied -/

/-- The word that the copy writes for a present entry. -/
def copyWord (s : Paging) (parent child : Nat) (index : Fin 512)
    (path : List (Fin 512)) (entry : Word) : Word :=
  if path.length < 3 then
    entryOf (copyFrame s parent child (index :: path)) userFlags
  else
    cowEntry entry

/-- `cur` is `s` with the entries in `done` copied, and `count` frames were
taken for them. -/
structure Copying (s : Paging) (parent child : Nat)
    (done : List (Fin 512) → Prop) (count : Nat) (cur : Paging) : Prop where
  map : cur.freeMap = (s.clearBits count).freeMap
  cr3 : cur.cr3 = s.cr3
  fewer : ∀ frame, cur.isFree frame = true → s.isFree frame = true
  closed : ∀ index path, ParentEntry s parent (index :: path) →
    done (index :: path) → path ≠ [] → done path
  frames : ∀ path, path ≠ [] → path.length ≤ 3 → ParentEntry s parent path →
    done path → s.isFree (copyFrame s parent child path) = true ∧
      cur.isFree (copyFrame s parent child path) = false
  distinct : ∀ path other, path ≠ [] → other ≠ [] → path.length ≤ 3 →
    other.length ≤ 3 → ParentEntry s parent path → ParentEntry s parent other →
      done path → done other →
        copyFrame s parent child path = copyFrame s parent child other →
          path = other
  copies : ∀ index path table, ParentEntry s parent (index :: path) →
    tableAt childOf s.mem parent path = some table → done (index :: path) →
      cur.mem (copyFrame s parent child path) index =
        copyWord s parent child index path (s.mem table index)
  leaves : ∀ index path table, ParentEntry s parent (index :: path) →
    path.length = 3 → tableAt childOf s.mem parent path = some table →
      done (index :: path) →
        cur.mem table index = cowEntry (s.mem table index)
  rest : ∀ frame index, (∀ path, ParentEntry s parent (index :: path) →
    done (index :: path) → copyFrame s parent child path ≠ frame ∧
      (path.length = 3 → tableAt childOf s.mem parent path ≠ some frame)) →
        cur.mem frame index = s.mem frame index

/-- The state in which the copy starts: the child has a PML4 page whose user
half is empty and whose last entry is the parent's. -/
structure ForkReady (kind : Nat → Kind) (s : Paging) (parent child : Nat) :
    Prop where
  apart : TablesApart kind s
  parentRoot : kind parent = .pml4
  childRoot : kind child = .pml4
  different : parent ≠ child
  empty : ∀ index, index ≠ 511 → hasFlag (s.mem child index) ptPR = false
  kernel : s.mem child 511 = s.mem parent 511

section Steps

variable {kind : Nat → Kind} {s cur next : Paging} {parent child : Nat}
variable {table frame count later : Nat} {index : Fin 512}
variable {path other : List (Fin 512)} {done : List (Fin 512) → Prop}

theorem ParentEntry.tail (entry : ParentEntry s parent (index :: path)) :
    ParentEntry s parent path where
  legal := entry.legal.1
  short := Nat.le_of_succ_le entry.short
  present := by
    have present := entry.present
    cases above : tableAt childOf s.mem parent path with
    | none =>
        rw [tableAt_cons_of_eq_none above] at present
        cases present
    | some table => rfl

theorem ParentEntry.reached (entry : ParentEntry s parent (index :: path)) :
    ∃ table, tableAt childOf s.mem parent path = some table ∧
      hasFlag (s.mem table index) ptPR = true := by
  obtain ⟨table, reached⟩ := Option.isSome_iff_exists.mp entry.tail.present
  have present := entry.present
  rw [tableAt_cons_of_eq_some reached, childOf_isSome] at present
  exact ⟨table, reached, present⟩

theorem ForkReady.depth (ready : ForkReady kind s parent child)
    (legal : OwnedPath ownedIndex path) (short : path.length ≤ 3)
    (reached : tableAt childOf s.mem parent path = some table) :
    (kind table).depth = some path.length :=
  ready.apart.hung.depth_tableAt (Kind.depth_root ready.parentRoot) legal short
    reached

/-- The parent's tables are in use. -/
theorem ForkReady.used (ready : ForkReady kind s parent child)
    (legal : OwnedPath ownedIndex path) (short : path.length ≤ 3)
    (reached : tableAt childOf s.mem parent path = some table) :
    s.isFree table = false :=
  ready.apart.used table
    (Kind.isTable_of_depth (ready.depth legal short reached))

theorem ForkReady.childUsed (ready : ForkReady kind s parent child) :
    s.isFree child = false :=
  ready.apart.used child (by rw [ready.childRoot]; trivial)

/-- The child's PML4 page is not among the parent's tables. -/
theorem ForkReady.ne_child (ready : ForkReady kind s parent child)
    (legal : OwnedPath ownedIndex path) (short : path.length ≤ 3)
    (reached : tableAt childOf s.mem parent path = some table) :
    child ≠ table := by
  intro same
  have depth := ready.depth legal short reached
  rw [← same, ready.childRoot] at depth
  have root : path = [] := by
    apply List.eq_nil_of_length_eq_zero
    exact (Option.some.inj depth).symm
  rw [root] at reached
  cases reached
  exact ready.different same.symm

/-- Two walks of the parent that end at one table are the same. -/
theorem ForkReady.path_eq (ready : ForkReady kind s parent child)
    (legal : OwnedPath ownedIndex path) (short : path.length ≤ 3)
    (otherLegal : OwnedPath ownedIndex other) (otherShort : other.length ≤ 3)
    (reached : tableAt childOf s.mem parent path = some table)
    (otherReached : tableAt childOf s.mem parent other = some table) :
    path = other :=
  (ready.apart.hung.tableAt_injective (Kind.depth_root ready.parentRoot)
    (Kind.depth_root ready.parentRoot) legal short otherLegal otherShort reached
    otherReached).2

/-- The frame of a copy is none of the parent's tables. -/
theorem Copying.ne_table (copying : Copying s parent child done count cur)
    (ready : ForkReady kind s parent child)
    (entry : ParentEntry s parent path) (short : path.length ≤ 3)
    (isDone : path ≠ [] → done path) (legal : OwnedPath ownedIndex other)
    (otherShort : other.length ≤ 3)
    (reached : tableAt childOf s.mem parent other = some table) :
    copyFrame s parent child path ≠ table := by
  cases path with
  | nil => exact ready.ne_child legal otherShort reached
  | cons position path =>
      intro same
      have free := (copying.frames _ (List.cons_ne_nil _ _) short entry
        (isDone (List.cons_ne_nil _ _))).1
      rw [same, ready.used legal otherShort reached] at free
      cases free

/-- Two copies are in two frames. -/
theorem Copying.path_eq (copying : Copying s parent child done count cur)
    (ready : ForkReady kind s parent child)
    (entry : ParentEntry s parent path) (short : path.length ≤ 3)
    (isDone : path ≠ [] → done path)
    (otherEntry : ParentEntry s parent other) (otherShort : other.length ≤ 3)
    (otherDone : other ≠ [] → done other)
    (same : copyFrame s parent child path = copyFrame s parent child other) :
    path = other := by
  have notRoot : ∀ walk, walk ≠ [] → walk.length ≤ 3 →
      ParentEntry s parent walk → done walk →
        copyFrame s parent child walk ≠ child := by
    intro walk nonempty walkShort walkEntry walkDone here
    have free := (copying.frames walk nonempty walkShort walkEntry walkDone).1
    rw [here, ready.childUsed] at free
    cases free
  by_cases root : path = []
  · by_cases otherRoot : other = []
    · rw [root, otherRoot]
    · rw [root] at same
      exact absurd same.symm
        (notRoot other otherRoot otherShort otherEntry (otherDone otherRoot))
  · by_cases otherRoot : other = []
    · rw [otherRoot] at same
      exact absurd same (notRoot path root short entry (isDone root))
    · exact copying.distinct path other root otherRoot short otherShort entry
        otherEntry (isDone root) (otherDone otherRoot) same

/-- The loops read the parent's entries as they were. -/
theorem Copying.read (copying : Copying s parent child done count cur)
    (ready : ForkReady kind s parent child)
    (legal : OwnedPath ownedIndex path) (short : path.length ≤ 3)
    (reached : tableAt childOf s.mem parent path = some table)
    (unchanged : path.length < 3 ∨ ¬ done (index :: path)) :
    cur.mem table index = s.mem table index := by
  apply copying.rest
  intro walk entry isDone
  have walkShort : walk.length ≤ 3 := Nat.le_of_succ_le_succ entry.short
  constructor
  · exact copying.ne_table ready entry.tail walkShort
      (copying.closed index walk entry isDone) legal short reached
  · intro full walkReached
    have same := ready.path_eq legal short entry.tail.legal walkShort reached
      walkReached
    rw [← same] at full isDone
    rcases unchanged with inner | notDone
    · omega
    · exact notDone isDone

/-- One more entry of the parent is copied. -/
theorem Copying.add (copying : Copying s parent child done count cur)
    (ready : ForkReady kind s parent child)
    (entry : ParentEntry s parent (index :: path))
    (reached : tableAt childOf s.mem parent path = some table)
    (above : path ≠ [] → done path)
    (map : next.freeMap = (s.clearBits later).freeMap)
    (cr3 : next.cr3 = cur.cr3)
    (fewer : ∀ frame, next.isFree frame = true → cur.isFree frame = true)
    (fresh : path.length < 3 →
      cur.isFree (copyFrame s parent child (index :: path)) = true ∧
        next.isFree (copyFrame s parent child (index :: path)) = false)
    (mem : ∀ frame position, next.mem frame position =
      if position = index ∧ frame = copyFrame s parent child path then
        copyWord s parent child index path (s.mem table index)
      else if position = index ∧ path.length = 3 ∧ frame = table then
        cowEntry (s.mem table index)
      else
        cur.mem frame position) :
    Copying s parent child (fun walk => done walk ∨ walk = index :: path)
      later next := by
  have short : path.length ≤ 3 := Nat.le_of_succ_le_succ entry.short
  have stillUsed : ∀ frame, cur.isFree frame = false →
      next.isFree frame = false := by
    intro frame used
    cases free : next.isFree frame with
    | false => rfl
    | true =>
        rw [fewer frame free] at used
        cases used
  have closed : ∀ position walk, ParentEntry s parent (position :: walk) →
      (done (position :: walk) ∨ position :: walk = index :: path) →
        walk ≠ [] → done walk := by
    intro position walk walkEntry isDone nonempty
    rcases isDone with old | new
    · exact copying.closed position walk walkEntry old nonempty
    · injection new with _ samePath
      rw [samePath] at nonempty ⊢
      exact above nonempty
  exact
    { map := map
      cr3 := cr3.trans copying.cr3
      fewer := fun frame free => copying.fewer frame (fewer frame free)
      closed := fun position walk walkEntry isDone nonempty =>
        Or.inl (closed position walk walkEntry isDone nonempty)
      frames := by
        intro walk nonempty walkShort walkEntry isDone
        rcases isDone with old | new
        · have known := copying.frames walk nonempty walkShort walkEntry old
          exact ⟨known.1, stillUsed _ known.2⟩
        · rw [new] at walkShort ⊢
          have known := fresh (Nat.lt_of_succ_le walkShort)
          exact ⟨copying.fewer _ known.1, known.2⟩
      distinct := by
        -- The frame of the new copy was free when the others were taken.
        have apart : ∀ walk, walk ≠ [] → walk.length ≤ 3 →
            ParentEntry s parent walk → done walk →
              (index :: path).length ≤ 3 →
                copyFrame s parent child walk ≠
                  copyFrame s parent child (index :: path) := by
          intro walk nonempty walkShort walkEntry old newShort same
          have used :=
            (copying.frames walk nonempty walkShort walkEntry old).2
          rw [same, (fresh (Nat.lt_of_succ_le newShort)).1] at used
          cases used
        intro walk other nonempty otherNonempty walkShort otherShort walkEntry
          otherEntry isDone otherDone same
        rcases isDone with old | new
        · rcases otherDone with otherOld | otherNew
          · exact copying.distinct walk other nonempty otherNonempty walkShort
              otherShort walkEntry otherEntry old otherOld same
          · rw [otherNew] at same otherShort
            exact absurd same
              (apart walk nonempty walkShort walkEntry old otherShort)
        · rcases otherDone with otherOld | otherNew
          · rw [new] at same walkShort
            exact absurd same.symm
              (apart other otherNonempty otherShort otherEntry otherOld
                walkShort)
          · rw [new, otherNew]
      copies := by
        intro position walk found walkEntry walkReached isDone
        have walkShort : walk.length ≤ 3 :=
          Nat.le_of_succ_le_succ walkEntry.short
        have walkDone := closed position walk walkEntry isDone
        rw [mem]
        by_cases here : position = index ∧
            copyFrame s parent child walk = copyFrame s parent child path
        · have same := copying.path_eq ready walkEntry.tail walkShort walkDone
            entry.tail short above here.2
          rw [same, reached] at walkReached
          cases walkReached
          rw [if_pos here, here.1, same]
        · rw [if_neg here]
          have notLeaf : ¬ (position = index ∧ path.length = 3 ∧
              copyFrame s parent child walk = table) := by
            intro leaf
            exact copying.ne_table ready walkEntry.tail walkShort walkDone
              entry.tail.legal short reached leaf.2.2
          rw [if_neg notLeaf]
          apply copying.copies position walk found walkEntry walkReached
          rcases isDone with old | new
          · exact old
          · injection new with sameIndex samePath
            exact absurd ⟨sameIndex, by rw [samePath]⟩ here
      leaves := by
        intro position walk found walkEntry full walkReached isDone
        have walkShort : walk.length ≤ 3 := Nat.le_of_eq full
        rw [mem]
        have notCopy : ¬ (position = index ∧
            found = copyFrame s parent child path) := by
          intro copy
          exact copying.ne_table ready entry.tail short above
            walkEntry.tail.legal walkShort walkReached copy.2.symm
        rw [if_neg notCopy]
        by_cases here : position = index ∧ path.length = 3 ∧ found = table
        · rw [if_pos here, here.1, here.2.2]
        · rw [if_neg here]
          apply copying.leaves position walk found walkEntry full walkReached
          rcases isDone with old | new
          · exact old
          · injection new with sameIndex samePath
            rw [samePath] at full walkReached
            rw [reached] at walkReached
            cases walkReached
            exact absurd ⟨sameIndex, full, rfl⟩ here
      rest := by
        intro other position away
        have notCopy : ¬ (position = index ∧
            other = copyFrame s parent child path) := by
          intro copy
          rw [copy.1] at away
          exact (away path entry (Or.inr rfl)).1 copy.2.symm
        have notLeaf : ¬ (position = index ∧ path.length = 3 ∧
            other = table) := by
          intro leaf
          rw [leaf.1] at away
          apply (away path entry (Or.inr rfl)).2 leaf.2.1
          rw [leaf.2.2]
          exact reached
        rw [mem, if_neg notCopy, if_neg notLeaf]
        apply copying.rest
        intro walk walkEntry old
        exact away walk walkEntry (Or.inl old) }

end Steps

/-! ## The order in which frames are taken -/

section Counts

variable {s cur : Paging} {parent child table below levels count : Nat}
variable {index : Fin 512} {path : List (Fin 512)}

theorem tablesBelow_succ_of_some
    (points : childOf (s.mem table index) = some below) :
    tablesBelow s (levels + 1) table (index.val + 1) =
      tablesBelow s (levels + 1) table index.val +
        (tablesBelow s levels below 512 + 1) := by
  have position : Fin.ofNat 512 index.val = index := fin_ofNat_val index
  simp only [tablesBelow, List.range_succ, List.map_append, List.map_cons,
    List.map_nil, List.sum_append, List.sum_cons, List.sum_nil, position,
    points, Nat.add_zero]

theorem tablesBelow_succ_of_none
    (absent : childOf (s.mem table index) = none) :
    tablesBelow s levels table (index.val + 1) =
      tablesBelow s levels table index.val := by
  cases levels with
  | zero => rfl
  | succ levels =>
      have position : Fin.ofNat 512 index.val = index := fin_ofNat_val index
      simp only [tablesBelow, List.range_succ, List.map_append, List.map_cons,
        List.map_nil, List.sum_append, List.sum_cons, List.sum_nil, position,
        absent, Nat.add_zero]

theorem tablesBelow_zero (levels : Nat) : tablesBelow s levels table 0 = 0 := by
  cases levels <;> rfl

theorem framesBefore_cons
    (reached : tableAt childOf s.mem parent path = some table) :
    framesBefore s parent (index :: path) =
      framesBefore s parent path +
        tablesBelow s (3 - path.length) table index.val + 1 := by
  rw [framesBefore, reached]

/-- The next frame that is taken is the one of the copy. -/
theorem copyFrame_eq {frame : Nat}
    (reached : tableAt childOf s.mem parent path = some table)
    (map : cur.freeMap = (s.clearBits (framesBefore s parent path +
      tablesBelow s (3 - path.length) table index.val)).freeMap)
    (found : getFirstpage cur.freeMap = some frame) :
    copyFrame s parent child (index :: path) = frame := by
  rw [copyFrame, framesBefore_cons reached, Nat.add_sub_cancel,
    Paging.supply, ← map, found]
  rfl

theorem clearBits_succ_freeMap {frame : Nat}
    (map : cur.freeMap = (s.clearBits count).freeMap)
    (found : getFirstpage cur.freeMap = some frame) :
    (cur.unsetFree frame).freeMap = (s.clearBits (count + 1)).freeMap := by
  rw [map] at found
  rw [Paging.clearBits, Paging.clearFirst, found]
  unfold Paging.unsetFree Paging.writeMap
  dsimp only
  rw [map]

end Counts

/-! ## The loops -/

section Loops

variable {kind : Nat → Kind} {s cur : Paging} {parent child table : Nat}
variable {index : Fin 512} {path : List (Fin 512)} {count depth : Nat}
variable {done later : List (Fin 512) → Prop} {allowed : Fault → Prop}

theorem Copying.congr (copying : Copying s parent child done count cur)
    (same : ∀ walk, ParentEntry s parent walk → (done walk ↔ later walk)) :
    Copying s parent child later count cur where
  map := copying.map
  cr3 := copying.cr3
  fewer := copying.fewer
  closed := by
    intro index path entry isDone nonempty
    apply (same path entry.tail).mp
    exact copying.closed index path entry ((same _ entry).mpr isDone) nonempty
  frames := by
    intro path nonempty short entry isDone
    exact copying.frames path nonempty short entry ((same _ entry).mpr isDone)
  distinct := by
    intro path other nonempty otherNonempty short otherShort entry otherEntry
      isDone otherDone
    exact copying.distinct path other nonempty otherNonempty short otherShort
      entry otherEntry ((same _ entry).mpr isDone)
      ((same _ otherEntry).mpr otherDone)
  copies := by
    intro index path table entry reached isDone
    exact copying.copies index path table entry reached
      ((same _ entry).mpr isDone)
  leaves := by
    intro index path table entry full reached isDone
    exact copying.leaves index path table entry full reached
      ((same _ entry).mpr isDone)
  rest := by
    intro frame index away
    apply copying.rest
    intro path entry isDone
    exact away path entry ((same _ entry).mp isDone)

/-- The entries strictly below the table on a path. -/
def Under (path walk : List (Fin 512)) : Prop :=
  path <:+ walk ∧ walk ≠ path

theorem Under.of_cons {walk : List (Fin 512)}
    (here : (index :: path) <:+ walk) : Under path walk := by
  refine ⟨(List.suffix_cons index path).trans here, ?_⟩
  intro same
  rw [same] at here
  have length := here.length_le
  rw [List.length_cons] at length
  omega

/-- `program` copies the first entries of a table of the parent, and all that
hangs below them, to the frame for its copy. -/
def Fills (s : Paging) (parent child : Nat) (allowed : Fault → Prop)
    (depth count : Nat) (program : Nat → Nat → PagingM Unit) : Prop :=
  ∀ (path : List (Fin 512)) (table : Nat) (done : List (Fin 512) → Prop)
    (cur : Paging), path.length = depth → ParentEntry s parent path →
      tableAt childOf s.mem parent path = some table →
      Copying s parent child done (framesBefore s parent path) cur →
      (path ≠ [] → done path) → (∀ walk, Under path walk → ¬ done walk) →
        Yields allowed (program table (copyFrame s parent child path)) cur
          fun _ next =>
            Copying s parent child (fun walk => done walk ∨ Under path walk)
              (framesBefore s parent path +
                tablesBelow s (3 - path.length) table count) next

/-- A loop over the entries of a table, by its passes. -/
theorem yields_fillLoop {body : Nat → PagingM Unit} (bounded : count ≤ 512)
    (complete : ∀ index : Fin 512,
      ownedIndex path.length index ↔ index.val < count)
    (copying : Copying s parent child done (framesBefore s parent path) cur)
    (step : ∀ (index : Fin 512) state, ownedIndex path.length index →
      Copying s parent child
        (fun walk => done walk ∨ CoveredUpto path index.val walk)
        (framesBefore s parent path +
          tablesBelow s (3 - path.length) table index.val) state →
        Yields allowed (body index.val) state fun _ next =>
          Copying s parent child
            (fun walk => done walk ∨ CoveredUpto path (index.val + 1) walk)
            (framesBefore s parent path +
              tablesBelow s (3 - path.length) table (index.val + 1)) next) :
    Yields allowed (forUpto count body) cur fun _ next =>
      Copying s parent child (fun walk => done walk ∨ Under path walk)
        (framesBefore s parent path +
          tablesBelow s (3 - path.length) table count) next := by
  refine (yields_forUpto (fun passes state =>
    Copying s parent child
      (fun walk => done walk ∨ CoveredUpto path passes walk)
      (framesBefore s parent path +
        tablesBelow s (3 - path.length) table passes) state)
    count ?_ ?_).mono ?_
  · rw [tablesBelow_zero, Nat.add_zero]
    apply copying.congr
    intro walk _
    constructor
    · exact Or.inl
    · intro either
      rcases either with isDone | ⟨_, below, _⟩
      · exact isDone
      · exact absurd below (Nat.not_lt_zero _)
  · intro passes below state invariant
    let index : Fin 512 := ⟨passes, Nat.lt_of_lt_of_le below bounded⟩
    exact step index state ((complete index).mpr below) invariant
  · intro _ next all
    apply all.congr
    intro walk entry
    apply or_congr Iff.rfl
    constructor
    · intro covered
      obtain ⟨index, _, here⟩ := covered
      exact Under.of_cons here
    · intro under
      obtain ⟨suffix, different⟩ := under
      have longer : path.length < walk.length := by
        rcases Nat.lt_or_ge path.length walk.length with less | more
        · exact less
        · exact absurd (suffix.eq_of_length_le more).symm different
      obtain ⟨index, here⟩ := exists_slot suffix longer
      exact ⟨index,
        (complete index).mp (ownedPath_of_suffix entry.legal here).2, here⟩

theorem coveredUpto_succ_iff {walk : List (Fin 512)} :
    CoveredUpto path (index.val + 1) walk ↔
      CoveredUpto path index.val walk ∨ (index :: path) <:+ walk := by
  constructor
  · intro covered
    obtain ⟨other, below, here⟩ := covered
    rcases Nat.lt_succ_iff_lt_or_eq.mp below with earlier | now
    · exact Or.inl ⟨other, earlier, here⟩
    · have same : other = index := Fin.ext now
      rw [same] at here
      exact Or.inr here
  · intro either
    rcases either with ⟨other, below, here⟩ | here
    · exact ⟨other, Nat.lt_succ_of_lt below, here⟩
    · exact ⟨index, Nat.lt_succ_self _, here⟩

/-- A pass has not come to its own entry before. -/
theorem not_coveredUpto_of_suffix {walk : List (Fin 512)}
    (here : (index :: path) <:+ walk) : ¬ CoveredUpto path index.val walk := by
  intro covered
  obtain ⟨other, earlier, there⟩ := covered
  have same := index_eq_of_suffix there here
  rw [same] at earlier
  exact absurd earlier (Nat.lt_irrefl _)

/-- An entry that is absent has nothing below it to copy. -/
theorem not_parentEntry_of_absent {walk : List (Fin 512)}
    (absent : tableAt childOf s.mem parent (index :: path) = none)
    (here : (index :: path) <:+ walk) : ¬ ParentEntry s parent walk := by
  intro entry
  have present := entry.present
  obtain ⟨deeper, split⟩ := here
  rw [← split, tableAt_append_of_eq_none absent deeper] at present
  cases present

/-- A pass over an absent entry has nothing to do. -/
theorem Copying.skip
    (copying : Copying s parent child
      (fun walk => done walk ∨ CoveredUpto path index.val walk) count cur)
    (absent : tableAt childOf s.mem parent (index :: path) = none) :
    Copying s parent child
      (fun walk => done walk ∨ CoveredUpto path (index.val + 1) walk)
      count cur := by
  apply copying.congr
  intro walk walkEntry
  rw [coveredUpto_succ_iff]
  apply or_congr Iff.rfl
  constructor
  · exact Or.inl
  · intro either
    rcases either with covered | here
    · exact covered
    · exact absurd walkEntry (not_parentEntry_of_absent absent here)

/-- The innermost loop. -/
theorem fills_copyPt (ready : ForkReady kind s parent child) :
    Fills s parent child allowed 3 512 copyPt := by
  intro path table done cur full tableEntry reached copying isDone fresh
  have complete : ∀ index : Fin 512,
      ownedIndex path.length index ↔ index.val < 512 := by
    rw [full]
    exact ownedIndex_iff_of_pos (by decide)
  have short : path.length ≤ 3 := Nat.le_of_eq full
  unfold copyPt
  apply yields_fillLoop (Nat.le_refl 512) complete copying
  intro index state permitted copyingNow
  have nothing : ∀ count, tablesBelow s (3 - path.length) table count = 0 := by
    intro count
    rw [full]
    rfl
  have above : path ≠ [] → done path ∨ CoveredUpto path index.val path :=
    fun nonempty => Or.inl (isDone nonempty)
  have notYet : ¬ (done (index :: path) ∨
      CoveredUpto path index.val (index :: path)) := by
    intro either
    rcases either with before | covered
    · exact fresh _ (Under.of_cons (List.suffix_refl _)) before
    · exact not_coveredUpto_of_suffix (List.suffix_refl _) covered
  have word : state.mem table index = s.mem table index :=
    copyingNow.read ready tableEntry.legal short reached (Or.inr notYet)
  rw [fin_ofNat_val, yields_bind, yields_get, word]
  rw [nothing] at copyingNow ⊢
  by_cases present : hasFlag (s.mem table index) ptPR = true
  · rw [if_pos present]
    have entry : ParentEntry s parent (index :: path) :=
      { legal := ⟨tableEntry.legal, permitted⟩
        short := by rw [List.length_cons, full]
        present := by
          rw [tableAt_cons_of_eq_some reached, childOf_isSome]
          exact present }
    let word := cowEntry (s.mem table index)
    let next := ((state.writeWord table index 0).writeWord table index
      word).writeWord (copyFrame s parent child path) index word
    have memory : ∀ frame position, next.mem frame position =
        if position = index ∧ frame = copyFrame s parent child path then
          copyWord s parent child index path (s.mem table index)
        else if position = index ∧ path.length = 3 ∧ frame = table then
          cowEntry (s.mem table index)
        else
          state.mem frame position := by
      intro frame position
      have isLeaf : copyWord s parent child index path (s.mem table index) =
          word := if_neg (by omega)
      change (if frame = copyFrame s parent child path ∧ position = index then
        word else ((state.writeWord table index 0).writeWord table index
          word).mem frame position) = _
      rw [isLeaf, Paging.writeWord_writeWord]
      simp only [full, true_and, and_comm]
      rfl
    have added : Copying s parent child
        (fun walk => (done walk ∨ CoveredUpto path index.val walk) ∨
          walk = index :: path) (framesBefore s parent path + 0) next :=
      copyingNow.add ready entry reached above copyingNow.map rfl
        (fun _ free => free) (fun inner => absurd full (Nat.ne_of_lt inner))
        memory
    apply added.congr
    intro walk walkEntry
    rw [or_assoc, coveredUpto_succ_iff]
    apply or_congr Iff.rfl
    apply or_congr Iff.rfl
    constructor
    · intro same
      rw [same]
    · intro here
      apply (here.eq_of_length_le _).symm
      rw [List.length_cons, full]
      exact walkEntry.short
  · rw [if_neg present, yields_pure]
    have absent : tableAt childOf s.mem parent (index :: path) = none := by
      rw [tableAt_cons_of_eq_some reached]
      apply childOf_eq_none_iff.mpr
      simpa using present
    exact copyingNow.skip absent

/-- Behind a pass over a table its entry and what is below it are copied. -/
theorem coveredUpto_succ_iff_under {walk : List (Fin 512)} :
    CoveredUpto path (index.val + 1) walk ↔
      CoveredUpto path index.val walk ∨
        walk = index :: path ∨ Under (index :: path) walk := by
  rw [coveredUpto_succ_iff]
  apply or_congr Iff.rfl
  constructor
  · intro here
    by_cases same : walk = index :: path
    · exact Or.inl same
    · exact Or.inr ⟨here, same⟩
  · intro either
    rcases either with same | under
    · rw [same]
    · exact under.1

/-- A free frame becomes the copy of the next table, and the copy above it
points to it. -/
theorem Copying.link {frame : Nat}
    (copying : Copying s parent child done
      (framesBefore s parent path +
        tablesBelow s (3 - path.length) table index.val) cur)
    (ready : ForkReady kind s parent child) (inner : path.length < 3)
    (entry : ParentEntry s parent (index :: path))
    (reached : tableAt childOf s.mem parent path = some table)
    (above : path ≠ [] → done path)
    (found : getFirstpage cur.freeMap = some frame)
    (isFrame : copyFrame s parent child (index :: path) = frame) :
    Copying s parent child (fun walk => done walk ∨ walk = index :: path)
      (framesBefore s parent (index :: path))
      ((cur.unsetFree frame).writeWord (copyFrame s parent child path) index
        (entryOf frame userFlags)) := by
  have isLink : copyWord s parent child index path (s.mem table index) =
      entryOf frame userFlags := by
    unfold copyWord
    rw [if_pos inner, isFrame]
  have isFree : ∀ other, (cur.unsetFree frame).isFree other =
      (cur.isFree other && decide (other ≠ frame)) :=
    fun _ => Paging.isFree_unsetFree
  apply copying.add ready entry reached above
  · rw [framesBefore_cons reached]
    exact clearBits_succ_freeMap copying.map found
  · rfl
  · intro other stillFree
    have both := (isFree other).symm.trans stillFree
    rw [Bool.and_eq_true] at both
    exact both.1
  · intro _
    rw [isFrame]
    exact ⟨isFree_of_getFirstpage found, (isFree frame).trans (by simp)⟩
  · intro other position
    have notLeaf : ¬ (position = index ∧ path.length = 3 ∧
        other = table) := by
      intro leaf
      omega
    rw [isLink, if_neg notLeaf]
    change (if other = copyFrame s parent child path ∧ position = index then
      entryOf frame userFlags else cur.mem other position) = _
    simp only [and_comm]

/-- One of the outer loops, by the loop inside it. -/
theorem fills_copyLevel {below : Nat → Nat → PagingM Unit}
    (exhausted : allowed .noFreeFrame) (inner : depth < 3)
    (bounded : count ≤ 512)
    (complete : ∀ index : Fin 512, ownedIndex depth index ↔
      index.val < count)
    (ready : ForkReady kind s parent child)
    (deeper : Fills s parent child allowed (depth + 1) 512 below) :
    Fills s parent child allowed depth count (copyLevel count below) := by
  intro path table done cur length tableEntry reached copying isDone fresh
  subst length
  have short : path.length ≤ 3 := Nat.le_of_lt inner
  unfold copyLevel
  apply yields_fillLoop bounded complete copying
  intro index state permitted copyingNow
  have above : path ≠ [] → done path ∨ CoveredUpto path index.val path :=
    fun nonempty => Or.inl (isDone nonempty)
  have word : state.mem table index = s.mem table index :=
    copyingNow.read ready tableEntry.legal short reached (Or.inl inner)
  rw [fin_ofNat_val, yields_bind, yields_get, word]
  by_cases present : hasFlag (s.mem table index) ptPR = true
  · rw [if_pos present, yields_bind]
    have points : childOf (s.mem table index) =
        some (frameOf (s.mem table index)) :=
      childOf_eq_some_iff.mpr ⟨present, rfl⟩
    have reachedBelow : tableAt childOf s.mem parent (index :: path) =
        some (frameOf (s.mem table index)) := by
      rw [tableAt_cons_of_eq_some reached]
      exact points
    have entry : ParentEntry s parent (index :: path) :=
      { legal := ⟨tableEntry.legal, permitted⟩
        short := Nat.succ_le_succ short
        present := by rw [reachedBelow]; rfl }
    cases found : getFirstpage state.freeMap with
    | none =>
        have failed := allocateVirtPage_eq_error found
        simp only [Yields, failed]
        exact exhausted
    | some frame =>
        have free := isFree_of_getFirstpage found
        have small := lt_of_lt_frameCount (Paging.lt_of_isFree free)
        have isFrame : copyFrame s parent child (index :: path) = frame :=
          copyFrame_eq reached copyingNow.map found
        rw [yields_iff_of_ok (allocateVirtPage_eq_found found), yields_bind,
          kernelFrame_pageAddr small]
        unfold writeEntry
        rw [yields_modify]
        have linked := copyingNow.link ready inner entry reached above found
          isFrame
        have filled := deeper (index :: path) (frameOf (s.mem table index)) _
          _ rfl entry reachedBelow linked (fun _ => Or.inr rfl) (by
            intro walk under either
            rcases either with (before | covered) | same
            · exact fresh walk (Under.of_cons under.1) before
            · exact not_coveredUpto_of_suffix under.1 covered
            · exact under.2 same)
        rw [isFrame] at filled
        apply filled.mono
        intro _ last copied
        rw [framesBefore_cons reached] at copied
        have levels : 3 - path.length = (3 - (index :: path).length) + 1 := by
          rw [List.length_cons]
          omega
        have total : framesBefore s parent path +
            tablesBelow s (3 - path.length) table (index.val + 1) =
              framesBefore s parent path +
                tablesBelow s (3 - path.length) table index.val + 1 +
                  tablesBelow s (3 - (index :: path).length)
                    (frameOf (s.mem table index)) 512 := by
          rw [levels, tablesBelow_succ_of_some points]
          omega
        rw [total]
        apply copied.congr
        intro walk _
        rw [or_assoc, or_assoc, coveredUpto_succ_iff_under]
  · rw [if_neg present, yields_pure]
    have nothing : childOf (s.mem table index) = none := by
      apply childOf_eq_none_iff.mpr
      simpa using present
    have absent : tableAt childOf s.mem parent (index :: path) = none := by
      rw [tableAt_cons_of_eq_some reached]
      exact nothing
    rw [tablesBelow_succ_of_none nothing]
    exact copyingNow.skip absent

end Loops

/-! ## The whole copy -/

section Whole

variable {kind : Nat → Kind} {s cur next : Paging} {parent child table : Nat}
variable {index : Fin 512} {path : List (Fin 512)} {count : Nat}
variable {done : List (Fin 512) → Prop} {allowed : Fault → Prop}

theorem fills_copyPml4 (exhausted : allowed .noFreeFrame)
    (ready : ForkReady kind s parent child) :
    Fills s parent child allowed 0 511 copyPml4 := by
  have tables : Fills s parent child allowed 2 512 copyPd :=
    fills_copyLevel exhausted (by decide) (Nat.le_refl 512)
      (ownedIndex_iff_of_pos (by decide)) ready (fills_copyPt ready)
  have directories : Fills s parent child allowed 1 512 copyPdpt :=
    fills_copyLevel exhausted (by decide) (Nat.le_refl 512)
      (ownedIndex_iff_of_pos (by decide)) ready tables
  exact fills_copyLevel exhausted (by decide) (by decide) ownedIndex_zero_iff
    ready directories

theorem Copying.start (s : Paging) (parent child : Nat) :
    Copying s parent child (fun _ => False) 0 s where
  map := rfl
  cr3 := rfl
  fewer := fun _ free => free
  closed := fun _ _ _ isDone => isDone.elim
  frames := fun _ _ _ _ isDone => isDone.elim
  distinct := fun _ _ _ _ _ _ _ _ isDone => isDone.elim
  copies := fun _ _ _ _ _ isDone => isDone.elim
  leaves := fun _ _ _ _ _ _ isDone => isDone.elim
  rest := fun _ _ _ => rfl

/-- The entry of the parent for the kernel half is not written. -/
theorem Copying.parentKernel (ready : ForkReady kind s parent child)
    (copying : Copying s parent child (fun walk => walk ≠ []) count cur) :
    cur.mem parent 511 = s.mem parent 511 := by
  have root : OwnedPath ownedIndex ([] : List (Fin 512)) := trivial
  apply copying.rest
  intro walk entry _
  have short : walk.length ≤ 3 := Nat.le_of_succ_le_succ entry.short
  refine ⟨copying.ne_table ready entry.tail short id root
    (Nat.zero_le 3) (tableAt_nil childOf s.mem parent), ?_⟩
  intro full reached
  have same := ready.path_eq entry.tail.legal short root (Nat.zero_le 3)
    reached (tableAt_nil childOf s.mem parent)
  rw [same] at full
  cases full

/-- The last entry of the child is the parent's before the last line. -/
theorem Copying.writeKernel (ready : ForkReady kind s parent child)
    (copying : Copying s parent child (fun walk => walk ≠ []) count cur) :
    cur.writeWord child 511 (cur.mem parent 511) = cur := by
  have top : ∀ walk, ¬ ParentEntry s parent (511 :: walk) ∨ walk ≠ [] := by
    intro walk
    cases walk with
    | nil =>
        left
        intro entry
        exact entry.legal.2 rfl rfl
    | cons _ _ => exact Or.inr (List.cons_ne_nil _ _)
  have parentKept := copying.parentKernel ready
  have childKept : cur.mem child 511 = s.mem child 511 := by
    apply copying.rest
    intro walk entry _
    have short : walk.length ≤ 3 := Nat.le_of_succ_le_succ entry.short
    constructor
    · intro same
      rcases top walk with none | nonempty
      · exact none entry
      · have free := (copying.frames walk nonempty short entry.tail nonempty).1
        rw [same, ready.childUsed] at free
        cases free
    · intro _ reached
      exact ready.ne_child entry.tail.legal short reached rfl
  have same : cur.mem parent 511 = cur.mem child 511 := by
    rw [parentKept, childKept, ready.kernel]
  rw [same]
  unfold Paging.writeWord
  have memory : (fun other position =>
      if other = child ∧ position = 511 then cur.mem child 511
        else cur.mem other position) = cur.mem := by
    funext other position
    split
    · next here => rw [here.1, here.2]
    · rfl
  rw [memory]

/-- The memory after `copy_parent_tables`. -/
theorem yields_copyParentTables_stale {cr3Addr : Word}
    (exhausted : allowed .noFreeFrame)
    (ready : ForkReady kind s (kernelFrame s.cr3) (kernelFrame cr3Addr)) :
    Yields allowed (copyParentTables cr3Addr) s fun _ next =>
      ∃ count, Copying s (kernelFrame s.cr3) (kernelFrame cr3Addr)
        (fun walk => walk ≠ []) count next := by
  have rootEntry : ParentEntry s (kernelFrame s.cr3) [] :=
    ⟨trivial, Nat.zero_le 4, rfl⟩
  unfold copyParentTables
  rw [yields_bind, yields_get, yields_bind]
  apply (fills_copyPml4 exhausted ready [] _ _ s rfl rootEntry rfl
    (Copying.start s _ _) (fun nonempty => nonempty rfl)
    (fun _ _ => id)).mono
  intro _ cur filled
  obtain ⟨count, copying⟩ : ∃ count, Copying s (kernelFrame s.cr3)
      (kernelFrame cr3Addr) (fun walk => walk ≠ []) count cur := by
    refine ⟨_, filled.congr ?_⟩
    intro walk _
    rw [false_or]
    constructor
    · exact fun under => under.2
    · exact fun nonempty => ⟨List.nil_suffix, nonempty⟩
  rw [yields_bind, yields_get]
  unfold writeEntry
  rw [yields_modify, copying.writeKernel ready]
  exact ⟨_, copying⟩

end Whole

end SbuUnix
