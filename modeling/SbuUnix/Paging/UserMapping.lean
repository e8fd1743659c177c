import SbuUnix.Paging.LinearMap

/-!
# Mapping a user page

`map_phys_to_user_virt_addr` hangs a new table below every absent entry on the
way to a page and writes the leaf entry of a new frame.  It needs no more of
the tables in memory than that they are apart: each hangs from one slot, and
none is a free frame or a data frame.
-/

namespace SbuUnix

open TableForest Outcome

/-- The table pages of a set of address spaces: below every present entry
above the leaves is the one table that belongs there, and no table is free.
Leaf entries and the flags of all entries may be anything. -/
structure TablesApart (kind : Nat → Kind) (s : Paging) : Prop where
  user : ∀ owner level index, (kind owner).depth = some level → level < 3 →
    ownedIndex level index →
      Below kind (s.mem owner index) fun below =>
        below = .table (level + 1) owner index
  kernel : ∀ owner index level, KernelSlot kind owner index level →
    Below kind (s.mem owner index) fun below =>
      below = .kernelTable (level + 1)
  used : ∀ frame, (kind frame).IsTable → s.isFree frame = false

/-- The tables of the machine's invariant are apart. -/
theorem Owned.tablesApart {kind : Nat → Kind} {s : Paging}
    (owned : Owned kind s) : TablesApart kind s where
  user := by
    intro owner level index ownerDepth inner permitted present
    obtain ⟨target, small, address, _, targetKind⟩ :=
      owned.below_inner ownerDepth inner permitted present
    exact ⟨target, small, address, targetKind⟩
  kernel := fun owner index level slot =>
    slot.entryOk_iff.mp (owned.entries owner index)
  used := by
    intro frame isTable
    apply owned.used_of_kind
    intro free
    rw [free] at isTable
    exact isTable

/-- Where an entry leads, its target is as expected. -/
theorem Below.of_childOf {kind : Nat → Kind} {entry : Word} {target : Nat}
    {expected : Kind → Prop} (below : Below kind entry expected)
    (points : childOf entry = some target) : expected (kind target) := by
  obtain ⟨present, frame⟩ := childOf_eq_some_iff.mp points
  obtain ⟨found, small, address, holds⟩ := below present
  have same : found = target :=
    (Owned.eq_frameOf small address).symm.trans frame
  rw [← same]
  exact holds

namespace TablesApart

variable {kind : Nat → Kind} {s : Paging} {root table level frame : Nat}
variable {index : Fin 512} {path : List (Fin 512)}

theorem hung (apart : TablesApart kind s) :
    Hung childOf ownedIndex 3 s.mem (fun frame => (kind frame).depth)
      (fun frame => (kind frame).slot) where
  below := by
    intro table level index target tableDepth inner permitted points
    have targetKind :=
      (apart.user table level index tableDepth inner permitted).of_childOf
        points
    rw [targetKind]
    exact ⟨rfl, rfl⟩

theorem ne_of_free (apart : TablesApart kind s) (isTable : (kind table).IsTable)
    (free : s.isFree frame = true) : table ≠ frame := by
  intro same
  have inUse := apart.used table isTable
  rw [same, free] at inUse
  cases inUse

theorem ne_of_depth (apart : TablesApart kind s)
    (tableDepth : (kind table).depth = some level)
    (free : s.isFree frame = true) : table ≠ frame :=
  apart.ne_of_free (Kind.isTable_of_depth tableDepth) free

/-- The walks read nothing of a frame that is not a table. -/
theorem tableAt_writeFree (apart : TablesApart kind s)
    (free : s.isFree frame = true) (page : Page)
    (rooted : kind root = .pml4) (legal : OwnedPath ownedIndex path)
    (short : path.length ≤ 4) :
    tableAt childOf (s.writePage frame page).mem root path =
      tableAt childOf s.mem root path := by
  apply apart.hung.tableAt_congr (Kind.depth_root rooted) legal short
  intro other otherLevel position otherDepth _ _
  rw [Paging.writePage_of_ne (apart.ne_of_depth otherDepth free)]

theorem lookup_writeFree (apart : TablesApart kind s)
    (free : s.isFree frame = true) (page : Page)
    (rooted : kind root = .pml4) (legal : OwnedPath ownedIndex path)
    (short : path.length ≤ 4) :
    lookup childOf (s.writePage frame page).mem root path =
      lookup childOf s.mem root path := by
  apply apart.hung.lookup_congr (Kind.depth_root rooted) legal short
  intro other otherLevel position otherDepth _ _
  rw [Paging.writePage_of_ne (apart.ne_of_depth otherDepth free)]

/-- Taking a free frame and filling it leaves the tables apart. -/
theorem takeFree (apart : TablesApart kind s) (free : s.isFree frame = true)
    (page : Page) :
    TablesApart kind ((s.unsetFree frame).writePage frame page) where
  user := by
    intro owner ownLevel position ownerDepth inner permitted
    rw [Paging.writePage_of_ne (apart.ne_of_depth ownerDepth free)]
    exact apart.user owner ownLevel position ownerDepth inner permitted
  kernel := by
    intro owner position ownLevel slot
    rw [Paging.writePage_of_ne (apart.ne_of_free slot.isTable free)]
    exact apart.kernel owner position ownLevel slot
  used := by
    intro other isTable
    rw [Paging.isFree_writePage, Paging.isFree_unsetFree,
      apart.used other isTable]
    rfl

end TablesApart

/-! ## A new table -/

section Hanging

variable {kind : Nat → Kind} {s : Paging} {root table level frame : Nat}
variable {index : Fin 512} {path : List (Fin 512)}

theorem hangTable_isFree {other : Nat} :
    (hangTable s table index frame).isFree other =
      (s.isFree other && decide (other ≠ frame)) :=
  Paging.isFree_unsetFree

theorem hangTable_mem_of_ne {other : Nat} {position : Fin 512}
    (notSlot : ¬ (other = table ∧ position = index))
    (notFrame : other ≠ frame) :
    (hangTable s table index frame).mem other position =
      s.mem other position := by
  have cleared : ((s.unsetFree frame).writePage frame fun _ => 0).mem other =
      s.mem other := Paging.writePage_of_ne notFrame
  exact (if_neg notSlot).trans (congrFun cleared position)

/-- A free frame hung below an absent entry is one more table. -/
theorem TablesApart.hangTable (apart : TablesApart kind s)
    (tableDepth : (kind table).depth = some level)
    (permitted : ownedIndex level index) (free : s.isFree frame = true) :
    TablesApart (setKind kind frame (.table (level + 1) table index))
      (hangTable s table index frame) := by
  have different := apart.ne_of_depth tableDepth free
  have small := Paging.lt_of_isFree free
  have targets : ∀ target, (kind target).IsTable →
      setKind kind frame (.table (level + 1) table index) target =
        kind target := fun target isTable =>
    setKind_of_ne (apart.ne_of_free isTable free)
  refine ⟨?_, ?_, ?_⟩
  · intro owner ownLevel position ownerDepth ownInner ownPermitted
    by_cases new : owner = frame
    · rw [new, hangTable_mem_frame different.symm]
      exact below_zero
    · rw [setKind_of_ne new] at ownerDepth
      by_cases here : owner = table ∧ position = index
      · rw [here.1, here.2]
        rw [here.1, tableDepth] at ownerDepth
        cases ownerDepth
        unfold SbuUnix.hangTable
        rw [Paging.writeWord_same]
        exact below_entryOf small (by decide) setKind_same
      · rw [hangTable_mem_of_ne here new]
        apply (apart.user owner ownLevel position ownerDepth ownInner
          ownPermitted).mono
        intro target targetKind
        rw [targets target (by rw [targetKind]; trivial), targetKind]
  · intro owner position ownLevel slot
    have notFrame : owner ≠ frame := by
      intro same
      rcases slot with ⟨known, _⟩ | ⟨known, _⟩
      · rw [same, setKind_same] at known
        cases known
      · rw [same, setKind_same] at known
        cases known
    have before : KernelSlot kind owner position ownLevel := by
      unfold KernelSlot at slot ⊢
      rw [setKind_of_ne notFrame] at slot
      exact slot
    have notSlot : ¬ (owner = table ∧ position = index) := by
      intro same
      exact before.ne_owned tableDepth permitted ⟨same.1.symm, same.2.symm⟩
    rw [hangTable_mem_of_ne notSlot notFrame]
    apply (apart.kernel owner position ownLevel before).mono
    intro target targetKind
    rw [targets target (by rw [targetKind]; trivial), targetKind]
  · intro other isTable
    rw [hangTable_isFree]
    by_cases new : other = frame
    · simp [new]
    · rw [setKind_of_ne new] at isTable
      rw [apart.used other isTable]
      rfl

/-- Walks that succeeded still end where they did. -/
theorem TablesApart.tableAt_hangTable (apart : TablesApart kind s)
    (tableDepth : (kind table).depth = some level)
    (free : s.isFree frame = true)
    (absent : hasFlag (s.mem table index) ptPR = false)
    (rooted : kind root = .pml4) (legal : OwnedPath ownedIndex path)
    (short : path.length ≤ 4) {found : Nat}
    (reached : tableAt childOf s.mem root path = some found) :
    tableAt childOf (SbuUnix.hangTable s table index frame).mem root path =
      some found := by
  have different := apart.ne_of_depth tableDepth free
  have small := Paging.lt_of_isFree free
  rw [← apart.tableAt_writeFree free (fun _ => 0) rooted legal short]
    at reached
  apply tableAt_hang_of_eq_some _ _ different.symm _ reached
  · rw [Paging.writePage_of_ne different]
    exact childOf_eq_none_iff.mpr absent
  · exact childOf_entryOf small (by decide) (by decide)
  · intro position
    rw [Paging.writePage_same]
    exact childOf_zero

/-- No walk to a page succeeds or fails anew. -/
theorem TablesApart.lookup_hangTable (apart : TablesApart kind s)
    (tableDepth : (kind table).depth = some level) (inner : level < 3)
    (free : s.isFree frame = true)
    (absent : hasFlag (s.mem table index) ptPR = false)
    (rooted : kind root = .pml4) (legal : OwnedPath ownedIndex path)
    (full : path.length = 4) :
    lookup childOf (SbuUnix.hangTable s table index frame).mem root path =
      lookup childOf s.mem root path := by
  have different := apart.ne_of_depth tableDepth free
  have small := Paging.lt_of_isFree free
  rw [← apart.lookup_writeFree free (fun _ => 0) rooted legal
    (Nat.le_of_eq full)]
  have cleared := (apart.takeFree free fun _ => 0).hung
  apply cleared.lookup_hang (Kind.depth_root rooted) tableDepth inner _ _
    different.symm _ legal full
  · rw [Paging.writePage_of_ne different]
    exact childOf_eq_none_iff.mpr absent
  · exact childOf_entryOf small (by decide) (by decide)
  · intro position
    rw [Paging.writePage_same]
    exact childOf_zero

end Hanging

/-! ## The way down -/

/-- The number of tables that the walk along a path lacks. -/
def missing (s : Paging) (root : Nat) : List (Fin 512) → Nat
  | [] => 0
  | index :: path =>
      missing s root path +
        if (lookup childOf s.mem root (index :: path)).isNone then 1 else 0

/-- `cur` is `s` with the tables on the way along `path` in place; `tables`
are the new ones, and `table` is the last one on the way. -/
structure Grown (kind : Nat → Kind) (s : Paging) (root : Nat)
    (changed : Nat → Kind) (cur : Paging) (path : List (Fin 512))
    (table : Nat) (tables : List Nat) : Prop where
  apart : TablesApart changed cur
  kinds : ∀ frame, s.isFree frame = false → changed frame = kind frame
  reached : tableAt childOf cur.mem root path = some table
  depth : (changed table).depth = some path.length
  words : ∀ frame index, s.isFree frame = false →
    cur.mem frame index = s.mem frame index ∨
      hasFlag (s.mem frame index) ptPR = false ∧
        ∃ level, (kind frame).depth = some level ∧ level < path.length ∧
          ownedIndex level index
  walks : ∀ other walk found, kind other = .pml4 →
    OwnedPath ownedIndex walk → walk.length ≤ 3 →
      tableAt childOf s.mem other walk = some found →
        tableAt childOf cur.mem other walk = some found
  lookups : ∀ other walk, kind other = .pml4 → OwnedPath ownedIndex walk →
    walk.length = 4 →
      lookup childOf cur.mem other walk = lookup childOf s.mem other walk
  entries : ∀ walk, walk <:+ path → walk ≠ [] →
    ∃ entry, lookup childOf cur.mem root walk = some entry ∧
      (lookup childOf s.mem root walk = some entry ∨
        lookup childOf s.mem root walk = none ∧
          ∃ frame ∈ tables, entry = entryOf frame userFlags)
  empty : tableAt childOf s.mem root path = none →
    ∀ index, cur.mem table index = 0
  taken : ∀ frame, cur.isFree frame = true ↔
    s.isFree frame = true ∧ frame ∉ tables
  fresh : ∀ frame ∈ tables, s.isFree frame = true
  linked : ∀ frame ∈ tables, ∃ walk, walk <:+ path ∧ walk ≠ [] ∧
    lookup childOf s.mem root walk = none ∧
      lookup childOf cur.mem root walk = some (entryOf frame userFlags)
  distinct : tables.Nodup
  count : tables.length = missing s root path
  left : cur.freeCount = s.freeCount - tables.length

namespace Grown

variable {kind changed : Nat → Kind} {s cur : Paging} {root table : Nat}
variable {path : List (Fin 512)} {tables : List Nat}

theorem start (apart : TablesApart kind s) (rooted : kind root = .pml4) :
    Grown kind s root kind s [] root [] where
  apart := apart
  kinds := fun _ _ => rfl
  reached := rfl
  depth := by rw [rooted]; rfl
  words := fun _ _ _ => Or.inl rfl
  walks := fun _ _ _ _ _ _ reached => reached
  lookups := fun _ _ _ _ _ => rfl
  entries := by
    intro walk within nonempty
    exact absurd (List.suffix_nil.mp within) nonempty
  empty := by
    intro none
    cases none
  taken := by simp
  fresh := by simp
  linked := by simp
  distinct := List.nodup_nil
  count := rfl
  left := by simp

variable (grown : Grown kind s root changed cur path table tables)
variable (rooted : kind root = .pml4) (legal : OwnedPath ownedIndex path)

include grown

theorem used {frame : Nat} (inUse : s.isFree frame = false) :
    cur.isFree frame = false := by
  cases free : cur.isFree frame with
  | false => rfl
  | true =>
      rw [((grown.taken frame).mp free).1] at inUse
      cases inUse

theorem fewer {frame : Nat} (free : cur.isFree frame = true) :
    s.isFree frame = true :=
  ((grown.taken frame).mp free).1

include rooted

theorem root_kind (apart : TablesApart kind s) : changed root = .pml4 := by
  rw [grown.kinds root (apart.used root (by rw [rooted]; trivial)), rooted]

include legal

/-- An entry of the last table on the way is as it was, when the table was
there. -/
theorem entry_eq (apart : TablesApart kind s) (short : path.length ≤ 3)
    {found : Nat} (before : tableAt childOf s.mem root path = some found)
    (index : Fin 512) :
    found = table ∧ cur.mem table index = s.mem table index := by
  have stays :=
    grown.walks root path found rooted legal short before
  have same : found = table :=
    Option.some.inj (stays.symm.trans grown.reached)
  have foundDepth := apart.hung.depth_tableAt (Kind.depth_root rooted) legal
    short before
  rw [same] at foundDepth
  have inUse := apart.used table (Kind.isTable_of_depth foundDepth)
  refine ⟨same, ?_⟩
  rcases grown.words table index inUse with
    unchanged | ⟨_, level, isLevel, shallow, _⟩
  · exact unchanged
  · rw [foundDepth] at isLevel
    cases isLevel
    omega

/-- What the walk along one more index finds depends on the entry alone. -/
theorem lookup_before (apart : TablesApart kind s) (short : path.length ≤ 3)
    (index : Fin 512) :
    lookup childOf s.mem root (index :: path) =
      if hasFlag (cur.mem table index) ptPR = true then
        some (cur.mem table index)
      else
        none := by
  cases before : tableAt childOf s.mem root path with
  | none =>
      rw [lookup_cons_of_eq_none before, grown.empty before index]
      decide
  | some found =>
      obtain ⟨same, unchanged⟩ :=
        grown.entry_eq rooted legal apart short before index
      rw [lookup_cons_of_eq_some before, same, ← unchanged, childOf_isSome]

/-- A level that exists. -/
theorem present (apart : TablesApart kind s) (short : path.length ≤ 2)
    {index : Fin 512} (permitted : ownedIndex path.length index)
    (present : hasFlag (cur.mem table index) ptPR = true) :
    Grown kind s root changed cur (index :: path)
      (frameOf (cur.mem table index)) tables := by
  have before := grown.lookup_before rooted legal apart (by omega) index
  rw [if_pos present] at before
  have points : childOf (cur.mem table index) =
      some (frameOf (cur.mem table index)) :=
    childOf_eq_some_iff.mpr ⟨present, rfl⟩
  have belowKind :=
    (grown.apart.user table path.length index grown.depth (by omega)
      permitted).of_childOf points
  have here : lookup childOf cur.mem root (index :: path) =
      some (cur.mem table index) := by
    rw [lookup_cons_of_eq_some grown.reached, childOf_isSome, if_pos present]
  exact
    { apart := grown.apart
      kinds := grown.kinds
      reached := by
        rw [tableAt_cons_of_eq_some grown.reached]
        exact points
      depth := by rw [belowKind]; rfl
      words := by
        intro frame position inUse
        apply (grown.words frame position inUse).imp_right
        intro changedWord
        obtain ⟨absent, level, isLevel, shallow, permitted⟩ := changedWord
        exact ⟨absent, level, isLevel, by rw [List.length_cons]; omega,
          permitted⟩
      walks := grown.walks
      lookups := grown.lookups
      entries := by
        intro walk within nonempty
        rcases List.suffix_cons_iff.mp within with whole | shorter
        · rw [whole]
          exact ⟨_, here, Or.inl before⟩
        · exact grown.entries walk shorter nonempty
      empty := by
        intro none
        obtain ⟨found, above, same, isSome⟩ := lookup_eq_some_iff.mp before
        rw [tableAt_cons_of_eq_some above, same] at none
        rw [none] at isSome
        cases isSome
      taken := grown.taken
      fresh := grown.fresh
      linked := by
        intro frame member
        obtain ⟨walk, within, linked⟩ := grown.linked frame member
        exact ⟨walk, within.trans (List.suffix_cons index path), linked⟩
      distinct := grown.distinct
      count := by
        rw [missing, before, grown.count]
        rfl
      left := grown.left }

omit rooted legal in
/-- What a walk along a shorter path finds does not depend on the entry below
which a table is hung. -/
theorem lookup_hang {frame : Nat} {index : Fin 512} {walk : List (Fin 512)}
    {entry : Word} (rootedNow : changed root = .pml4)
    (legal : OwnedPath ownedIndex path) (short : path.length ≤ 2)
    (free : cur.isFree frame = true)
    (absent : hasFlag (cur.mem table index) ptPR = false)
    (within : walk <:+ path)
    (found : lookup childOf cur.mem root walk = some entry) :
    lookup childOf (hangTable cur table index frame).mem root walk =
      some entry := by
  cases walk with
  | nil => cases found
  | cons position rest =>
      obtain ⟨deeper, split⟩ := within
      have length := congrArg List.length split
      simp only [List.length_append, List.length_cons] at length
      have legalRest : OwnedPath ownedIndex rest := by
        rw [← split] at legal
        exact legal.of_append.tail
      obtain ⟨above, reached, same, isSome⟩ := lookup_eq_some_iff.mp found
      have aboveDepth := grown.apart.hung.depth_tableAt
        (Kind.depth_root rootedNow) legalRest (by omega) reached
      have notTable : above ≠ table := by
        intro same
        rw [same, grown.depth] at aboveDepth
        have level := Option.some.inj aboveDepth
        omega
      have notFrame : above ≠ frame :=
        grown.apart.ne_of_depth aboveDepth free
      apply lookup_eq_some_iff.mpr
      refine ⟨above, ?_, ?_, isSome⟩
      · exact grown.apart.tableAt_hangTable grown.depth free absent rootedNow
          legalRest (by omega) reached
      · rw [hangTable_mem_of_ne (fun slot => notTable slot.1) notFrame]
        exact same

/-- A level that is made. -/
theorem absent (apart : TablesApart kind s) (short : path.length ≤ 2)
    {index : Fin 512} (permitted : ownedIndex path.length index)
    (absent : hasFlag (cur.mem table index) ptPR = false) {frame : Nat}
    (free : cur.isFree frame = true) :
    Grown kind s root
      (setKind changed frame (.table (path.length + 1) table index))
      (hangTable cur table index frame) (index :: path) frame
      (frame :: tables) := by
  have before := grown.lookup_before rooted legal apart (by omega) index
  rw [if_neg (by rw [absent]; decide)] at before
  have rootedNow := grown.root_kind rooted apart
  have different := grown.apart.ne_of_depth grown.depth free
  have small := Paging.lt_of_isFree free
  have above := grown.apart.tableAt_hangTable grown.depth free absent rootedNow
    legal (by omega) grown.reached
  have slot : (hangTable cur table index frame).mem table index =
      entryOf frame userFlags := by
    unfold hangTable
    exact Paging.writeWord_same
  have points : childOf (entryOf frame userFlags) = some frame :=
    childOf_entryOf small (by decide) (by decide)
  have here : lookup childOf (hangTable cur table index frame).mem root
      (index :: path) = some (entryOf frame userFlags) := by
    rw [lookup_cons_of_eq_some above, slot, points]
    rfl
  have notOld : ∀ other, s.isFree other = false → other ≠ frame := by
    intro other inUse same
    have still := grown.used inUse
    rw [same, free] at still
    cases still
  have rootOf : ∀ other, kind other = .pml4 → changed other = .pml4 := by
    intro other otherRooted
    rw [grown.kinds other (apart.used other (by rw [otherRooted]; trivial)),
      otherRooted]
  exact
    { apart := grown.apart.hangTable grown.depth permitted free
      kinds := by
        intro other inUse
        rw [setKind_of_ne (notOld other inUse)]
        exact grown.kinds other inUse
      reached := by
        rw [tableAt_cons_of_eq_some above, slot]
        exact points
      depth := by rw [setKind_same]; rfl
      words := by
        intro other position inUse
        by_cases isSlot : other = table ∧ position = index
        · right
          obtain ⟨sameTable, sameIndex⟩ := isSlot
          rw [sameTable] at inUse ⊢
          rw [sameIndex]
          have tableKind := grown.kinds table inUse
          refine ⟨?_, path.length, ?_, by simp, permitted⟩
          · rcases grown.words table index inUse with same | ⟨was, _⟩
            · rw [← same]
              exact absent
            · exact was
          · rw [← tableKind]
            exact grown.depth
        · rw [hangTable_mem_of_ne isSlot (notOld other inUse)]
          apply (grown.words other position inUse).imp_right
          intro changedWord
          obtain ⟨was, level, isLevel, shallow, allowed⟩ := changedWord
          exact ⟨was, level, isLevel, by rw [List.length_cons]; omega,
            allowed⟩
      walks := by
        intro other walk found otherRooted walkLegal walkShort reached
        exact grown.apart.tableAt_hangTable grown.depth free absent
          (rootOf other otherRooted) walkLegal (by omega)
          (grown.walks other walk found otherRooted walkLegal walkShort
            reached)
      lookups := by
        intro other walk otherRooted walkLegal full
        rw [grown.apart.lookup_hangTable grown.depth (by omega) free absent
          (rootOf other otherRooted) walkLegal full]
        exact grown.lookups other walk otherRooted walkLegal full
      entries := by
        intro walk within nonempty
        rcases List.suffix_cons_iff.mp within with whole | shorter
        · rw [whole]
          exact ⟨_, here,
            Or.inr ⟨before, frame, List.mem_cons_self .., rfl⟩⟩
        · obtain ⟨entry, found, origin⟩ :=
            grown.entries walk shorter nonempty
          refine ⟨entry, grown.lookup_hang rootedNow legal short free absent
            shorter found, origin.imp_right ?_⟩
          intro made
          obtain ⟨none, other, member, same⟩ := made
          exact ⟨none, other, List.mem_cons_of_mem _ member, same⟩
      empty := by
        intro _ position
        exact hangTable_mem_frame different.symm position
      taken := by
        intro other
        rw [hangTable_isFree, Bool.and_eq_true, decide_eq_true_eq,
          grown.taken other, List.mem_cons, not_or]
        tauto
      fresh := by
        intro other member
        rcases List.mem_cons.mp member with new | old
        · rw [new]
          exact grown.fewer free
        · exact grown.fresh other old
      linked := by
        intro other member
        rcases List.mem_cons.mp member with new | old
        · rw [new]
          exact ⟨index :: path, List.suffix_refl _, List.cons_ne_nil _ _,
            before, here⟩
        · obtain ⟨walk, within, nonempty, none, found⟩ :=
            grown.linked other old
          exact ⟨walk, within.trans (List.suffix_cons index path), nonempty,
            none, grown.lookup_hang rootedNow legal short free absent within
              found⟩
      distinct := by
        apply List.nodup_cons.mpr
        exact ⟨((grown.taken frame).mp free).2, grown.distinct⟩
      count := by
        rw [missing, before, List.length_cons, grown.count]
        rfl
      left := by
        have counted := freeCount_unsetFree free
        have same : (hangTable cur table index frame).freeCount =
            (cur.unsetFree frame).freeCount := freeCount_congr rfl
        rw [same, counted, grown.left, List.length_cons]
        omega }

/-- One level of the mapper. -/
theorem nextTable (apart : TablesApart kind s) (short : path.length ≤ 2)
    {index : Fin 512} (permitted : ownedIndex path.length index)
    (enough : missing s root (index :: path) ≤ s.freeCount) :
    ∃ changed' cur' below tables',
      SbuUnix.nextTable userFlags table index cur = .ok (below, cur') ∧
        Grown kind s root changed' cur' (index :: path) below tables' := by
  have before := grown.lookup_before rooted legal apart (by omega) index
  by_cases there : hasFlag (cur.mem table index) ptPR = true
  · refine ⟨changed, cur, _, tables, ?_,
      grown.present rooted legal apart short permitted there⟩
    exact nextTable_eq_present (childOf_eq_some_iff.mpr ⟨there, rfl⟩)
  · rw [if_neg there] at before
    have absent : hasFlag (cur.mem table index) ptPR = false := by
      simpa using there
    rw [missing, before, Option.isNone_none, if_pos rfl, ← grown.count]
      at enough
    have some : cur.freeCount ≠ 0 := by
      rw [grown.left]
      omega
    cases found : getFirstpage cur.freeMap with
    | none => exact absurd (getFirstpage_eq_none_iff.mp found) some
    | some frame =>
        have free := isFree_of_getFirstpage found
        have small := lt_of_lt_frameCount (Paging.lt_of_isFree free)
        refine ⟨_, _, frame, _, ?_,
          grown.absent rooted legal apart short permitted absent free⟩
        rw [SbuUnix.nextTable,
          bind_of_ok (show (get : PagingM Paging) cur = .ok (cur, cur)
            from rfl),
          if_neg there, bind_of_ok (allocateVirtPage_eq_found found),
          kernelFrame_pageAddr small]
        rfl

end Grown

/-! ## Walks of the kernel half -/

section KernelWalks

variable {kind : Nat → Kind} {s : Paging} {root : Nat} {v : Word}

/-- A walk through entry 511 reads that entry and kernel tables. -/
theorem TablesApart.lookup_kernel (apart : TablesApart kind s)
    (rooted : kind root = .pml4) (kernelHalf : pml4Index v = 511)
    {mem : Nat → Page} (top : mem root 511 = s.mem root 511)
    (same : ∀ frame level, kind frame = .kernelTable level →
      mem frame = s.mem frame) :
    lookup childOf mem root (pageOf v) =
      lookup childOf s.mem root (pageOf v) := by
  have below : ∀ {owner level target : Nat} {index : Fin 512},
      KernelSlot kind owner index level →
        childOf (s.mem owner index) = some target →
          kind target = .kernelTable (level + 1) :=
    fun slot points => (apart.kernel _ _ _ slot).of_childOf points
  simp only [pageOf, lookup, tableAt, Option.bind_some, kernelHalf, top]
  cases first : childOf (s.mem root 511) with
  | none => rfl
  | some pdpt =>
      have pdptKind := below (Or.inl ⟨rooted, rfl, rfl⟩) first
      simp only [Option.bind_some, same pdpt 1 pdptKind]
      cases second : childOf (s.mem pdpt (pdptIndex v)) with
      | none => rfl
      | some pd =>
          have pdKind := below (Or.inr ⟨pdptKind, by decide⟩) second
          simp only [Option.bind_some, same pd 2 pdKind]
          cases third : childOf (s.mem pd (pdIndex v)) with
          | none => rfl
          | some pt =>
              have ptKind := below (Or.inr ⟨pdKind, by decide⟩) third
              simp only [Option.bind_some, same pt 3 ptKind]

end KernelWalks

/-! ## The leaf -/

/-- `next` is `s` with the page of `v` in the space of `root` mapped to
`fresh`, a copy of `source`; `tables` are the tables made on the way. -/
structure MapsUser (kind : Nat → Kind) (s next : Paging) (root : Nat)
    (v : Word) (source fresh : Nat) (tables : List Nat) : Prop where
  free : s.isFree fresh = true
  contents : next.mem fresh = s.mem source
  walk : entryAt next root v = some (entryOf fresh userFlags)
  levels : ∀ walk, walk <:+ pageOf v → walk ≠ [] → walk.length < 4 →
    ∃ entry, lookup childOf next.mem root walk = some entry ∧
      (lookup childOf s.mem root walk = some entry ∨
        lookup childOf s.mem root walk = none ∧
          ∃ frame ∈ tables, entry = entryOf frame userFlags)
  linked : ∀ frame ∈ tables, ∃ walk, walk <:+ pageOf v ∧ walk ≠ [] ∧
    walk.length < 4 ∧ lookup childOf s.mem root walk = none ∧
      lookup childOf next.mem root walk = some (entryOf frame userFlags)
  elsewhere : ∀ other w, kind other = .pml4 →
    ¬ (other = root ∧ pageOf w = pageOf v) →
      entryAt next other w = entryAt s other w
  taken : ∀ frame, next.isFree frame = true ↔
    s.isFree frame = true ∧ frame ∉ fresh :: tables
  distinct : (fresh :: tables).Nodup

/-- `s` after a frame was taken, filled and written to an entry. -/
def mapLeaf (s : Paging) (table : Nat) (index : Fin 512) (frame : Nat)
    (page : Page) : Paging :=
  ((s.unsetFree frame).writePage frame page).writeWord table index
    (entryOf frame userFlags)

section Leaf

variable {kind changed : Nat → Kind} {s cur : Paging}
variable {root table frame source : Nat} {index : Fin 512}
variable {path : List (Fin 512)} {tables : List Nat} {page : Page}

theorem mapLeaf_mem_of_ne {other : Nat} {position : Fin 512}
    (notSlot : ¬ (other = table ∧ position = index))
    (notFrame : other ≠ frame) :
    (mapLeaf s table index frame page).mem other position =
      s.mem other position := by
  have filled : ((s.unsetFree frame).writePage frame page).mem other =
      s.mem other := Paging.writePage_of_ne notFrame
  exact (if_neg notSlot).trans (congrFun filled position)

theorem mapLeaf_isFree {other : Nat} :
    (mapLeaf s table index frame page).isFree other =
      (s.isFree other && decide (other ≠ frame)) :=
  Paging.isFree_unsetFree

theorem mapLeaf_frame (different : frame ≠ table) :
    (mapLeaf s table index frame page).mem frame = page := by
  unfold mapLeaf
  rw [Paging.writeWord_of_ne_frame different, Paging.writePage_same]

/-- The leaf entry is the end of one path. -/
theorem TablesApart.lookup_mapLeaf (apart : TablesApart kind s)
    (rooted : kind root = .pml4) (legal : OwnedPath ownedIndex path)
    (full : path.length = 3)
    (reached : tableAt childOf s.mem root path = some table)
    (free : s.isFree frame = true) {other : Nat} {walk : List (Fin 512)}
    (otherRooted : kind other = .pml4)
    (walkLegal : OwnedPath ownedIndex walk) (walkFull : walk.length = 4) :
    lookup childOf (mapLeaf s table index frame page).mem other walk =
      if other = root ∧ walk = index :: path then
        some (entryOf frame userFlags)
      else
        lookup childOf s.mem other walk := by
  have filled := apart.takeFree free page
  have small := Paging.lt_of_isFree free
  have reachedNow :
      tableAt childOf ((s.unsetFree frame).writePage frame page).mem root
        path = some table := by
    rw [← reached]
    exact apart.tableAt_writeFree free page rooted legal (by omega)
  have same :
      lookup childOf ((s.unsetFree frame).writePage frame page).mem other
        walk = lookup childOf s.mem other walk :=
    apart.lookup_writeFree free page otherRooted walkLegal (by omega)
  have points : childOf (entryOf frame userFlags) = some frame :=
    childOf_entryOf small (by decide) (by decide)
  have written : lookup childOf (setEntry
      ((s.unsetFree frame).writePage frame page).mem table index
        (entryOf frame userFlags)) other walk = _ :=
    filled.hung.lookup_setEntry_reached (Kind.depth_root rooted) legal full
      reachedNow (Kind.depth_root otherRooted) walkLegal walkFull
  rw [points, same] at written
  exact written

/-- Walks that end above the leaf entry do not see it. -/
theorem TablesApart.lookup_mapLeaf_short (apart : TablesApart kind s)
    (rooted : kind root = .pml4)
    (tableDepth : (kind table).depth = some 3)
    (free : s.isFree frame = true) {walk : List (Fin 512)}
    (walkLegal : OwnedPath ownedIndex walk) (short : walk.length < 4) :
    lookup childOf (mapLeaf s table index frame page).mem root walk =
      lookup childOf s.mem root walk := by
  have filled := apart.takeFree free page
  rw [← apart.lookup_writeFree free page rooted walkLegal (by omega)]
  cases walk with
  | nil => rfl
  | cons position rest =>
      rw [List.length_cons] at short
      have above : tableAt childOf (mapLeaf s table index frame page).mem root
          rest = tableAt childOf
            ((s.unsetFree frame).writePage frame page).mem root rest :=
        filled.hung.tableAt_setEntry (Kind.depth_root rooted) tableDepth
          walkLegal.1 (by omega) (by omega)
      cases reached : tableAt childOf
          ((s.unsetFree frame).writePage frame page).mem root rest with
      | none =>
          rw [lookup_cons_of_eq_none (above.trans reached)]
          exact (lookup_cons_of_eq_none reached).symm
      | some found =>
          have foundDepth := filled.hung.depth_tableAt (Kind.depth_root rooted)
            walkLegal.1 (by omega) reached
          have different : found ≠ table := by
            intro same
            rw [same, tableDepth] at foundDepth
            have level := Option.some.inj foundDepth
            omega
          rw [lookup_cons_of_eq_some (above.trans reached)]
          refine Eq.trans ?_ (lookup_cons_of_eq_some reached).symm
          unfold mapLeaf
          rw [Paging.writeWord_of_ne_frame different]

end Leaf

/-! ## The mapper -/

section Mapper

variable {kind changed : Nat → Kind} {s cur : Paging}
variable {root table fresh source : Nat} {v : Word}
variable {path : List (Fin 512)} {tables : List Nat}

theorem Paging.writePage_writePage (frame : Nat) (first second : Page) :
    (s.writePage frame first).writePage frame second =
      s.writePage frame second := by
  unfold Paging.writePage
  congr 1
  funext other
  dsimp only
  split <;> rfl

/-- The last lines of the mapper: a frame is taken, cleared, filled and
mapped. -/
theorem fillLeaf_eq {phys : Word} {index : Fin 512}
    (found : getFirstpage s.freeMap = some fresh)
    (other : kernelFrame phys ≠ fresh) :
    (do
      let page ← allocateVirtPage
      memsetPage (kernelFrame page)
      memcpyPage (kernelFrame phys) (kernelFrame page)
      writeEntry table index (page ||| userFlags)) s =
        .ok ((), mapLeaf s table index fresh (s.mem (kernelFrame phys))) := by
  have small := lt_of_lt_frameCount
    (Paging.lt_of_isFree (isFree_of_getFirstpage found))
  rw [bind_of_ok (allocateVirtPage_eq_found found), kernelFrame_pageAddr small]
  have content : ((s.unsetFree fresh).writePage fresh fun _ => 0).mem
      (kernelFrame phys) = s.mem (kernelFrame phys) :=
    Paging.writePage_of_ne other
  have filled : ((s.unsetFree fresh).writePage fresh fun _ => 0).writePage
      fresh (s.mem (kernelFrame phys)) =
        (s.unsetFree fresh).writePage fresh (s.mem (kernelFrame phys)) :=
    Paging.writePage_writePage fresh _ _
  unfold mapLeaf
  rw [← filled]
  nth_rewrite 1 [← content]
  rfl

theorem missing_le (index : Fin 512) :
    missing s root path ≤ missing s root (index :: path) :=
  Nat.le_add_right _ _

/-- The whole way down. -/
theorem grow_path (apart : TablesApart kind s) (rooted : kind root = .pml4)
    (userHalf : pml4Index v ≠ 511)
    (enough : missing s root
      [pdIndex v, pdptIndex v, pml4Index v] ≤ s.freeCount) :
    ∃ changed cur table tables,
      Grown kind s root changed cur [pdIndex v, pdptIndex v, pml4Index v]
        table tables ∧
      ∀ rest : Nat → PagingM Unit, (do
        let pdpt ← nextTable userFlags root (pml4Index v)
        let pd ← nextTable userFlags pdpt (pdptIndex v)
        let pt ← nextTable userFlags pd (pdIndex v)
        rest pt) s = rest table cur := by
  have atRoot : ownedIndex 0 (pml4Index v) := fun _ => userHalf
  have inner : ∀ level : Nat, ∀ index, 0 < level → ownedIndex level index :=
    fun level index positive isRoot => by omega
  have legal1 : OwnedPath ownedIndex [pml4Index v] := ⟨trivial, atRoot⟩
  have legal2 : OwnedPath ownedIndex [pdptIndex v, pml4Index v] :=
    ⟨legal1, inner 1 _ (by decide)⟩
  have enough2 := Nat.le_trans (missing_le (pdIndex v)) enough
  have enough1 := Nat.le_trans (missing_le (pdptIndex v)) enough2
  obtain ⟨kind1, s1, pdpt, tables1, run1, grown1⟩ :=
    (Grown.start apart rooted).nextTable rooted trivial apart (by simp) atRoot
      enough1
  obtain ⟨kind2, s2, pd, tables2, run2, grown2⟩ :=
    grown1.nextTable rooted legal1 apart (by simp) (inner 1 _ (by decide))
      enough2
  obtain ⟨kind3, s3, pt, tables3, run3, grown3⟩ :=
    grown2.nextTable rooted legal2 apart (by simp) (inner 2 _ (by decide))
      enough
  refine ⟨kind3, s3, pt, tables3, grown3, ?_⟩
  intro rest
  rw [bind_of_ok run1, bind_of_ok run2, bind_of_ok run3]

/-- The words that the mapper leaves to walks of the kernel half. -/
theorem Grown.lookup_kernel {index : Fin 512} {page : Page} {other : Nat}
    {w : Word} (grown : Grown kind s root changed cur path table tables)
    (apart : TablesApart kind s)
    (tableDepth : (changed table).depth = some 3)
    (free : cur.isFree fresh = true) (otherRooted : kind other = .pml4)
    (kernelHalf : pml4Index w = 511) :
    lookup childOf (mapLeaf cur table index fresh page).mem other (pageOf w) =
      lookup childOf s.mem other (pageOf w) := by
  have untouched : ∀ frame position, (kind frame).IsTable →
      (∀ level, (kind frame).depth = some level →
        level ≠ 3 ∧ ¬ ownedIndex level position) →
          (mapLeaf cur table index fresh page).mem frame position =
            s.mem frame position := by
    intro frame position isTable noUser
    have inUse := apart.used frame isTable
    have notFresh : frame ≠ fresh := by
      intro same
      have still := grown.used inUse
      rw [same, free] at still
      cases still
    have notTable : frame ≠ table := by
      intro same
      rw [← same, grown.kinds frame inUse] at tableDepth
      exact (noUser 3 tableDepth).1 rfl
    rw [mapLeaf_mem_of_ne (fun slot => notTable slot.1) notFresh]
    rcases grown.words frame position inUse with same | changedWord
    · exact same
    · obtain ⟨_, level, isLevel, _, permitted⟩ := changedWord
      exact absurd permitted (noUser level isLevel).2
  apply apart.lookup_kernel otherRooted kernelHalf
  · apply untouched other 511 (by rw [otherRooted]; trivial)
    intro level isLevel
    rw [otherRooted] at isLevel
    cases isLevel
    exact ⟨by decide, fun permitted => permitted rfl rfl⟩
  · intro frame level known
    funext position
    apply untouched frame position (by rw [known]; trivial)
    intro level isLevel
    rw [known] at isLevel
    cases isLevel

/-- The page is mapped to a new frame with what the source held, through the
tables that were there and the new ones, and no other page of any address
space is mapped otherwise. -/
theorem mapPhysToUserVirtAddr_mapsUser {phys cr3Addr : Word}
    (apart : TablesApart kind s) (rooted : kind (kernelFrame cr3Addr) = .pml4)
    (userHalf : pml4Index v ≠ 511)
    (inUse : s.isFree (kernelFrame phys) = false)
    (data : ¬ (kind (kernelFrame phys)).IsTable)
    (enough : missing s (kernelFrame cr3Addr)
      [pdIndex v, pdptIndex v, pml4Index v] < s.freeCount) :
    ∃ next fresh tables,
      mapPhysToUserVirtAddr v phys cr3Addr s = .ok ((), next) ∧
        MapsUser kind s next (kernelFrame cr3Addr) v (kernelFrame phys) fresh
          tables := by
  have legal : OwnedPath ownedIndex (pageOf v) := ownedPath_pageOf userHalf
  obtain ⟨changed, cur, table, tables, grown, run⟩ :=
    grow_path apart rooted userHalf (Nat.le_of_lt enough)
  have room : cur.freeCount ≠ 0 := by
    rw [grown.left, grown.count]
    omega
  cases found : getFirstpage cur.freeMap with
  | none => exact absurd (getFirstpage_eq_none_iff.mp found) room
  | some fresh =>
      have free := isFree_of_getFirstpage found
      have freeBefore := grown.fewer free
      have other : kernelFrame phys ≠ fresh := by
        intro same
        rw [same, freeBefore] at inUse
        cases inUse
      have rootedNow := grown.root_kind rooted apart
      have tableDepth : (changed table).depth = some 3 := grown.depth
      have notTable := (grown.apart.ne_of_depth tableDepth free).symm
      have sameContent :
          cur.mem (kernelFrame phys) = s.mem (kernelFrame phys) := by
        funext position
        rcases grown.words _ position inUse with same | ⟨_, level, isLevel, _⟩
        · exact same
        · exact absurd (Kind.isTable_of_depth isLevel) data
      have shorter : ∀ walk, walk <:+ pageOf v → walk.length < 4 →
          walk <:+ [pdIndex v, pdptIndex v, pml4Index v] ∧
            lookup childOf (mapLeaf cur table (ptIndex v) fresh
              (cur.mem (kernelFrame phys))).mem (kernelFrame cr3Addr) walk =
                lookup childOf cur.mem (kernelFrame cr3Addr) walk := by
        intro walk within short
        have walkLegal : OwnedPath ownedIndex walk := by
          obtain ⟨deeper, split⟩ := within
          rw [← split] at legal
          exact legal.of_append
        refine ⟨?_, grown.apart.lookup_mapLeaf_short rootedNow tableDepth free
          walkLegal short⟩
        rcases List.suffix_cons_iff.mp within with whole | inside
        · rw [whole] at short
          exact absurd short (Nat.lt_irrefl 4)
        · exact inside
      refine ⟨mapLeaf cur table (ptIndex v) fresh (cur.mem (kernelFrame phys)),
        fresh, tables, ?_, ?_⟩
      · unfold mapPhysToUserVirtAddr
        exact (run _).trans (fillLeaf_eq found other)
      · exact
          { free := freeBefore
            contents := by rw [mapLeaf_frame notTable, sameContent]
            walk := by
              rw [entryAt_eq, grown.apart.lookup_mapLeaf rootedNow legal.1 rfl
                grown.reached free rootedNow legal rfl, if_pos ⟨rfl, rfl⟩]
            levels := by
              intro walk within nonempty short
              obtain ⟨inside, same⟩ := shorter walk within short
              rw [same]
              exact grown.entries walk inside nonempty
            linked := by
              intro frame member
              obtain ⟨walk, inside, nonempty, none, here⟩ :=
                grown.linked frame member
              have within : walk <:+ pageOf v :=
                inside.trans (List.suffix_cons _ _)
              have short : walk.length < 4 :=
                Nat.lt_succ_of_le inside.length_le
              refine ⟨walk, within, nonempty, short, none, ?_⟩
              rw [(shorter walk within short).2]
              exact here
            elsewhere := by
              intro space w spaceRooted different
              rw [entryAt_eq, entryAt_eq]
              by_cases kernelHalf : pml4Index w = 511
              · exact grown.lookup_kernel apart tableDepth free spaceRooted
                  kernelHalf
              · have walkLegal : OwnedPath ownedIndex (pageOf w) :=
                  ownedPath_pageOf kernelHalf
                have spaceNow : changed space = .pml4 := by
                  rw [grown.kinds space
                    (apart.used space (by rw [spaceRooted]; trivial)),
                    spaceRooted]
                rw [grown.apart.lookup_mapLeaf rootedNow legal.1 rfl
                  grown.reached free spaceNow walkLegal rfl]
                exact (if_neg different).trans
                  (grown.lookups space _ spaceRooted walkLegal rfl)
            taken := by
              intro frame
              rw [mapLeaf_isFree, Bool.and_eq_true, decide_eq_true_eq,
                grown.taken frame, List.mem_cons, not_or]
              tauto
            distinct := by
              apply List.nodup_cons.mpr
              exact ⟨((grown.taken fresh).mp free).2, grown.distinct⟩ }

/-- The page at 4 MiB of the empty machine. -/
theorem mapPhysToUserVirtAddr_mapsUser_empty :
    ∃ next fresh tables,
      mapPhysToUserVirtAddr 0x400000 (pageAddr 0) (pageAddr 16) emptyPaging =
          .ok ((), next) ∧
        MapsUser emptyKind emptyPaging next 16 0x400000 0 fresh tables := by
  have root : kernelFrame (pageAddr 16) = 16 := kernelFrame_pageAddr (by decide)
  have source : kernelFrame (pageAddr 0) = 0 := kernelFrame_pageAddr (by decide)
  have held : emptyKind 0 = .held := by decide
  have enough : 4 ≤ emptyPaging.freeCount :=
    card_le_freeCount {64, 65, 66, 67} (by decide)
  have mapped := @mapPhysToUserVirtAddr_mapsUser emptyKind emptyPaging 0x400000
    (pageAddr 0) (pageAddr 16) owned_emptyPaging.tablesApart
  rw [root, source, held] at mapped
  apply mapped
  · decide
  · decide
  · decide
  · exact fun isTable => isTable
  · exact Nat.lt_of_lt_of_le (by decide) enough

end Mapper

end SbuUnix
