import Mathlib.Tactic.Common
import Mathlib.Data.List.Infix

/-!
# Forests of tables stored in one memory

Several radix trees share a memory of frames.  A frame that serves as a table
holds entries, and `child` reads the frame an entry points to, if it points
anywhere.  Paths list the indices of a walk with the deepest index first, so
that a walk is a fold along the path.

`Hung` says that every table below a root hangs from one slot only: the ghost
functions `depth` and `slot` name its depth and that slot.  It makes walks
injective, and it lets the three edits of a table tree be followed:
writing an entry of a table, hanging an empty table below an absent entry,
and writing a frame that is no table.
-/

namespace TableForest

universe u v w

variable {F : Type u} {I : Type v} {E : Type w}

/-! ## Walks -/

section Walks

variable (child : E → Option F) (memory : F → I → E) (root : F)

/-- The frame a walk from `root` reaches along a path, deepest index first. -/
def tableAt : List I → Option F
  | [] => some root
  | index :: path =>
      (tableAt path).bind fun table => child (memory table index)

/-- The entry a walk ends at, when every table on its way and the entry
itself point to something. -/
def lookup : List I → Option E
  | [] => none
  | index :: path =>
      (tableAt child memory root path).bind fun table =>
        if (child (memory table index)).isSome then
          some (memory table index)
        else
          none

@[simp]
theorem tableAt_nil : tableAt child memory root [] = some root :=
  rfl

theorem tableAt_cons (index : I) (path : List I) :
    tableAt child memory root (index :: path) =
      (tableAt child memory root path).bind fun table =>
        child (memory table index) :=
  rfl

variable {child memory root}

theorem tableAt_cons_of_eq_some
    {index : I} {path : List I} {table : F}
    (reached : tableAt child memory root path = some table) :
    tableAt child memory root (index :: path) =
      child (memory table index) := by
  rw [tableAt_cons, reached]
  rfl

theorem tableAt_cons_of_eq_none
    {index : I} {path : List I}
    (broken : tableAt child memory root path = none) :
    tableAt child memory root (index :: path) = none := by
  rw [tableAt_cons, broken]
  rfl

/-- A walk goes on from the table that its first part reaches. -/
theorem tableAt_append (deeper path : List I) :
    tableAt child memory root (deeper ++ path) =
      (tableAt child memory root path).bind fun table =>
        tableAt child memory table deeper := by
  induction deeper with
  | nil =>
      rw [List.nil_append]
      cases tableAt child memory root path with
      | none => rfl
      | some table => rfl
  | cons index deeper inductionHypothesis =>
      rw [List.cons_append, tableAt_cons, inductionHypothesis]
      cases tableAt child memory root path with
      | none => rfl
      | some table => rfl

/-- A walk that fails breaks off at some entry. -/
theorem exists_absent_of_tableAt_eq_none
    {path : List I} (broken : tableAt child memory root path = none) :
    ∃ deeper index reached, path = deeper ++ index :: reached ∧
      (tableAt child memory root reached).isSome = true ∧
        tableAt child memory root (index :: reached) = none := by
  induction path with
  | nil => cases broken
  | cons index path inductionHypothesis =>
      cases above : tableAt child memory root path with
      | none =>
          obtain ⟨deeper, position, reached, split, there, absent⟩ :=
            inductionHypothesis above
          exact ⟨index :: deeper, position, reached, by rw [split]; rfl,
            there, absent⟩
      | some table =>
          exact ⟨[], index, path, rfl, by rw [above]; rfl, broken⟩

theorem tableAt_append_of_eq_none
    {path : List I} (broken : tableAt child memory root path = none) :
    ∀ deeper : List I,
      tableAt child memory root (deeper ++ path) = none
  | [] => broken
  | _ :: deeper =>
      tableAt_cons_of_eq_none (tableAt_append_of_eq_none broken deeper)

theorem lookup_cons_of_eq_some
    {index : I} {path : List I} {table : F}
    (reached : tableAt child memory root path = some table) :
    lookup child memory root (index :: path) =
      if (child (memory table index)).isSome then
        some (memory table index)
      else
        none := by
  rw [lookup, reached]
  rfl

theorem lookup_cons_of_eq_none
    {index : I} {path : List I}
    (broken : tableAt child memory root path = none) :
    lookup child memory root (index :: path) = none := by
  rw [lookup, broken]
  rfl

/-- A walk that breaks off finds nothing deeper down. -/
theorem lookup_append_of_eq_none
    {path : List I} (broken : tableAt child memory root path = none)
    {deeper : List I} (proper : deeper ≠ []) :
    lookup child memory root (deeper ++ path) = none := by
  cases deeper with
  | nil => exact absurd rfl proper
  | cons index deeper =>
      exact lookup_cons_of_eq_none
        (tableAt_append_of_eq_none broken deeper)

/-- A page is mapped when all entries on the way are present. -/
theorem lookup_isSome_iff
    {index : I} {path : List I} :
    (lookup child memory root (index :: path)).isSome = true ↔
      (tableAt child memory root (index :: path)).isSome = true := by
  cases above : tableAt child memory root path with
  | none =>
      rw [lookup_cons_of_eq_none above, tableAt_cons_of_eq_none above]
      rfl
  | some table =>
      rw [lookup_cons_of_eq_some above, tableAt_cons_of_eq_some above]
      cases child (memory table index) with
      | none => rfl
      | some below => rfl

theorem lookup_eq_some_iff
    {index : I} {path : List I} {entry : E} :
    lookup child memory root (index :: path) = some entry ↔
      ∃ table, tableAt child memory root path = some table ∧
        memory table index = entry ∧ (child entry).isSome := by
  cases reached : tableAt child memory root path with
  | none =>
      simp [lookup_cons_of_eq_none reached]
  | some table =>
      rw [lookup_cons_of_eq_some reached]
      constructor
      · intro found
        split at found
        · next present =>
            cases found
            exact ⟨table, rfl, rfl, present⟩
        · cases found
      · rintro ⟨_, same, rfl, present⟩
        cases same
        rw [if_pos present]

end Walks

/-! ## Tables that hang from one slot each -/

section Hung

variable (child : E → Option F) (owned : Nat → I → Prop) (bottom : Nat)

/-- A path whose every index is owned at its depth. -/
def OwnedPath : List I → Prop
  | [] => True
  | index :: path => OwnedPath path ∧ owned path.length index

/-- The tables down to depth `bottom` hang below their roots by exactly one
slot each. -/
structure Hung
    (memory : F → I → E) (depth : F → Option Nat) (slot : F → F × I) :
    Prop where
  below : ∀ {table : F} {level : Nat} {index : I} {target : F},
    depth table = some level → level < bottom → owned level index →
      child (memory table index) = some target →
        depth target = some (level + 1) ∧ slot target = (table, index)

variable {child owned bottom}
variable {memory : F → I → E} {depth : F → Option Nat} {slot : F → F × I}
variable {root other : F}

theorem OwnedPath.tail {index : I} {path : List I}
    (legal : OwnedPath owned (index :: path)) : OwnedPath owned path :=
  legal.1

theorem OwnedPath.of_append {deeper path : List I}
    (legal : OwnedPath owned (deeper ++ path)) : OwnedPath owned path := by
  induction deeper with
  | nil => exact legal
  | cons index deeper inductionHypothesis =>
      exact inductionHypothesis legal.1

theorem Hung.depth_tableAt
    (hung : Hung child owned bottom memory depth slot)
    (rooted : depth root = some 0) :
    ∀ {path : List I} {table : F},
      OwnedPath owned path → path.length ≤ bottom →
        tableAt child memory root path = some table →
          depth table = some path.length
  | [], table, _, _, reached => by
      cases reached
      exact rooted
  | index :: path, table, legal, short, reached => by
      cases above : tableAt child memory root path with
      | none =>
          rw [tableAt_cons_of_eq_none above] at reached
          cases reached
      | some parent =>
          rw [tableAt_cons_of_eq_some above] at reached
          have parentDepth :=
            hung.depth_tableAt rooted legal.1
              (Nat.le_of_succ_le short) above
          exact (hung.below parentDepth short legal.2 reached).1

/-- Two walks that end at the same table are the same walk. -/
theorem Hung.tableAt_injective
    (hung : Hung child owned bottom memory depth slot)
    (rooted : depth root = some 0) (otherRooted : depth other = some 0) :
    ∀ {path otherPath : List I} {table : F},
      OwnedPath owned path → path.length ≤ bottom →
      OwnedPath owned otherPath → otherPath.length ≤ bottom →
      tableAt child memory root path = some table →
      tableAt child memory other otherPath = some table →
        root = other ∧ path = otherPath := by
  intro path
  induction path with
  | nil =>
      intro otherPath table legal short otherLegal otherShort
        reached otherReached
      have first := hung.depth_tableAt rooted legal short reached
      have second :=
        hung.depth_tableAt otherRooted otherLegal otherShort otherReached
      have lengths : otherPath.length = 0 := by
        rw [first] at second
        simpa using second.symm
      cases List.eq_nil_of_length_eq_zero lengths
      cases reached
      cases otherReached
      exact ⟨rfl, rfl⟩
  | cons index path inductionHypothesis =>
      intro otherPath table legal short otherLegal otherShort
        reached otherReached
      have first := hung.depth_tableAt rooted legal short reached
      have second :=
        hung.depth_tableAt otherRooted otherLegal otherShort otherReached
      cases otherPath with
      | nil =>
          rw [first] at second
          simp at second
      | cons otherIndex otherPath =>
          cases above : tableAt child memory root path with
          | none =>
              rw [tableAt_cons_of_eq_none above] at reached
              cases reached
          | some parent =>
              cases otherAbove : tableAt child memory other otherPath with
              | none =>
                  rw [tableAt_cons_of_eq_none otherAbove] at otherReached
                  cases otherReached
              | some otherParent =>
                  rw [tableAt_cons_of_eq_some above] at reached
                  rw [tableAt_cons_of_eq_some otherAbove] at otherReached
                  have parentSlot :=
                    (hung.below
                      (hung.depth_tableAt rooted legal.1
                        (Nat.le_of_succ_le short) above)
                      short legal.2 reached).2
                  have otherSlot :=
                    (hung.below
                      (hung.depth_tableAt otherRooted otherLegal.1
                        (Nat.le_of_succ_le otherShort) otherAbove)
                      otherShort otherLegal.2 otherReached).2
                  rw [parentSlot] at otherSlot
                  injection otherSlot with sameParent sameIndex
                  subst sameParent sameIndex
                  have same :=
                    inductionHypothesis legal.1 (Nat.le_of_succ_le short)
                      otherLegal.1 (Nat.le_of_succ_le otherShort)
                      above otherAbove
                  exact ⟨same.1, by rw [same.2]⟩

end Hung

/-! ## Edits -/

section Edits

variable {child : E → Option F} {owned : Nat → I → Prop} {bottom : Nat}
variable {memory changed : F → I → E}
variable {depth : F → Option Nat} {slot : F → F × I}
variable {root : F}

/-- A walk only reads the tables above its end: a memory that agrees on all
tables of smaller depth gives the same walk. -/
theorem Hung.tableAt_congr
    (hung : Hung child owned bottom memory depth slot)
    (rooted : depth root = some 0) :
    ∀ {path : List I},
      OwnedPath owned path → path.length ≤ bottom + 1 →
      (∀ table level index, depth table = some level →
        level < path.length → owned level index →
          child (changed table index) = child (memory table index)) →
        tableAt child changed root path = tableAt child memory root path
  | [], _, _, _ => rfl
  | index :: path, legal, short, agree => by
      have above :
          tableAt child changed root path =
            tableAt child memory root path :=
        hung.tableAt_congr rooted legal.1 (Nat.le_of_succ_le short)
          fun table level index tableDepth smaller =>
            agree table level index tableDepth
              (Nat.lt_succ_of_lt smaller)
      cases reached : tableAt child memory root path with
      | none =>
          rw [tableAt_cons_of_eq_none reached,
            tableAt_cons_of_eq_none (above.trans reached)]
      | some table =>
          rw [tableAt_cons_of_eq_some reached,
            tableAt_cons_of_eq_some (above.trans reached)]
          exact agree table path.length index
            (hung.depth_tableAt rooted legal.1
              (Nat.le_of_succ_le_succ short) reached)
            (Nat.lt_succ_self _) legal.2

/-- A memory that agrees on every table gives the same lookups. -/
theorem Hung.lookup_congr
    (hung : Hung child owned bottom memory depth slot)
    (rooted : depth root = some 0) {path : List I}
    (legal : OwnedPath owned path) (short : path.length ≤ bottom + 1)
    (agree : ∀ table level index, depth table = some level →
      level ≤ bottom → owned level index →
        changed table index = memory table index) :
    lookup child changed root path = lookup child memory root path := by
  cases path with
  | nil => rfl
  | cons index path =>
      have shorter : path.length ≤ bottom := Nat.le_of_succ_le_succ short
      have above :
          tableAt child changed root path =
            tableAt child memory root path :=
        hung.tableAt_congr rooted legal.1 (Nat.le_of_succ_le short)
          fun table level index tableDepth smaller permitted => by
            rw [agree table level index tableDepth
              (Nat.le_trans (Nat.le_of_lt smaller) shorter) permitted]
      cases reached : tableAt child memory root path with
      | none =>
          rw [lookup_cons_of_eq_none reached,
            lookup_cons_of_eq_none (above.trans reached)]
      | some table =>
          rw [lookup_cons_of_eq_some reached,
            lookup_cons_of_eq_some (above.trans reached),
            agree table path.length index
              (hung.depth_tableAt rooted legal.1 shorter reached)
              shorter legal.2]

variable [DecidableEq F] [DecidableEq I]

/-- `memory` with one entry of one frame replaced. -/
def setEntry (memory : F → I → E) (table : F) (index : I) (entry : E) :
    F → I → E :=
  fun other position =>
    if other = table ∧ position = index then
      entry
    else
      memory other position

variable {table target : F} {index : I} {entry : E} {level : Nat}

@[simp]
theorem setEntry_same :
    setEntry memory table index entry table index = entry := by
  simp [setEntry]

theorem setEntry_of_ne_frame {other : F} {position : I}
    (different : other ≠ table) :
    setEntry memory table index entry other position =
      memory other position := by
  simp [setEntry, different]

/-- Walks down to the depth of a table do not read its entries. -/
theorem Hung.tableAt_setEntry
    (hung : Hung child owned bottom memory depth slot)
    (rooted : depth root = some 0) (tableDepth : depth table = some level)
    {path : List I} (legal : OwnedPath owned path)
    (short : path.length ≤ bottom + 1) (shallow : path.length ≤ level) :
    tableAt child (setEntry memory table index entry) root path =
      tableAt child memory root path := by
  apply hung.tableAt_congr rooted legal short
  intro other otherLevel position otherDepth smaller _
  have different : other ≠ table := by
    rintro rfl
    rw [tableDepth] at otherDepth
    cases otherDepth
    omega
  rw [setEntry_of_ne_frame different]

/-- Writing an entry of a bottom table changes the lookup of the one path
that ends there. -/
theorem Hung.lookup_setEntry_bottom
    (hung : Hung child owned bottom memory depth slot)
    (rooted : depth root = some 0) (tableDepth : depth table = some bottom)
    {position : I} {path : List I}
    (legal : OwnedPath owned (position :: path))
    (full : path.length = bottom) :
    lookup child (setEntry memory table index entry) root
        (position :: path) =
      if tableAt child memory root path = some table ∧ position = index then
        if (child entry).isSome then some entry else none
      else
        lookup child memory root (position :: path) := by
  have above :
      tableAt child (setEntry memory table index entry) root path =
        tableAt child memory root path :=
    hung.tableAt_setEntry rooted tableDepth legal.1 (by omega) (by omega)
  cases reached : tableAt child memory root path with
  | none =>
      rw [lookup_cons_of_eq_none (above.trans reached),
        lookup_cons_of_eq_none reached]
      simp
  | some found =>
      rw [lookup_cons_of_eq_some (above.trans reached),
        lookup_cons_of_eq_some reached]
      by_cases same : found = table ∧ position = index
      · obtain ⟨rfl, rfl⟩ := same
        simp only [setEntry_same, and_self, if_true]
      · have away : ¬ (some found = some table ∧ position = index) := by
          rintro ⟨sameTable, sameIndex⟩
          exact same ⟨Option.some.inj sameTable, sameIndex⟩
        rw [if_neg away, setEntry, if_neg same]

/-- An entry of a bottom table is the end of one path from one root. -/
theorem Hung.lookup_setEntry_reached
    (hung : Hung child owned bottom memory depth slot)
    {home : F} {path walk : List I} (homeRooted : depth home = some 0)
    (homeLegal : OwnedPath owned path) (homeFull : path.length = bottom)
    (reached : tableAt child memory home path = some table)
    (rooted : depth root = some 0) (legal : OwnedPath owned walk)
    (full : walk.length = bottom + 1) :
    lookup child (setEntry memory table index entry) root walk =
      if root = home ∧ walk = index :: path then
        if (child entry).isSome then some entry else none
      else
        lookup child memory root walk := by
  have tableDepth :=
    hung.depth_tableAt homeRooted homeLegal (Nat.le_of_eq homeFull) reached
  rw [homeFull] at tableDepth
  cases walk with
  | nil => cases full
  | cons place walk =>
      have length : walk.length = bottom := Nat.succ.inj full
      rw [hung.lookup_setEntry_bottom rooted tableDepth legal length]
      by_cases here : root = home ∧ place :: walk = index :: path
      · rw [if_pos here]
        obtain ⟨sameRoot, samePath⟩ := here
        injection samePath with sameIndex sameTail
        rw [sameRoot, sameIndex, sameTail, if_pos ⟨reached, rfl⟩]
      · rw [if_neg here, if_neg]
        intro same
        have agree :=
          hung.tableAt_injective rooted homeRooted legal.1
            (Nat.le_of_eq length) homeLegal (Nat.le_of_eq homeFull) same.1
            reached
        exact here ⟨agree.1, by rw [same.2, agree.2]⟩

/-- Hanging an empty table below an absent entry only adds the walk that ends
at the new table. -/
theorem tableAt_hang (root : F)
    (absent : child (memory table index) = none)
    (points : child entry = some target) (fresh : target ≠ table)
    (empty : ∀ position, child (memory target position) = none) :
    ∀ path : List I,
      tableAt child (setEntry memory table index entry) root path =
          tableAt child memory root path ∨
        tableAt child memory root path = none ∧
          tableAt child (setEntry memory table index entry) root path =
            some target
  | [] => Or.inl rfl
  | position :: path => by
      rcases tableAt_hang root absent points fresh empty path with
        same | ⟨broken, reached⟩
      · cases above : tableAt child memory root path with
        | none =>
            left
            rw [tableAt_cons_of_eq_none above,
              tableAt_cons_of_eq_none (same.trans above)]
        | some found =>
            rw [tableAt_cons_of_eq_some above,
              tableAt_cons_of_eq_some (same.trans above)]
            by_cases here : found = table ∧ position = index
            · right
              rw [here.1, here.2, setEntry_same]
              exact ⟨absent, points⟩
            · left
              rw [setEntry, if_neg here]
      · left
        rw [tableAt_cons_of_eq_none broken,
          tableAt_cons_of_eq_some reached, setEntry_of_ne_frame fresh,
          empty position]

/-- Walks that succeeded before a table was hung still end where they did. -/
theorem tableAt_hang_of_eq_some
    (absent : child (memory table index) = none)
    (points : child entry = some target) (fresh : target ≠ table)
    (empty : ∀ position, child (memory target position) = none)
    {path : List I} {found : F}
    (reached : tableAt child memory root path = some found) :
    tableAt child (setEntry memory table index entry) root path =
      some found := by
  rcases tableAt_hang root absent points fresh empty path with
    same | ⟨broken, _⟩
  · exact same.trans reached
  · rw [reached] at broken
    cases broken

/-- Hanging an empty table below an absent entry changes no lookup. -/
theorem Hung.lookup_hang
    (hung : Hung child owned bottom memory depth slot)
    (rooted : depth root = some 0)
    (tableDepth : depth table = some level) (inner : level < bottom)
    (absent : child (memory table index) = none)
    (points : child entry = some target) (fresh : target ≠ table)
    (empty : ∀ position, child (memory target position) = none)
    {path : List I} (legal : OwnedPath owned path)
    (full : path.length = bottom + 1) :
    lookup child (setEntry memory table index entry) root path =
      lookup child memory root path := by
  cases path with
  | nil => rfl
  | cons position path =>
      have length : path.length = bottom := Nat.succ.inj full
      rcases tableAt_hang root absent points fresh empty path with
        same | ⟨broken, reached⟩
      · cases above : tableAt child memory root path with
        | none =>
            rw [lookup_cons_of_eq_none above,
              lookup_cons_of_eq_none (same.trans above)]
        | some found =>
            have foundDepth :=
              hung.depth_tableAt rooted legal.1 (Nat.le_of_eq length) above
            have different : found ≠ table := by
              rintro rfl
              rw [tableDepth] at foundDepth
              cases foundDepth
              omega
            rw [lookup_cons_of_eq_some above,
              lookup_cons_of_eq_some (same.trans above),
              setEntry_of_ne_frame different]
      · rw [lookup_cons_of_eq_none broken,
          lookup_cons_of_eq_some reached, setEntry_of_ne_frame fresh,
          if_neg (by simp [empty position])]

end Edits

end TableForest
