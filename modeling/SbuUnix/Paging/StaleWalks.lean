import SbuUnix.Paging.ForkRefinement
import SbuUnix.Paging.StaleTables

/-!
# What a fork maps

The walks of both processes after `copy_parent_tables`: the parent's stay, and
the child's are the parent's and those that a stale entry starts.
-/

namespace SbuUnix

open TableForest Outcome

/-! ## Walks after the copy -/

section Walks

variable {kind : Nat → Kind} {s next : Paging} {parent child table : Nat}
variable {frame target count steps : Nat} {index : Fin 512}
variable {path : List (Fin 512)}

theorem Copying.small
    (copying : Copying s parent child (fun walk => walk ≠ []) count next)
    (entry : ParentEntry s parent path) (short : path.length ≤ 3)
    (nonempty : path ≠ []) : copyFrame s parent child path < frameCount :=
  Paging.lt_of_isFree
    (copying.frames path nonempty short entry nonempty).1

/-- What an entry of the child's table leads to, where the parent has one. -/
theorem Copying.childOf_copy
    (copying : Copying s parent child (fun walk => walk ≠ []) count next)
    (entry : ParentEntry s parent (index :: path)) :
    ∃ target, childOf (next.mem (copyFrame s parent child path) index) =
        some target ∧
      if path.length < 3 then
        target = copyFrame s parent child (index :: path)
      else
        tableAt childOf s.mem parent (index :: path) = some target := by
  obtain ⟨table, reached, present⟩ := entry.reached
  have word := copying.copies index path table entry reached
    (List.cons_ne_nil index path)
  rw [word, copyWord]
  by_cases inner : path.length < 3
  · have small := copying.small entry inner (List.cons_ne_nil index path)
    rw [if_pos inner]
    refine ⟨_, childOf_entryOf small (by decide) (by decide), ?_⟩
    rw [if_pos inner]
  · rw [if_neg inner]
    refine ⟨_, childOf_cowEntry _, ?_⟩
    rw [if_neg inner, tableAt_cons_of_eq_some reached]
    exact childOf_eq_some_iff.mpr ⟨present, rfl⟩

/-- `Points` is where the entries lead in the memory after the copy. -/
theorem Copying.childOf_iff (ready : ForkReady kind s parent child)
    (copying : Copying s parent child (fun walk => walk ≠ []) count next) :
    childOf (next.mem frame index) = some target ↔
      Points s parent child frame index target := by
  by_cases copied : ∃ path, ParentEntry s parent (index :: path) ∧
      copyFrame s parent child path = frame
  · obtain ⟨path, entry, here⟩ := copied
    obtain ⟨found, points, leads⟩ := copying.childOf_copy entry
    rw [here] at points
    rw [points]
    constructor
    · intro same
      cases same
      exact Or.inl ⟨path, entry, here, leads⟩
    · intro either
      rcases either with ⟨other, otherEntry, otherHere, otherLeads⟩ |
        ⟨noCopy, _⟩
      · have samePath := copying.path_eq ready otherEntry.tail
          (Nat.le_of_succ_le_succ otherEntry.short) id entry.tail
          (Nat.le_of_succ_le_succ entry.short) id (otherHere.trans here.symm)
        rw [samePath] at otherLeads
        split at leads
        · next inner =>
          rw [if_pos inner] at otherLeads
          rw [leads, otherLeads]
        · next leaf =>
          rw [if_neg leaf] at otherLeads
          rw [← leads, otherLeads]
      · exact absurd here (noCopy path entry)
  · have noCopy : ∀ path, ParentEntry s parent (index :: path) →
        copyFrame s parent child path ≠ frame :=
      fun path entry here => copied ⟨path, entry, here⟩
    have same : childOf (next.mem frame index) =
        childOf (s.mem frame index) := by
      by_cases leaf : ∃ path, ParentEntry s parent (index :: path) ∧
          path.length = 3 ∧ tableAt childOf s.mem parent path = some frame
      · obtain ⟨path, entry, full, reached⟩ := leaf
        have present := entry.present
        rw [tableAt_cons_of_eq_some reached, childOf_isSome] at present
        rw [copying.leaves index path frame entry full reached
          (List.cons_ne_nil index path), childOf_cowEntry]
        exact (childOf_eq_some_iff.mpr ⟨present, rfl⟩).symm
      · rw [copying.rest frame index fun path entry _ =>
          ⟨noCopy path entry, fun full reached =>
            leaf ⟨path, entry, full, reached⟩⟩]
    rw [same]
    constructor
    · exact fun points => Or.inr ⟨noCopy, points⟩
    · intro either
      rcases either with ⟨path, entry, here, _⟩ | ⟨_, points⟩
      · exact absurd here (noCopy path entry)
      · exact points

/-- `Leads` is what walks find in the memory after the copy. -/
theorem Copying.leads_iff (ready : ForkReady kind s parent child)
    (copying : Copying s parent child (fun walk => walk ≠ []) count next) :
    ∀ {steps frame : Nat}, Leads s parent child steps frame ↔
      ∃ walk : List (Fin 512), walk.length = steps ∧
        (tableAt childOf next.mem frame walk).isSome = true := by
  intro steps
  induction steps with
  | zero =>
      intro frame
      constructor
      · exact fun _ => ⟨[], rfl, rfl⟩
      · exact fun _ => trivial
  | succ steps inductionHypothesis =>
      intro frame
      unfold Leads
      constructor
      · intro leads
        obtain ⟨index, target, points, further⟩ := leads
        obtain ⟨walk, length, reached⟩ := inductionHypothesis.mp further
        refine ⟨walk ++ [index], by rw [List.length_append, length]; rfl, ?_⟩
        rw [tableAt_append, tableAt_cons_of_eq_some rfl,
          (copying.childOf_iff ready).mpr points]
        exact reached
      · intro walks
        obtain ⟨walk, length, reached⟩ := walks
        rcases List.eq_nil_or_concat walk with empty | ⟨deeper, index, split⟩
        · rw [empty] at length
          cases length
        · rw [List.concat_eq_append] at split
          rw [split, List.length_append, List.length_singleton] at length
          rw [split, tableAt_append, tableAt_cons_of_eq_some rfl] at reached
          cases points : childOf (next.mem frame index) with
          | none =>
              rw [points] at reached
              cases reached
          | some target =>
              rw [points] at reached
              exact ⟨index, target, (copying.childOf_iff ready).mp points,
                inductionHypothesis.mpr
                  ⟨deeper, Nat.succ.inj length, reached⟩⟩

/-- The child's walks pass the copies of the parent's tables. -/
theorem Copying.tableAt_child
    (copying : Copying s parent child (fun walk => walk ≠ []) count next) :
    ∀ {path : List (Fin 512)}, ParentEntry s parent path → path.length ≤ 3 →
      tableAt childOf next.mem child path =
        some (copyFrame s parent child path) := by
  intro path
  induction path with
  | nil => exact fun _ _ => rfl
  | cons index path inductionHypothesis =>
      intro entry short
      have inner : path.length < 3 := Nat.lt_of_succ_le short
      obtain ⟨target, points, leads⟩ := copying.childOf_copy entry
      rw [if_pos inner] at leads
      rw [tableAt_cons_of_eq_some
        (inductionHypothesis entry.tail (Nat.le_of_lt inner)), points, leads]

/-- The child maps the pages of the parent. -/
theorem Copying.lookup_child
    (copying : Copying s parent child (fun walk => walk ≠ []) count next)
    (entry : ParentEntry s parent (index :: path)) (full : path.length = 3)
    (reached : tableAt childOf s.mem parent path = some table) :
    lookup childOf next.mem child (index :: path) =
      some (cowEntry (s.mem table index)) := by
  have word := copying.copies index path table entry reached
    (List.cons_ne_nil index path)
  rw [copyWord, if_neg (by omega)] at word
  rw [lookup_cons_of_eq_some
    (copying.tableAt_child entry.tail (Nat.le_of_eq full)), word,
    childOf_cowEntry]
  rfl

/-- The tables of the parent stay. -/
theorem Copying.tableAt_parent (ready : ForkReady kind s parent child)
    (copying : Copying s parent child (fun walk => walk ≠ []) count next) :
    ∀ {path : List (Fin 512)}, OwnedPath ownedIndex path →
      path.length ≤ 3 → tableAt childOf next.mem parent path =
        tableAt childOf s.mem parent path := by
  intro path
  induction path with
  | nil => exact fun _ _ => rfl
  | cons index path inductionHypothesis =>
      intro legal short
      have inner : path.length < 3 := Nat.lt_of_succ_le short
      have above := inductionHypothesis legal.1 (Nat.le_of_lt inner)
      cases reached : tableAt childOf s.mem parent path with
      | none =>
          rw [tableAt_cons_of_eq_none reached,
            tableAt_cons_of_eq_none (above.trans reached)]
      | some table =>
          rw [tableAt_cons_of_eq_some reached,
            tableAt_cons_of_eq_some (above.trans reached),
            copying.read ready legal.1 (Nat.le_of_lt inner) reached
              (Or.inl inner)]

/-- The parent's pages become shared. -/
theorem Copying.lookup_parent (ready : ForkReady kind s parent child)
    (copying : Copying s parent child (fun walk => walk ≠ []) count next)
    (legal : OwnedPath ownedIndex (index :: path)) (full : path.length = 3) :
    lookup childOf next.mem parent (index :: path) =
      (lookup childOf s.mem parent (index :: path)).map cowEntry := by
  have above := copying.tableAt_parent ready legal.1 (Nat.le_of_eq full)
  cases reached : tableAt childOf s.mem parent path with
  | none =>
      rw [lookup_cons_of_eq_none reached,
        lookup_cons_of_eq_none (above.trans reached)]
      rfl
  | some table =>
      rw [lookup_cons_of_eq_some reached,
        lookup_cons_of_eq_some (above.trans reached), childOf_isSome,
        childOf_isSome]
      by_cases present : hasFlag (s.mem table index) ptPR = true
      · have entry : ParentEntry s parent (index :: path) :=
          { legal := legal
            short := by rw [List.length_cons, full]
            present := by
              rw [tableAt_cons_of_eq_some reached, childOf_isSome]
              exact present }
        have word := copying.leaves index path table entry full reached
          (List.cons_ne_nil index path)
        have presentNow : hasFlag (cowEntry (s.mem table index)) ptPR =
            true := by
          rw [hasFlag_cowEntry _ (by decide)]
          decide
        rw [word, if_pos present, if_pos presentNow]
        rfl
      · have kept : next.mem table index = s.mem table index := by
          apply copying.rest
          intro walk entry _
          have short : walk.length ≤ 3 := Nat.le_of_succ_le_succ entry.short
          refine ⟨copying.ne_table ready entry.tail short id legal.1
            (Nat.le_of_eq full) reached, ?_⟩
          intro _ walkReached
          have same := ready.path_eq entry.tail.legal short legal.1
            (Nat.le_of_eq full) walkReached reached
          have there := entry.present
          rw [same, tableAt_cons_of_eq_some reached, childOf_isSome] at there
          exact present there
        rw [kept, if_neg present]
        rfl

end Walks

/-! ## Which contents show -/

section Exactness

variable {kind : Nat → Kind} {s next : Paging} {parent child count : Nat}

/-- A walk of the child succeeds where the parent's fails only through a stale
entry. -/
theorem Copying.absent_child (ready : ForkReady kind s parent child)
    (copying : Copying s parent child (fun walk => walk ≠ []) count next)
    (clean : NothingStale s parent child) {path : List (Fin 512)}
    (legal : OwnedPath ownedIndex path) (full : path.length = 4)
    (absent : tableAt childOf s.mem parent path = none) :
    tableAt childOf next.mem child path = none := by
  obtain ⟨deeper, index, reached, split, there, broken⟩ :=
    exists_absent_of_tableAt_eq_none absent
  have length := congrArg List.length split
  rw [full, List.length_append, List.length_cons] at length
  have slotLegal : OwnedPath ownedIndex (index :: reached) := by
    rw [split] at legal
    exact legal.of_append
  have entry : ParentEntry s parent reached :=
    ⟨slotLegal.1, by omega, there⟩
  have noCopy : ∀ walk, ParentEntry s parent (index :: walk) →
      copyFrame s parent child walk ≠ copyFrame s parent child reached := by
    intro walk walkEntry same
    have samePath := copying.path_eq ready walkEntry.tail
      (Nat.le_of_succ_le_succ walkEntry.short) id entry (by omega) id same
    have present := walkEntry.present
    rw [samePath, broken] at present
    cases present
  have childReached := copying.tableAt_child entry (by omega)
  cases points : childOf
      (next.mem (copyFrame s parent child reached) index) with
  | none =>
      rw [split]
      apply tableAt_append_of_eq_none
      rw [tableAt_cons_of_eq_some childReached, points]
  | some target =>
      rcases (copying.childOf_iff ready).mp points with
        ⟨walk, walkEntry, same, _⟩ | ⟨_, stale⟩
      · exact absurd same (noCopy walk walkEntry)
      · by_cases root : reached = []
        · have notLast : index ≠ 511 := by
            rw [root] at slotLegal
            exact slotLegal.2 rfl
          rw [root] at stale
          change childOf (s.mem child index) = some target at stale
          have empty := ready.empty index notLast
          rw [childOf_eq_none_iff.mpr empty] at stale
          cases stale
        · have nowhere := clean reached index target root (by omega) entry
            broken stale
          rw [copying.leads_iff ready] at nowhere
          rw [split, tableAt_append, tableAt_cons_of_eq_some childReached,
            points, Option.bind_some]
          by_contra found
          exact nowhere ⟨deeper, by omega,
            Option.isSome_iff_ne_none.mpr found⟩

/-- A stale entry that starts a walk shows in the child. -/
theorem Copying.nothingStale (ready : ForkReady kind s parent child)
    (copying : Copying s parent child (fun walk => walk ≠ []) count next)
    (agree : ∀ v, pml4Index v ≠ 511 →
      (entryAt next child v).isSome = true →
        (entryAt s parent v).isSome = true) :
    NothingStale s parent child := by
  intro path index target nonempty short entry absent stale leads
  obtain ⟨walk, length, reached⟩ := (copying.leads_iff ready).mp leads
  have points : childOf (next.mem (copyFrame s parent child path) index) =
      some target := by
    apply (copying.childOf_iff ready).mpr
    right
    refine ⟨?_, stale⟩
    intro other otherEntry same
    have samePath := copying.path_eq ready otherEntry.tail
      (Nat.le_of_succ_le_succ otherEntry.short) id entry short id same
    have present := otherEntry.present
    rw [samePath, absent] at present
    cases present
  obtain ⟨v, isPage⟩ := exists_pageOf_eq
    (show (walk ++ index :: path).length = 4 by
      rw [List.length_append, List.length_cons, length]
      omega)
  have userHalf : pml4Index v ≠ 511 := by
    intro last
    -- The walk starts in the table of the child on `path`.
    obtain ⟨start, top, split⟩ :=
      (List.eq_nil_or_concat path).resolve_left nonempty
    rw [List.concat_eq_append] at split
    have legal : OwnedPath ownedIndex (start ++ [top]) := by
      rw [← split]
      exact entry.legal
    have isTop : pml4Index v = top := by
      have ends := congrArg List.getLast? isPage
      have regroup : walk ++ index :: (start ++ [top]) =
          (walk ++ index :: start) ++ [top] := by simp
      rw [split, regroup, List.getLast?_concat] at ends
      exact Option.some.inj ends
    exact legal.of_append.2 rfl (isTop.symm.trans last)
  have found : (entryAt next child v).isSome = true := by
    rw [entryAt_eq, isPage]
    cases walk with
    | nil =>
        rw [List.nil_append, lookup_isSome_iff, tableAt_cons_of_eq_some
          (copying.tableAt_child entry short), points]
        rfl
    | cons first walk =>
        rw [List.cons_append, lookup_isSome_iff, ← List.cons_append,
          tableAt_append, tableAt_cons_of_eq_some
            (copying.tableAt_child entry short), points]
        exact reached
  have parentFound := agree v userHalf found
  rw [entryAt_eq, isPage] at parentFound
  have broken := tableAt_append_of_eq_none absent walk
  cases walk with
  | nil =>
      rw [List.nil_append, lookup_isSome_iff, absent] at parentFound
      cases parentFound
  | cons first walk =>
      rw [List.cons_append, lookup_isSome_iff, ← List.cons_append, broken]
        at parentFound
      cases parentFound

/-- The walks of the parent in the kernel half. -/
theorem Copying.lookup_kernel (ready : ForkReady kind s parent child)
    (copying : Copying s parent child (fun walk => walk ≠ []) count next)
    {v : Word} (kernelHalf : pml4Index v = 511) :
    lookup childOf next.mem parent (pageOf v) =
      lookup childOf s.mem parent (pageOf v) := by
  apply ready.apart.lookup_kernel ready.parentRoot kernelHalf
  · exact copying.parentKernel ready
  · intro frame level isKernel
    funext index
    apply copying.rest
    intro walk entry _
    have short : walk.length ≤ 3 := Nat.le_of_succ_le_succ entry.short
    constructor
    · intro same
      by_cases atRoot : walk = []
      · rw [atRoot] at same
        change child = frame at same
        rw [← same, ready.childRoot] at isKernel
        cases isKernel
      · have free := (copying.frames walk atRoot short entry.tail atRoot).1
        rw [same, ready.apart.used frame (by rw [isKernel]; trivial)] at free
        cases free
    · intro _ reached
      have depth := ready.depth entry.tail.legal short reached
      rw [isKernel] at depth
      cases depth

/-- The fork is exact when nothing stale shows. -/
theorem Copying.forksExactly_iff (ready : ForkReady kind s parent child)
    (copying : Copying s parent child (fun walk => walk ≠ []) count next) :
    ForksExactly s next parent child ↔ NothingStale s parent child := by
  have shares : ∀ v entry, pml4Index v ≠ 511 →
      entryAt s parent v = some entry →
        entryAt next child v = some (cowEntry entry) ∧
          entryAt next parent v = some (cowEntry entry) := by
    intro v entry userHalf found
    have legal : OwnedPath ownedIndex (ptIndex v :: tablesOf v) :=
      ownedPath_pageOf userHalf
    rw [entryAt_eq, pageOf_eq_cons] at found
    rw [entryAt_eq, entryAt_eq, pageOf_eq_cons]
    obtain ⟨table, reached, word, isSome⟩ := lookup_eq_some_iff.mp found
    have slot : ParentEntry s parent (ptIndex v :: tablesOf v) :=
      { legal := legal
        short := Nat.le_refl 4
        present := by
          rw [← lookup_isSome_iff, found]
          rfl }
    constructor
    · rw [copying.lookup_child slot rfl reached, word]
    · rw [copying.lookup_parent ready legal rfl, found]
      rfl
  constructor
  · intro exactly
    exact copying.nothingStale ready fun v userHalf =>
      (exactly.succeeds v userHalf).mp
  · intro clean
    constructor
    · intro v userHalf
      constructor
      · intro found
        cases absent : entryAt s parent v with
        | some entry => rfl
        | none =>
            have legal := ownedPath_pageOf userHalf
            rw [entryAt_eq, pageOf_eq_cons] at absent found
            rw [pageOf_eq_cons] at legal
            have noWalk : tableAt childOf s.mem parent
                (ptIndex v :: tablesOf v) = none := by
              apply Option.not_isSome_iff_eq_none.mp
              rw [← lookup_isSome_iff, absent]
              exact Bool.false_ne_true
            rw [lookup_isSome_iff, copying.absent_child ready clean legal rfl
              noWalk] at found
            cases found
      · intro found
        obtain ⟨entry, isEntry⟩ := Option.isSome_iff_exists.mp found
        rw [(shares v entry userHalf isEntry).1]
        rfl
    · intro v entry userHalf found
      obtain ⟨inChild, inParent⟩ := shares v entry userHalf found
      refine ⟨cowEntry entry, inChild, inParent, frameOf_cowEntry entry,
        ?_, ?_, ?_, ?_⟩
      · rw [hasFlag_cowEntry _ (by decide)]
        decide
      · rw [hasFlag_cowEntry _ (by decide)]
        decide
      · rw [hasFlag_cowEntry _ (by decide)]
        decide
      · rw [hasFlag_cowEntry _ (by decide)]
        decide
    · intro v
      by_cases kernelHalf : pml4Index v = 511
      · rw [entryAt_eq, entryAt_eq, copying.lookup_kernel ready kernelHalf]
      · have legal := ownedPath_pageOf kernelHalf
        rw [entryAt_eq, entryAt_eq, pageOf_eq_cons] at *
        rw [copying.lookup_parent ready legal rfl, Option.map_map]
        congr 1
        funext entry
        exact frameOf_cowEntry entry

end Exactness

/-! ## The child's PML4 page -/

section Create

variable {kind : Nat → Kind} {s : Paging} {table level frame : Nat}
variable {index : Fin 512} {flags : Word} {allowed : Fault → Prop}

theorem KernelSlot.level_eq {other : Nat}
    (slot : KernelSlot kind table index level)
    (second : KernelSlot kind table index other) : level = other := by
  rcases slot with ⟨known, _, root⟩ | ⟨known, _⟩
  · rcases second with ⟨_, _, otherRoot⟩ | ⟨otherKnown, _⟩
    · rw [root, otherRoot]
    · rw [known] at otherKnown
      cases otherKnown
  · rcases second with ⟨otherKnown, _, _⟩ | ⟨otherKnown, _⟩
    · rw [known] at otherKnown
      cases otherKnown
    · rw [known] at otherKnown
      cases otherKnown
      rfl

/-- A frame hung below an absent entry of the kernel half is one more kernel
table. -/
theorem TablesApart.hangKernel (apart : TablesApart kind s)
    (slot : KernelSlot kind table index level) (free : s.isFree frame = true)
    (low : removeFlag flags = 0) :
    TablesApart (setKind kind frame (.kernelTable (level + 1)))
      (((s.unsetFree frame).writePage frame fun _ => 0).writeWord table index
        (entryOf frame flags)) := by
  have different : table ≠ frame := apart.ne_of_free slot.isTable free
  have small := Paging.lt_of_isFree free
  have targets : ∀ target, (kind target).IsTable →
      setKind kind frame (.kernelTable (level + 1)) target = kind target :=
    fun target isTable => setKind_of_ne (apart.ne_of_free isTable free)
  have elsewhere : ∀ {other : Nat} {position : Fin 512},
      ¬ (other = table ∧ position = index) → other ≠ frame →
        (((s.unsetFree frame).writePage frame fun _ => 0).writeWord table
          index (entryOf frame flags)).mem other position =
            s.mem other position := by
    intro other position notSlot notFrame
    have cleared : ((s.unsetFree frame).writePage frame fun _ => 0).mem
        other = s.mem other := Paging.writePage_of_ne notFrame
    exact (if_neg notSlot).trans (congrFun cleared position)
  have fresh : ∀ position : Fin 512,
      (((s.unsetFree frame).writePage frame fun _ => 0).writeWord table
        index (entryOf frame flags)).mem frame position = 0 := by
    intro position
    rw [Paging.writeWord_of_ne_frame different.symm, Paging.writePage_same]
  refine ⟨?_, ?_, ?_⟩
  · intro owner ownLevel position ownerDepth inner permitted
    have old : owner ≠ frame := by
      intro same
      rw [same, setKind_same] at ownerDepth
      cases ownerDepth
    rw [setKind_of_ne old] at ownerDepth
    have notSlot : ¬ (owner = table ∧ position = index) := by
      intro here
      exact slot.ne_owned ownerDepth permitted here
    rw [elsewhere notSlot old]
    apply (apart.user owner ownLevel position ownerDepth inner permitted).mono
    intro target targetKind
    rw [targets target (by rw [targetKind]; trivial), targetKind]
  · intro owner position ownLevel ownSlot
    by_cases new : owner = frame
    · rw [new, fresh]
      exact below_zero
    · have before : KernelSlot kind owner position ownLevel := by
        unfold KernelSlot at ownSlot ⊢
        rw [setKind_of_ne new] at ownSlot
        exact ownSlot
      by_cases here : owner = table ∧ position = index
      · obtain ⟨isTable, isIndex⟩ := here
        rw [isTable, isIndex] at before
        have sameLevel : ownLevel = level := before.level_eq slot
        rw [isTable, isIndex, Paging.writeWord_same, sameLevel]
        exact below_entryOf small low setKind_same
      · rw [elsewhere here new]
        apply (apart.kernel owner position ownLevel before).mono
        intro target targetKind
        rw [targets target (by rw [targetKind]; trivial), targetKind]
  · intro other isTable
    have isFree : (((s.unsetFree frame).writePage frame fun _ => 0).writeWord
        table index (entryOf frame flags)).isFree other =
          (s.isFree other && decide (other ≠ frame)) := Paging.isFree_unsetFree
    rw [isFree]
    by_cases new : other = frame
    · simp [new]
    · rw [setKind_of_ne new] at isTable
      rw [apart.used other isTable]
      rfl

/-- `next` is `s` with kernel tables added; other frames in use keep their
kinds. -/
structure KernelGrown (kind : Nat → Kind) (s : Paging) (changed : Nat → Kind)
    (next : Paging) : Prop where
  apart : TablesApart changed next
  kinds : ∀ frame, s.isFree frame = false → changed frame = kind frame
  fewer : ∀ frame, next.isFree frame = true → s.isFree frame = true
  cr3 : next.cr3 = s.cr3

theorem KernelGrown.refl (apart : TablesApart kind s) :
    KernelGrown kind s kind s :=
  ⟨apart, fun _ _ => rfl, fun _ free => free, rfl⟩

theorem KernelGrown.used {changed : Nat → Kind} {next : Paging}
    (grown : KernelGrown kind s changed next)
    (inUse : s.isFree frame = false) : next.isFree frame = false := by
  cases free : next.isFree frame with
  | false => rfl
  | true =>
      rw [grown.fewer frame free] at inUse
      cases inUse

theorem KernelGrown.trans {changed last : Nat → Kind} {between next : Paging}
    (first : KernelGrown kind s changed between)
    (second : KernelGrown changed between last next) :
    KernelGrown kind s last next where
  apart := second.apart
  kinds := by
    intro frame inUse
    rw [second.kinds frame (first.used inUse), first.kinds frame inUse]
  fewer := fun frame free => first.fewer frame (second.fewer frame free)
  cr3 := second.cr3.trans first.cr3

/-- One level of the kernel's mapper. -/
theorem yields_nextTable_apart (exhausted : allowed .noFreeFrame)
    (apart : TablesApart kind s) (slot : KernelSlot kind table index level)
    (low : removeFlag flags = 0) :
    Yields allowed (nextTable flags table index) s fun below next =>
      ∃ changed, KernelGrown kind s changed next ∧
        changed below = .kernelTable (level + 1) := by
  unfold nextTable
  rw [yields_bind, yields_get, yields_ite]
  constructor
  · intro present
    rw [yields_pure]
    exact ⟨kind, KernelGrown.refl apart,
      (apart.kernel table index level slot).of_childOf
        (childOf_eq_some_iff.mpr ⟨present, rfl⟩)⟩
  · intro _
    rw [yields_bind]
    apply yields_allocateVirtPage exhausted
    intro frame free
    have small := lt_of_lt_frameCount (Paging.lt_of_isFree free)
    unfold memsetPage writeEntry
    rw [yields_bind, yields_modify, yields_bind, yields_modify, yields_pure,
      kernelFrame_pageAddr small]
    refine ⟨setKind kind frame (.kernelTable (level + 1)), ?_, setKind_same⟩
    have isFree : ∀ other, (((s.unsetFree frame).writePage frame
        fun _ => 0).writeWord table index (pageAddr frame ||| flags)).isFree
          other = (s.isFree other && decide (other ≠ frame)) :=
      fun _ => Paging.isFree_unsetFree
    exact
      { apart := apart.hangKernel slot free low
        kinds := by
          intro other inUse
          apply setKind_of_ne
          intro same
          rw [same, free] at inUse
          cases inUse
        fewer := by
          intro other stillFree
          rw [isFree, Bool.and_eq_true] at stillFree
          exact stillFree.1
        cr3 := rfl }

/-- Leaf entries of the kernel half may be anything. -/
theorem TablesApart.writeKernelLeaf (apart : TablesApart kind s)
    (isLeaf : kind table = .kernelTable 3) (word : Word) :
    TablesApart kind (s.writeWord table index word) where
  user := by
    intro owner ownLevel position ownerDepth inner permitted
    have different : owner ≠ table := by
      intro same
      rw [same, isLeaf] at ownerDepth
      cases ownerDepth
    rw [Paging.writeWord_of_ne_frame different]
    exact apart.user owner ownLevel position ownerDepth inner permitted
  kernel := by
    intro owner position ownLevel slot
    have different : owner ≠ table := by
      intro same
      rcases slot with ⟨known, _⟩ | ⟨known, inner⟩
      · rw [same, isLeaf] at known
        cases known
      · rw [same, isLeaf] at known
        cases known
        exact absurd inner (by decide)
    rw [Paging.writeWord_of_ne_frame different]
    exact apart.kernel owner position ownLevel slot
  used := apart.used

/-- A mapping of the kernel leaves the tables apart. -/
theorem yields_mapPhysToVirtAddr_apart (exhausted : allowed .noFreeFrame)
    (apart : TablesApart kind s) (rooted : kind (kernelFrame s.cr3) = .pml4)
    {v : Word} (kernelHalf : pml4Index v = 511) (phys : Word) :
    Yields allowed (mapPhysToVirtAddr v phys) s fun _ next =>
      ∃ changed, KernelGrown kind s changed next := by
  unfold mapPhysToVirtAddr
  rw [yields_bind, yields_get, yields_bind, kernelHalf]
  have atRoot : KernelSlot kind (kernelFrame s.cr3) 511 0 :=
    Or.inl ⟨rooted, rfl, rfl⟩
  apply (yields_nextTable_apart exhausted apart atRoot (by decide)).mono
  intro pdpt atPdpt first
  obtain ⟨kind1, grown1, isPdpt⟩ := first
  rw [yields_bind]
  apply (yields_nextTable_apart exhausted grown1.apart
    (Or.inr ⟨isPdpt, by decide⟩) (by decide)).mono
  intro pd atPd second
  obtain ⟨kind2, grown2, isPd⟩ := second
  rw [yields_bind]
  apply (yields_nextTable_apart exhausted grown2.apart
    (Or.inr ⟨isPd, by decide⟩) (by decide)).mono
  intro pt atPt third
  obtain ⟨kind3, grown3, isPt⟩ := third
  have grown := (grown1.trans grown2).trans grown3
  unfold writeEntry
  rw [yields_modify]
  exact ⟨kind3,
    { apart := grown3.apart.writeKernelLeaf isPt _
      kinds := grown.kinds
      fewer := grown.fewer
      cr3 := grown.cr3 }⟩

/-- An empty PML4 page with the last entry of another one. -/
theorem TablesApart.newRoot (apart : TablesApart kind s) {root : Nat}
    (rooted : kind root = .pml4) (inUse : s.isFree frame = false)
    (noTable : ¬ (kind frame).IsTable) :
    TablesApart (setKind kind frame .pml4)
      (s.writePage frame fun index =>
        if index = 511 then s.mem root 511 else 0) := by
  have targets : ∀ target, (kind target).IsTable →
      setKind kind frame .pml4 target = kind target := by
    intro target isTable
    apply setKind_of_ne
    intro same
    rw [same] at isTable
    exact noTable isTable
  refine ⟨?_, ?_, ?_⟩
  · intro owner ownLevel position ownerDepth inner permitted
    by_cases new : owner = frame
    · rw [new, setKind_same] at ownerDepth
      cases ownerDepth
      rw [new, Paging.writePage_same, if_neg (permitted rfl)]
      exact below_zero
    · rw [setKind_of_ne new] at ownerDepth
      rw [Paging.writePage_of_ne new]
      apply (apart.user owner ownLevel position ownerDepth inner
        permitted).mono
      intro target targetKind
      rw [targets target (by rw [targetKind]; trivial), targetKind]
  · intro owner position ownLevel slot
    by_cases new : owner = frame
    · rw [new] at slot ⊢
      rcases slot with ⟨_, last, top⟩ | ⟨known, _⟩
      · rw [Paging.writePage_same, if_pos last, top]
        apply (apart.kernel root 511 0 (Or.inl ⟨rooted, rfl, rfl⟩)).mono
        intro target targetKind
        rw [targets target (by rw [targetKind]; trivial), targetKind]
      · rw [setKind_same] at known
        cases known
    · have before : KernelSlot kind owner position ownLevel := by
        unfold KernelSlot at slot ⊢
        rw [setKind_of_ne new] at slot
        exact slot
      rw [Paging.writePage_of_ne new]
      apply (apart.kernel owner position ownLevel before).mono
      intro target targetKind
      rw [targets target (by rw [targetKind]; trivial), targetKind]
  · intro other isTable
    rw [Paging.isFree_writePage]
    by_cases new : other = frame
    · rw [new]
      exact inUse
    · rw [setKind_of_ne new] at isTable
      exact apart.used other isTable

/-- After `create_user_address_space` a fork can start. -/
theorem yields_createUserAddressSpace_apart (exhausted : allowed .noFreeFrame)
    (apart : TablesApart kind s)
    (rooted : kind (kernelFrame s.cr3) = .pml4) :
    Yields allowed createUserAddressSpace s fun child next =>
      next.cr3 = s.cr3 ∧ ∃ changed,
        ForkReady changed next (kernelFrame s.cr3) (kernelFrame child) := by
  unfold createUserAddressSpace
  rw [yields_bind]
  apply yields_allocateVirtPage exhausted
  intro frame free
  have small := lt_of_lt_frameCount (Paging.lt_of_isFree free)
  have taken : TablesApart kind (s.unsetFree frame) :=
    { user := apart.user
      kernel := apart.kernel
      used := by
        intro other isTable
        rw [Paging.isFree_unsetFree, apart.used other isTable]
        rfl }
  have frameUsed : (s.unsetFree frame).isFree frame = false := by
    rw [Paging.isFree_unsetFree]
    simp
  rw [yields_bind]
  apply (yields_mapPhysToVirtAddr_apart exhausted taken rooted
    (pml4Index_kernelAddr _) _).mono
  intro _ mapped mapping
  obtain ⟨changed, grown⟩ := mapping
  have rootUsed : (s.unsetFree frame).isFree (kernelFrame s.cr3) = false :=
    taken.used _ (by rw [rooted]; trivial)
  have rootedNow : changed (kernelFrame s.cr3) = .pml4 := by
    rw [grown.kinds _ rootUsed, rooted]
  have different : kernelFrame s.cr3 ≠ frame :=
    apart.ne_of_free (by rw [rooted]; trivial) free
  have noTable : ¬ (changed frame).IsTable := by
    rw [grown.kinds frame frameUsed]
    intro isTable
    rw [apart.used frame isTable] at free
    cases free
  have sameCr3 : mapped.cr3 = s.cr3 := grown.cr3
  let page : Page := fun index =>
    if index = 511 then mapped.mem (kernelFrame s.cr3) 511 else 0
  have written :
      (mapped.writePage frame fun _ => 0).writeWord frame 511
          (mapped.mem (kernelFrame s.cr3) 511) =
        mapped.writePage frame page := by
    simp only [Paging.writeWord, Paging.writePage, page]
    congr 1
    funext other position
    by_cases sameFrame : other = frame
    · by_cases last : position = 511
      · simp [sameFrame, last]
      · simp [sameFrame, last]
    · simp [sameFrame]
  unfold memsetPage writeEntry
  rw [kernelFrame_pageAddr small, yields_bind, yields_modify, yields_bind,
    yields_get, yields_bind, yields_modify, yields_pure,
    Paging.writePage_cr3, sameCr3, Paging.writePage_of_ne different, written]
  refine ⟨sameCr3, setKind changed frame .pml4, ?_⟩
  rw [kernelFrame_pageAddr small]
  exact
    { apart := grown.apart.newRoot rootedNow (grown.used frameUsed) noTable
      parentRoot := by rw [setKind_of_ne different, rootedNow]
      childRoot := setKind_same
      different := different
      empty := by
        intro index notLast
        rw [Paging.writePage_same]
        change hasFlag (if index = 511 then _ else (0 : Word)) ptPR = false
        rw [if_neg notLast]
        decide
      kernel := by
        rw [Paging.writePage_same, Paging.writePage_of_ne different]
        exact if_pos rfl }

end Create

/-! ## A fork -/

/-- `copy_parent_tables` into a PML4 page of `create_user_address_space` gives
the child the parent's mappings and nothing else exactly when the frames it
takes for tables hold nothing that shows. -/
theorem copyParentTables_forksExactly_iff {kind : Nat → Kind}
    {before s : Paging} {child : Word} (apart : TablesApart kind before)
    (rooted : kind (kernelFrame before.cr3) = .pml4)
    (created : createUserAddressSpace before = .ok (child, s)) :
    Yields Exhausted (copyParentTables child) s fun _ next =>
      (ForksExactly s next (kernelFrame s.cr3) (kernelFrame child) ↔
        NothingStale s (kernelFrame s.cr3) (kernelFrame child)) := by
  have makes := yields_createUserAddressSpace_apart exhausted_noFreeFrame apart
    rooted
  obtain ⟨sameCr3, changed, ready⟩ := yields_of_ok makes created
  rw [← sameCr3] at ready
  apply (yields_copyParentTables_stale exhausted_noFreeFrame ready).mono
  intro _ next copied
  obtain ⟨count, copying⟩ := copied
  exact copying.forksExactly_iff ready

/-- A fork, and the walks of parent and child to an address after it. -/
def forkWalks (v : Word) : PagingM (Bool × Bool) := do
  let child ← createUserAddressSpace
  let s ← get
  copyParentTables child
  let next ← get
  pure ((entryAt s (kernelFrame s.cr3) v).isSome,
    (entryAt next (kernelFrame child) v).isSome)

theorem exists_of_forkWalks {before : Paging} {v : Word} {found : Bool × Bool}
    (known : shown (fun walks _ => walks) (forkWalks v before) =
      some found) :
    ∃ child s next, createUserAddressSpace before = .ok (child, s) ∧
      copyParentTables child s = .ok ((), next) ∧
      (entryAt s (kernelFrame s.cr3) v).isSome = found.1 ∧
      (entryAt next (kernelFrame child) v).isSome = found.2 := by
  obtain ⟨walks, last, returned, same⟩ := exists_of_shown known
  obtain ⟨child, s, created, rest⟩ := bind_eq_ok_iff.mp returned
  obtain ⟨_, _, read, rest⟩ := bind_eq_ok_iff.mp rest
  cases read
  obtain ⟨_, next, copied, rest⟩ := bind_eq_ok_iff.mp rest
  obtain ⟨_, _, read, rest⟩ := bind_eq_ok_iff.mp rest
  cases read
  cases rest
  exact ⟨child, _, _, created, copied, congrArg Prod.fst same,
    congrArg Prod.snd same⟩

/-- The parent has one page. -/
theorem copyParentTables_forksExactly_onePage :
    ∃ child s next,
      createUserAddressSpace (mapOnePage emptyPaging) = .ok (child, s) ∧
      copyParentTables child s = .ok ((), next) ∧
      (ForksExactly s next (kernelFrame s.cr3) (kernelFrame child) ↔
        NothingStale s (kernelFrame s.cr3) (kernelFrame child)) := by
  have walks : shown (fun walks _ => walks)
      (forkWalks 0x1000 (mapOnePage emptyPaging)) = some (true, true) := by
    decide +kernel
  obtain ⟨child, s, next, created, copied, -, -⟩ := exists_of_forkWalks walks
  have exactly := copyParentTables_forksExactly_iff owned_onePage.tablesApart
    (by decide) created
  have agree := yields_of_ok exactly copied
  exact ⟨child, s, next, created, copied, agree⟩

/-- Frame 68, which becomes the first table of the child, leads at index 5 to
a page of the parent that starts with its own address. -/
def stalePaging : Paging :=
  ((mapOnePage emptyPaging).writeWord 20 0 (entryOf 20 ptPR)).writeWord 68 5
    (entryOf 20 ptPR)

/-- The child maps an address that the parent does not. -/
theorem not_forksExactly_stale :
    TablesApart onePageKind stalePaging ∧
    ∃ child s next, createUserAddressSpace stalePaging = .ok (child, s) ∧
      copyParentTables child s = .ok ((), next) ∧
      ¬ ForksExactly s next (kernelFrame s.cr3) (kernelFrame child) := by
  constructor
  · have pageNoTable : ¬ (onePageKind 20).IsTable := fun isTable => isTable
    have freeNoTable : ¬ (onePageKind 68).IsTable := fun isTable => isTable
    exact ((owned_onePage.writeWord
      (entryOk_of_not_isTable pageNoTable)).writeWord
        (entryOk_of_not_isTable freeNoTable)).tablesApart
  · have walks : shown (fun walks _ => walks)
        (forkWalks 0x140000000 stalePaging) = some (false, true) := by
      decide +kernel
    obtain ⟨child, s, next, created, copied, inParent, inChild⟩ :=
      exists_of_forkWalks walks
    refine ⟨child, s, next, created, copied, ?_⟩
    intro exactly
    have agree := (exactly.succeeds 0x140000000 (by decide)).mp inChild
    rw [agree] at inParent
    cases inParent

end SbuUnix
