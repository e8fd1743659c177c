import SbuUnix.Paging.Exhaustion
import SbuUnix.Paging.Translation

/-!
# The linear map

`set_identity_paging` maps every page of physical memory at `KERNEL_ADDR`.
While that stands, mapping a page of the linear map needs no new table, and
`kmalloc` takes the lowest frames of `free_map` one after the other.  The block
it returns is contiguous when these frames are.
-/

namespace SbuUnix

open TableForest Outcome

/-! ## Walks of the kernel half -/

section Walks

variable {kind : Nat → Kind} {s : Paging} {root : Nat}

/-- A walk through entry 511 passes tables of the kernel half only. -/
theorem Owned.kernelTable_of_tableAt (owned : Owned kind s)
    (rooted : kind root = .pml4) :
    ∀ {deeper : List (Fin 512)} {table : Nat}, deeper.length ≤ 2 →
      tableAt childOf s.mem root (deeper ++ [511]) = some table →
        kind table = .kernelTable (deeper.length + 1) := by
  intro deeper
  induction deeper with
  | nil =>
      intro table _ reached
      rw [List.nil_append, tableAt_cons_of_eq_some rfl] at reached
      obtain ⟨present, frame⟩ := childOf_eq_some_iff.mp reached
      have allowed := owned.entries root 511
      unfold EntryOk at allowed
      simp only [rooted, if_pos] at allowed
      obtain ⟨target, small, address, known⟩ := allowed present
      rw [← frame, Owned.eq_frameOf small address, known]
      rfl
  | cons index deeper inductionHypothesis =>
      intro table short reached
      rw [List.length_cons] at short
      rw [List.cons_append, tableAt_cons] at reached
      obtain ⟨above, walked, points⟩ := Option.bind_eq_some_iff.mp reached
      have aboveKind := inductionHypothesis (by omega) walked
      obtain ⟨present, frame⟩ := childOf_eq_some_iff.mp points
      have allowed := owned.entries above index
      unfold EntryOk at allowed
      simp only [aboveKind] at allowed
      rw [if_pos (by omega)] at allowed
      obtain ⟨target, small, address, known⟩ := allowed present
      rw [← frame, Owned.eq_frameOf small address, known, List.length_cons]

/-- Only the tables above the leaves decide which tables a walk passes. -/
theorem Owned.tableAt_kernel_congr (owned : Owned kind s)
    (rooted : kind root = .pml4) {mem : Nat → Page}
    (same : ∀ frame, kind frame = .pml4 ∨
      (∃ level < 3, kind frame = .kernelTable level) →
        mem frame = s.mem frame) :
    ∀ {deeper : List (Fin 512)}, deeper.length ≤ 2 →
      tableAt childOf mem root (deeper ++ [511]) =
        tableAt childOf s.mem root (deeper ++ [511]) := by
  intro deeper
  induction deeper with
  | nil =>
      intro _
      rw [List.nil_append, tableAt_cons_of_eq_some rfl,
        tableAt_cons_of_eq_some rfl, same root (.inl rooted)]
  | cons index deeper inductionHypothesis =>
      intro short
      rw [List.length_cons] at short
      rw [List.cons_append, tableAt_cons, tableAt_cons,
        inductionHypothesis (by omega)]
      cases walked : tableAt childOf s.mem root (deeper ++ [511]) with
      | none => rfl
      | some above =>
          have aboveKind :=
            owned.kernelTable_of_tableAt rooted (by omega) walked
          rw [Option.bind_some, Option.bind_some,
            same above (.inr ⟨_, by omega, aboveKind⟩)]

/-- A present page of the kernel half is what the kernel accesses. -/
theorem mmuWalk_ptPR_eq_lookup (mem : Nat → Page) (root : Nat)
    (vAddress : Word) :
    mmuWalk mem ptPR root (pageOf vAddress).reverse =
      lookup childOf mem root (pageOf vAddress) := by
  have level : ∀ entry : Word, (entry &&& ptPR = ptPR) ↔
      hasFlag entry ptPR = true :=
    fun entry => (hasFlag_ptPR_iff entry).symm
  simp only [pageOf, List.reverse_cons, List.reverse_nil, List.nil_append,
    List.cons_append, mmuWalk, lookup, tableAt, Option.bind_some, level,
    childOf]
  split
  · rw [Option.bind_some]
    split
    · rw [Option.bind_some]
      split
      · rw [Option.bind_some]
        split
        · rfl
        · rfl
      · rfl
    · rfl
  · rfl

/-- The entry through which the processor reaches an address in the tables of
`root`. -/
def entryAt (s : Paging) (root : Nat) (vAddress : Word) : Option Word :=
  mmuWalk s.mem ptPR root (pageOf vAddress).reverse

theorem entryAt_eq (s : Paging) (root : Nat) (v : Word) :
    entryAt s root v = lookup childOf s.mem root (pageOf v) :=
  mmuWalk_ptPR_eq_lookup s.mem root v

end Walks

/-! ## The map -/

/-- The address of a frame in the linear map. -/
def linearAddr (frame : Nat) : Word :=
  kernelAddr ||| pageAddr frame

/-- The walk to the last table for a frame, below entry 511. -/
def linearPath (frame : Nat) : List (Fin 512) :=
  [pdIndex (linearAddr frame), pdptIndex (linearAddr frame)]

theorem length_linearPath (frame : Nat) : (linearPath frame).length ≤ 2 :=
  Nat.le_refl 2

/-- The last table for a frame, in the tables of CR3. -/
def linearTable (s : Paging) (frame : Nat) : Option Nat :=
  tableAt childOf s.mem (kernelFrame s.cr3) (linearPath frame ++ [511])

/-- The entry of the linear map for a frame, in the tables of CR3. -/
def linearEntry (s : Paging) (frame : Nat) : Option Word :=
  lookup childOf s.mem (kernelFrame s.cr3) (pageOf (linearAddr frame))

/-- All frames below a limit, the end of physical memory, are mapped to
themselves, and nothing behind it is mapped. -/
structure LinearMap (limit : Nat) (s : Paging) : Prop where
  mapped : ∀ frame < limit, ∃ entry,
    linearEntry s frame = some entry ∧ frameOf entry = frame
  only : ∀ frame < 524288, limit ≤ frame → linearEntry s frame = none
  free : ∀ frame, s.isFree frame = true → frame < limit

theorem pageOf_linearAddr (frame : Nat) :
    pageOf (linearAddr frame) =
      ptIndex (linearAddr frame) :: (linearPath frame ++ [511]) := by
  have top : pml4Index (linearAddr frame) = 511 := pml4Index_kernelAddr _
  rw [pageOf, top]
  rfl

/-- The walk to the last table for an address. -/
def tablesOf (v : Word) : List (Fin 512) :=
  [pdIndex v, pdptIndex v, pml4Index v]

theorem pageOf_eq_cons (v : Word) : pageOf v = ptIndex v :: tablesOf v :=
  rfl

theorem val_tableIndex (offset : Nat) (vAddress : Word) :
    (tableIndex offset vAddress).val =
      vAddress.toNat / 2 ^ offset % 512 := by
  unfold tableIndex
  rw [BitVec.toNat_ushiftRight, Nat.shiftRight_eq_div_pow]
  rfl

/-- Every list of four indices is the page of some address. -/
theorem exists_pageOf_eq {path : List (Fin 512)} (full : path.length = 4) :
    ∃ v, pageOf v = path := by
  obtain ⟨pt, pd, pdpt, pml4, rfl⟩ := List.length_eq_four.mp full
  refine ⟨BitVec.ofNat 64 (pt.val * 2 ^ 12 + pd.val * 2 ^ 21 +
    pdpt.val * 2 ^ 30 + pml4.val * 2 ^ 39), ?_⟩
  have ptSmall := pt.isLt
  have pdSmall := pd.isLt
  have pdptSmall := pdpt.isLt
  have pml4Small := pml4.isLt
  simp only [pageOf, List.cons.injEq, and_true]
  refine ⟨?_, ?_, ?_, ?_⟩
  · apply Fin.ext
    rw [ptIndex, val_tableIndex, BitVec.toNat_ofNat]
    omega
  · apply Fin.ext
    rw [pdIndex, val_tableIndex, BitVec.toNat_ofNat]
    omega
  · apply Fin.ext
    rw [pdptIndex, val_tableIndex, BitVec.toNat_ofNat]
    omega
  · apply Fin.ext
    rw [pml4Index, val_tableIndex, BitVec.toNat_ofNat]
    omega

theorem toNat_linearAddr {frame : Nat} (small : frame < 524288) :
    (linearAddr frame).toNat = 18446744071562067968 + frame * 4096 := by
  rw [← kernelAddr_toNat]
  exact linear_toNat small

section Indices

variable {frame other : Nat}

theorem val_ptIndex_linearAddr (small : frame < 524288) :
    (ptIndex (linearAddr frame)).val = frame % 512 := by
  rw [ptIndex, val_tableIndex, toNat_linearAddr small]
  omega

theorem val_pdIndex_linearAddr (small : frame < 524288) :
    (pdIndex (linearAddr frame)).val = frame / 512 % 512 := by
  rw [pdIndex, val_tableIndex, toNat_linearAddr small]
  omega

theorem val_pdptIndex_linearAddr (small : frame < 524288) :
    (pdptIndex (linearAddr frame)).val = 510 + frame / 262144 := by
  rw [pdptIndex, val_tableIndex, toNat_linearAddr small]
  omega

/-- The last tables of two frames are the same when 512 frames share them. -/
theorem linearPath_congr (small : frame < 524288) (otherSmall : other < 524288)
    (same : frame / 512 = other / 512) :
    linearPath frame = linearPath other := by
  have pd : pdIndex (linearAddr frame) = pdIndex (linearAddr other) := by
    apply Fin.ext
    rw [val_pdIndex_linearAddr small, val_pdIndex_linearAddr otherSmall, same]
  have pdpt : pdptIndex (linearAddr frame) =
      pdptIndex (linearAddr other) := by
    apply Fin.ext
    rw [val_pdptIndex_linearAddr small, val_pdptIndex_linearAddr otherSmall]
    omega
  rw [linearPath, linearPath, pd, pdpt]

/-- Two frames have two pages in the linear map. -/
theorem pageOf_linearAddr_injective (small : frame < 524288)
    (otherSmall : other < 524288)
    (same : pageOf (linearAddr frame) = pageOf (linearAddr other)) :
    frame = other := by
  simp only [pageOf, List.cons.injEq] at same
  obtain ⟨samePt, samePd, samePdpt, -⟩ := same
  have pt := congrArg Fin.val samePt
  have pd := congrArg Fin.val samePd
  have pdpt := congrArg Fin.val samePdpt
  rw [val_ptIndex_linearAddr small, val_ptIndex_linearAddr otherSmall] at pt
  rw [val_pdIndex_linearAddr small, val_pdIndex_linearAddr otherSmall] at pd
  rw [val_pdptIndex_linearAddr small, val_pdptIndex_linearAddr otherSmall]
    at pdpt
  omega

end Indices

theorem linearEntry_eq (s : Paging) (frame : Nat) :
    linearEntry s frame =
      (linearTable s frame).bind fun pt =>
        if hasFlag (s.mem pt (ptIndex (linearAddr frame))) ptPR then
          some (s.mem pt (ptIndex (linearAddr frame)))
        else
          none := by
  rw [linearEntry, pageOf_linearAddr, lookup]
  unfold linearTable
  simp only [childOf_isSome]

/-- The page of an address inside a block of the linear map. -/
theorem pageOf_block {first index : Nat}
    (small : first + index / 4096 < 524288) :
    pageOf (linearAddr first + BitVec.ofNat 64 index) =
      pageOf (linearAddr (first + index / 4096)) := by
  have start : (linearAddr first).toNat = kernelAddr.toNat + first * 4096 :=
    linear_toNat (by omega)
  have page : (linearAddr (first + index / 4096)).toNat =
      kernelAddr.toNat + (first + index / 4096) * 4096 :=
    linear_toNat small
  have base := kernelAddr_toNat
  have inside : (linearAddr first + BitVec.ofNat 64 index).toNat =
      (linearAddr first).toNat + index := by
    rw [BitVec.toNat_add, BitVec.toNat_ofNat]
    omega
  have samePage : removeFlag (linearAddr first + BitVec.ofNat 64 index) =
      removeFlag (linearAddr (first + index / 4096)) := by
    apply BitVec.eq_of_toNat_eq
    rw [toNat_removeFlag, toNat_removeFlag, inside, start, page]
    unfold pageSize
    omega
  rw [← pageOf_removeFlag, samePage, pageOf_removeFlag]

section Mapping

variable {kind : Nat → Kind} {s : Paging} {limit frame pt : Nat}

/-- The leaf entry for a page of the linear map. -/
theorem LinearMap.table (linear : LinearMap limit s) (below : frame < limit) :
    ∃ pt, linearTable s frame = some pt ∧
      hasFlag (s.mem pt (ptIndex (linearAddr frame))) ptPR = true ∧
        frameOf (s.mem pt (ptIndex (linearAddr frame))) = frame := by
  obtain ⟨entry, found, points⟩ := linear.mapped frame below
  rw [linearEntry_eq] at found
  obtain ⟨pt, walked, here⟩ := Option.bind_eq_some_iff.mp found
  split at here
  · next present =>
    cases here
    exact ⟨pt, walked, present, points⟩
  · cases here

theorem nextTable_eq_present {flags : Word} {table below : Nat}
    {index : Fin 512} (points : childOf (s.mem table index) = some below) :
    nextTable flags table index s = .ok (below, s) := by
  obtain ⟨present, frame⟩ := childOf_eq_some_iff.mp points
  rw [nextTable,
    bind_of_ok (show (get : PagingM Paging) s = .ok (s, s) from rfl),
    if_pos present, frame]
  rfl

/-- Mapping a page of the linear map writes its leaf entry and nothing
else. -/
theorem mapPhysToVirtAddr_eq {phys : Word}
    (walked : linearTable s frame = some pt) :
    mapPhysToVirtAddr (linearAddr frame) phys s =
      .ok ((), s.writeWord pt (ptIndex (linearAddr frame))
        (phys ||| (ptPR ||| ptWR))) := by
  have top : pml4Index (linearAddr frame) = 511 := pml4Index_kernelAddr _
  rw [linearTable, linearPath, List.cons_append, tableAt_cons] at walked
  obtain ⟨pd, toPd, toPt⟩ := Option.bind_eq_some_iff.mp walked
  rw [List.cons_append, tableAt_cons] at toPd
  obtain ⟨pdpt, toPdpt, toPd⟩ := Option.bind_eq_some_iff.mp toPd
  rw [List.nil_append, tableAt_cons_of_eq_some rfl] at toPdpt
  rw [mapPhysToVirtAddr,
    bind_of_ok (show (get : PagingM Paging) s = .ok (s, s) from rfl), top,
    bind_of_ok (nextTable_eq_present toPdpt),
    bind_of_ok (nextTable_eq_present toPd),
    bind_of_ok (nextTable_eq_present toPt)]
  rfl

/-- A frame may be taken. -/
theorem LinearMap.unsetFree (linear : LinearMap limit s) :
    LinearMap limit (s.unsetFree frame) where
  mapped := linear.mapped
  only := linear.only
  free := by
    intro other free
    rw [Paging.isFree_unsetFree, Bool.and_eq_true] at free
    exact linear.free other free.1

/-- Frames that are no table may be written. -/
theorem LinearMap.writePage {page : Page} (linear : LinearMap limit s)
    (owned : Owned kind s) (rooted : kind (kernelFrame s.cr3) = .pml4)
    (noTable : ¬ (kind frame).IsTable) :
    LinearMap limit (s.writePage frame page) := by
  have away : ∀ other, (kind other).IsTable →
      (s.writePage frame page).mem other = s.mem other := by
    intro other table
    apply Paging.writePage_of_ne
    intro same
    rw [same] at table
    exact noTable table
  have sameTable : ∀ other,
      linearTable (s.writePage frame page) other = linearTable s other := by
    intro other
    apply owned.tableAt_kernel_congr rooted _ (length_linearPath other)
    rintro table (known | ⟨level, -, known⟩)
    · exact away table (by rw [known]; trivial)
    · exact away table (by rw [known]; trivial)
  have sameEntry : ∀ other,
      linearEntry (s.writePage frame page) other = linearEntry s other := by
    intro other
    rw [linearEntry_eq, linearEntry_eq, sameTable other]
    cases walked : linearTable s other with
    | none => rfl
    | some pt =>
        have ptKind := owned.kernelTable_of_tableAt rooted
          (length_linearPath other) walked
        rw [Option.bind_some, Option.bind_some,
          away pt (by rw [ptKind]; trivial)]
  exact
    { mapped := by
        intro other below
        rw [sameEntry]
        exact linear.mapped other below
      only := by
        intro other small above
        rw [sameEntry]
        exact linear.only other small above
      free := linear.free }

/-- Mapping a frame where it is mapped already keeps the map, whatever other
address leads to the same entry. -/
theorem LinearMap.writeLeaf (linear : LinearMap limit s)
    (owned : Owned kind s) (rooted : kind (kernelFrame s.cr3) = .pml4)
    (below : frame < limit) (small : frame < 524288)
    (walked : linearTable s frame = some pt) :
    LinearMap limit (s.writeWord pt (ptIndex (linearAddr frame))
      (entryOf frame (ptPR ||| ptWR))) := by
  obtain ⟨same, known, present, points⟩ := linear.table below
  rw [walked] at known
  cases known
  have ptKind : kind pt = .kernelTable 3 :=
    owned.kernelTable_of_tableAt rooted (length_linearPath frame) walked
  let next := s.writeWord pt (ptIndex (linearAddr frame))
    (entryOf frame (ptPR ||| ptWR))
  have sameTable : ∀ other, linearTable next other = linearTable s other := by
    intro other
    apply owned.tableAt_kernel_congr rooted _ (length_linearPath other)
    intro table known
    apply Paging.writeWord_of_ne_frame
    rintro rfl
    rw [ptKind] at known
    rcases known with isRoot | ⟨level, inner, isLevel⟩
    · cases isRoot
    · cases isLevel
      exact absurd inner (by decide)
  have presentNow : hasFlag (entryOf frame (ptPR ||| ptWR)) ptPR = true := by
    rw [hasFlag_entryOf _ _ (by decide)]
    decide
  have pointsNow : frameOf (entryOf frame (ptPR ||| ptWR)) = frame :=
    frameOf_of_removeFlag small (removeFlag_entryOf frame (by decide))
  have kept : ∀ table index,
      ¬ (table = pt ∧ index = ptIndex (linearAddr frame)) →
        next.mem table index = s.mem table index :=
    fun _ _ different => if_neg different
  exact
    { mapped := by
        intro other otherBelow
        obtain ⟨table, reached, otherPresent, otherPoints⟩ :=
          linear.table otherBelow
        change ∃ entry, linearEntry next other = some entry ∧ _
        rw [linearEntry_eq, sameTable other, reached, Option.bind_some]
        by_cases here : table = pt ∧
            ptIndex (linearAddr other) = ptIndex (linearAddr frame)
        · have written : next.mem table (ptIndex (linearAddr other)) =
              entryOf frame (ptPR ||| ptWR) := by
            rw [here.1, here.2]
            exact Paging.writeWord_same
          rw [written, if_pos presentNow]
          refine ⟨_, rfl, ?_⟩
          rw [pointsNow, ← points, ← otherPoints, here.1, here.2]
        · rw [kept _ _ here, if_pos otherPresent]
          exact ⟨_, rfl, otherPoints⟩
      only := by
        intro other otherSmall above
        have none := linear.only other otherSmall above
        change linearEntry next other = _
        rw [linearEntry_eq] at none ⊢
        rw [sameTable other]
        cases reached : linearTable s other with
        | none => rfl
        | some table =>
            rw [reached, Option.bind_some] at none
            rw [Option.bind_some]
            have absent : ¬ hasFlag
                (s.mem table (ptIndex (linearAddr other))) ptPR = true := by
              intro isPresent
              rw [if_pos isPresent] at none
              cases none
            rw [kept, if_neg absent]
            rintro ⟨rfl, sameIndex⟩
            rw [sameIndex] at absent
            exact absent present
      free := linear.free }

end Mapping

end SbuUnix
