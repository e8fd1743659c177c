import SbuUnix.Paging.LinearMap

/-!
# Blocks of `kmalloc`

`kmalloc` returns the address of its first page and maps each further page at
the linear address of its own frame.  Bytes behind the first page belong to the
block only when the frames it took lie side by side.
-/

namespace SbuUnix

open TableForest Outcome

/-! ## The order of frames -/

theorem findSome?_range {α : Type} {f : Nat → Option α} {value : α} :
    ∀ {count : Nat}, (List.range count).findSome? f = some value →
      ∃ i < count, f i = some value ∧ ∀ j < i, f j = none := by
  intro count
  induction count with
  | zero => exact fun found => by cases found
  | succ count inductionHypothesis =>
      intro found
      rw [List.range_succ, List.findSome?_append] at found
      cases early : (List.range count).findSome? f with
      | some other =>
          rw [early] at found
          cases found
          obtain ⟨i, below, here, before⟩ := inductionHypothesis early
          exact ⟨i, by omega, here, before⟩
      | none =>
          rw [early] at found
          simp only [List.findSome?_cons, List.findSome?_nil,
            Option.none_or] at found
          refine ⟨count, Nat.lt_succ_self _, ?_, ?_⟩
          · cases here : f count with
            | some other =>
                rw [here] at found
                exact found
            | none =>
                rw [here] at found
                cases found
          · intro j below
            exact List.findSome?_eq_none_iff.mp early j
              (List.mem_range.mpr below)

section Supply

variable {s t : Paging} {first frame : Nat}

/-- The scan finds the lowest free frame. -/
theorem le_of_getFirstpage (found : getFirstpage s.freeMap = some first)
    (free : s.isFree frame = true) : first ≤ frame := by
  have below := Paging.lt_of_isFree free
  unfold frameCount at below
  unfold getFirstpage at found
  obtain ⟨i, iSmall, inner, before⟩ := findSome?_range found
  obtain ⟨j, jSmall, here, beforeBit⟩ := findSome?_range inner
  have isFirst : i * 64 + j = first := by
    split at here
    · exact Option.some.inj here
    · cases here
  rw [← isFirst]
  by_contra lower
  have set : (s.freeMap (frame / 64)).getLsbD (frame % 64) = true := by
    simp only [Paging.isFree, Bool.and_eq_true] at free
    exact free.2
  have hasBit : hasFlag (s.freeMap (frame / 64))
      (BitVec.twoPow 64 (frame % 64)) = true := by
    unfold hasFlag
    rw [BitVec.and_twoPow, set, if_pos rfl]
    have one : (BitVec.twoPow 64 (frame % 64)).getLsbD (frame % 64) =
        true := by
      simp [Nat.mod_lt frame (show 0 < 64 by decide)]
    simp only [bne_iff_ne, ne_eq]
    intro zero
    rw [zero] at one
    simp at one
  rcases Nat.lt_or_ge (frame / 64) i with earlier | notEarlier
  · have none := before (frame / 64) earlier
    have bit := List.findSome?_eq_none_iff.mp none (frame % 64)
      (List.mem_range.mpr (Nat.mod_lt _ (by decide)))
    rw [if_pos hasBit] at bit
    cases bit
  · have sameWord : frame / 64 = i := by omega
    have bit := beforeBit (frame % 64) (by omega)
    rw [← sameWord, if_pos hasBit] at bit
    cases bit

theorem getFirstpage_eq_some (free : s.isFree first = true)
    (lowest : ∀ frame, s.isFree frame = true → first ≤ frame) :
    getFirstpage s.freeMap = some first := by
  cases found : getFirstpage s.freeMap with
  | none =>
      rw [isFree_eq_false_of_getFirstpage found first] at free
      cases free
  | some other =>
      have low := le_of_getFirstpage found free
      have high := lowest other (isFree_of_getFirstpage found)
      rw [Nat.le_antisymm low high]

end Supply

/-- The frames that so many allocations take. -/
def Paging.takenFrames (s : Paging) : Nat → List Nat
  | 0 => []
  | count + 1 =>
      match getFirstpage s.freeMap with
      | some frame => frame :: (s.unsetFree frame).takenFrames count
      | none => []

section Taken

variable {s t : Paging} {first : Nat}

theorem takenFrames_succ {frame : Nat}
    (found : getFirstpage s.freeMap = some frame) (count : Nat) :
    s.takenFrames (count + 1) =
      frame :: (s.unsetFree frame).takenFrames count := by
  rw [Paging.takenFrames, found]

theorem takenFrames_congr :
    ∀ {count : Nat} {s t : Paging}, s.freeMap = t.freeMap →
      s.takenFrames count = t.takenFrames count := by
  intro count
  induction count with
  | zero => exact fun _ => rfl
  | succ count inductionHypothesis =>
      intro s t same
      rw [Paging.takenFrames, Paging.takenFrames, same]
      cases getFirstpage t.freeMap with
      | none => rfl
      | some frame =>
          have rest : (s.unsetFree frame).freeMap =
              (t.unsetFree frame).freeMap := by
            unfold Paging.unsetFree Paging.writeMap
            dsimp only
            rw [same]
          exact congrArg _ (inductionHypothesis rest)

/-- Where the lowest frames lie side by side, they are taken in order. -/
theorem takenFrames_eq_range :
    ∀ {count : Nat} {s : Paging} {first : Nat},
      (∀ frame, s.isFree frame = true → first ≤ frame) →
        (∀ j < count, s.isFree (first + j) = true) →
          s.takenFrames count = List.range' first count := by
  intro count
  induction count with
  | zero => exact fun _ _ => rfl
  | succ count inductionHypothesis =>
      intro s first lowest free
      have found := getFirstpage_eq_some (free 0 (Nat.succ_pos count)) lowest
      rw [takenFrames_succ found, List.range'_succ]
      apply congrArg (first :: ·)
      apply inductionHypothesis
      · intro frame stillFree
        rw [Paging.isFree_unsetFree, Bool.and_eq_true,
          decide_eq_true_eq] at stillFree
        have above := lowest frame stillFree.1
        have other := stillFree.2
        omega
      · intro j below
        have isFree := free (j + 1) (by omega)
        rw [Paging.isFree_unsetFree, Bool.and_eq_true, decide_eq_true_eq]
        rw [show first + 1 + j = first + (j + 1) by omega]
        exact ⟨isFree, by omega⟩

end Taken

/-! ## The run -/

section Run

variable {kind : Nat → Kind} {s : Paging} {limit : Nat}

/-- `kmalloc` under the linear map: the frames it takes, cleared. -/
theorem kmallocPages_linear :
    ∀ {count : Nat} {kind : Nat → Kind} {s : Paging}, Owned kind s →
      kind (kernelFrame s.cr3) = .pml4 → LinearMap limit s →
        count ≤ s.freeCount →
          ∃ changed next,
            kmallocPages count s = .ok (s.takenFrames count, next) ∧
              Extends kind s changed next ∧ LinearMap limit next ∧
                ∀ frame ∈ s.takenFrames count,
                  s.isFree frame = true ∧ next.isFree frame = false ∧
                    next.mem frame = fun _ => 0 := by
  intro count
  induction count with
  | zero =>
      intro kind s owned _ linear _
      exact ⟨kind, s, rfl, Extends.refl owned, linear,
        fun frame member => absurd member List.not_mem_nil⟩
  | succ count inductionHypothesis =>
      intro kind s owned rooted linear enough
      have nonempty : s.freeCount ≠ 0 := by omega
      obtain ⟨frame, found⟩ := Option.ne_none_iff_exists'.mp fun none =>
        nonempty (getFirstpage_eq_none_iff.mp none)
      have free := isFree_of_getFirstpage found
      have small := lt_of_lt_frameCount (Paging.lt_of_isFree free)
      have below := linear.free frame free
      have taken := Extends.allocate owned free
      have rootedTaken := taken.root owned rooted
      have frameUsed : (s.unsetFree frame).isFree frame = false := by
        simp [Paging.isFree_unsetFree]
      obtain ⟨pt, walked, -, -⟩ :=
        (linear.unsetFree : LinearMap limit (s.unsetFree frame)).table below
      have ptKind : setKind kind frame .held pt = .kernelTable 3 :=
        taken.owned.kernelTable_of_tableAt rootedTaken
          (length_linearPath frame) walked
      let mapped := (s.unsetFree frame).writeWord pt
        (ptIndex (linearAddr frame)) (entryOf frame (ptPR ||| ptWR))
      have mapping : Extends kind s (setKind kind frame .held) mapped :=
        taken.writeKernelLeaf owned ptKind
      have linearMapped : LinearMap limit mapped :=
        LinearMap.writeLeaf linear.unsetFree taken.owned rootedTaken below
          small walked
      have held : setKind kind frame .held frame = .held := setKind_same
      have noTable : ¬ (setKind kind frame .held frame).IsTable := by
        rw [held]
        exact fun isTable => isTable
      have usedMapped : mapped.isFree frame = false := frameUsed
      let cleared := mapped.writePage frame fun _ => 0
      have clearing : Extends kind s (setKind kind frame .held) cleared :=
        mapping.writeFresh owned free usedMapped noTable
      have linearCleared : LinearMap limit cleared :=
        linearMapped.writePage mapping.owned rootedTaken noTable
      have sameCount : cleared.freeCount = (s.unsetFree frame).freeCount :=
        freeCount_congr rfl
      have counted := freeCount_unsetFree free
      obtain ⟨changed, next, returned, rest, linearNext, others⟩ :=
        inductionHypothesis clearing.owned rootedTaken linearCleared
          (by omega)
      have sameFrames : cleared.takenFrames count =
          (s.unsetFree frame).takenFrames count :=
        takenFrames_congr rfl
      rw [sameFrames] at returned others
      have kept : next.mem frame = fun _ => 0 := by
        rw [rest.pages frame usedMapped noTable]
        exact Paging.writePage_same
      refine ⟨changed, next, ?_, clearing.trans rest owned, linearNext, ?_⟩
      · have allocated := allocateVirtPage_eq_found found
        have maps : mapPhysToVirtAddr (kernelAddr ||| pageAddr frame)
            (pageAddr frame) (s.unsetFree frame) = .ok ((), mapped) :=
          mapPhysToVirtAddr_eq walked
        have clears : memsetPage (kernelFrame (pageAddr frame)) mapped =
            .ok ((), cleared) := by
          rw [kernelFrame_pageAddr small]
          rfl
        rw [kmallocPages, bind_of_ok allocated, bind_of_ok maps,
          bind_of_ok clears, bind_of_ok returned, kernelFrame_pageAddr small,
          takenFrames_succ found]
        rfl
      · rw [takenFrames_succ found]
        intro other member
        rcases List.mem_cons.mp member with rfl | later
        · exact ⟨free, rest.used usedMapped, kept⟩
        · obtain ⟨otherFree, otherUsed, otherZero⟩ := others other later
          exact ⟨clearing.fewer other otherFree, otherUsed, otherZero⟩

end Run

/-! ## The block -/

/-- Every byte of a block lies in a frame that was taken from the map, and is
zero. -/
def OwnsBlock (s next : Paging) (addr : Word) (size : Nat) : Prop :=
  ∀ i < size, ∃ entry,
    next.translate ptPR (addr + BitVec.ofNat 64 i) = some entry ∧
      s.isFree (frameOf entry) = true ∧
        next.isFree (frameOf entry) = false ∧
          Page.byteAt (next.mem (frameOf entry))
            (addr + BitVec.ofNat 64 i) = 0

/-- `kmalloc` succeeds, with an owned and cleared block. -/
def ReturnsOwnedBlock (s : Paging) (size : Nat) : Prop :=
  ∃ addr frames next, kmalloc size s = .ok ((addr, frames), next) ∧
    OwnsBlock s next addr size

/-- The lowest free frames lie side by side. -/
def LowestContiguous (s : Paging) (count : Nat) : Prop :=
  ∃ first, getFirstpage s.freeMap = some first ∧
    ∀ j < count, s.isFree (first + j) = true

theorem numPage_natCast (size : Nat) :
    numPage size = (size + 4095) / 4096 := by
  unfold numPage
  have quotient : Int.tdiv (size : Int) 4096 = ((size / 4096 : Nat) : Int) :=
    rfl
  have remainder : Int.tmod (size : Int) 4096 =
      ((size % 4096 : Nat) : Int) :=
    rfl
  rw [quotient, remainder]
  split
  · omega
  · omega

theorem freeCount_le (s : Paging) : s.freeCount ≤ frameCount := by
  unfold Paging.freeCount
  apply le_trans (Finset.card_filter_le _ _)
  rw [Finset.card_range]

section Block

variable {kind : Nat → Kind} {s : Paging} {limit size : Nat}

/-- What a call returns: the linear address of the lowest free frame. -/
theorem kmalloc_linear (owned : Owned kind s)
    (rooted : kind (kernelFrame s.cr3) = .pml4)
    (linear : LinearMap limit s) (positive : 0 < size)
    (enough : numPage size ≤ s.freeCount) :
    ∃ first next, getFirstpage s.freeMap = some first ∧
      kmalloc size s =
        .ok ((linearAddr first, s.takenFrames (numPage size)), next) ∧
        LinearMap limit next ∧
          ∀ frame ∈ s.takenFrames (numPage size),
            s.isFree frame = true ∧ next.isFree frame = false ∧
              next.mem frame = fun _ => 0 := by
  obtain ⟨changed, next, returned, -, linearNext, frames⟩ :=
    kmallocPages_linear owned rooted linear enough
  have pages := numPage_natCast size
  obtain ⟨more, count⟩ : ∃ more, numPage size = more + 1 :=
    ⟨numPage size - 1, by omega⟩
  have nonempty : s.freeCount ≠ 0 := by omega
  obtain ⟨first, found⟩ := Option.ne_none_iff_exists'.mp fun none =>
    nonempty (getFirstpage_eq_none_iff.mp none)
  refine ⟨first, next, found, ?_, linearNext, frames⟩
  unfold kmalloc
  rw [bind_of_ok returned, count, takenFrames_succ found]
  rfl

/-- A page of the linear map, as the kernel accesses it. -/
theorem translate_linear {next : Paging} {first i : Nat}
    (small : first + i / 4096 < 524288) :
    next.translate ptPR (linearAddr first + BitVec.ofNat 64 i) =
      linearEntry next (first + i / 4096) := by
  rw [Paging.translate, mmuWalk_ptPR_eq_lookup, pageOf_block small]
  rfl

/-- A block is owned exactly when the lowest free frames lie side by side. -/
theorem returnsOwnedBlock_iff (owned : Owned kind s)
    (rooted : kind (kernelFrame s.cr3) = .pml4)
    (linear : LinearMap limit s) (positive : 0 < size)
    (enough : numPage size ≤ s.freeCount) :
    ReturnsOwnedBlock s size ↔ LowestContiguous s (numPage size) := by
  obtain ⟨first, next, found, returned, linearNext, frames⟩ :=
    kmalloc_linear owned rooted linear positive enough
  have pages := numPage_natCast size
  have atMost := freeCount_le s
  have firstSmall := Paging.lt_of_isFree (isFree_of_getFirstpage found)
  unfold frameCount at atMost firstSmall
  have lowest : ∀ frame, s.isFree frame = true → first ≤ frame :=
    fun frame => le_of_getFirstpage found
  constructor
  · rintro ⟨addr, block, after, again, owns⟩
    rw [returned] at again
    cases again
    refine ⟨first, found, fun j below => ?_⟩
    obtain ⟨entry, reached, free, -, -⟩ := owns (j * 4096) (by omega)
    have index : j * 4096 / 4096 = j := Nat.mul_div_cancel j (by decide)
    have small : first + j < 524288 := by omega
    rw [translate_linear (by rw [index]; exact small), index] at reached
    by_cases inside : first + j < limit
    · obtain ⟨known, isKnown, points⟩ := linearNext.mapped _ inside
      rw [reached] at isKnown
      cases isKnown
      rwa [points] at free
    · have none := linearNext.only (first + j) small (Nat.not_lt.mp inside)
      rw [reached] at none
      cases none
  · rintro ⟨again, sameFirst, contiguous⟩
    rw [found] at sameFirst
    cases sameFirst
    have inOrder := takenFrames_eq_range lowest contiguous
    refine ⟨_, _, next, returned, fun i below => ?_⟩
    have page : i / 4096 < numPage size := by omega
    have small : first + i / 4096 < 524288 := by omega
    have member : first + i / 4096 ∈ s.takenFrames (numPage size) := by
      rw [inOrder, List.mem_range'_1]
      omega
    obtain ⟨free, used, zero⟩ := frames _ member
    obtain ⟨entry, mapped, points⟩ :=
      linearNext.mapped _ (linear.free _ free)
    refine ⟨entry, ?_, ?_, ?_, ?_⟩
    · rw [translate_linear small, mapped]
    · rw [points]
      exact free
    · rw [points]
      exact used
    · rw [points, zero]
      exact Page.byteAt_zero _

end Block

/-! ### Two megabytes -/

/-- Two megabytes in the linear map, with one word of `free_map` given. -/
def linearPaging (free : Word) : Paging where
  mem := fun frame index =>
    if frame = 16 ∧ index = 511 then entryOf 17 (ptPR ||| ptWR)
    else if frame = 17 ∧ index = 510 then entryOf 18 (ptPR ||| ptWR)
    else if frame = 18 ∧ index = 0 then entryOf 19 (ptPR ||| ptWR)
    else if frame = 19 then entryOf index.val (ptPR ||| ptWR)
    else 0
  freeMap := fun index => if index = 1 then free else 0
  cr3 := pageAddr 16

def linearKind (frame : Nat) : Kind :=
  if frame = 16 then .pml4
  else if frame = 17 then .kernelTable 1
  else if frame = 18 then .kernelTable 2
  else if frame = 19 then .kernelTable 3
  else if frame / 64 = 1 then .free
  else .held

theorem word_of_isFree_linearPaging {free : Word} {frame : Nat}
    (isFree : (linearPaging free).isFree frame = true) : frame / 64 = 1 := by
  by_contra other
  simp [Paging.isFree, linearPaging, other] at isFree

theorem owned_linearPaging (free : Word) :
    Owned linearKind (linearPaging free) where
  entries := by
    intro owner index
    by_cases isRoot : owner = 16
    · subst isRoot
      by_cases last : index = 511
      · subst last
        exact (below_entryOf (by decide) (by decide) rfl :
          Below linearKind (entryOf 17 (ptPR ||| ptWR))
            fun below => below = .kernelTable 1)
      · have zero : (linearPaging free).mem 16 index = 0 := by
          simp [linearPaging, last]
        rw [zero]
        exact entryOk_zero
    · by_cases isPdpt : owner = 17
      · subst isPdpt
        by_cases here : index = 510
        · subst here
          exact (below_entryOf (by decide) (by decide) rfl :
            Below linearKind (entryOf 18 (ptPR ||| ptWR))
              fun below => below = .kernelTable 2)
        · have zero : (linearPaging free).mem 17 index = 0 := by
            simp [linearPaging, here]
          rw [zero]
          exact entryOk_zero
      · by_cases isPd : owner = 18
        · subst isPd
          by_cases here : index = 0
          · subst here
            exact (below_entryOf (by decide) (by decide) rfl :
              Below linearKind (entryOf 19 (ptPR ||| ptWR))
                fun below => below = .kernelTable 3)
          · have zero : (linearPaging free).mem 18 index = 0 := by
              simp [linearPaging, here]
            rw [zero]
            exact entryOk_zero
        · by_cases isPt : owner = 19
          · subst isPt
            trivial
          · apply entryOk_of_not_isTable
            unfold linearKind
            rw [if_neg isRoot, if_neg isPdpt, if_neg isPd, if_neg isPt]
            split <;> exact fun isTable => isTable
  free := by
    intro frame isFree
    have word := word_of_isFree_linearPaging isFree
    unfold linearKind
    rw [if_neg (by omega), if_neg (by omega), if_neg (by omega),
      if_neg (by omega), if_pos word]

theorem linearAddr_injective {frame other : Nat} (small : frame < frameCount)
    (otherSmall : other < frameCount)
    (same : linearAddr frame = linearAddr other) : frame = other := by
  have address := congrArg BitVec.toNat same
  unfold frameCount at small otherSmall
  rw [toNat_linearAddr (by omega), toNat_linearAddr (by omega)] at address
  omega

/-- The tables of a frame of the two megabytes. -/
theorem linearEntry_linearPaging (free : Word) {frame : Nat}
    (small : frame < 524288) :
    linearEntry (linearPaging free) frame =
      if frame < 512 then some (entryOf frame (ptPR ||| ptWR)) else none := by
  have ptVal := val_ptIndex_linearAddr small
  have pdVal := val_pdIndex_linearAddr small
  have pdptVal := val_pdptIndex_linearAddr small
  have toPdpt : childOf ((linearPaging free).mem 16 511) = some 17 :=
    show childOf (entryOf 17 (ptPR ||| ptWR)) = some 17 by decide
  have toPd : childOf ((linearPaging free).mem 17 510) = some 18 :=
    show childOf (entryOf 18 (ptPR ||| ptWR)) = some 18 by decide
  have toPt : childOf ((linearPaging free).mem 18 0) = some 19 :=
    show childOf (entryOf 19 (ptPR ||| ptWR)) = some 19 by decide
  have nothing : childOf (0 : Word) = none := by
    decide
  have root : kernelFrame (linearPaging free).cr3 = 16 :=
    show kernelFrame (pageAddr 16) = 16 by decide
  rw [linearEntry_eq, linearTable, linearPath, root, List.cons_append,
    tableAt_cons, List.cons_append, tableAt_cons, List.nil_append,
    tableAt_cons_of_eq_some rfl, toPdpt, Option.bind_some]
  by_cases low : frame < 262144
  · have isPdpt : pdptIndex (linearAddr frame) = 510 := by
      apply Fin.ext
      rw [pdptVal]
      omega
    rw [isPdpt, toPd, Option.bind_some]
    by_cases first : frame < 512
    · have isPd : pdIndex (linearAddr frame) = 0 := by
        apply Fin.ext
        rw [pdVal]
        omega
      have leaf : (linearPaging free).mem 19 (ptIndex (linearAddr frame)) =
          entryOf frame (ptPR ||| ptWR) := by
        have value : (ptIndex (linearAddr frame)).val = frame := by omega
        simp [linearPaging, value]
      have present : hasFlag (entryOf frame (ptPR ||| ptWR)) ptPR =
          true := by
        rw [hasFlag_entryOf _ _ (by decide)]
        decide
      rw [isPd, toPt, Option.bind_some, leaf, if_pos present, if_pos first]
    · have other : pdIndex (linearAddr frame) ≠ 0 := by
        intro same
        rw [same] at pdVal
        change 0 = frame / 512 % 512 at pdVal
        omega
      have absent : (linearPaging free).mem 18 (pdIndex (linearAddr frame)) =
          0 := by
        simp [linearPaging, other]
      rw [absent, nothing, if_neg first]
      rfl
  · have other : pdptIndex (linearAddr frame) ≠ 510 := by
      intro same
      rw [same] at pdptVal
      change 510 = 510 + frame / 262144 at pdptVal
      omega
    have absent : (linearPaging free).mem 17 (pdptIndex (linearAddr frame)) =
        0 := by
      simp [linearPaging, other]
    rw [absent, nothing, if_neg (by omega)]
    rfl

theorem linearMap_linearPaging (free : Word) :
    LinearMap 512 (linearPaging free) where
  mapped := by
    intro frame below
    refine ⟨entryOf frame (ptPR ||| ptWR), ?_, ?_⟩
    · rw [linearEntry_linearPaging free (by omega), if_pos below]
    · exact frameOf_of_removeFlag (by omega)
        (removeFlag_entryOf frame (by decide))
  only := by
    intro frame small above
    rw [linearEntry_linearPaging free small, if_neg (by omega)]
  free := by
    intro frame isFree
    have word := word_of_isFree_linearPaging isFree
    omega

/-- Frames 64 and 65 are free. -/
theorem returnsOwnedBlock_pair : ReturnsOwnedBlock (linearPaging 3) 6000 := by
  apply (returnsOwnedBlock_iff (owned_linearPaging 3) (by decide)
    (linearMap_linearPaging 3) (by decide) ?_).mpr
  · refine ⟨64, by decide +kernel, ?_⟩
    decide +kernel
  · exact @card_le_freeCount (linearPaging 3) {64, 65} (by decide)

/-- With frames 64 and 66 free, a control block is not its own memory. -/
theorem not_returnsOwnedBlock_gap :
    numPage 6000 ≤ (linearPaging 5).freeCount ∧
      ¬ ReturnsOwnedBlock (linearPaging 5) 6000 := by
  have enough : numPage ((6000 : Nat) : Int) ≤ (linearPaging 5).freeCount :=
    @card_le_freeCount (linearPaging 5) {64, 66} (by decide)
  refine ⟨enough, ?_⟩
  obtain ⟨first, next, found, returned, linearNext, -⟩ :=
    kmalloc_linear (owned_linearPaging 5) (by decide)
      (linearMap_linearPaging 5) (show 0 < 6000 by decide) enough
  have isFirst : first = 64 := by
    have lowest : getFirstpage (linearPaging 5).freeMap = some 64 := by
      decide +kernel
    exact Option.some.inj (found.symm.trans lowest)
  subst isFirst
  rintro ⟨addr, block, after, again, owns⟩
  rw [returned] at again
  cases again
  obtain ⟨entry, reached, free, -, -⟩ := owns 4096 (by decide)
  rw [translate_linear (by decide)] at reached
  obtain ⟨known, isKnown, points⟩ := linearNext.mapped 65 (by decide)
  cases isKnown.symm.trans reached
  rw [points] at free
  exact absurd free (by decide)

end SbuUnix
