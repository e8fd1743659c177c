import SbuUnix.Paging.Mapping

/-!
# Walks of the kernel and of the processor

`virt_to_phys` and the processor both walk the tables CR3 selects.  On
addresses of the user half of an owned state the two walks find what the
lookup of the page finds; the upper tables never restrict access.
-/

namespace SbuUnix

open TableForest

/-- The rights a load of a process needs, at every level of the walk. -/
def userLoad : Word := ptPR ||| ptU

/-- The rights a store of a process needs, at every level of the walk. -/
def userStore : Word := ptPR ||| ptWR ||| ptU

/-! ## Pages of addresses -/

theorem tableIndex_removeFlag {offset : Nat} (above : 12 ≤ offset)
    (vAddress : Word) :
    tableIndex offset (removeFlag vAddress) = tableIndex offset vAddress := by
  have mask :
      (0xFFFFFFFFFFFFF000 : Word) = BitVec.allOnes 64 <<< 12 := by decide
  have same : removeFlag vAddress >>> offset = vAddress >>> offset := by
    apply BitVec.eq_of_getLsbD_eq
    intro bit _
    rw [removeFlag, mask]
    simp only [BitVec.getLsbD_ushiftRight, BitVec.getLsbD_and,
      BitVec.getLsbD_shiftLeft, BitVec.getLsbD_allOnes]
    by_cases inside : offset + bit < 64
    · have low : ¬ offset + bit < 12 := by omega
      have high : offset + bit - 12 < 64 := by omega
      simp [inside, low, high]
    · simp [inside, BitVec.getLsbD_of_ge vAddress _ (Nat.not_lt.mp inside)]
  rw [tableIndex, same, tableIndex]

/-- The handler rounds the faulting address down; the page is the same. -/
theorem pageOf_removeFlag (vAddress : Word) :
    pageOf (removeFlag vAddress) = pageOf vAddress := by
  simp only [pageOf, ptIndex, pdIndex, pdptIndex, pml4Index,
    tableIndex_removeFlag (show 12 ≤ 12 by decide),
    tableIndex_removeFlag (show 12 ≤ 21 by decide),
    tableIndex_removeFlag (show 12 ≤ 30 by decide),
    tableIndex_removeFlag (show 12 ≤ 39 by decide)]

theorem ownedPath_pageOf {vAddress : Word}
    (userHalf : pml4Index vAddress ≠ 511) :
    OwnedPath ownedIndex (pageOf vAddress) :=
  ⟨⟨⟨⟨trivial, fun _ => userHalf⟩,
    fun root => absurd root (Nat.succ_ne_zero _)⟩,
    fun root => absurd root (Nat.succ_ne_zero _)⟩,
    fun root => absurd root (Nat.succ_ne_zero _)⟩

theorem removeFlag_removeFlag (vAddress : Word) :
    removeFlag (removeFlag vAddress) = removeFlag vAddress := by
  rw [removeFlag, removeFlag, BitVec.and_assoc, BitVec.and_self]

/-! ## Rights -/

theorem hasFlag_twoPow_iff (entry : Word) {bit : Nat} (inside : bit < 64) :
    hasFlag entry (BitVec.twoPow 64 bit) = true ↔
      entry &&& BitVec.twoPow 64 bit = BitVec.twoPow 64 bit := by
  have nonzero : BitVec.twoPow 64 bit ≠ 0 := by
    intro zero
    have set : (BitVec.twoPow 64 bit).getLsbD bit = true := by
      simp [inside]
    rw [zero] at set
    simp at set
  unfold hasFlag
  rw [BitVec.and_twoPow]
  split
  · simpa using nonzero
  · simpa using nonzero.symm

theorem hasFlag_ptPR_iff (entry : Word) :
    hasFlag entry ptPR = true ↔ entry &&& ptPR = ptPR :=
  hasFlag_twoPow_iff entry (show 0 < 64 by decide)

theorem hasFlag_ptWR_iff (entry : Word) :
    hasFlag entry ptWR = true ↔ entry &&& ptWR = ptWR :=
  hasFlag_twoPow_iff entry (show 1 < 64 by decide)

theorem hasFlag_ptU_iff (entry : Word) :
    hasFlag entry ptU = true ↔ entry &&& ptU = ptU :=
  hasFlag_twoPow_iff entry (show 2 < 64 by decide)

/-- An entry has the rights of two masks when it has those of their union. -/
theorem and_or_eq_iff (entry first second : Word) :
    entry &&& (first ||| second) = first ||| second ↔
      entry &&& first = first ∧ entry &&& second = second := by
  constructor
  · intro both
    constructor <;>
    · apply BitVec.eq_of_getLsbD_eq
      intro bit _
      have here := congrArg (fun word => word.getLsbD bit) both
      simp only [BitVec.getLsbD_and, BitVec.getLsbD_or] at here ⊢
      revert here
      cases entry.getLsbD bit <;> cases first.getLsbD bit <;>
        cases second.getLsbD bit <;> decide
  · rintro ⟨hasFirst, hasSecond⟩
    have distributed :
        entry &&& (first ||| second) =
          (entry &&& first) ||| (entry &&& second) := by
      apply BitVec.eq_of_getLsbD_eq
      intro bit _
      simp only [BitVec.getLsbD_and, BitVec.getLsbD_or,
        Bool.and_or_distrib_left]
    rw [distributed, hasFirst, hasSecond]

theorem userLoad_iff (entry : Word) :
    entry &&& userLoad = userLoad ↔
      hasFlag entry ptPR = true ∧ hasFlag entry ptU = true := by
  rw [userLoad, and_or_eq_iff, hasFlag_ptPR_iff, hasFlag_ptU_iff]

theorem userStore_iff (entry : Word) :
    entry &&& userStore = userStore ↔
      hasFlag entry ptPR = true ∧ hasFlag entry ptWR = true ∧
        hasFlag entry ptU = true := by
  rw [userStore, and_or_eq_iff, and_or_eq_iff, hasFlag_ptPR_iff,
    hasFlag_ptWR_iff, hasFlag_ptU_iff, and_assoc]

/-! ## Walks -/

section Walks

variable {kind : Nat → Kind} {s : Paging} {vAddress : Word}

/-- `virt_to_phys` classifies the entry that the lookup finds. -/
theorem virtToPhys_eq (s : Paging) (vAddress : Word) :
    virtToPhys s vAddress =
      match lookup childOf s.mem (kernelFrame s.cr3) (pageOf vAddress) with
      | none => 0
      | some entry =>
          if hasFlag entry ptCow then removeFlag entry else 999 := by
  simp only [virtToPhys, pageOf, lookup, tableAt, childOf,
    Option.bind_some]
  split
  · simp only [Option.bind_some]
    split
    · simp only [Option.bind_some]
      split
      · simp only [Option.bind_some]
        generalize s.mem _ (ptIndex vAddress) = entry
        by_cases present : hasFlag entry ptPR = true <;>
          by_cases cow : hasFlag entry ptCow = true <;>
            simp [present, cow]
      · rfl
    · rfl
  · rfl

/-- A walk in the user half with rights that every table grants finds the
leaf entry, if that one grants them too. -/
theorem Owned.mmuWalk_eq (owned : Owned kind s) {need : Word} {root : Nat}
    (rooted : kind root = .pml4) (userHalf : pml4Index vAddress ≠ 511)
    (needsPresent : ∀ entry : Word, entry &&& need = need →
      hasFlag entry ptPR = true)
    (granted : ∀ entry, UserTable entry → hasFlag entry ptPR = true →
      entry &&& need = need) :
    mmuWalk s.mem need root (pageOf vAddress).reverse =
      (lookup childOf s.mem root (pageOf vAddress)).filter
        fun entry => decide (entry &&& need = need) := by
  -- One level: the walk goes on exactly when the entry points to a table.
  have level :
      ∀ (table depth : Nat) (index : Fin 512),
        (kind table).depth = some depth → depth < 3 →
          ownedIndex depth index →
            (hasFlag (s.mem table index) ptPR = false ∧
              ¬ s.mem table index &&& need = need) ∨
            (hasFlag (s.mem table index) ptPR = true ∧
              s.mem table index &&& need = need ∧
              (kind (frameOf (s.mem table index))).depth =
                some (depth + 1)) := by
    intro table depth index tableDepth inner permitted
    cases present : hasFlag (s.mem table index) ptPR with
    | false =>
        refine Or.inl ⟨rfl, fun grants => ?_⟩
        rw [needsPresent _ grants] at present
        cases present
    | true =>
        obtain ⟨target, small, address, user, targetKind⟩ :=
          owned.below_inner tableDepth inner permitted present
        refine Or.inr ⟨rfl, granted _ user present, ?_⟩
        rw [Owned.eq_frameOf small address, targetKind]
        rfl
  have first :=
    level root 0 (pml4Index vAddress) (Kind.depth_root rooted) (by decide)
      fun _ => userHalf
  simp only [pageOf, List.reverse_cons, List.reverse_nil, List.nil_append,
    List.cons_append, mmuWalk, lookup, tableAt, Option.bind_some]
  rcases first with ⟨absent, refused⟩ | ⟨present, passes, depth⟩
  · rw [if_neg refused, childOf_eq_none_iff.mpr absent]
    rfl
  rw [if_pos passes, childOf_eq_some_iff.mpr ⟨present, rfl⟩]
  have second :=
    level _ _ (pdptIndex vAddress) depth (by decide)
      fun root => absurd root (by decide)
  simp only [Option.bind_some]
  rcases second with ⟨absent, refused⟩ | ⟨present, passes, depth⟩
  · rw [if_neg refused, childOf_eq_none_iff.mpr absent]
    rfl
  rw [if_pos passes, childOf_eq_some_iff.mpr ⟨present, rfl⟩]
  have third :=
    level _ _ (pdIndex vAddress) depth (by decide)
      fun root => absurd root (by decide)
  simp only [Option.bind_some]
  rcases third with ⟨absent, refused⟩ | ⟨present, passes, _⟩
  · rw [if_neg refused, childOf_eq_none_iff.mpr absent]
    rfl
  rw [if_pos passes, childOf_eq_some_iff.mpr ⟨present, rfl⟩]
  simp only [Option.bind_some, childOf_isSome]
  generalize s.mem _ (ptIndex vAddress) = entry
  by_cases grants : entry &&& need = need
  · simp [grants, needsPresent entry grants, Option.filter_some]
  · by_cases present : hasFlag entry ptPR = true <;>
      simp [grants, present, Option.filter_some]

/-- The entry that a lookup finds maps a page of its own or a shared one. -/
theorem Owned.leaf_of_lookup (owned : Owned kind s) {root : Nat}
    {index : Fin 512} {path : List (Fin 512)} {entry : Word}
    (rooted : kind root = .pml4)
    (legal : OwnedPath ownedIndex (index :: path)) (full : path.length = 3)
    (found : lookup childOf s.mem root (index :: path) = some entry) :
    hasFlag entry ptPR = true ∧ frameOf entry < frameCount ∧
      removeFlag entry = pageAddr (frameOf entry) ∧
      ∃ pt, tableAt childOf s.mem root path = some pt ∧
        s.mem pt index = entry ∧
        (∃ parent position, kind pt = .table 3 parent position) ∧
        (PrivateLeaf entry ∧ kind (frameOf entry) = .page pt index ∨
          SharedLeaf entry ∧ kind (frameOf entry) = .shared) := by
  obtain ⟨pt, reached, same, present⟩ := lookup_eq_some_iff.mp found
  rw [childOf_isSome] at present
  have depth :=
    owned.hung.depth_tableAt (Kind.depth_root rooted) legal.1
      (Nat.le_of_eq full) reached
  rw [full] at depth
  obtain ⟨parent, position, known⟩ := Kind.eq_table_of_depth depth
  rw [← same] at present
  obtain ⟨target, small, address, leaf⟩ := owned.below_leaf known present
  rw [same] at present address leaf
  rw [Owned.eq_frameOf small address]
  exact ⟨present, small, address, pt, reached, same, ⟨parent, position, known⟩,
    leaf⟩

/-- The frame of a user page is in use and is no table. -/
theorem Owned.used_of_lookup (owned : Owned kind s) {root : Nat}
    {path : List (Fin 512)} {entry : Word} (rooted : kind root = .pml4)
    (legal : OwnedPath ownedIndex path) (full : path.length = 4)
    (found : lookup childOf s.mem root path = some entry) :
    s.isFree (frameOf entry) = false ∧
      ¬ (kind (frameOf entry)).IsTable := by
  match path, full with
  | index :: path, full =>
      obtain ⟨_, _, _, pt, _, _, _, leaf⟩ :=
        owned.leaf_of_lookup rooted legal (Nat.succ.inj full) found
      rcases leaf with ⟨_, known⟩ | ⟨_, known⟩
      · rw [known]
        exact ⟨owned.used_of_kind (by rw [known]; exact Kind.noConfusion),
          fun isTable => isTable⟩
      · rw [known]
        exact ⟨owned.used_of_kind (by rw [known]; exact Kind.noConfusion),
          fun isTable => isTable⟩

end Walks

end SbuUnix
