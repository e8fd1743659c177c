import SbuUnix.Paging.Blocks
import SbuUnix.Paging.ForkRefinement
import SbuUnix.Paging.FrameOwnership

/-!
# Freeing the areas of an address space

`free_vma` calls `free_page` for every 4096th address of an area from
`vm_start` on, and `free_page` gives back a private page with a frame below a
limit.  A page of an area keeps its mapping when no pass lands in it or its
frame lies above the limit.
-/

namespace SbuUnix

open TableForest Outcome

/-! ## What one call frees -/

/-- An entry whose page `free_page` gives back. -/
structure Freeable (entry : Word) : Prop where
  notCow : hasFlag entry ptCow = false
  low : entry < freeLimit

/-- A page of the user half. -/
def UserPath (path : List (Fin 512)) : Prop :=
  OwnedPath ownedIndex path ∧ path.length = 4

/-- The pages that are hit lose their mapping where they may, and their frames
go to the free map; nothing else is unmapped or freed. -/
structure Frees (kind : Nat → Kind) (s : Paging) (changed : Nat → Kind)
    (next : Paging) (root : Nat) (hit : List (Fin 512) → Prop) : Prop where
  owned : Owned changed next
  roots : ∀ other, kind other = .pml4 → changed other = .pml4
  gone : ∀ path entry, UserPath path → hit path →
    lookup childOf s.mem root path = some entry → Freeable entry →
      lookup childOf next.mem root path = none
  kept : ∀ other path, kind other = .pml4 → UserPath path →
    (other = root → hit path → ∀ entry,
      lookup childOf s.mem root path = some entry → ¬ Freeable entry) →
      lookup childOf next.mem other path = lookup childOf s.mem other path
  free : ∀ frame, next.isFree frame = true ↔ s.isFree frame = true ∨
    ∃ path entry, UserPath path ∧ hit path ∧
      lookup childOf s.mem root path = some entry ∧ Freeable entry ∧
        frameOf entry = frame

section Frees

variable {kind changed final : Nat → Kind} {s next last : Paging}
  {root : Nat} {hit later : List (Fin 512) → Prop}

/-- Nothing is freed when nothing that is hit may be freed. -/
theorem Frees.refl (owned : Owned kind s)
    (none : ∀ path entry, UserPath path → hit path →
      lookup childOf s.mem root path = some entry → ¬ Freeable entry) :
    Frees kind s kind s root hit where
  owned := owned
  roots := fun _ rooted => rooted
  gone := fun path entry user isHit found freeable =>
    absurd freeable (none path entry user isHit found)
  kept := fun _ _ _ _ _ => rfl
  free := by
    intro frame
    constructor
    · exact Or.inl
    · rintro (already | ⟨path, entry, user, isHit, found, freeable, _⟩)
      · exact already
      · exact absurd freeable (none path entry user isHit found)

/-- What is still mapped was mapped before. -/
theorem Frees.lookup_before (frees : Frees kind s changed next root hit)
    (rooted : kind root = .pml4) {path : List (Fin 512)} {entry : Word}
    (user : UserPath path)
    (found : lookup childOf next.mem root path = some entry) :
    lookup childOf s.mem root path = some entry := by
  by_cases taken : hit path ∧ ∃ old,
      lookup childOf s.mem root path = some old ∧ Freeable old
  · obtain ⟨isHit, old, was, freeable⟩ := taken
    rw [frees.gone path old user isHit was freeable] at found
    cases found
  · rw [← frees.kept root path rooted user]
    · exact found
    · exact fun _ isHit old was freeable =>
        taken ⟨isHit, old, was, freeable⟩

theorem Frees.trans (first : Frees kind s changed next root hit)
    (second : Frees changed next final last root later)
    (rooted : kind root = .pml4) :
    Frees kind s final last root fun path => hit path ∨ later path where
  owned := second.owned
  roots := fun other isRoot => second.roots other (first.roots other isRoot)
  gone := by
    intro path entry user isHit found freeable
    have rootedNow := first.roots root rooted
    by_cases here : hit path
    · have gone := first.gone path entry user here found freeable
      rw [second.kept root path rootedNow user, gone]
      intro _ _ old was
      rw [gone] at was
      cases was
    · have isLater := isHit.resolve_left here
      refine second.gone path entry user isLater ?_ freeable
      rw [first.kept root path rooted user fun _ isHit => absurd isHit here]
      exact found
  kept := by
    intro other path isRoot user spared
    have same := first.kept other path isRoot user
      fun isOther here => spared isOther (Or.inl here)
    rw [second.kept other path (first.roots other isRoot) user, same]
    intro isOther isLater entry found
    subst isOther
    rw [same] at found
    exact spared rfl (Or.inr isLater) entry found
  free := by
    intro frame
    rw [second.free, first.free]
    constructor
    · rintro ((already | ⟨path, entry, user, isHit, found, freeable, same⟩) |
        ⟨path, entry, user, isLater, found, freeable, same⟩)
      · exact Or.inl already
      · exact Or.inr ⟨path, entry, user, Or.inl isHit, found, freeable, same⟩
      · exact Or.inr ⟨path, entry, user, Or.inr isLater,
          first.lookup_before rooted user found, freeable, same⟩
    · rintro (already | ⟨path, entry, user, isHit, found, freeable, same⟩)
      · exact Or.inl (Or.inl already)
      · by_cases here : hit path
        · exact Or.inl (Or.inr
            ⟨path, entry, user, here, found, freeable, same⟩)
        · refine Or.inr
            ⟨path, entry, user, isHit.resolve_left here, ?_, freeable, same⟩
          rw [first.kept root path rooted user fun _ isHit =>
            absurd isHit here]
          exact found

end Frees

section Calls

variable {kind : Nat → Kind} {s : Paging} {allowed : Fault → Prop}

/-- An entry that `free_page` does not follow is absent. -/
theorem Owned.absent_of_refused (owned : Owned kind s) {table level : Nat}
    {index : Fin 512} (depth : (kind table).depth = some level)
    (inner : level < 3) (permitted : ownedIndex level index)
    (refused : ¬ (hasFlag (s.mem table index) ptPR &&
      !hasFlag (s.mem table index) ptCow) = true) :
    childOf (s.mem table index) = none := by
  apply childOf_eq_none_iff.mpr
  cases present : hasFlag (s.mem table index) ptPR with
  | false => rfl
  | true =>
      obtain ⟨_, _, _, entry, _⟩ :=
        owned.below_inner depth inner permitted present
      rw [present, entry.notCow] at refused
      exact absurd rfl refused

/-- A private page of a low frame goes back. -/
theorem Frees.leaf (owned : Owned kind s) {root pt : Nat} {index : Fin 512}
    {path : List (Fin 512)} (rooted : kind root = .pml4)
    (user : UserPath (index :: path))
    (reached : tableAt childOf s.mem root path = some pt)
    (present : hasFlag (s.mem pt index) ptPR = true)
    (freeable : Freeable (s.mem pt index)) :
    Frees kind s (setKind kind (frameOf (s.mem pt index)) .free)
      (s.freeLeaf pt index (frameOf (s.mem pt index))) root
      fun other => other = index :: path := by
  have length : path.length = 3 := Nat.succ.inj user.2
  have isEntry : lookup childOf s.mem root (index :: path) =
      some (s.mem pt index) := by
    rw [lookup_cons_of_eq_some reached, childOf_isSome, if_pos present]
  obtain ⟨_, small, _, found, foundReached, _, _, leaf⟩ :=
    owned.leaf_of_lookup rooted user.1 length isEntry
  have isPt : found = pt :=
    Option.some.inj (foundReached.symm.trans reached)
  subst isPt
  have pageKind : kind (frameOf (s.mem found index)) = .page found index := by
    rcases leaf with ⟨_, known⟩ | ⟨isShared, _⟩
    · exact known
    · have cow := isShared.cow
      rw [freeable.notCow] at cow
      cases cow
  have lookups : ∀ other walk, kind other = .pml4 → UserPath walk →
      lookup childOf
          (s.freeLeaf found index (frameOf (s.mem found index))).mem other
          walk =
        if other = root ∧ walk = index :: path then none
        else lookup childOf s.mem other walk := by
    intro other walk isRoot userWalk
    have cleared : Owned kind (s.writeWord found index 0) :=
      owned.writeWord entryOk_zero
    have same : lookup childOf
        (s.freeLeaf found index (frameOf (s.mem found index))).mem other
          walk = lookup childOf (s.writeWord found index 0).mem other walk := by
      apply cleared.hung.lookup_congr (Kind.depth_root isRoot) userWalk.1
        (Nat.le_of_eq userWalk.2)
      intro table level place depth _ _
      have different : table ≠ frameOf (s.mem found index) := by
        rintro rfl
        rw [pageKind] at depth
        cases depth
      unfold Paging.freeLeaf
      rw [Paging.writePage_of_ne different]
      rfl
    rw [same, owned.lookup_setLeaf index 0 rooted user.1.1 length reached
      isRoot userWalk.1 userWalk.2, childOf_isSome]
    rfl
  constructor
  · exact owned.freeLeaf pageKind
  · intro other isRoot
    rw [setKind_of_ne, isRoot]
    rintro rfl
    rw [pageKind] at isRoot
    cases isRoot
  · intro walk entry userWalk here _ _
    rw [lookups root walk rooted userWalk, if_pos ⟨rfl, here⟩]
  · intro other walk isRoot userWalk spared
    rw [lookups other walk isRoot userWalk, if_neg]
    rintro ⟨rfl, rfl⟩
    exact spared rfl rfl _ isEntry freeable
  · intro frame
    rw [isFree_freeLeaf]
    constructor
    · rintro (already | ⟨same, _⟩)
      · exact Or.inl already
      · exact Or.inr
          ⟨index :: path, _, user, rfl, isEntry, freeable, same.symm⟩
    · rintro (already | ⟨walk, entry, _, rfl, isFound, _, same⟩)
      · exact Or.inl already
      · rw [isEntry] at isFound
        cases isFound
        exact Or.inr ⟨same.symm, same ▸ small⟩

theorem yields_freePage_frees {vAddress cr3Addr : Word}
    (owned : Owned kind s) (rooted : kind (kernelFrame cr3Addr) = .pml4)
    (userHalf : pml4Index vAddress ≠ 511) :
    Yields allowed (freePage vAddress cr3Addr) s fun _ next => ∃ changed,
      Frees kind s changed next (kernelFrame cr3Addr)
        fun path => path = pageOf vAddress := by
  have userHalfPage : pml4Index (removeFlag vAddress) ≠ 511 := by
    rw [pml4Index, tableIndex_removeFlag (by decide)]
    exact userHalf
  have unmapped : ∀ deeper path : List (Fin 512),
      tableAt childOf s.mem (kernelFrame cr3Addr) path = none →
        pageOf (removeFlag vAddress) = deeper ++ path → deeper ≠ [] →
          ∃ changed, Frees kind s changed s (kernelFrame cr3Addr)
            fun path => path = pageOf (removeFlag vAddress) := by
    intro deeper path broken parts proper
    refine ⟨kind, Frees.refl owned ?_⟩
    rintro _ entry _ rfl found
    rw [parts, lookup_append_of_eq_none broken proper] at found
    cases found
  rw [← pageOf_removeFlag]
  rw [freePage, yields_bind, yields_get]
  dsimp only
  have rootDepth : (kind (kernelFrame cr3Addr)).depth = some 0 := by
    rw [rooted]
    rfl
  rw [yields_ite]
  refine ⟨fun inside => ?_, fun refused => ?_⟩
  · simp only [Bool.and_eq_true] at inside
    obtain ⟨pdpt, pdptSmall, pdptAddress, _, pdptKind⟩ :=
      owned.below_inner rootDepth (by decide) (fun _ => userHalfPage)
        inside.1
    have pdptDepth : (kind pdpt).depth = some 1 := by
      rw [pdptKind]
      rfl
    have toPdpt : tableAt childOf s.mem (kernelFrame cr3Addr)
        [pml4Index (removeFlag vAddress)] = some pdpt :=
      childOf_eq_some_iff.mpr
        ⟨inside.1, Owned.eq_frameOf pdptSmall pdptAddress⟩
    rw [Owned.eq_frameOf pdptSmall pdptAddress, yields_ite]
    refine ⟨fun inside => ?_, fun refused => ?_⟩
    · simp only [Bool.and_eq_true] at inside
      obtain ⟨pd, pdSmall, pdAddress, _, pdKind⟩ :=
        owned.below_inner pdptDepth (by decide)
          (fun root => absurd root (by decide)) inside.1
      have pdDepth : (kind pd).depth = some 2 := by
        rw [pdKind]
        rfl
      have toPd : tableAt childOf s.mem (kernelFrame cr3Addr)
          [pdptIndex (removeFlag vAddress),
            pml4Index (removeFlag vAddress)] = some pd := by
        rw [tableAt_cons_of_eq_some toPdpt]
        exact childOf_eq_some_iff.mpr
          ⟨inside.1, Owned.eq_frameOf pdSmall pdAddress⟩
      rw [Owned.eq_frameOf pdSmall pdAddress, yields_ite]
      refine ⟨fun inside => ?_, fun refused => ?_⟩
      · simp only [Bool.and_eq_true] at inside
        obtain ⟨pt, ptSmall, ptAddress, _, ptKind⟩ :=
          owned.below_inner pdDepth (by decide)
            (fun root => absurd root (by decide)) inside.1
        have toPt : tableAt childOf s.mem (kernelFrame cr3Addr)
            [pdIndex (removeFlag vAddress), pdptIndex (removeFlag vAddress),
              pml4Index (removeFlag vAddress)] = some pt := by
          rw [tableAt_cons_of_eq_some toPd]
          exact childOf_eq_some_iff.mpr
            ⟨inside.1, Owned.eq_frameOf ptSmall ptAddress⟩
        rw [Owned.eq_frameOf ptSmall ptAddress, yields_ite]
        have user : UserPath (pageOf (removeFlag vAddress)) :=
          ⟨ownedPath_pageOf userHalfPage, rfl⟩
        refine ⟨fun inside => ?_, fun refused => ?_⟩
        · simp only [Bool.and_eq_true, Bool.not_eq_true',
            decide_eq_true_eq] at inside
          obtain ⟨⟨notCow, present⟩, low⟩ := inside
          have frees := Frees.leaf owned rooted user toPt present
            ⟨notCow, low⟩
          obtain ⟨target, small, address, _⟩ :=
            owned.below_leaf ptKind present
          have number : (removeFlag (s.mem pt
              (ptIndex (removeFlag vAddress)))).toNat / pageSize =
                target := by
            rw [address, pageAddr_toNat (lt_of_lt_frameCount small)]
            exact Nat.mul_div_cancel target (by decide)
          have insideMap : target / 64 < 256 := by
            simp only [frameCount] at small
            omega
          rw [Owned.eq_frameOf small address] at frees ⊢
          rw [number, yields_bind, setBit, if_pos insideMap, yields_modify,
            yields_bind, writeEntry, yields_modify, memsetPage,
            yields_modify]
          exact ⟨_, frees⟩
        · refine ⟨kind, Frees.refl owned ?_⟩
          rintro _ entry _ rfl found freeable
          apply refused
          obtain ⟨table, isTable, rfl, present⟩ :=
            lookup_eq_some_iff.mp found
          have isPt := Option.some.inj (isTable.symm.trans toPt)
          subst isPt
          rw [childOf_isSome] at present
          simp [present, freeable.notCow, freeable.low]
      · have absent := owned.absent_of_refused pdDepth (by decide)
          (fun root => absurd root (by decide)) refused
        exact unmapped [ptIndex (removeFlag vAddress)] _
          ((tableAt_cons_of_eq_some toPd).trans absent) rfl (by simp)
    · have absent := owned.absent_of_refused pdptDepth (by decide)
        (fun root => absurd root (by decide)) refused
      exact unmapped [ptIndex (removeFlag vAddress),
        pdIndex (removeFlag vAddress)] _
        ((tableAt_cons_of_eq_some toPdpt).trans absent) rfl (by simp)
  · have absent := owned.absent_of_refused rootDepth (by decide)
      (fun _ => userHalfPage) refused
    exact unmapped [ptIndex (removeFlag vAddress),
      pdIndex (removeFlag vAddress), pdptIndex (removeFlag vAddress)]
      [pml4Index (removeFlag vAddress)] absent rfl (by simp)

/-! ## The loops -/

/-- A pass of the loop over an area lands in a page. -/
def Passes (startAddr endAddr : Word) (path : List (Fin 512)) : Prop :=
  ∃ n : Nat, startAddr.toNat + 4096 * n < endAddr.toNat ∧
    path = pageOf (startAddr + BitVec.ofNat 64 (4096 * n))

theorem toNat_add_pages {startAddr endAddr : Word} {n : Nat}
    (inside : startAddr.toNat + 4096 * n < endAddr.toNat) :
    (startAddr + BitVec.ofNat 64 (4096 * n)).toNat =
      startAddr.toNat + 4096 * n := by
  have limit := endAddr.isLt
  rw [BitVec.toNat_add, BitVec.toNat_ofNat]
  omega

/-- The first pass, and the others. -/
theorem passes_iff {startAddr endAddr : Word} {path : List (Fin 512)}
    (inside : startAddr < endAddr)
    (room : startAddr.toNat + 4096 < 2 ^ 64) :
    Passes startAddr endAddr path ↔
      path = pageOf startAddr ∨ Passes (startAddr + 4096) endAddr path := by
  have next : (startAddr + 4096).toNat = startAddr.toNat + 4096 := by
    rw [BitVec.toNat_add]
    have page : (4096 : Word).toNat = 4096 := by decide
    omega
  have shift : ∀ n : Nat, startAddr + BitVec.ofNat 64 (4096 * (n + 1)) =
      startAddr + 4096 + BitVec.ofNat 64 (4096 * n) := by
    intro n
    rw [Nat.mul_succ, Nat.add_comm, BitVec.ofNat_add, ← BitVec.add_assoc]
    rfl
  have first : startAddr + BitVec.ofNat 64 (4096 * 0) = startAddr := by
    rw [Nat.mul_zero]
    exact BitVec.add_zero startAddr
  constructor
  · rintro ⟨n, below, rfl⟩
    cases n with
    | zero =>
        left
        rw [first]
    | succ n =>
        right
        refine ⟨n, ?_, by rw [shift]⟩
        rw [next]
        omega
  · rintro (rfl | ⟨n, below, rfl⟩)
    · refine ⟨0, ?_, by rw [first]⟩
      rw [BitVec.lt_def] at inside
      omega
    · rw [next] at below
      refine ⟨n + 1, ?_, by rw [shift]⟩
      rw [Nat.mul_succ, Nat.add_comm (4096 * n), ← Nat.add_assoc]
      exact below

theorem Frees.congr {changed : Nat → Kind} {next : Paging} {root : Nat}
    {hit other : List (Fin 512) → Prop}
    (frees : Frees kind s changed next root hit)
    (same : ∀ path, hit path ↔ other path) :
    Frees kind s changed next root other := by
  have equal : hit = other := funext fun path => propext (same path)
  exact equal ▸ frees

theorem yields_freeRange_frees {startAddr endAddr cr3Addr : Word}
    (userHalf : ∀ vAddress : Word, startAddr ≤ vAddress →
      vAddress < endAddr → pml4Index vAddress ≠ 511) (fuel : Nat) :
    ∀ {physfree : Word} {kind : Nat → Kind} {s : Paging},
      startAddr ≤ physfree → endAddr.toNat ≤ physfree.toNat + 4096 * fuel →
        Owned kind s → kind (kernelFrame cr3Addr) = .pml4 →
          Yields allowed (freeRange (fuel + 1) physfree endAddr cr3Addr) s
            fun _ next => ∃ changed,
              Frees kind s changed next (kernelFrame cr3Addr)
                (Passes physfree endAddr) := by
  induction fuel with
  | zero =>
      intro physfree kind s _ enough owned _
      have ends : ¬ physfree < endAddr := by
        rw [BitVec.lt_def]
        omega
      rw [freeRange, if_neg ends, yields_pure]
      refine ⟨kind, Frees.refl owned ?_⟩
      rintro path entry _ ⟨n, below, _⟩
      omega
  | succ fuel inductionHypothesis =>
      intro physfree kind s above enough owned rooted
      rw [freeRange]
      by_cases inside : physfree < endAddr
      · have here := userHalf physfree above inside
        have low := toNat_lt_of_userHalf here
        have page : (4096 : Word).toNat = 4096 := by decide
        have next : (physfree + 4096).toNat = physfree.toNat + 4096 := by
          rw [BitVec.toNat_add]
          omega
        rw [if_pos inside, yields_bind]
        apply (yields_freePage_frees owned rooted here).mono
        rintro _ between ⟨changed, first⟩
        refine (inductionHypothesis (by rw [BitVec.le_def] at above ⊢; omega)
          (by omega) first.owned (first.roots _ rooted)).mono ?_
        rintro _ last ⟨final, second⟩
        refine ⟨final, (first.trans second rooted).congr fun path => ?_⟩
        exact (passes_iff inside (by omega)).symm
      · rw [if_neg inside, yields_pure]
        refine ⟨kind, Frees.refl owned ?_⟩
        rintro path entry _ ⟨n, below, _⟩
        rw [BitVec.lt_def] at inside
        omega

/-- All areas of the list. -/
theorem yields_freeVma_frees {cr3Addr : Word} {fuel : Nat}
    (vmas : List Vma) :
    ∀ {kind : Nat → Kind} {s : Paging},
      (∀ vma ∈ vmas, vma.InUserHalf ∧
        vma.vmEnd.toNat ≤ vma.vmStart.toNat + 4096 * fuel) →
        Owned kind s → kind (kernelFrame cr3Addr) = .pml4 →
          Yields allowed (freeVma (fuel + 1) cr3Addr vmas) s
            fun _ next => ∃ changed,
              Frees kind s changed next (kernelFrame cr3Addr) fun path =>
                ∃ vma ∈ vmas, Passes vma.vmStart vma.vmEnd path := by
  induction vmas with
  | nil =>
      intro kind s _ owned _
      rw [freeVma, yields_pure]
      refine ⟨kind, Frees.refl owned ?_⟩
      rintro path entry _ ⟨vma, member, _⟩
      cases member
  | cons vma rest inductionHypothesis =>
      intro kind s areas owned rooted
      obtain ⟨userHalf, enough⟩ := areas vma List.mem_cons_self
      rw [freeVma, yields_bind]
      apply (yields_freeRange_frees userHalf fuel (BitVec.le_refl _) enough
        owned rooted).mono
      rintro _ between ⟨changed, first⟩
      refine (inductionHypothesis
        (fun other member => areas other (List.mem_cons_of_mem _ member))
        first.owned (first.roots _ rooted)).mono ?_
      rintro _ last ⟨final, second⟩
      refine ⟨final, (first.trans second rooted).congr fun path => ?_⟩
      simp only [List.mem_cons, exists_eq_or_imp]

end Calls

/-! ## Complete freeing -/

/-- An address in an area. -/
def Vma.Contains (vma : Vma) (vAddress : Word) : Prop :=
  vma.vmStart ≤ vAddress ∧ vAddress < vma.vmEnd

/-- What freeing a list of areas is for. -/
structure FreesAreas (vmas : List Vma) (root : Nat) (s next : Paging) :
    Prop where
  unmapped : ∀ vma ∈ vmas, ∀ v, vma.Contains v → ∀ entry,
    entryAt next root v = some entry → hasFlag entry ptCow = true
  freed : ∀ vma ∈ vmas, ∀ v, vma.Contains v → ∀ entry,
    entryAt s root v = some entry → hasFlag entry ptCow = false →
      next.isFree (frameOf entry) = true
  shared : ∀ v entry, pml4Index v ≠ 511 → entryAt s root v = some entry →
    hasFlag entry ptCow = true → entryAt next root v = some entry
  outside : ∀ v, pml4Index v ≠ 511 →
    (∀ vma ∈ vmas, ∀ w, vma.Contains w → pageOf w ≠ pageOf v) →
      entryAt next root v = entryAt s root v

/-- Every private page of an area has its frame below the limit of
`free_page`, and some pass of the loops lands in it. -/
def AllReached (vmas : List Vma) (root : Nat) (s : Paging) : Prop :=
  ∀ vma ∈ vmas, ∀ v, vma.Contains v → ∀ entry,
    entryAt s root v = some entry → hasFlag entry ptCow = false →
      entry < freeLimit ∧
        ∃ other ∈ vmas, Passes other.vmStart other.vmEnd (pageOf v)

section Complete

variable {kind changed : Nat → Kind} {s next : Paging} {root : Nat}
  {vmas : List Vma}

theorem userPath_pageOf {v : Word} (userHalf : pml4Index v ≠ 511) :
    UserPath (pageOf v) :=
  ⟨ownedPath_pageOf userHalf, rfl⟩

/-- Where a pass lands there is a byte of the area. -/
theorem exists_contains_of_passes {vma : Vma} {path : List (Fin 512)}
    (passes : Passes vma.vmStart vma.vmEnd path) :
    ∃ w, vma.Contains w ∧ pageOf w = path := by
  obtain ⟨n, below, rfl⟩ := passes
  refine ⟨_, ⟨?_, ?_⟩, rfl⟩
  · rw [BitVec.le_def, toNat_add_pages below]
    omega
  · rw [BitVec.lt_def, toNat_add_pages below]
    exact below

theorem Frees.freesAreas_iff
    (frees : Frees kind s changed next root fun path =>
      ∃ vma ∈ vmas, Passes vma.vmStart vma.vmEnd path)
    (rooted : kind root = .pml4)
    (userHalf : ∀ vma ∈ vmas, vma.InUserHalf) :
    FreesAreas vmas root s next ↔ AllReached vmas root s := by
  constructor
  · intro complete vma member v inside entry found isPrivate
    have user := userPath_pageOf (userHalf vma member v inside.1 inside.2)
    by_contra spared
    have stays : entryAt next root v = some entry := by
      rw [entryAt_eq] at found ⊢
      rw [frees.kept root _ rooted user, found]
      intro _ hit old was freeable
      rw [found] at was
      cases was
      exact spared ⟨freeable.low, hit⟩
    have cow := complete.unmapped vma member v inside entry stays
    rw [isPrivate] at cow
    cases cow
  · intro reached
    constructor
    · intro vma member v inside entry stays
      have user := userPath_pageOf (userHalf vma member v inside.1 inside.2)
      rw [entryAt_eq] at stays
      have found := frees.lookup_before rooted user stays
      cases cow : hasFlag entry ptCow with
      | true => rfl
      | false =>
          obtain ⟨low, hit⟩ := reached vma member v inside entry
            ((entryAt_eq s root v).trans found) cow
          rw [frees.gone _ entry user hit found ⟨cow, low⟩] at stays
          cases stays
    · intro vma member v inside entry found isPrivate
      have user := userPath_pageOf (userHalf vma member v inside.1 inside.2)
      obtain ⟨low, hit⟩ := reached vma member v inside entry found isPrivate
      rw [entryAt_eq] at found
      exact (frees.free _).mpr (Or.inr
        ⟨pageOf v, entry, user, hit, found, ⟨isPrivate, low⟩, rfl⟩)
    · intro v entry isUser found cow
      rw [entryAt_eq] at found ⊢
      rw [frees.kept root _ rooted (userPath_pageOf isUser), found]
      intro _ _ old was freeable
      rw [found] at was
      cases was
      have notCow := freeable.notCow
      rw [cow] at notCow
      cases notCow
    · intro v isUser apart
      rw [entryAt_eq, entryAt_eq]
      apply frees.kept root _ rooted (userPath_pageOf isUser)
      rintro _ ⟨vma, member, passes⟩
      obtain ⟨w, inside, same⟩ := exists_contains_of_passes passes
      exact absurd same (apart vma member w inside)

/-- `free_vma` frees the areas of the user half completely when it reaches all
their private pages. -/
theorem freeVma_freesAreas_iff {cr3Addr : Word} {fuel : Nat}
    (owned : Owned kind s) (rooted : kind (kernelFrame cr3Addr) = .pml4)
    (userHalf : ∀ vma ∈ vmas, vma.InUserHalf)
    (enough : ∀ vma ∈ vmas,
      vma.vmEnd.toNat ≤ vma.vmStart.toNat + 4096 * fuel) :
    ∃ next, freeVma (fuel + 1) cr3Addr vmas s = .ok ((), next) ∧
      (FreesAreas vmas (kernelFrame cr3Addr) s next ↔
        AllReached vmas (kernelFrame cr3Addr) s) := by
  have runs : Yields (fun _ => False) (freeVma (fuel + 1) cr3Addr vmas) s _ :=
    yields_freeVma_frees vmas
      (fun vma member => ⟨userHalf vma member, enough vma member⟩) owned
      rooted
  obtain ⟨_, next, returned, changed, frees⟩ :=
    runs.returns fun failure never => never.elim
  exact ⟨next, returned, frees.freesAreas_iff rooted userHalf⟩

end Complete

/-! ### The page at `0x1000` -/

/-- An area that ends inside the page at `0x1000`. -/
def pageArea (vmStart vmEnd : Word) : Vma where
  addr := kernelAddr
  vmStart := vmStart
  vmEnd := vmEnd

theorem inUserHalf_pageArea {vmStart vmEnd : Word} (low : vmEnd ≤ 0x2000) :
    (pageArea vmStart vmEnd).InUserHalf := by
  intro v _ below last
  have small : v.toNat < 0x2000 :=
    Nat.lt_of_lt_of_le (BitVec.lt_def.mp below) (BitVec.le_def.mp low)
  have index := congrArg Fin.val last
  rw [pml4Index, val_tableIndex] at index
  change v.toNat / 2 ^ 39 % 512 = 511 at index
  omega

theorem pageOf_area {v : Word}
    (inside : (pageArea 0x1000 0x1800).Contains v) :
    pageOf v = pageOf 0x1000 := by
  have first : 0x1000 ≤ v.toNat := BitVec.le_def.mp inside.1
  have last : v.toNat < 0x1800 := BitVec.lt_def.mp inside.2
  have page : removeFlag v = 0x1000 := by
    apply BitVec.eq_of_toNat_eq
    rw [toNat_removeFlag]
    change v.toNat / 4096 * 4096 = 4096
    omega
  rw [← pageOf_removeFlag, page]

theorem freeVma_freesAreas_aligned :
    ∃ next,
      freeVma 2 (pageAddr 16) [pageArea 0x1000 0x1800]
          (mapOnePage emptyPaging) = .ok ((), next) ∧
        FreesAreas [pageArea 0x1000 0x1800] (kernelFrame (pageAddr 16))
          (mapOnePage emptyPaging) next := by
  have rooted : onePageKind (kernelFrame (pageAddr 16)) = .pml4 := by decide
  have userHalf : ∀ vma ∈ [pageArea 0x1000 0x1800], vma.InUserHalf := by
    intro vma member
    rw [List.mem_singleton.mp member]
    exact inUserHalf_pageArea (by decide)
  have enough : ∀ vma ∈ [pageArea 0x1000 0x1800],
      vma.vmEnd.toNat ≤ vma.vmStart.toNat + 4096 * 1 := by
    intro vma member
    rw [List.mem_singleton.mp member]
    decide
  obtain ⟨next, returned, complete⟩ :=
    freeVma_freesAreas_iff owned_onePage rooted userHalf enough
  refine ⟨next, returned, complete.mpr ?_⟩
  intro vma member v inside entry found _
  rw [List.mem_singleton.mp member] at inside
  have isPage := pageOf_area inside
  have isEntry : entryAt (mapOnePage emptyPaging)
      (kernelFrame (pageAddr 16)) 0x1000 = some (entryOf 20 userFlags) := by
    decide +kernel
  unfold entryAt at found isEntry
  rw [isPage, isEntry] at found
  cases found
  refine ⟨by decide, _, List.mem_singleton_self _, 0, by decide, ?_⟩
  rw [isPage]
  decide

/-- The only pass of the loop lands in the page before. -/
theorem not_freesAreas_unaligned :
    ∃ next,
      freeVma 2 (pageAddr 16) [pageArea 0x800 0x1100]
          (mapOnePage emptyPaging) = .ok ((), next) ∧
        Owned onePageKind (mapOnePage emptyPaging) ∧
        (pageArea 0x800 0x1100).InUserHalf ∧
        ¬ FreesAreas [pageArea 0x800 0x1100] (kernelFrame (pageAddr 16))
          (mapOnePage emptyPaging) next := by
  have ends : shown
      (fun _ next => entryAt next (kernelFrame (pageAddr 16)) 0x1000)
      (freeVma 2 (pageAddr 16) [pageArea 0x800 0x1100]
        (mapOnePage emptyPaging)) = some (some (entryOf 20 userFlags)) := by
    decide +kernel
  obtain ⟨_, next, returned, mapped⟩ := exists_of_shown ends
  refine ⟨next, returned, owned_onePage, inUserHalf_pageArea (by decide), ?_⟩
  intro complete
  have cow := complete.unmapped _ (List.mem_singleton_self _) 0x1000
    ⟨by decide, by decide⟩ _ mapped
  exact absurd cow (by decide)

end SbuUnix
