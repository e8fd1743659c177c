import SbuUnix.Paging.Translation
import SbuUnix.Process.Vma

/-!
# The page-fault handler

`pagefault_handler` gives a copy-on-write page a frame of its own, maps a
zero page when the scan of the memory areas stops at a heap, stack or data
area, and ends the process only when it has no memory area at all.  The scan
does not advance past a matching area of another type, and it ends without an
effect when no area matches.
-/

namespace SbuUnix

open TableForest Outcome

/-- How a call of the handler ends: which branch it took, and the area on
whose behalf a page was mapped.  The C function returns nothing. -/
inductive FaultEnd where
  | copied
  | grown (vma : Vma)
  | ignored
  | exited
  deriving DecidableEq, Repr

/-- Areas that grow on demand. -/
def VmaType.grows : VmaType → Bool
  | .heap => true
  | .stack => true
  | .data => true
  | _ => false

/-- `vma->vm_start <= fault_addr && fault_addr <= vma->vm_end` -/
def Vma.matchesPage (vma : Vma) (faultAddr : Word) : Bool :=
  decide (vma.vmStart ≤ faultAddr) && decide (faultAddr ≤ vma.vmEnd)

/-- The area at which the scan stops. -/
def firstMatch (faultAddr : Word) (vmas : List Vma) : Option Vma :=
  vmas.find? fun vma => vma.matchesPage faultAddr

theorem firstMatch_cons_of_pos {faultAddr : Word} {vma : Vma}
    {rest : List Vma} (here : vma.matchesPage faultAddr = true) :
    firstMatch faultAddr (vma :: rest) = some vma := by
  rw [firstMatch, List.find?_cons, here]

theorem firstMatch_cons_of_neg {faultAddr : Word} {vma : Vma}
    {rest : List Vma} (away : ¬ vma.matchesPage faultAddr = true) :
    firstMatch faultAddr (vma :: rest) = firstMatch faultAddr rest := by
  simp only [firstMatch, List.find?_cons, away]

/-- The scan of the areas; `fuel` bounds its passes, since the list pointer
stays where it is at a matching area that does not grow. -/
def growVma (cr3Addr faultAddr : Word) : Nat → List Vma → PagingM FaultEnd
  | 0, _ => throw .outOfFuel
  | _ + 1, [] => pure .ignored
  | fuel + 1, vma :: rest =>
      if vma.matchesPage faultAddr then
        if vma.type.grows then do
          let newPage ← allocateVirtPage
          memsetPage (kernelFrame newPage)
          mapPhysToUserVirtAddr faultAddr newPage cr3Addr
          pure (.grown vma)
        else
          growVma cr3Addr faultAddr fuel (vma :: rest)
      else
        growVma cr3Addr faultAddr fuel rest

/-- `pagefault_handler` for the process with the tables `cr3Addr` and the
areas `vmas`; `cr2` is the faulting address. -/
def pagefaultHandler (fuel : Nat) (cr3Addr : Word) (vmas : List Vma)
    (cr2 : Word) : PagingM FaultEnd := do
  let faultAddr := removeFlag cr2
  let physAddr := virtToPhys (← get) faultAddr
  if physAddr ≠ 999 ∧ physAddr ≠ 0 then
    let newPage ← allocateVirtPage
    memcpyPage (← kernelPage faultAddr) (kernelFrame newPage)
    mapPhysToUserVirtAddr faultAddr newPage cr3Addr
    setCR3 cr3Addr
    pure .copied
  else if vmas ≠ [] then
    let result ← growVma cr3Addr faultAddr fuel vmas
    setCR3 cr3Addr
    pure result
  else
    pure .exited

/-! ## The steps of the handler -/

section Steps

variable {kind : Nat → Kind} {s : Paging} {allowed : Fault → Prop}
variable {cr3Addr cr2 : Word} {entry : Word} {vmas : List Vma}

/-- A mapping whose source is a frame just taken and filled. -/
theorem yields_mapFilled {source : Nat} {content : Page} {vAddress : Word}
    (exhausted : allowed .noFreeFrame) (owned : Owned kind s)
    (free : s.isFree source = true)
    (rooted : kind (kernelFrame cr3Addr) = .pml4)
    (userHalf : pml4Index vAddress ≠ 511) :
    Yields allowed
      (mapPhysToUserVirtAddr vAddress (pageAddr source) cr3Addr)
      ((s.unsetFree source).writePage source content) fun _ next =>
        ∃ changed fresh,
          Remapped kind s changed next (kernelFrame cr3Addr)
            (pageOf vAddress) fresh ∧
          next.mem fresh = content := by
  have taken : (s.unsetFree source).isFree source = false := by
    simp [Paging.isFree_unsetFree]
  have noTable : ¬ (setKind kind source .held source).IsTable := by
    rw [setKind_same]
    exact fun isTable => isTable
  have filled :
      Extends kind s (setKind kind source .held)
        ((s.unsetFree source).writePage source content) :=
    (Extends.allocate owned free).writeFresh owned free taken noTable
  apply (yields_mapPhysToUserVirtAddr exhausted filled.owned
    (filled.root owned rooted) userHalf).mono
  rintro _ next ⟨changed, fresh, remapped, copied⟩
  refine ⟨changed, fresh, Remapped.of_extends filled owned remapped, ?_⟩
  rw [kernelFrame_pageAddr (lt_of_lt_frameCount (Paging.lt_of_isFree free))]
    at copied
  rw [copied taken noTable, Paging.writePage_same]

theorem Remapped.setCr3 {changed : Nat → Kind} {next : Paging} {root : Nat}
    {path : List (Fin 512)} {fresh : Nat}
    (remapped : Remapped kind s changed next root path fresh)
    (loaded : s.cr3 = cr3Addr) :
    ({ next with cr3 := cr3Addr } : Paging) = next := by
  rw [← loaded, ← remapped.cr3]

/-- The kernel's own access to a page in use. -/
theorem yields_kernelPage (owned : Owned kind s)
    (rooted : kind (kernelFrame s.cr3) = .pml4)
    (userHalf : pml4Index cr2 ≠ 511)
    (found : lookup childOf s.mem (kernelFrame s.cr3) (pageOf cr2) =
      some entry) :
    kernelPage cr2 s = .ok (frameOf entry, s) := by
  have present : entry &&& ptPR = ptPR := by
    have legal := ownedPath_pageOf userHalf
    exact (hasFlag_ptPR_iff entry).mp
      (owned.leaf_of_lookup rooted legal rfl found).1
  have reached : s.translate ptPR cr2 = some entry := by
    rw [Paging.translate, owned.mmuWalk_eq rooted userHalf
      (fun entry => (hasFlag_ptPR_iff entry).mpr)
      (fun entry _ => (hasFlag_ptPR_iff entry).mp), found]
    simp [Option.filter_some, present]
  rw [kernelPage,
    bind_of_ok (show (get : PagingM Paging) s = .ok (s, s) from rfl),
    reached]
  rfl

/-- The sentinels of `virt_to_phys` do not hide a copy-on-write page: frame 0
is the kernel's. -/
theorem virtToPhys_cow (owned : Owned kind s) (reserved : kind 0 = .held)
    (rooted : kind (kernelFrame s.cr3) = .pml4)
    (userHalf : pml4Index cr2 ≠ 511)
    (found : lookup childOf s.mem (kernelFrame s.cr3) (pageOf cr2) =
      some entry)
    (cow : hasFlag entry ptCow = true) :
    virtToPhys s cr2 ≠ 999 ∧ virtToPhys s cr2 ≠ 0 := by
  obtain ⟨_, small, address, pt, _, _, _, leaf⟩ :=
    owned.leaf_of_lookup rooted (ownedPath_pageOf userHalf) rfl found
  have isShared : kind (frameOf entry) = .shared := by
    rcases leaf with ⟨isPrivate, _⟩ | ⟨_, sharedKind⟩
    · rw [isPrivate.notCow] at cow
      cases cow
    · exact sharedKind
  have known : virtToPhys s cr2 = removeFlag entry := by
    rw [virtToPhys_eq, found]
    simp [cow]
  rw [known]
  constructor
  · intro same
    have clear := hasFlag_removeFlag entry (show removeFlag ptPR = 0 by decide)
    rw [same] at clear
    revert clear
    decide
  · intro same
    rw [address] at same
    have zero : frameOf entry = 0 :=
      pageAddr_injective (lt_of_lt_frameCount small) (by decide) same
    rw [zero, reserved] at isShared
    cases isShared

/-- The copy-on-write branch. -/
theorem yields_pagefaultHandler_cow (fuel : Nat) (vmas : List Vma)
    (exhausted : allowed .noFreeFrame) (owned : Owned kind s)
    (reserved : kind 0 = .held)
    (rooted : kind (kernelFrame cr3Addr) = .pml4)
    (loaded : s.cr3 = cr3Addr) (userHalf : pml4Index cr2 ≠ 511)
    (found : lookup childOf s.mem (kernelFrame cr3Addr) (pageOf cr2) =
      some entry)
    (cow : hasFlag entry ptCow = true) :
    Yields allowed (pagefaultHandler fuel cr3Addr vmas cr2) s
      fun result next => result = .copied ∧
        ∃ changed fresh,
          Remapped kind s changed next (kernelFrame cr3Addr) (pageOf cr2)
            fresh ∧
          next.mem fresh = s.mem (frameOf entry) := by
  have userHalfPage : pml4Index (removeFlag cr2) ≠ 511 := by
    rw [pml4Index, tableIndex_removeFlag (by decide)]
    exact userHalf
  have foundPage :
      lookup childOf s.mem (kernelFrame s.cr3) (pageOf (removeFlag cr2)) =
        some entry := by
    rw [pageOf_removeFlag, loaded]
    exact found
  have rootedNow : kind (kernelFrame s.cr3) = .pml4 := by
    rw [loaded]
    exact rooted
  have isCow :=
    virtToPhys_cow owned reserved rootedNow userHalfPage foundPage cow
  rw [pagefaultHandler, yields_bind, yields_get]
  dsimp only
  rw [if_pos isCow, yields_bind]
  apply yields_allocateVirtPage exhausted
  intro source free
  have reads :
      kernelPage (removeFlag cr2) (s.unsetFree source) =
        .ok (frameOf entry, s.unsetFree source) := by
    have taken := Extends.allocate owned free
    exact yields_kernelPage (s := s.unsetFree source) taken.owned
      (taken.root owned rootedNow) userHalfPage foundPage
  have small := lt_of_lt_frameCount (Paging.lt_of_isFree free)
  rw [yields_bind, yields_iff_of_ok reads, yields_bind, memcpyPage,
    yields_modify, yields_bind, kernelFrame_pageAddr small]
  apply (yields_mapFilled exhausted owned free rooted userHalfPage).mono
  rintro _ next ⟨changed, fresh, remapped, content⟩
  rw [yields_bind, setCR3, yields_modify, yields_pure,
    remapped.setCr3 loaded]
  rw [pageOf_removeFlag] at remapped
  exact ⟨rfl, changed, fresh, remapped, content⟩

/-- The scan: it ends without an effect when no area matches the page, and
maps a zero page when the first area that does may grow.  It runs out of any
fuel when that area does not grow. -/
theorem yields_growVma (exhausted : allowed .noFreeFrame)
    (owned : Owned kind s) (rooted : kind (kernelFrame cr3Addr) = .pml4)
    {faultAddr : Word} (userHalf : pml4Index faultAddr ≠ 511) :
    ∀ (fuel : Nat) (vmas : List Vma),
      (allowed .outOfFuel ∨ vmas.length < fuel ∧
        ∀ vma, firstMatch faultAddr vmas = some vma →
          vma.type.grows = true) →
      Yields allowed (growVma cr3Addr faultAddr fuel vmas) s
        fun result next =>
          firstMatch faultAddr vmas = none ∧
              result = .ignored ∧ next = s ∨
            ∃ vma, firstMatch faultAddr vmas = some vma ∧
              vma.type.grows = true ∧ result = .grown vma ∧
              ∃ changed fresh,
                Remapped kind s changed next (kernelFrame cr3Addr)
                  (pageOf faultAddr) fresh ∧
                next.mem fresh = fun _ => 0
  | 0, _, ends => by
      rw [growVma, yields_throw]
      exact ends.resolve_right fun bounded => Nat.not_lt_zero _ bounded.1
  | fuel + 1, [], _ => Or.inl ⟨rfl, rfl, rfl⟩
  | fuel + 1, vma :: rest, ends => by
      rw [growVma]
      by_cases here : vma.matchesPage faultAddr = true
      · rw [if_pos here]
        have first :
            firstMatch faultAddr (vma :: rest) = some vma :=
          firstMatch_cons_of_pos here
        by_cases grows : vma.type.grows = true
        · rw [if_pos grows, yields_bind]
          apply yields_allocateVirtPage exhausted
          intro source free
          have small := lt_of_lt_frameCount (Paging.lt_of_isFree free)
          rw [yields_bind, memsetPage, yields_modify, yields_bind,
            kernelFrame_pageAddr small]
          apply (yields_mapFilled exhausted owned free rooted
            userHalf).mono
          rintro _ next mapped
          exact Or.inr ⟨vma, first, grows, rfl, mapped⟩
        · rw [if_neg grows]
          refine yields_growVma exhausted owned rooted userHalf fuel
            (vma :: rest) (Or.inl ?_)
          exact ends.resolve_right fun bounded =>
            grows (bounded.2 vma first)
      · rw [if_neg here]
        have skipped :
            firstMatch faultAddr (vma :: rest) =
              firstMatch faultAddr rest :=
          firstMatch_cons_of_neg here
        rw [skipped] at ends ⊢
        refine yields_growVma exhausted owned rooted userHalf fuel rest
          (ends.imp_right fun bounded => ⟨?_, bounded.2⟩)
        have longer := bounded.1
        rw [List.length_cons] at longer
        omega

/-- A matching area that does not grow holds the scan for ever. -/
theorem growVma_outOfFuel {faultAddr : Word} {vma : Vma}
    (still : vma.type.grows = false) :
    ∀ (fuel : Nat) (vmas : List Vma),
      firstMatch faultAddr vmas = some vma →
        growVma cr3Addr faultAddr fuel vmas s = .error .outOfFuel
  | 0, _, _ => rfl
  | fuel + 1, [], found => by cases found
  | fuel + 1, first :: rest, found => by
      rw [growVma]
      by_cases here : first.matchesPage faultAddr = true
      · have same : first = vma := by
          rw [firstMatch_cons_of_pos here] at found
          exact Option.some.inj found
        rw [if_pos here, same, if_neg (by simp [still])]
        apply growVma_outOfFuel still fuel (vma :: rest)
        rw [← same]
        exact firstMatch_cons_of_pos here
      · rw [if_neg here]
        rw [firstMatch_cons_of_neg here] at found
        exact growVma_outOfFuel still fuel rest found

/-- A fault on any other page than a copy-on-write one reaches the scan,
unless there is no area. -/
theorem pagefaultHandler_of_not_cow (fuel : Nat) (loaded : s.cr3 = cr3Addr)
    (notCow : ∀ entry,
      lookup childOf s.mem (kernelFrame cr3Addr) (pageOf cr2) =
          some entry →
        hasFlag entry ptCow = false) :
    pagefaultHandler fuel cr3Addr vmas cr2 s =
      if vmas ≠ [] then
        (growVma cr3Addr (removeFlag cr2) fuel vmas >>= fun result => do
          setCR3 cr3Addr
          pure result) s
      else
        .ok (.exited, s) := by
  have sentinel :
      ¬ (virtToPhys s (removeFlag cr2) ≠ 999 ∧
        virtToPhys s (removeFlag cr2) ≠ 0) := by
    rw [virtToPhys_eq, pageOf_removeFlag, loaded]
    cases found :
        lookup childOf s.mem (kernelFrame cr3Addr) (pageOf cr2) with
    | none => simp
    | some entry => simp [notCow entry found]
  show (if virtToPhys s (removeFlag cr2) ≠ 999 ∧
      virtToPhys s (removeFlag cr2) ≠ 0 then _ else _ :
        PagingM FaultEnd) s = _
  rw [if_neg sentinel]
  split <;> rfl

/-- The branch of the scan, for a page that is not copy-on-write. -/
theorem yields_pagefaultHandler_grow (fuel : Nat)
    (exhausted : allowed .noFreeFrame) (owned : Owned kind s)
    (rooted : kind (kernelFrame cr3Addr) = .pml4)
    (loaded : s.cr3 = cr3Addr) (userHalf : pml4Index cr2 ≠ 511)
    (notCow : ∀ entry,
      lookup childOf s.mem (kernelFrame cr3Addr) (pageOf cr2) =
          some entry →
        hasFlag entry ptCow = false)
    (areas : vmas ≠ [])
    (ends : allowed .outOfFuel ∨ vmas.length < fuel ∧
      ∀ vma, firstMatch (removeFlag cr2) vmas = some vma →
        vma.type.grows = true) :
    Yields allowed (pagefaultHandler fuel cr3Addr vmas cr2) s
      fun result next =>
        firstMatch (removeFlag cr2) vmas = none ∧
            result = .ignored ∧ next = s ∨
          ∃ vma, firstMatch (removeFlag cr2) vmas = some vma ∧
            vma.type.grows = true ∧ result = .grown vma ∧
            ∃ changed fresh,
              Remapped kind s changed next (kernelFrame cr3Addr)
                (pageOf cr2) fresh ∧
              next.mem fresh = fun _ => 0 := by
  have userHalfPage : pml4Index (removeFlag cr2) ≠ 511 := by
    rw [pml4Index, tableIndex_removeFlag (by decide)]
    exact userHalf
  unfold Yields
  rw [pagefaultHandler_of_not_cow fuel loaded notCow, if_pos areas]
  apply (yields_bind _ _ s).mpr
  apply (yields_growVma exhausted owned rooted userHalfPage fuel vmas
    ends).mono
  rintro result next (⟨none, rfl, rfl⟩ | ⟨vma, found, grows, rfl, grown⟩)
  · rw [yields_bind, setCR3, yields_modify, yields_pure, ← loaded]
    exact Or.inl ⟨none, rfl, rfl⟩
  · obtain ⟨changed, fresh, remapped, zero⟩ := grown
    rw [yields_bind, setCR3, yields_modify, yields_pure,
      remapped.setCr3 loaded]
    rw [pageOf_removeFlag] at remapped
    exact Or.inr ⟨vma, found, grows, rfl, changed, fresh, remapped, zero⟩

end Steps

end SbuUnix
