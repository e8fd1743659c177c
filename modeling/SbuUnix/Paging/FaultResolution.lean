import SbuUnix.Paging.PageFault

/-!
# When a page fault is resolved

A fault should end in one of three ways: a copy-on-write page becomes private
with its contents, an absent page with a byte in a growing area becomes a
zero page, and any other fault ends the process.  `FaultResolved` states this
for all address spaces; `pagefaultHandler_resolved_iff` says exactly when the
handler achieves it.
-/

namespace SbuUnix

open TableForest Outcome

/-- A page is present, writable and accessible to the user, and reads as
`content`. -/
def MapsTo (s : Paging) (root : Nat) (path : List (Fin 512))
    (content : Page) : Prop :=
  ∃ entry, lookup childOf s.mem root path = some entry ∧
    PrivateLeaf entry ∧ s.mem (frameOf entry) = content

/-- No other page of any address space is mapped to the frame of a page. -/
def Unshared (kind : Nat → Kind) (s : Paging) (root : Nat)
    (path : List (Fin 512)) : Prop :=
  ∀ entry other otherPath otherEntry,
    lookup childOf s.mem root path = some entry →
      kind other = .pml4 → OwnedPath ownedIndex otherPath →
        otherPath.length = 4 →
          lookup childOf s.mem other otherPath = some otherEntry →
            frameOf otherEntry = frameOf entry →
              other = root ∧ otherPath = path

/-- An area has a byte on the page of an address. -/
def Vma.HasByteOn (vma : Vma) (vAddress : Word) : Prop :=
  ∃ byte : Word, removeFlag byte = removeFlag vAddress ∧
    vma.vmStart ≤ byte ∧ byte < vma.vmEnd

section Resolution

variable (kind : Nat → Kind) (s : Paging) (cr3Addr : Word)
variable (vmas : List Vma) (cr2 : Word)

/-- The faulting page is present and copy-on-write. -/
def IsCowPage : Prop :=
  ∃ entry,
    lookup childOf s.mem (kernelFrame cr3Addr) (pageOf cr2) = some entry ∧
      hasFlag entry ptCow = true

/-- The faulting page is absent. -/
def IsAbsent : Prop :=
  lookup childOf s.mem (kernelFrame cr3Addr) (pageOf cr2) = none

/-- What a call of the handler should have done when it ended in `result`
and `next`. -/
structure FaultResolved (result : FaultEnd) (next : Paging) : Prop where
  cow : IsCowPage s cr3Addr cr2 →
    result = .copied ∧
      (∃ entry,
        lookup childOf s.mem (kernelFrame cr3Addr) (pageOf cr2) =
            some entry ∧
          MapsTo next (kernelFrame cr3Addr) (pageOf cr2)
            (s.mem (frameOf entry))) ∧
      Unshared kind next (kernelFrame cr3Addr) (pageOf cr2)
  demand : IsAbsent s cr3Addr cr2 →
    (∃ vma ∈ vmas, vma.type.grows = true ∧ vma.HasByteOn cr2) →
      (∃ vma ∈ vmas, result = .grown vma) ∧
        MapsTo next (kernelFrame cr3Addr) (pageOf cr2) fun _ => 0
  otherwise : ¬ IsCowPage s cr3Addr cr2 →
    ¬ (IsAbsent s cr3Addr cr2 ∧
      ∃ vma ∈ vmas, vma.type.grows = true ∧ vma.HasByteOn cr2) →
      result = .exited
  others : ∀ other path, kind other = .pml4 → OwnedPath ownedIndex path →
    path.length = 4 → ¬ (other = kernelFrame cr3Addr ∧ path = pageOf cr2) →
      lookup childOf next.mem other path = lookup childOf s.mem other path
  behalf : ∀ vma, result = .grown vma → removeFlag cr2 < vma.vmEnd

/-- The faults that the handler resolves. -/
def FaultHandled : Prop :=
  IsCowPage s cr3Addr cr2 ∨ vmas = [] ∨
    IsAbsent s cr3Addr cr2 ∧
      ∃ vma, firstMatch (removeFlag cr2) vmas = some vma ∧
        vma.type.grows = true ∧ removeFlag cr2 < vma.vmEnd

end Resolution

/-! ## A mapped page -/

section Mapped

variable {kind changed : Nat → Kind} {s next : Paging} {root fresh : Nat}
variable {path : List (Fin 512)}

theorem Remapped.lookup_here
    (remapped : Remapped kind s changed next root path fresh)
    (rooted : kind root = .pml4) (legal : OwnedPath ownedIndex path)
    (full : path.length = 4) :
    lookup childOf next.mem root path = some (entryOf fresh userFlags) := by
  rw [remapped.lookups root path rooted legal full, if_pos ⟨rfl, rfl⟩]

theorem Remapped.frameOf_fresh
    (remapped : Remapped kind s changed next root path fresh) :
    frameOf (entryOf fresh userFlags) = fresh :=
  Owned.eq_frameOf (Paging.lt_of_isFree remapped.free)
    (removeFlag_entryOf fresh (by decide))

theorem Remapped.mapsTo {content : Page}
    (remapped : Remapped kind s changed next root path fresh)
    (rooted : kind root = .pml4) (legal : OwnedPath ownedIndex path)
    (full : path.length = 4) (filled : next.mem fresh = content) :
    MapsTo next root path content := by
  refine ⟨_, remapped.lookup_here rooted legal full,
    privateLeaf_entryOf fresh, ?_⟩
  rw [remapped.frameOf_fresh]
  exact filled

theorem Remapped.unshared
    (remapped : Remapped kind s changed next root path fresh)
    (owned : Owned kind s) (rooted : kind root = .pml4)
    (legal : OwnedPath ownedIndex path) (full : path.length = 4) :
    Unshared kind next root path := by
  intro entry other otherPath otherEntry found otherRooted otherLegal
    otherFull otherFound sameFrame
  rw [remapped.lookup_here rooted legal full] at found
  cases found
  by_contra different
  rw [remapped.lookups other otherPath otherRooted otherLegal otherFull,
    if_neg different] at otherFound
  have used :=
    (owned.used_of_lookup otherRooted otherLegal otherFull otherFound).1
  rw [sameFrame, remapped.frameOf_fresh, remapped.free] at used
  cases used

end Mapped

/-! ## The handler -/

section Handler

variable {kind : Nat → Kind} {s : Paging} {cr3Addr cr2 : Word}
variable {vmas : List Vma}

theorem matchesPage_iff {vma : Vma} {faultAddr : Word} :
    vma.matchesPage faultAddr = true ↔
      vma.vmStart ≤ faultAddr ∧ faultAddr ≤ vma.vmEnd := by
  simp [Vma.matchesPage]

theorem firstMatch_eq_some {faultAddr : Word} {vma : Vma}
    (found : firstMatch faultAddr vmas = some vma) :
    vma ∈ vmas ∧ vma.vmStart ≤ faultAddr ∧ faultAddr ≤ vma.vmEnd := by
  refine ⟨List.mem_of_find?_eq_some found, ?_⟩
  have here := List.find?_some found
  exact matchesPage_iff.mp here

theorem IsAbsent.not_cow (absent : IsAbsent s cr3Addr cr2) :
    ¬ IsCowPage s cr3Addr cr2 := by
  rintro ⟨entry, found, _⟩
  rw [absent] at found
  cases found

/-- A first area that may grow and has a byte at the page is an area that
asks for the page. -/
theorem hasByteOn_of_firstMatch {vma : Vma}
    (found : firstMatch (removeFlag cr2) vmas = some vma)
    (inside : removeFlag cr2 < vma.vmEnd) : vma.HasByteOn cr2 :=
  ⟨removeFlag cr2, removeFlag_removeFlag cr2,
    (firstMatch_eq_some found).2.1, inside⟩

theorem notCow_of_not_isCowPage (notCow : ¬ IsCowPage s cr3Addr cr2)
    (entry : Word)
    (found : lookup childOf s.mem (kernelFrame cr3Addr) (pageOf cr2) =
      some entry) :
    hasFlag entry ptCow = false := by
  by_contra set
  exact notCow ⟨entry, found, by simpa using set⟩

/-- A copy-on-write fault is resolved. -/
theorem faultResolved_of_cow {changed : Nat → Kind} {next : Paging}
    {fresh : Nat} {entry : Word} (owned : Owned kind s)
    (rooted : kind (kernelFrame cr3Addr) = .pml4)
    (userHalf : pml4Index cr2 ≠ 511)
    (found : lookup childOf s.mem (kernelFrame cr3Addr) (pageOf cr2) =
      some entry)
    (cow : hasFlag entry ptCow = true)
    (remapped : Remapped kind s changed next (kernelFrame cr3Addr)
      (pageOf cr2) fresh)
    (content : next.mem fresh = s.mem (frameOf entry)) :
    FaultResolved kind s cr3Addr vmas cr2 .copied next where
  cow := fun _ => ⟨rfl,
    ⟨entry, found,
      remapped.mapsTo rooted (ownedPath_pageOf userHalf) rfl content⟩,
    remapped.unshared owned rooted (ownedPath_pageOf userHalf) rfl⟩
  demand := fun absent _ => absurd ⟨entry, found, cow⟩ absent.not_cow
  otherwise := fun notCow => absurd ⟨entry, found, cow⟩ notCow
  others := by
    intro other path otherRooted legal full different
    rw [remapped.lookups other path otherRooted legal full,
      if_neg different]
  behalf := by
    intro vma grown
    cases grown

/-- Without any area the fault ends the process. -/
theorem faultResolved_of_exited (notCow : ¬ IsCowPage s cr3Addr cr2) :
    FaultResolved kind s cr3Addr [] cr2 .exited s where
  cow := fun isCow => absurd isCow notCow
  demand := by
    rintro _ ⟨vma, member, _⟩
    cases member
  otherwise := fun _ _ => rfl
  others := fun _ _ _ _ _ _ => rfl
  behalf := by
    intro vma grown
    cases grown

/-- A demand-zero fault of an area with a byte at the page is resolved. -/
theorem faultResolved_of_grown {changed : Nat → Kind} {next : Paging}
    {fresh : Nat} {vma : Vma} (absent : IsAbsent s cr3Addr cr2)
    (rooted : kind (kernelFrame cr3Addr) = .pml4)
    (userHalf : pml4Index cr2 ≠ 511)
    (found : firstMatch (removeFlag cr2) vmas = some vma)
    (grows : vma.type.grows = true) (inside : removeFlag cr2 < vma.vmEnd)
    (remapped : Remapped kind s changed next (kernelFrame cr3Addr)
      (pageOf cr2) fresh)
    (zero : next.mem fresh = fun _ => 0) :
    FaultResolved kind s cr3Addr vmas cr2 (.grown vma) next where
  cow := fun isCow => absurd isCow absent.not_cow
  demand := fun _ _ => ⟨⟨vma, (firstMatch_eq_some found).1, rfl⟩,
    remapped.mapsTo rooted (ownedPath_pageOf userHalf) rfl zero⟩
  otherwise := fun _ noArea =>
    absurd ⟨absent, vma, (firstMatch_eq_some found).1, grows,
      hasByteOn_of_firstMatch found inside⟩ noArea
  others := by
    intro other path otherRooted legal full different
    rw [remapped.lookups other path otherRooted legal full,
      if_neg different]
  behalf := by
    intro other grown
    cases grown
    exact inside

/-- The scan never ends the process, so a resolved fault that went to the
scan was a demand-zero fault of the first matching area. -/
theorem faultHandled_of_scanned {result : FaultEnd} {next : Paging}
    (notCow : ¬ IsCowPage s cr3Addr cr2)
    (scanned :
      firstMatch (removeFlag cr2) vmas = none ∧ result = .ignored ∨
        ∃ vma, firstMatch (removeFlag cr2) vmas = some vma ∧
          vma.type.grows = true ∧ result = .grown vma)
    (resolved : FaultResolved kind s cr3Addr vmas cr2 result next) :
    FaultHandled s cr3Addr vmas cr2 := by
  have notExited : result ≠ .exited := by
    rcases scanned with ⟨_, ended⟩ | ⟨vma, _, _, ended⟩ <;>
    · rw [ended]
      exact FaultEnd.noConfusion
  have demanded :
      IsAbsent s cr3Addr cr2 ∧
        ∃ vma ∈ vmas, vma.type.grows = true ∧ vma.HasByteOn cr2 := by
    by_contra notDemanded
    exact notExited (resolved.otherwise notCow notDemanded)
  obtain ⟨⟨grownVma, _, grown⟩, _⟩ :=
    resolved.demand demanded.1 demanded.2
  rcases scanned with ⟨_, ended⟩ | ⟨vma, found, grows, ended⟩
  · rw [ended] at grown
    cases grown
  · exact Or.inr (Or.inr ⟨demanded.1, vma, found, grows,
      resolved.behalf vma ended⟩)

/-- The handler resolves a fault, a free frame being available, exactly when
the page is copy-on-write, the process has no area, or the page is absent
and the first area that matches it may grow and does not end at or before
it. -/
theorem pagefaultHandler_resolved_iff (owned : Owned kind s)
    (reserved : kind 0 = .held)
    (rooted : kind (kernelFrame cr3Addr) = .pml4)
    (loaded : s.cr3 = cr3Addr) (userHalf : pml4Index cr2 ≠ 511)
    (available : ∀ fuel,
      pagefaultHandler fuel cr3Addr vmas cr2 s ≠ .error .noFreeFrame) :
    (∃ fuel result next,
      pagefaultHandler fuel cr3Addr vmas cr2 s = .ok (result, next) ∧
        FaultResolved kind s cr3Addr vmas cr2 result next) ↔
      FaultHandled s cr3Addr vmas cr2 := by
  have noFailure : ∀ fuel failure, Exhausted failure →
      pagefaultHandler fuel cr3Addr vmas cr2 s ≠ .error failure := by
    intro fuel failure same
    rw [same]
    exact available fuel
  by_cases isCow : IsCowPage s cr3Addr cr2
  · refine ⟨fun _ => Or.inl isCow, fun _ => ?_⟩
    obtain ⟨entry, found, cow⟩ := isCow
    obtain ⟨result, next, returned, ended, changed, fresh, remapped,
        content⟩ :=
      (yields_pagefaultHandler_cow 0 vmas exhausted_noFreeFrame owned
        reserved rooted loaded userHalf found cow).returns
        (noFailure 0)
    rw [ended] at returned
    exact ⟨0, .copied, next, returned,
      faultResolved_of_cow owned rooted userHalf found cow remapped content⟩
  have notCow := notCow_of_not_isCowPage isCow
  by_cases areas : vmas = []
  · refine ⟨fun _ => Or.inr (Or.inl areas), fun _ => ?_⟩
    refine ⟨0, .exited, s, ?_, ?_⟩
    · rw [pagefaultHandler_of_not_cow 0 loaded notCow, if_neg (by simp [areas])]
    · rw [areas]
      exact faultResolved_of_exited isCow
  constructor
  · rintro ⟨fuel, result, next, returned, resolved⟩
    have scanned :=
      yields_of_ok
        (yields_pagefaultHandler_grow fuel (anyFault _) owned rooted loaded
          userHalf notCow areas (Or.inl (anyFault _))) returned
    refine faultHandled_of_scanned isCow (scanned.imp ?_ ?_) resolved
    · exact fun unmatched => ⟨unmatched.1, unmatched.2.1⟩
    · rintro ⟨vma, found, grows, ended, _⟩
      exact ⟨vma, found, grows, ended⟩
  · intro handled
    obtain ⟨absent, vma, found, grows, inside⟩ :=
      (handled.resolve_left isCow).resolve_left areas
    have ends : vmas.length < vmas.length + 1 ∧
        ∀ other, firstMatch (removeFlag cr2) vmas = some other →
          other.type.grows = true := by
      refine ⟨Nat.lt_succ_self _, fun other otherFound => ?_⟩
      rw [found] at otherFound
      cases otherFound
      exact grows
    obtain ⟨result, next, returned, scanned⟩ :=
      (yields_pagefaultHandler_grow (vmas.length + 1)
        exhausted_noFreeFrame owned rooted loaded userHalf notCow areas
        (Or.inr ends)).returns (noFailure _)
    rcases scanned with ⟨unmatched, _⟩ |
      ⟨other, otherFound, _, ended, changed, fresh, remapped, zero⟩
    · rw [found] at unmatched
      cases unmatched
    · rw [found] at otherFound
      cases otherFound
      rw [ended] at returned
      exact ⟨_, .grown vma, next, returned,
        faultResolved_of_grown absent rooted userHalf found grows inside
          remapped zero⟩

/-- A heap of one page. -/
def heapPage : Vma where
  addr := kernelAddr
  vmStart := 0x400ee000000
  vmEnd := 0x400ee001000
  type := .heap

/-- A program text of one page. -/
def textPage : Vma where
  addr := kernelAddr
  vmStart := 0x400000
  vmEnd := 0x401000

theorem isAbsent_emptyPaging (vAddress : Word) :
    IsAbsent emptyPaging (pageAddr 16) vAddress := by
  simp [IsAbsent, lookup, tableAt, pageOf, emptyPaging]

/-- The first touch of the heap page is resolved. -/
theorem pagefaultHandler_resolved_heapPage :
    ∃ fuel result next,
      pagefaultHandler fuel (pageAddr 16) [heapPage] 0x400ee000010
          emptyPaging = .ok (result, next) ∧
        FaultResolved emptyKind emptyPaging (pageAddr 16) [heapPage]
          0x400ee000010 result next := by
  refine (pagefaultHandler_resolved_iff owned_emptyPaging (by decide)
    (by decide) rfl (by decide) fun fuel exhausted => ?_).mpr ?_
  · cases fuel with
    | zero => cases exhausted
    | succ fuel => cases exhausted
  · exact Or.inr (Or.inr ⟨isAbsent_emptyPaging _, heapPage, by decide, rfl,
      by decide⟩)

/-- On a fault in a text area the scan never ends. -/
theorem pagefaultHandler_textPage_not_resolved :
    ¬ ∃ fuel result next,
      pagefaultHandler fuel (pageAddr 16) [textPage] 0x400010 emptyPaging =
          .ok (result, next) ∧
        FaultResolved emptyKind emptyPaging (pageAddr 16) [textPage]
          0x400010 result next := by
  rintro ⟨fuel, result, next, returned, _⟩
  have notCow :=
    notCow_of_not_isCowPage (isAbsent_emptyPaging 0x400010).not_cow
  have loaded : emptyPaging.cr3 = pageAddr 16 := rfl
  rw [pagefaultHandler_of_not_cow fuel loaded notCow,
    if_pos (List.cons_ne_nil _ _)] at returned
  obtain ⟨_, _, scanned, _⟩ := bind_eq_ok_iff.mp returned
  have still : textPage.type.grows = false := rfl
  rw [growVma_outOfFuel still fuel [textPage] (by decide)] at scanned
  cases scanned

end Handler

end SbuUnix
