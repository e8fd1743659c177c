import SbuUnix.Library.PagedMemory
import SbuUnix.Paging.FreeAreas

/-!
# User memory is flat

Every process sees a memory of its own that starts with zeros.  A load or
store of a page that is missing goes through the page-fault handler, which
maps a zero page in an area that grows; pages that forks have left shared are
copied at the first store; the pages of a process that has ended go back to
the free map and are mapped again for others.  None of this is seen by the
processes, in any order of their accesses, as long as the frames last.
-/

namespace SbuUnix

open TableForest Outcome

/-! ## Accesses and ends -/

/-- A load of a process: on a missing page it faults, and it is retried after
the handler returns. -/
def readByte (fuel : Nat) (cr3Addr : Word) (vmas : List Vma)
    (vAddress : Word) : PagingM Byte := do
  if ((← get).translate userLoad vAddress).isNone then
    let _ ← pagefaultHandler fuel cr3Addr vmas vAddress
    loadByte userLoad vAddress
  else
    loadByte userLoad vAddress

/-- What the loops of `sys_exit` do to the pages of one process. -/
def releaseSpace (fuel : Nat) (cr3Addr userStack : Word)
    (vmas : List Vma) : PagingM Unit := do
  freeVma fuel cr3Addr vmas
  freePage userStack cr3Addr

/-- A canonical address of the user half. -/
abbrev UserAddr := { v : Word // v.toNat < 2 ^ 47 }

theorem userHalf_of_lt {v : Word} (low : v.toNat < 2 ^ 47) :
    pml4Index v ≠ 511 := by
  intro top
  have value : v.toNat / 2 ^ 39 % 512 = 511 := by
    rw [← val_tableIndex]
    exact congrArg Fin.val top
  omega

/-- Two addresses of one page differ in their offset. -/
theorem eq_of_pageOf {v other : Word} (low : v.toNat < 2 ^ 47)
    (otherLow : other.toNat < 2 ^ 47) (samePage : pageOf other = pageOf v)
    (sameOffset : other.toNat % pageSize = v.toNat % pageSize) :
    other = v := by
  simp only [pageOf, List.cons.injEq, and_true, ptIndex, pdIndex, pdptIndex,
    pml4Index, Fin.ext_iff, val_tableIndex] at samePage
  simp only [pageSize] at sameOffset
  apply BitVec.eq_of_toNat_eq
  omega

/-- Bytes in pages of 4096, with the walk to its entry as the name of a
page. -/
def byteLayout :
    PagedMemory.Layout UserAddr (List (Fin 512)) Page Byte where
  pageOf address := pageOf address.val
  load page address := page.byteAt address.val
  store page address byte := page.setByteAt address.val byte
  blank := fun _ => 0
  load_store_same page address byte :=
    page.byteAt_setByteAt_same address.val byte
  load_store_of_ne := by
    intro page address other byte samePage different
    apply Page.byteAt_setByteAt_of_ne
    intro sameOffset
    exact different (Subtype.ext (eq_of_pageOf address.property
      other.property samePage sameOffset))

/-! ## The machine -/

abbrev MemoryCall := PagedMemory.Call UserAddr Byte

abbrev FlatProcesses :=
  PagedMemory.Processes UserAddr (List (Fin 512)) Byte

section Machine

variable (fuel : Nat) (areas : Nat → List Vma) (userStack : Nat → Word)

/-- One call; a process accesses memory with its own tables in CR3. -/
def memoryCall : MemoryCall → SpacesM (Option Byte)
  | .read who address => do
      let cr3Addr ← cr3Of who
      onPaging (setCR3 cr3Addr)
      let byte ←
        onPaging (readByte fuel cr3Addr (areas who) address.val)
      pure (some byte)
  | .write who address byte => do
      let cr3Addr ← cr3Of who
      onPaging (setCR3 cr3Addr)
      onPaging (writeByte fuel cr3Addr (areas who) address.val byte)
      pure none
  | .fork who => do
      let cr3Addr ← cr3Of who
      let child ← onPaging (forkSpace cr3Addr)
      modify fun m => { m with cr3s := m.cr3s ++ [child] }
      pure none
  | .release who => do
      let cr3Addr ← cr3Of who
      onPaging (releaseSpace fuel cr3Addr (userStack who) (areas who))
      pure none

/-- The bytes that the loads of a run return. -/
def memoryRun : List MemoryCall → SpacesM (List Byte)
  | [] => pure []
  | first :: rest => do
      let output ← memoryCall fuel areas userStack first
      let later ← memoryRun rest
      pure (output.toList ++ later)

/-- The handler maps a page at the address. -/
def Grows (who : Nat) (address : UserAddr) : Prop :=
  ∃ vma, firstMatch (removeFlag address.val) (areas who) = some vma ∧
    vma.type.grows = true

/-- The areas and the stacks lie in the user half, and the fuel is enough for
the loops over them. -/
structure AreasFit : Prop where
  short : ∀ who, (areas who).length ≤ fuel
  inside : ∀ who, ∀ vma ∈ areas who, vma.InUserHalf ∧
    vma.vmEnd.toNat ≤ vma.vmStart.toNat + 4096 * fuel
  stack : ∀ who, pml4Index (userStack who) ≠ 511

end Machine

/-- The pages of every process. -/
def viewOf (m : Spaces) (who : Nat) (path : List (Fin 512)) :
    Option Page :=
  m.cr3s[who]?.bind fun cr3Addr =>
    contents m.paging (kernelFrame cr3Addr) path

/-- The flat memories of the processes of a machine. -/
def flatProcesses (m : Spaces) : FlatProcesses :=
  m.cr3s.map fun cr3Addr =>
    some
      { memory :=
          byteLayout.flat (contents m.paging (kernelFrame cr3Addr))
        touched := fun path =>
          (contents m.paging (kernelFrame cr3Addr) path).isSome = true }

/-! ## What a fault leaves -/

/-- One page of one address space reads as `page`, all others read as before,
and free frames are clear. -/
structure Settled (kind : Nat → Kind) (s : Paging)
    (changed : Nat → Kind) (next : Paging) (root : Nat)
    (path : List (Fin 512)) (page : Page) : Prop
    extends Rewritten kind s changed next root path page where
  zero : FreeZero next

section Faults

variable {kind changed : Nat → Kind} {s next : Paging}
variable {vAddress cr3Addr : Word} {vmas : List Vma}
variable {allowed : Fault → Prop}

/-- A page as a process sees it before it has touched it. -/
def pageAt (s : Paging) (root : Nat) (path : List (Fin 512)) : Page :=
  (contents s root path).getD fun _ => 0

theorem pageAt_of_lookup {root : Nat} {path : List (Fin 512)} {entry : Word}
    (found : lookup childOf s.mem root path = some entry) :
    pageAt s root path = s.mem (frameOf entry) := by
  rw [pageAt, contents, found]
  rfl

theorem pageAt_of_absent {root : Nat} {path : List (Fin 512)}
    (absent : lookup childOf s.mem root path = none) :
    pageAt s root path = fun _ => 0 := by
  rw [pageAt, contents, absent]
  rfl

/-- A missing page is found by no walk. -/
theorem Owned.translate_none (owned : Owned kind s) {need : Word}
    (rooted : kind (kernelFrame s.cr3) = .pml4)
    (userHalf : pml4Index vAddress ≠ 511)
    (needsPresent : ∀ entry, entry &&& need = need →
      hasFlag entry ptPR = true)
    (tableGrants : ∀ entry, UserTable entry → hasFlag entry ptPR = true →
      entry &&& need = need)
    (absent : lookup childOf s.mem (kernelFrame s.cr3) (pageOf vAddress) =
      none) :
    s.translate need vAddress = none := by
  rw [Paging.translate, owned.mmuWalk_eq rooted userHalf needsPresent
    tableGrants, absent]
  rfl

/-- What makes the handler map a frame for a page: it is missing in an area
that grows, or it is shared. -/
def Resolvable (s : Paging) (root : Nat) (vmas : List Vma)
    (vAddress : Word) : Prop :=
  (lookup childOf s.mem root (pageOf vAddress) = none ∧
    ∃ vma, firstMatch (removeFlag vAddress) vmas = some vma ∧
      vma.type.grows = true) ∨
  ∃ entry, lookup childOf s.mem root (pageOf vAddress) = some entry ∧
    hasFlag entry ptCow = true

/-- The handler gives the page a frame of its own, and the page reads as
before. -/
theorem yields_pagefaultHandler_resolves {fuel : Nat}
    (exhausted : allowed .noFreeFrame) (owned : Owned kind s)
    (reserved : kind 0 = .held)
    (rooted : kind (kernelFrame cr3Addr) = .pml4)
    (loaded : s.cr3 = cr3Addr) (userHalf : pml4Index vAddress ≠ 511)
    (short : vmas.length < fuel)
    (resolvable : Resolvable s (kernelFrame cr3Addr) vmas vAddress) :
    Yields allowed (pagefaultHandler fuel cr3Addr vmas vAddress) s
      fun _ next => ∃ changed fresh,
        Remapped kind s changed next (kernelFrame cr3Addr)
          (pageOf vAddress) fresh ∧
        next.mem fresh =
          pageAt s (kernelFrame cr3Addr) (pageOf vAddress) := by
  rcases resolvable with ⟨absent, vma, first, grows⟩ | ⟨entry, found, cow⟩
  · rw [pageAt_of_absent absent]
    have nonempty : vmas ≠ [] := by
      intro empty
      rw [empty] at first
      cases first
    have notCow : ∀ entry,
        lookup childOf s.mem (kernelFrame cr3Addr) (pageOf vAddress) =
            some entry →
          hasFlag entry ptCow = false := by
      intro entry found
      rw [absent] at found
      cases found
    have scanGrows : ∀ other,
        firstMatch (removeFlag vAddress) vmas = some other →
          other.type.grows = true := by
      intro other isOther
      rw [first] at isOther
      cases isOther
      exact grows
    apply (yields_pagefaultHandler_grow fuel exhausted owned rooted loaded
      userHalf notCow nonempty (Or.inr ⟨short, scanGrows⟩)).mono
    rintro result next (⟨none, _, _⟩ | ⟨_, _, _, _, mapped⟩)
    · rw [first] at none
      cases none
    · exact mapped
  · rw [pageAt_of_lookup found]
    apply (yields_pagefaultHandler_cow fuel vmas exhausted owned reserved
      rooted loaded userHalf found cow).mono
    intro result next handled
    exact handled.2

/-- A process may use an address: its page is mapped or the handler maps
it. -/
def Reachable (s : Paging) (root : Nat) (vmas : List Vma)
    (vAddress : Word) : Prop :=
  (contents s root (pageOf vAddress)).isSome = true ∨
    ∃ vma, firstMatch (removeFlag vAddress) vmas = some vma ∧
      vma.type.grows = true

theorem Remapped.settled {root fresh : Nat} {path : List (Fin 512)}
    {page : Page}
    (remapped : Remapped kind s changed next root path fresh)
    (owned : Owned kind s) (reserved : kind 0 = .held) (zero : FreeZero s)
    (filled : next.mem fresh = page) :
    Settled kind s changed next root path page where
  toRewritten := remapped.rewritten owned reserved filled
  zero := remapped.freeZero zero

/-- A mapped page reads as it reads. -/
theorem Settled.refl {root : Nat} {path : List (Fin 512)} {page : Page}
    (owned : Owned kind s) (reserved : kind 0 = .held) (zero : FreeZero s)
    (mapped : contents s root path = some page) :
    Settled kind s kind s root path page where
  owned := owned
  reserved := reserved
  roots := fun _ known => known
  reads := by
    intro other otherPath _ _ _
    split
    · next here =>
      rw [here.1, here.2, mapped]
    · rfl
  zero := zero

/-- A store to a page with the write flag. -/
theorem yields_storeByte_settled {entry : Word} (owned : Owned kind s)
    (reserved : kind 0 = .held) (zero : FreeZero s)
    (rooted : kind (kernelFrame s.cr3) = .pml4)
    (userHalf : pml4Index vAddress ≠ 511) (byte : Byte)
    (found : lookup childOf s.mem (kernelFrame s.cr3) (pageOf vAddress) =
      some entry)
    (writable : hasFlag entry ptWR = true) :
    Yields allowed (storeByte userStore vAddress byte) s fun _ next =>
      Settled kind s kind next (kernelFrame s.cr3) (pageOf vAddress)
        (Page.setByteAt (s.mem (frameOf entry)) vAddress byte) := by
  have used := (owned.used_of_lookup rooted (ownedPath_pageOf userHalf) rfl
    found).1
  have stored : Yields allowed (storeByte userStore vAddress byte) s _ :=
    yields_storeByte owned reserved rooted userHalf byte found writable
  rw [storeByte, yields_bind, yields_get,
    owned.translate_userStore rooted userHalf found, if_pos writable]
    at stored ⊢
  exact
    { toRewritten := stored
      zero := by
        intro other free index
        have apart : other ≠ frameOf entry := by
          intro same
          rw [same, Paging.isFree_writePage, used] at free
          cases free
        rw [Paging.writePage_of_ne apart]
        exact zero other free index }

section Access

variable {fuel : Nat}
variable (exhausted : allowed .noFreeFrame) (owned : Owned kind s)
  (reserved : kind 0 = .held) (zero : FreeZero s)
  (rooted : kind (kernelFrame cr3Addr) = .pml4) (loaded : s.cr3 = cr3Addr)
  (userHalf : pml4Index vAddress ≠ 511) (short : vmas.length < fuel)

include exhausted owned reserved zero rooted loaded userHalf short

theorem yields_readByte
    (reachable : Reachable s (kernelFrame cr3Addr) vmas vAddress) :
    Yields allowed (readByte fuel cr3Addr vmas vAddress) s fun byte next =>
      byte = (pageAt s (kernelFrame cr3Addr) (pageOf vAddress)).byteAt
          vAddress ∧
        ∃ changed, Settled kind s changed next (kernelFrame cr3Addr)
          (pageOf vAddress)
          (pageAt s (kernelFrame cr3Addr) (pageOf vAddress)) := by
  subst loaded
  rw [readByte, yields_bind, yields_get]
  cases found :
      lookup childOf s.mem (kernelFrame s.cr3) (pageOf vAddress) with
  | some entry =>
      have mapped : contents s (kernelFrame s.cr3) (pageOf vAddress) =
          some (s.mem (frameOf entry)) :=
        contents_eq_some_iff.mpr ⟨entry, found, rfl⟩
      rw [owned.translate_userLoad rooted userHalf found, if_neg (by simp),
        pageAt_of_lookup found]
      apply (yields_iff_of_ok
        (yields_loadByte owned rooted userHalf mapped)).mpr
      exact ⟨rfl, kind, Settled.refl owned reserved zero mapped⟩
  | none =>
      have grows := reachable.resolve_left (by rw [contents, found]; simp)
      rw [owned.translate_none rooted userHalf
        (fun entry need => ((userLoad_iff entry).mp need).1)
        (fun entry table present =>
          (userLoad_iff entry).mpr ⟨present, table.user⟩) found,
        if_pos Option.isNone_none, yields_bind]
      apply (yields_pagefaultHandler_resolves exhausted owned reserved rooted
        rfl userHalf short (Or.inl ⟨found, grows⟩)).mono
      rintro _ next ⟨changed, fresh, remapped, filled⟩
      have settled := remapped.settled owned reserved zero filled
      have rootedNow : changed (kernelFrame next.cr3) = .pml4 := by
        rw [remapped.cr3]
        exact settled.roots _ rooted
      have mapped : contents next (kernelFrame next.cr3) (pageOf vAddress) =
          some (pageAt s (kernelFrame s.cr3) (pageOf vAddress)) := by
        rw [remapped.cr3, settled.reads _ _ rooted
          (ownedPath_pageOf userHalf) rfl, if_pos ⟨rfl, rfl⟩]
      apply (yields_iff_of_ok
        (yields_loadByte settled.owned rootedNow userHalf mapped)).mpr
      exact ⟨rfl, changed, settled⟩

theorem yields_writeByte_settled (byte : Byte)
    (reachable : Reachable s (kernelFrame cr3Addr) vmas vAddress) :
    Yields allowed (writeByte fuel cr3Addr vmas vAddress byte) s
      fun _ next => ∃ changed,
        Settled kind s changed next (kernelFrame cr3Addr) (pageOf vAddress)
          ((pageAt s (kernelFrame cr3Addr) (pageOf vAddress)).setByteAt
            vAddress byte) := by
  subst loaded
  have legal := ownedPath_pageOf userHalf
  -- A fault leaves the page to the process alone, and the store is retried.
  have faults : Resolvable s (kernelFrame s.cr3) vmas vAddress →
      s.translate userStore vAddress = none →
        Yields allowed (writeByte fuel s.cr3 vmas vAddress byte) s
          fun _ next => ∃ changed,
            Settled kind s changed next (kernelFrame s.cr3)
              (pageOf vAddress)
              ((pageAt s (kernelFrame s.cr3) (pageOf vAddress)).setByteAt
                vAddress byte) := by
    intro resolvable refused
    rw [writeByte, yields_bind, yields_get, refused,
      if_pos Option.isNone_none, yields_bind]
    apply (yields_pagefaultHandler_resolves exhausted owned reserved rooted
      rfl userHalf short resolvable).mono
    rintro _ next ⟨changed, fresh, remapped, filled⟩
    have settled := remapped.settled owned reserved zero filled
    have rootedNow : changed (kernelFrame next.cr3) = .pml4 := by
      rw [remapped.cr3]
      exact settled.roots _ rooted
    have foundNow :
        lookup childOf next.mem (kernelFrame next.cr3) (pageOf vAddress) =
          some (entryOf fresh userFlags) := by
      rw [remapped.cr3, remapped.lookups _ _ rooted legal rfl,
        if_pos ⟨rfl, rfl⟩]
    have sameFrame : frameOf (entryOf fresh userFlags) = fresh :=
      Owned.eq_frameOf (Paging.lt_of_isFree remapped.free)
        (removeFlag_entryOf fresh (by decide))
    apply (yields_storeByte_settled settled.owned settled.reserved
      settled.zero rootedNow userHalf byte foundNow
      (privateLeaf_entryOf fresh).writable).mono
    intro _ last stored
    rw [remapped.cr3, sameFrame, filled] at stored
    exact ⟨changed, ⟨settled.toRewritten.trans stored.toRewritten,
      stored.zero⟩⟩
  cases found :
      lookup childOf s.mem (kernelFrame s.cr3) (pageOf vAddress) with
  | some entry =>
      by_cases writable : hasFlag entry ptWR = true
      · rw [writeByte, yields_bind, yields_get,
          owned.translate_userStore rooted userHalf found, if_pos writable,
          if_neg (by simp), pageAt_of_lookup found]
        apply (yields_storeByte_settled owned reserved zero rooted userHalf
          byte found writable).mono
        intro _ next settled
        exact ⟨kind, settled⟩
      · obtain ⟨_, _, _, _, _, _, _, leaf⟩ :=
          owned.leaf_of_lookup rooted legal rfl found
        have cow : hasFlag entry ptCow = true := by
          rcases leaf with ⟨isPrivate, _⟩ | ⟨isShared, _⟩
          · exact absurd isPrivate.writable writable
          · exact isShared.cow
        apply faults (Or.inr ⟨entry, found, cow⟩)
        rw [owned.translate_userStore rooted userHalf found,
          if_neg writable]
  | none =>
      have grows := reachable.resolve_left (by rw [contents, found]; simp)
      apply faults (Or.inl ⟨found, grows⟩)
      exact owned.translate_none rooted userHalf
        (fun entry need => ((userStore_iff entry).mp need).1)
        (fun entry table present =>
          (userStore_iff entry).mpr ⟨present, table.writable, table.user⟩)
        found

end Access

end Faults

/-! ## Giving pages back -/

/-- Pages of one address space went back; the others read as before. -/
structure Spares (kind : Nat → Kind) (s : Paging) (changed : Nat → Kind)
    (next : Paging) (root : Nat) : Prop
    extends Evolves kind s changed next where
  reads : ∀ other path, kind other = .pml4 → other ≠ root →
    UserPath path → contents next other path = contents s other path

section Release

variable {kind changed final : Nat → Kind} {s next last : Paging}
variable {root : Nat} {vAddress cr3Addr : Word} {allowed : Fault → Prop}

theorem Spares.refl (owned : Owned kind s) (zero : FreeZero s) :
    Spares kind s kind s root where
  toEvolves := Evolves.refl owned zero
  reads := fun _ _ _ _ _ => rfl

theorem Spares.trans (first : Spares kind s changed next root)
    (second : Spares changed next final last root) :
    Spares kind s final last root where
  toEvolves := first.toEvolves.trans second.toEvolves
  reads := by
    intro other path rooted different user
    have rootedNow : changed other = .pml4 := by
      rw [first.kept other (Or.inl rooted), rooted]
    rw [second.reads other path rootedNow different user,
      first.reads other path rooted different user]

/-- The page that `free_page` gives back is mapped nowhere else. -/
theorem Spares.leaf (owned : Owned kind s) (zero : FreeZero s)
    (rooted : kind root = .pml4) {path : List (Fin 512)} {index : Fin 512}
    {pt : Nat} (user : UserPath (index :: path))
    (reached : tableAt childOf s.mem root path = some pt)
    (present : hasFlag (s.mem pt index) ptPR = true)
    (freeable : Freeable (s.mem pt index)) :
    ∃ changed, Spares kind s changed
      (s.freeLeaf pt index (frameOf (s.mem pt index))) root := by
  have length : path.length = 3 := Nat.succ.inj user.2
  have isEntry : lookup childOf s.mem root (index :: path) =
      some (s.mem pt index) := by
    rw [lookup_cons_of_eq_some reached, childOf_isSome, if_pos present]
  obtain ⟨_, _, _, found, foundReached, _, ptKind, leaf⟩ :=
    owned.leaf_of_lookup rooted user.1 length isEntry
  have isPt : found = pt :=
    Option.some.inj (foundReached.symm.trans reached)
  subst isPt
  have isPrivate : PrivateLeaf (s.mem found index) ∧
      kind (frameOf (s.mem found index)) = .page found index := by
    rcases leaf with isPrivate | ⟨isShared, _⟩
    · exact isPrivate
    · have cow := isShared.cow
      rw [freeable.notCow] at cow
      cases cow
  obtain ⟨up, position, tableKind⟩ := ptKind
  have frees := Frees.leaf owned rooted user reached present freeable
  refine ⟨_, Evolves.freeLeaf owned zero tableKind isPrivate.2, ?_⟩
  intro other otherPath otherRooted different otherUser
  apply contents_congr (frees.kept other otherPath otherRooted otherUser
    fun isRoot => absurd isRoot different)
  intro entry isFound
  have target :=
    owned.used_of_lookup otherRooted otherUser.1 otherUser.2 isFound
  have otherFrame : frameOf entry ≠ frameOf (s.mem found index) := by
    intro same
    match otherPath, otherUser with
    | place :: rest, otherUser =>
        exact different (owned.eq_of_private rooted otherRooted user.1 length
          otherUser.1 (Nat.succ.inj otherUser.2) isEntry isFound
          isPrivate.1.writable same).1
  have noTable : frameOf entry ≠ found := by
    intro same
    apply target.2
    rw [same, tableKind]
    trivial
  unfold Paging.freeLeaf
  rw [Paging.writePage_of_ne otherFrame,
    Paging.writeWord_of_ne_frame noTable, Paging.setFree_mem]

/-- `free_page` gives back the private page at the address or does
nothing. -/
theorem yields_freePage_spares (owned : Owned kind s) (zero : FreeZero s)
    (rooted : kind (kernelFrame cr3Addr) = .pml4)
    (userHalf : pml4Index vAddress ≠ 511) :
    Yields allowed (freePage vAddress cr3Addr) s fun _ next =>
      ∃ changed, Spares kind s changed next (kernelFrame cr3Addr) := by
  have unchanged :
      ∃ changed, Spares kind s changed s (kernelFrame cr3Addr) :=
    ⟨kind, Spares.refl owned zero⟩
  have userHalfPage : pml4Index (removeFlag vAddress) ≠ 511 := by
    rw [pml4Index, tableIndex_removeFlag (by decide)]
    exact userHalf
  have rootDepth : (kind (kernelFrame cr3Addr)).depth = some 0 := by
    rw [rooted]
    rfl
  rw [freePage, yields_bind, yields_get]
  dsimp only
  rw [yields_ite]
  refine ⟨fun inside => ?_, fun _ => unchanged⟩
  simp only [Bool.and_eq_true] at inside
  obtain ⟨pdpt, pdptSmall, pdptAddress, _, pdptKind⟩ :=
    owned.below_inner rootDepth (by decide) (fun _ => userHalfPage) inside.1
  have toPdpt : tableAt childOf s.mem (kernelFrame cr3Addr)
      [pml4Index (removeFlag vAddress)] = some pdpt :=
    childOf_eq_some_iff.mpr
      ⟨inside.1, Owned.eq_frameOf pdptSmall pdptAddress⟩
  rw [Owned.eq_frameOf pdptSmall pdptAddress, yields_ite]
  refine ⟨fun inside => ?_, fun _ => unchanged⟩
  simp only [Bool.and_eq_true] at inside
  obtain ⟨pd, pdSmall, pdAddress, _, pdKind⟩ :=
    owned.below_inner (by rw [pdptKind]; rfl : _ = some 1) (by decide)
      (fun root => absurd root (by decide)) inside.1
  have toPd : tableAt childOf s.mem (kernelFrame cr3Addr)
      [pdptIndex (removeFlag vAddress),
        pml4Index (removeFlag vAddress)] = some pd := by
    rw [tableAt_cons_of_eq_some toPdpt]
    exact childOf_eq_some_iff.mpr
      ⟨inside.1, Owned.eq_frameOf pdSmall pdAddress⟩
  rw [Owned.eq_frameOf pdSmall pdAddress, yields_ite]
  refine ⟨fun inside => ?_, fun _ => unchanged⟩
  simp only [Bool.and_eq_true] at inside
  obtain ⟨pt, ptSmall, ptAddress, _, ptKind⟩ :=
    owned.below_inner (by rw [pdKind]; rfl : _ = some 2) (by decide)
      (fun root => absurd root (by decide)) inside.1
  have toPt : tableAt childOf s.mem (kernelFrame cr3Addr)
      (tablesOf (removeFlag vAddress)) = some pt := by
    rw [tablesOf, tableAt_cons_of_eq_some toPd]
    exact childOf_eq_some_iff.mpr
      ⟨inside.1, Owned.eq_frameOf ptSmall ptAddress⟩
  rw [Owned.eq_frameOf ptSmall ptAddress, yields_ite]
  refine ⟨fun inside => ?_, fun _ => unchanged⟩
  simp only [Bool.and_eq_true, Bool.not_eq_true', decide_eq_true_eq]
    at inside
  obtain ⟨⟨notCow, present⟩, low⟩ := inside
  have spares := Spares.leaf owned zero rooted
    (userPath_pageOf userHalfPage) toPt present ⟨notCow, low⟩
  obtain ⟨target, small, address, _⟩ := owned.below_leaf ptKind present
  have number :
      (removeFlag (s.mem pt (ptIndex (removeFlag vAddress)))).toNat /
        pageSize = target := by
    rw [address, pageAddr_toNat (lt_of_lt_frameCount small)]
    exact Nat.mul_div_cancel target (by decide)
  have insideMap : target / 64 < 256 := by
    simp only [frameCount] at small
    omega
  rw [Owned.eq_frameOf small address] at spares ⊢
  rw [number, yields_bind, setBit, if_pos insideMap, yields_modify,
    yields_bind, writeEntry, yields_modify, memsetPage, yields_modify]
  exact spares

/-- What every `free_page` of the user half keeps is kept by the loop over an
area. -/
theorem yields_freeRange_keeps {keeps : Paging → Prop}
    {startAddr endAddr : Word}
    (step : ∀ {vAddress s}, pml4Index vAddress ≠ 511 → keeps s →
      Yields allowed (freePage vAddress cr3Addr) s fun _ next => keeps next)
    (userHalf : ∀ vAddress : Word, startAddr ≤ vAddress →
      vAddress < endAddr → pml4Index vAddress ≠ 511) (fuel : Nat) :
    ∀ {physfree : Word} {s : Paging}, startAddr ≤ physfree →
      endAddr.toNat ≤ physfree.toNat + 4096 * fuel → keeps s →
        Yields allowed (freeRange (fuel + 1) physfree endAddr cr3Addr) s
          fun _ next => keeps next := by
  induction fuel with
  | zero =>
      intro physfree s _ enough kept
      have ends : ¬ physfree < endAddr := by
        rw [BitVec.lt_def]
        omega
      rw [freeRange, if_neg ends, yields_pure]
      exact kept
  | succ fuel inductionHypothesis =>
      intro physfree s above enough kept
      rw [freeRange]
      by_cases inside : physfree < endAddr
      · have here := userHalf physfree above inside
        have low := toNat_lt_of_userHalf here
        have page : (4096 : Word).toNat = 4096 := by decide
        have next : (physfree + 4096).toNat = physfree.toNat + 4096 := by
          rw [BitVec.toNat_add]
          omega
        rw [if_pos inside, yields_bind]
        apply (step here kept).mono
        intro _ between keptBetween
        apply inductionHypothesis _ _ keptBetween
        · rw [BitVec.le_def] at above ⊢
          omega
        · omega
      · rw [if_neg inside, yields_pure]
        exact kept

theorem yields_freeVma_keeps {keeps : Paging → Prop} {fuel : Nat}
    (step : ∀ {vAddress s}, pml4Index vAddress ≠ 511 → keeps s →
      Yields allowed (freePage vAddress cr3Addr) s fun _ next => keeps next)
    (vmas : List Vma) :
    ∀ {s : Paging},
      (∀ vma ∈ vmas, vma.InUserHalf ∧
        vma.vmEnd.toNat ≤ vma.vmStart.toNat + 4096 * fuel) → keeps s →
        Yields allowed (freeVma (fuel + 1) cr3Addr vmas) s
          fun _ next => keeps next := by
  induction vmas with
  | nil =>
      intro s _ kept
      rw [freeVma, yields_pure]
      exact kept
  | cons vma rest inductionHypothesis =>
      intro s areas kept
      obtain ⟨userHalf, enough⟩ := areas vma List.mem_cons_self
      rw [freeVma, yields_bind]
      apply (yields_freeRange_keeps step userHalf fuel (BitVec.le_refl _)
        enough kept).mono
      intro _ between keptBetween
      exact inductionHypothesis
        (fun other member => areas other (List.mem_cons_of_mem _ member))
        keptBetween

/-- The end of a process is seen in no other address space. -/
theorem yields_releaseSpace {fuel : Nat} {userStack : Word}
    {vmas : List Vma} (owned : Owned kind s) (zero : FreeZero s)
    (rooted : kind (kernelFrame cr3Addr) = .pml4)
    (stack : pml4Index userStack ≠ 511)
    (inside : ∀ vma ∈ vmas, vma.InUserHalf ∧
      vma.vmEnd.toNat ≤ vma.vmStart.toNat + 4096 * fuel) :
    Yields allowed (releaseSpace (fuel + 1) cr3Addr userStack vmas) s
      fun _ next =>
        ∃ changed, Spares kind s changed next (kernelFrame cr3Addr) := by
  have step : ∀ {vAddress between}, pml4Index vAddress ≠ 511 →
      (∃ changed, Spares kind s changed between (kernelFrame cr3Addr)) →
        Yields allowed (freePage vAddress cr3Addr) between fun _ next =>
          ∃ changed, Spares kind s changed next (kernelFrame cr3Addr) := by
    rintro vAddress between userHalf ⟨changed, before⟩
    have rootedNow : changed (kernelFrame cr3Addr) = .pml4 := by
      rw [before.kept _ (Or.inl rooted), rooted]
    apply (yields_freePage_spares before.owned before.zero rootedNow
      userHalf).mono
    rintro _ next ⟨final, after⟩
    exact ⟨final, before.trans after⟩
  rw [releaseSpace, yields_bind]
  apply (yields_freeVma_keeps step vmas inside
    ⟨kind, Spares.refl owned zero⟩).mono
  intro _ between kept
  exact step stack kept

end Release

/-! ## The refinement -/

/-- The machine keeps the flat memories of its processes. -/
structure KeepsFlat (kind : Nat → Kind) (m : Spaces)
    (processes : FlatProcesses) : Prop extends WellFormed kind m where
  zero : FreeZero m.paging
  length : processes.length = m.cr3s.length
  kept : PagedMemory.Kept byteLayout (viewOf m) processes

section Refinement

variable {kind changed : Nat → Kind} {m : Spaces}
variable {processes : FlatProcesses}
variable {process : PagedMemory.Process UserAddr (List (Fin 512)) Byte}
variable {fuel : Nat} {areas : Nat → List Vma} {userStack : Nat → Word}
variable {allowed : Fault → Prop} {who : Nat} {cr3Addr : Word}

theorem viewOf_of_known (known : m.cr3s[who]? = some cr3Addr) :
    viewOf m who = contents m.paging (kernelFrame cr3Addr) := by
  funext path
  rw [viewOf, known]
  rfl

theorem live_flatProcesses_iff :
    PagedMemory.Live (flatProcesses m) who process ↔
      ∃ cr3Addr, m.cr3s[who]? = some cr3Addr ∧
        process =
          { memory :=
              byteLayout.flat (contents m.paging (kernelFrame cr3Addr))
            touched := fun path =>
              (contents m.paging (kernelFrame cr3Addr) path).isSome =
                true } := by
  rw [PagedMemory.Live, flatProcesses, List.getElem?_map,
    Option.map_eq_some_iff]
  simp only [Option.some.injEq, eq_comm]

theorem WellFormed.keepsFlat (wellFormed : WellFormed kind m)
    (zero : FreeZero m.paging) : KeepsFlat kind m (flatProcesses m) where
  toWellFormed := wellFormed
  zero := zero
  length := List.length_map _
  kept := by
    constructor
    · intro who process live
      obtain ⟨cr3Addr, known, rfl⟩ := live_flatProcesses_iff.mp live
      rw [viewOf_of_known known]
    · intro who process live address touched
      obtain ⟨cr3Addr, known, rfl⟩ := live_flatProcesses_iff.mp live
      rw [viewOf_of_known known]
      exact touched

theorem KeepsFlat.known (keeps : KeepsFlat kind m processes)
    (live : PagedMemory.Live processes who process) :
    ∃ cr3Addr, m.cr3s[who]? = some cr3Addr := by
  have inside := live.lt
  rw [keeps.length] at inside
  exact ⟨_, List.getElem?_eq_getElem inside⟩

/-- Loading other tables into CR3 is seen by no process. -/
theorem KeepsFlat.setCr3 (keeps : KeepsFlat kind m processes)
    (cr3Addr : Word) :
    KeepsFlat kind { m with paging := { m.paging with cr3 := cr3Addr } }
      processes where
  owned := keeps.owned.setCr3 cr3Addr
  reserved := keeps.reserved
  roots := keeps.roots
  distinct := keeps.distinct
  zero := keeps.zero
  length := keeps.length
  kept := keeps.kept

/-- A page that is there or grows may be used. -/
theorem KeepsFlat.reachable (keeps : KeepsFlat kind m processes)
    (live : PagedMemory.Live processes who process)
    (known : m.cr3s[who]? = some cr3Addr) {address : UserAddr}
    (legal : process.touched (byteLayout.pageOf address) ∨
      Grows areas who address) :
    Reachable m.paging (kernelFrame cr3Addr) (areas who) address.val := by
  rcases legal with touched | grows
  · have there := keeps.kept.there live address touched
    rw [viewOf_of_known known] at there
    exact Or.inl there
  · exact Or.inr grows

section Settle

variable {next : Paging} {path : List (Fin 512)} {page : Page}

theorem WellFormed.settle (wellFormed : WellFormed kind m)
    (settled : Settled kind m.paging changed next (kernelFrame cr3Addr) path
      page) :
    WellFormed changed { m with paging := next } where
  owned := settled.owned
  reserved := settled.reserved
  roots := fun other otherCr3 found =>
    settled.roots _ (wellFormed.roots other otherCr3 found)
  distinct := wellFormed.distinct

/-- A page of one process is seen anew by this process alone. -/
theorem KeepsFlat.rewrites (keeps : KeepsFlat kind m processes)
    (known : m.cr3s[who]? = some cr3Addr) {address : UserAddr}
    (settled : Settled kind m.paging changed next (kernelFrame cr3Addr)
      (pageOf address.val) page) :
    PagedMemory.Rewrites byteLayout processes (viewOf m)
      (viewOf { m with paging := next }) who (byteLayout.pageOf address)
      page where
  here := by
    have sameView :=
      viewOf_of_known (m := { m with paging := next }) known
    rw [sameView]
    have reads := settled.reads (kernelFrame cr3Addr) (pageOf address.val)
      (keeps.roots who cr3Addr known)
      (ownedPath_pageOf (userHalf_of_lt address.property)) rfl
    rw [if_pos ⟨rfl, rfl⟩] at reads
    exact reads
  away := by
    intro other process live position apart
    obtain ⟨otherCr3, otherKnown⟩ := keeps.known live
    have sameView :=
      viewOf_of_known (m := { m with paging := next }) otherKnown
    rw [sameView, viewOf_of_known otherKnown]
    have reads := settled.reads (kernelFrame otherCr3) (pageOf position.val)
      (keeps.roots other otherCr3 otherKnown)
      (ownedPath_pageOf (userHalf_of_lt position.property)) rfl
    rw [if_neg] at reads
    · exact reads
    · rintro ⟨sameRoot, samePage⟩
      exact apart ⟨keeps.distinct other who otherCr3 cr3Addr otherKnown known
        sameRoot, samePage⟩

end Settle

/-- A process was forked from a process that is there. -/
theorem KeepsFlat.fork (keeps : KeepsFlat kind m processes)
    (live : PagedMemory.Live processes who process)
    (known : m.cr3s[who]? = some cr3Addr) {child : Word} {next : Paging}
    (forked : Forked kind m.paging changed next (kernelFrame cr3Addr)
      (kernelFrame child)) :
    KeepsFlat changed ⟨next, m.cr3s ++ [child]⟩
      (PagedMemory.flatCall byteLayout (.fork who : MemoryCall)
        processes).2 where
  toWellFormed := by
    have copied : (copiesOf m)[who]? =
        some (contents m.paging (kernelFrame cr3Addr)) := by
      rw [copiesOf, List.getElem?_map, known]
      rfl
    exact (keeps.toWellFormed.simulates.fork known copied
      forked).toWellFormed
  zero := forked.zero
  length := by
    rw [PagedMemory.flatCall, List.length_append, List.length_append,
      keeps.length]
    rfl
  kept := by
    have rooted := keeps.roots who cr3Addr known
    apply keeps.kept.fork live
    · intro other before otherLive address
      obtain ⟨otherCr3, otherKnown⟩ := keeps.known otherLive
      have inside := (List.getElem?_eq_some_iff.mp otherKnown).1
      have knownNow : (m.cr3s ++ [child])[other]? = some otherCr3 := by
        rw [List.getElem?_append_left inside]
        exact otherKnown
      rw [viewOf_of_known otherKnown,
        viewOf_of_known (m := ⟨next, m.cr3s ++ [child]⟩) knownNow]
      exact forked.kept _ _ (keeps.roots other otherCr3 otherKnown)
        (ownedPath_pageOf (userHalf_of_lt address.property)) rfl
    · intro address
      have knownNow :
          (m.cr3s ++ [child])[processes.length]? = some child := by
        rw [keeps.length, List.getElem?_append_right (Nat.le_refl _),
          Nat.sub_self]
        rfl
      rw [viewOf_of_known known,
        viewOf_of_known (m := ⟨next, m.cr3s ++ [child]⟩) knownNow]
      exact forked.copied _
        (ownedPath_pageOf (userHalf_of_lt address.property)) rfl

/-- The pages of a process went back. -/
theorem KeepsFlat.release (keeps : KeepsFlat kind m processes)
    (known : m.cr3s[who]? = some cr3Addr) {next : Paging}
    (spares : Spares kind m.paging changed next (kernelFrame cr3Addr)) :
    KeepsFlat changed { m with paging := next }
      (PagedMemory.flatCall byteLayout (.release who : MemoryCall)
        processes).2 where
  owned := spares.owned
  reserved := by
    rw [spares.kept 0 (Or.inr keeps.reserved), keeps.reserved]
  roots := by
    intro other otherCr3 found
    have rooted := keeps.roots other otherCr3 found
    rw [spares.kept _ (Or.inl rooted), rooted]
  distinct := keeps.distinct
  zero := spares.zero
  length := by
    rw [PagedMemory.flatCall, List.length_set]
    exact keeps.length
  kept := by
    apply keeps.kept.release
    intro other before otherLive different address
    obtain ⟨otherCr3, otherKnown⟩ := keeps.known otherLive
    rw [viewOf_of_known otherKnown,
      viewOf_of_known (m := { m with paging := next }) otherKnown]
    apply spares.reads _ _ (keeps.roots other otherCr3 otherKnown)
    · intro sameRoot
      exact different (keeps.distinct other who otherCr3 cr3Addr otherKnown
        known sameRoot)
    · exact userPath_pageOf (userHalf_of_lt address.property)

/-- One call returns what it returns on flat memories, which the machine
keeps. -/
theorem yields_memoryCall (exhausted : allowed .noFreeFrame)
    (fits : AreasFit fuel areas userStack) {call : MemoryCall}
    (keeps : KeepsFlat kind m processes)
    (legal : PagedMemory.Legal byteLayout (Grows areas) call processes) :
    Yields allowed (memoryCall (fuel + 1) areas userStack call) m
      fun output next =>
        output = (PagedMemory.flatCall byteLayout call processes).1 ∧
          ∃ changed, KeepsFlat changed next
            (PagedMemory.flatCall byteLayout call processes).2 := by
  cases call with
  | read who address =>
      obtain ⟨process, live, usable⟩ := legal
      obtain ⟨cr3Addr, known⟩ := keeps.known live
      have now := keeps.setCr3 cr3Addr
      have short := Nat.lt_succ_of_le (fits.short who)
      rw [memoryCall, yields_bind]
      apply yields_cr3Of known
      rw [yields_bind, yields_onPaging, setCR3, yields_modify, yields_bind,
        yields_onPaging]
      apply (yields_readByte exhausted now.owned now.reserved now.zero
        (now.roots who cr3Addr known) rfl (userHalf_of_lt address.property)
        short (now.reachable live known usable)).mono
      rintro byte next ⟨rfl, changed, settled⟩
      rw [yields_pure]
      have rewrites := now.rewrites known settled
      have samePage := viewOf_of_known
        (m := { m with paging := { m.paging with cr3 := cr3Addr } }) known
      refine ⟨?_, changed, now.toWellFormed.settle settled, settled.zero, ?_,
        now.kept.touch ?_⟩
      · have loads := congrFun (now.kept.flat live) address
        rw [samePage] at loads
        rw [PagedMemory.flatCall, live.join]
        exact congrArg some loads
      · rw [PagedMemory.flatCall, List.length_modify]
        exact keeps.length
      · rw [samePage]
        exact rewrites
  | write who address byte =>
      obtain ⟨process, live, usable⟩ := legal
      obtain ⟨cr3Addr, known⟩ := keeps.known live
      have now := keeps.setCr3 cr3Addr
      have short := Nat.lt_succ_of_le (fits.short who)
      rw [memoryCall, yields_bind]
      apply yields_cr3Of known
      rw [yields_bind, yields_onPaging, setCR3, yields_modify, yields_bind,
        yields_onPaging]
      apply (yields_writeByte_settled exhausted now.owned now.reserved
        now.zero (now.roots who cr3Addr known) rfl
        (userHalf_of_lt address.property) short byte
        (now.reachable live known usable)).mono
      rintro _ next ⟨changed, settled⟩
      rw [yields_pure]
      have rewrites := now.rewrites known settled
      have samePage := viewOf_of_known
        (m := { m with paging := { m.paging with cr3 := cr3Addr } }) known
      refine ⟨rfl, changed, now.toWellFormed.settle settled, settled.zero, ?_,
        now.kept.put ?_⟩
      · rw [PagedMemory.flatCall, List.length_modify]
        exact keeps.length
      · rw [samePage]
        exact rewrites
  | fork who =>
      obtain ⟨process, live⟩ := legal
      obtain ⟨cr3Addr, known⟩ := keeps.known live
      rw [memoryCall, yields_bind]
      apply yields_cr3Of known
      rw [yields_bind, yields_onPaging]
      apply (yields_forkSpace exhausted keeps.owned keeps.reserved keeps.zero
        (keeps.roots who cr3Addr known)).mono
      rintro child next ⟨changed, forked⟩
      rw [yields_bind, yields_modify, yields_pure]
      exact ⟨rfl, changed, keeps.fork live known forked⟩
  | release who =>
      obtain ⟨process, live⟩ := legal
      obtain ⟨cr3Addr, known⟩ := keeps.known live
      rw [memoryCall, yields_bind]
      apply yields_cr3Of known
      rw [yields_bind, yields_onPaging]
      apply (yields_releaseSpace keeps.owned keeps.zero
        (keeps.roots who cr3Addr known) (fits.stack who)
        (fits.inside who)).mono
      rintro _ next ⟨changed, spares⟩
      rw [yields_pure]
      exact ⟨rfl, changed, keeps.release known spares⟩

/-- A whole run returns what it returns on flat memories. -/
theorem yields_memoryRun (exhausted : allowed .noFreeFrame)
    (fits : AreasFit fuel areas userStack) (calls : List MemoryCall) :
    ∀ {kind : Nat → Kind} {m : Spaces} {processes : FlatProcesses},
      KeepsFlat kind m processes →
        PagedMemory.LegalRun byteLayout (Grows areas) calls processes →
          Yields allowed (memoryRun (fuel + 1) areas userStack calls) m
            fun bytes _ =>
              bytes = PagedMemory.flatRun byteLayout calls processes := by
  induction calls with
  | nil =>
      intro kind m processes _ _
      rfl
  | cons first rest inductionHypothesis =>
      intro kind m processes keeps legal
      rw [memoryRun, yields_bind]
      apply (yields_memoryCall exhausted fits keeps legal.1).mono
      rintro output next ⟨same, changed, keepsNext⟩
      rw [yields_bind]
      apply (inductionHypothesis keepsNext legal.2).mono
      intro later last laterSame
      rw [yields_pure, PagedMemory.flatRun, same, laterSame]

end Refinement

/-! ## A process with an area that grows -/

/-- An area of two pages from `0x3000` on. -/
def growingArea : Vma :=
  { addr := 0, vmStart := 0x3000, vmEnd := 0x5000, type := .stack }

/-- The child writes a page that neither has touched and ends; the parent
finds zeros there, before and after, and then writes its first page. -/
def growingRun : List MemoryCall :=
  [.fork 0, .write 1 ⟨0x3000, by decide⟩ 7, .read 0 ⟨0x3000, by decide⟩,
    .read 1 ⟨0x3000, by decide⟩, .release 1, .read 0 ⟨0x3001, by decide⟩,
    .write 0 ⟨0x1000, by decide⟩ 9, .read 0 ⟨0x1000, by decide⟩]

theorem areasFit_growing :
    AreasFit 2 (fun _ => [growingArea]) fun _ => 0x4000 where
  short := fun _ => by decide
  inside := by
    intro _ vma member
    cases List.mem_singleton.mp member
    constructor
    · intro vAddress _ below
      apply userHalf_of_lt
      have limit : growingArea.vmEnd.toNat = 0x5000 := by decide
      rw [BitVec.lt_def, limit] at below
      omega
    · decide
  stack := fun _ => by decide

theorem grows_growing (who : Nat) {address : UserAddr}
    (inside : removeFlag address.val = 0x3000) :
    Grows (fun _ => [growingArea]) who address := by
  refine ⟨growingArea, ?_, rfl⟩
  rw [inside]
  rfl

end SbuUnix
