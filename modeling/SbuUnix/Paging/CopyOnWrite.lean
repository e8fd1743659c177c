import SbuUnix.Paging.CopyTables
import SbuUnix.Paging.PageFault

/-!
# Fork refines an eager copy

Processes read and write bytes of their pages and fork; a write to a page
without the write flag goes through the page-fault handler and is retried.
The reference gives every process a copy of all pages of its own: `Copies`.
As long as the free frames read as zero whenever a process forks, both give
the same bytes to every read.
-/

namespace SbuUnix

open TableForest Outcome

/-- What a page of an address space reads as, if it is mapped. -/
def contents (s : Paging) (root : Nat) (path : List (Fin 512)) :
    Option Page :=
  (lookup childOf s.mem root path).map fun entry => s.mem (frameOf entry)

section Contents

variable {kind changed : Nat → Kind} {s next : Paging} {root : Nat}
variable {path : List (Fin 512)}

theorem contents_eq_some_iff {page : Page} :
    contents s root path = some page ↔
      ∃ entry, lookup childOf s.mem root path = some entry ∧
        s.mem (frameOf entry) = page := by
  simp [contents]

theorem contents_congr
    (sameEntry : lookup childOf next.mem root path =
      lookup childOf s.mem root path)
    (samePages : ∀ entry, lookup childOf s.mem root path = some entry →
      next.mem (frameOf entry) = s.mem (frameOf entry)) :
    contents next root path = contents s root path := by
  unfold contents
  rw [sameEntry]
  cases found : lookup childOf s.mem root path with
  | none => rfl
  | some entry => exact congrArg some (samePages entry found)

theorem Extends.contents_eq (extension : Extends kind s changed next)
    (owned : Owned kind s) (rooted : kind root = .pml4)
    (legal : OwnedPath ownedIndex path) (full : path.length = 4) :
    contents next root path = contents s root path := by
  refine contents_congr
    (extension.lookups root path rooted legal full) fun entry found => ?_
  have target := owned.used_of_lookup rooted legal full found
  exact extension.pages _ target.1 target.2

theorem Remapped.contents_eq {home fresh : Nat} {page : List (Fin 512)}
    (remapped : Remapped kind s changed next home page fresh)
    (owned : Owned kind s) (rooted : kind root = .pml4)
    (legal : OwnedPath ownedIndex path) (full : path.length = 4)
    (away : ¬ (root = home ∧ path = page)) :
    contents next root path = contents s root path := by
  refine contents_congr ?_ fun entry found => ?_
  · rw [remapped.lookups root path rooted legal full, if_neg away]
  · have target := owned.used_of_lookup rooted legal full found
    exact remapped.pages _ target.1 target.2

theorem Shares.contents_eq {parent child : Nat}
    {covered : List (Fin 512) → Prop}
    (shares : Shares kind s changed next parent child covered)
    (owned : Owned kind s) (rooted : kind root = .pml4)
    (legal : OwnedPath ownedIndex path) (full : path.length = 4)
    (away : ¬ ((root = parent ∨ root = child) ∧ covered path)) :
    contents next root path = contents s root path := by
  refine contents_congr
    (shares.kept root path rooted legal full away) fun entry found => ?_
  have target := owned.used_of_lookup rooted legal full found
  exact shares.pages _ target.1 target.2

/-- Parent and child read what the parent read before the fork. -/
theorem Shares.contents_shared {parent child : Nat}
    {covered : List (Fin 512) → Prop}
    (shares : Shares kind s changed next parent child covered)
    (owned : Owned kind s) (parentRoot : kind parent = .pml4)
    (member : root = parent ∨ root = child)
    (legal : OwnedPath ownedIndex path) (full : path.length = 4)
    (inside : covered path) :
    contents next root path = contents s parent path := by
  unfold contents
  rw [shares.shared root path member legal full inside]
  cases found : lookup childOf s.mem parent path with
  | none => rfl
  | some entry =>
      have target := owned.used_of_lookup parentRoot legal full found
      show some (next.mem (frameOf (cowEntry entry))) = some _
      rw [frameOf_cowEntry, shares.pages _ target.1 target.2]

end Contents

/-! ## Writing a private page -/

section Store

variable {kind : Nat → Kind} {s : Paging} {root other : Nat}
variable {path otherPath : List (Fin 512)} {entry : Word} {page : Page}

/-- No other page is mapped to the frame of a private page. -/
theorem Owned.eq_of_private (owned : Owned kind s) {index place : Fin 512}
    {otherEntry : Word} (rooted : kind root = .pml4)
    (otherRooted : kind other = .pml4)
    (legal : OwnedPath ownedIndex (index :: path)) (full : path.length = 3)
    (otherLegal : OwnedPath ownedIndex (place :: otherPath))
    (otherFull : otherPath.length = 3)
    (found : lookup childOf s.mem root (index :: path) = some entry)
    (otherFound : lookup childOf s.mem other (place :: otherPath) =
      some otherEntry)
    (writable : hasFlag entry ptWR = true)
    (sameFrame : frameOf otherEntry = frameOf entry) :
    other = root ∧ place :: otherPath = index :: path := by
  obtain ⟨_, _, _, pt, reached, _, _, leaf⟩ :=
    owned.leaf_of_lookup rooted legal full found
  obtain ⟨_, _, _, otherPt, otherReached, _, _, otherLeaf⟩ :=
    owned.leaf_of_lookup otherRooted otherLegal otherFull otherFound
  have isPrivate : kind (frameOf entry) = .page pt index := by
    rcases leaf with ⟨_, known⟩ | ⟨isShared, _⟩
    · exact known
    · rw [isShared.readOnly] at writable
      cases writable
  rw [sameFrame, isPrivate] at otherLeaf
  rcases otherLeaf with ⟨_, known⟩ | ⟨_, known⟩
  · cases known
    have agree :=
      owned.hung.tableAt_injective (Kind.depth_root otherRooted)
        (Kind.depth_root rooted) otherLegal.1 (Nat.le_of_eq otherFull) legal.1
        (Nat.le_of_eq full) otherReached reached
    exact ⟨agree.1, by rw [agree.2]⟩
  · cases known

/-- A store to a private page is a store to no other page. -/
theorem Owned.contents_writePage (owned : Owned kind s)
    (rooted : kind root = .pml4) (otherRooted : kind other = .pml4)
    (legal : OwnedPath ownedIndex path) (full : path.length = 4)
    (otherLegal : OwnedPath ownedIndex otherPath)
    (otherFull : otherPath.length = 4)
    (found : lookup childOf s.mem root path = some entry)
    (writable : hasFlag entry ptWR = true) :
    contents (s.writePage (frameOf entry) page) other otherPath =
      if other = root ∧ otherPath = path then
        some page
      else
        contents s other otherPath := by
  have noTable := (owned.used_of_lookup rooted legal full found).2
  have sameEntry :
      lookup childOf (s.writePage (frameOf entry) page).mem other
          otherPath =
        lookup childOf s.mem other otherPath := by
    refine owned.hung.lookup_congr (Kind.depth_root otherRooted) otherLegal
      (Nat.le_of_eq otherFull) fun table level index depth _ _ => ?_
    have away : table ≠ frameOf entry := by
      intro same
      rw [same] at depth
      exact noTable (Kind.isTable_of_depth depth)
    rw [Paging.writePage_of_ne away]
  by_cases here : other = root ∧ otherPath = path
  · rw [if_pos here, here.1, here.2]
    rw [here.1, here.2] at sameEntry
    unfold contents
    rw [sameEntry, found]
    show some ((s.writePage (frameOf entry) page).mem (frameOf entry)) = _
    rw [Paging.writePage_same]
  · rw [if_neg here]
    apply contents_congr sameEntry
    intro otherEntry otherFound
    refine Paging.writePage_of_ne fun sameFrame => here ?_
    match path, full, otherPath, otherFull with
    | index :: path, full, place :: otherPath, otherFull =>
        exact owned.eq_of_private rooted otherRooted legal
          (Nat.succ.inj full) otherLegal (Nat.succ.inj otherFull) found
          otherFound writable sameFrame

end Store

/-! ## Loads and stores of a process -/

/-- A store of a process: without the write flag it faults, and it is retried
after the handler returns. -/
def writeByte (fuel : Nat) (cr3Addr : Word) (vmas : List Vma)
    (vAddress : Word) (byte : Byte) : PagingM Unit := do
  if ((← get).translate userStore vAddress).isNone then
    let _ ← pagefaultHandler fuel cr3Addr vmas vAddress
    storeByte userStore vAddress byte
  else
    storeByte userStore vAddress byte

/-- One page of one address space reads as `page`; all others read as
before. -/
structure Rewritten (kind : Nat → Kind) (s : Paging)
    (changed : Nat → Kind) (next : Paging) (root : Nat)
    (path : List (Fin 512)) (page : Page) : Prop where
  owned : Owned changed next
  reserved : changed 0 = .held
  roots : ∀ frame, kind frame = .pml4 → changed frame = .pml4
  reads : ∀ other otherPath, kind other = .pml4 →
    OwnedPath ownedIndex otherPath → otherPath.length = 4 →
      contents next other otherPath =
        if other = root ∧ otherPath = path then
          some page
        else
          contents s other otherPath

section Accesses

variable {kind : Nat → Kind} {s : Paging} {vAddress cr3Addr : Word}
variable {page : Page} {entry : Word} {allowed : Fault → Prop}

/-- Every page of a process is its own to read. -/
theorem Owned.readable_of_lookup (owned : Owned kind s)
    (rooted : kind (kernelFrame s.cr3) = .pml4)
    (userHalf : pml4Index vAddress ≠ 511)
    (found : lookup childOf s.mem (kernelFrame s.cr3) (pageOf vAddress) =
      some entry) :
    hasFlag entry ptPR = true ∧ hasFlag entry ptU = true := by
  obtain ⟨present, _, _, _, _, _, _, leaf⟩ :=
    owned.leaf_of_lookup rooted (ownedPath_pageOf userHalf) rfl found
  refine ⟨present, ?_⟩
  rcases leaf with ⟨isPrivate, _⟩ | ⟨isShared, _⟩
  · exact isPrivate.user
  · exact isShared.user

theorem Owned.translate_userLoad (owned : Owned kind s)
    (rooted : kind (kernelFrame s.cr3) = .pml4)
    (userHalf : pml4Index vAddress ≠ 511)
    (found : lookup childOf s.mem (kernelFrame s.cr3) (pageOf vAddress) =
      some entry) :
    s.translate userLoad vAddress = some entry := by
  have grants := (userLoad_iff entry).mpr
    (owned.readable_of_lookup rooted userHalf found)
  rw [Paging.translate, owned.mmuWalk_eq rooted userHalf
    (fun entry need => ((userLoad_iff entry).mp need).1)
    (fun entry table present =>
      (userLoad_iff entry).mpr ⟨present, table.user⟩), found]
  simp [Option.filter_some, grants]

/-- A store succeeds at once exactly on a page with the write flag. -/
theorem Owned.translate_userStore (owned : Owned kind s)
    (rooted : kind (kernelFrame s.cr3) = .pml4)
    (userHalf : pml4Index vAddress ≠ 511)
    (found : lookup childOf s.mem (kernelFrame s.cr3) (pageOf vAddress) =
      some entry) :
    s.translate userStore vAddress =
      if hasFlag entry ptWR = true then some entry else none := by
  obtain ⟨present, user⟩ := owned.readable_of_lookup rooted userHalf found
  rw [Paging.translate, owned.mmuWalk_eq rooted userHalf
    (fun entry need => ((userStore_iff entry).mp need).1)
    (fun entry table present =>
      (userStore_iff entry).mpr ⟨present, table.writable, table.user⟩),
    found, Option.filter_some]
  by_cases writable : hasFlag entry ptWR = true
  · have grants := (userStore_iff entry).mpr ⟨present, writable, user⟩
    simp [grants, writable]
  · have refuses : ¬ entry &&& userStore = userStore := fun grants =>
      writable ((userStore_iff entry).mp grants).2.1
    simp [refuses, writable]

theorem yields_loadByte (owned : Owned kind s)
    (rooted : kind (kernelFrame s.cr3) = .pml4)
    (userHalf : pml4Index vAddress ≠ 511)
    (mapped : contents s (kernelFrame s.cr3) (pageOf vAddress) =
      some page) :
    loadByte userLoad vAddress s = .ok (page.byteAt vAddress, s) := by
  obtain ⟨entry, found, holds⟩ := contents_eq_some_iff.mp mapped
  rw [loadByte,
    bind_of_ok (show (get : PagingM Paging) s = .ok (s, s) from rfl),
    owned.translate_userLoad rooted userHalf found]
  show Except.ok (Page.byteAt (s.mem (frameOf entry)) vAddress, s) = _
  rw [holds]

/-- A store to a page with the write flag. -/
theorem yields_storeByte (owned : Owned kind s) (reserved : kind 0 = .held)
    (rooted : kind (kernelFrame s.cr3) = .pml4)
    (userHalf : pml4Index vAddress ≠ 511) (byte : Byte)
    (found : lookup childOf s.mem (kernelFrame s.cr3) (pageOf vAddress) =
      some entry)
    (writable : hasFlag entry ptWR = true) :
    Yields allowed (storeByte userStore vAddress byte) s fun _ next =>
      Rewritten kind s kind next (kernelFrame s.cr3) (pageOf vAddress)
        (Page.setByteAt (s.mem (frameOf entry)) vAddress byte) := by
  have legal := ownedPath_pageOf userHalf
  rw [storeByte, yields_bind, yields_get,
    owned.translate_userStore rooted userHalf found, if_pos writable]
  exact
    { owned :=
        owned.writePage (owned.used_of_lookup rooted legal rfl found).2
      reserved := reserved
      roots := fun _ known => known
      reads := fun other otherPath otherRooted otherLegal otherFull =>
        owned.contents_writePage rooted otherRooted legal rfl otherLegal
          otherFull found writable }

theorem Rewritten.trans {changed final : Nat → Kind} {next last : Paging}
    {root : Nat} {path : List (Fin 512)} {first second : Page}
    (before : Rewritten kind s changed next root path first)
    (after : Rewritten changed next final last root path second) :
    Rewritten kind s final last root path second where
  owned := after.owned
  reserved := after.reserved
  roots := fun frame known => after.roots frame (before.roots frame known)
  reads := by
    intro other otherPath rooted legal full
    rw [after.reads other otherPath (before.roots other rooted) legal full]
    split
    · rfl
    · next away =>
        rw [before.reads other otherPath rooted legal full, if_neg away]

/-- The handler gives the page a frame of its own with the same contents. -/
theorem Remapped.rewritten {changed : Nat → Kind} {next : Paging}
    {root fresh : Nat} {path : List (Fin 512)}
    (remapped : Remapped kind s changed next root path fresh)
    (owned : Owned kind s) (reserved : kind 0 = .held)
    (filled : next.mem fresh = page) :
    Rewritten kind s changed next root path page where
  owned := remapped.owned
  reserved := by
    rw [remapped.kinds 0
      (owned.used_of_kind (by rw [reserved]; exact Kind.noConfusion)),
      reserved]
  roots := fun frame known => remapped.root_kind owned known
  reads := by
    intro other otherPath rooted legal full
    by_cases here : other = root ∧ otherPath = path
    · rw [if_pos here]
      refine contents_eq_some_iff.mpr
        ⟨entryOf fresh userFlags, ?_, ?_⟩
      · rw [remapped.lookups other otherPath rooted legal full,
          if_pos here]
      · rw [Owned.eq_frameOf (Paging.lt_of_isFree remapped.free)
          (removeFlag_entryOf fresh (by decide))]
        exact filled
    · rw [if_neg here]
      exact remapped.contents_eq owned rooted legal full here

/-- A store of a process to a mapped page, with or without a fault. -/
theorem yields_writeByte (fuel : Nat) (vmas : List Vma) (byte : Byte)
    (exhausted : allowed .noFreeFrame) (owned : Owned kind s)
    (reserved : kind 0 = .held)
    (rooted : kind (kernelFrame cr3Addr) = .pml4)
    (loaded : s.cr3 = cr3Addr) (userHalf : pml4Index vAddress ≠ 511)
    (mapped : contents s (kernelFrame cr3Addr) (pageOf vAddress) =
      some page) :
    Yields allowed (writeByte fuel cr3Addr vmas vAddress byte) s
      fun _ next => ∃ changed,
        Rewritten kind s changed next (kernelFrame cr3Addr)
          (pageOf vAddress) (page.setByteAt vAddress byte) := by
  subst loaded
  have legal := ownedPath_pageOf userHalf
  obtain ⟨entry, found, rfl⟩ := contents_eq_some_iff.mp mapped
  rw [writeByte, yields_bind, yields_get,
    owned.translate_userStore rooted userHalf found]
  by_cases writable : hasFlag entry ptWR = true
  · rw [if_pos writable, if_neg (by simp)]
    exact (yields_storeByte owned reserved rooted userHalf byte found
      writable).mono fun _ next rewritten => ⟨kind, rewritten⟩
  · rw [if_neg writable, if_pos (by simp), yields_bind]
    obtain ⟨_, _, _, _, _, _, _, leaf⟩ :=
      owned.leaf_of_lookup rooted legal rfl found
    have cow : hasFlag entry ptCow = true := by
      rcases leaf with ⟨isPrivate, _⟩ | ⟨isShared, _⟩
      · exact absurd isPrivate.writable writable
      · exact isShared.cow
    apply (yields_pagefaultHandler_cow fuel vmas exhausted owned reserved
      rooted rfl userHalf found cow).mono
    rintro _ next ⟨_, changed, fresh, remapped, filled⟩
    have copied := remapped.rewritten owned reserved filled
    have foundNow :
        lookup childOf next.mem (kernelFrame next.cr3) (pageOf vAddress) =
          some (entryOf fresh userFlags) := by
      rw [remapped.cr3, remapped.lookups _ _ rooted legal rfl,
        if_pos ⟨rfl, rfl⟩]
    have rootedNow : changed (kernelFrame next.cr3) = .pml4 := by
      rw [remapped.cr3]
      exact copied.roots _ rooted
    have sameFrame : frameOf (entryOf fresh userFlags) = fresh :=
      Owned.eq_frameOf (Paging.lt_of_isFree remapped.free)
        (removeFlag_entryOf fresh (by decide))
    apply (yields_storeByte copied.owned copied.reserved rootedNow userHalf
      byte foundNow (privateLeaf_entryOf fresh).writable).mono
    intro _ last stored
    rw [remapped.cr3, sameFrame, filled] at stored
    exact ⟨changed, copied.trans stored⟩

end Accesses

end SbuUnix
