import SbuUnix.Paging.Translation
import SbuUnix.Process.Execve
import SbuUnix.Tarfs.Strings

/-!
# Memory of a process as a function

`UserMemory region place s m` says that the addresses of a region are mapped
to bytes `m` of frames that are not page tables, with the rights of a load in
ring 3, so that a store changes one byte of `m` and no translation.
-/

namespace SbuUnix

open Outcome

/-- The bytes of a mapped region; `place` is the frame of each address. -/
structure UserMemory (region : Word → Prop) (place : Word → Nat) (s : Paging)
    (m : Word → Byte) : Prop where
  walks : ∀ mem : Nat → Page,
    (∀ frame, (∀ v, region v → frame ≠ place v) → mem frame = s.mem frame) →
      ∀ v, region v → ∃ entry,
        mmuWalk mem userLoad (kernelFrame s.cr3) (pageOf v).reverse =
            some entry ∧
          frameOf entry = place v
  holds : ∀ v, region v → (s.mem (place v)).byteAt v = m v
  apart : ∀ v other, region v → region other → v ≠ other →
    place v = place other → v.toNat % pageSize ≠ other.toNat % pageSize

def withByte (m : Word → Byte) (v : Word) (byte : Byte) : Word → Byte :=
  fun other => if other = v then byte else m other

/-- What a process reads, the kernel reads as well. -/
theorem mmuWalk_ptPR {mem : Nat → Page} {entry : Word} :
    ∀ {path : List (Fin 512)} {table : Nat},
      mmuWalk mem userLoad table path = some entry →
        mmuWalk mem ptPR table path = some entry := by
  have present : ∀ word : Word, word &&& userLoad = userLoad →
      word &&& ptPR = ptPR :=
    fun word rights => ((and_or_eq_iff word ptPR ptU).mp rights).1
  intro path
  induction path with
  | nil => exact fun found => found
  | cons index rest inductionHypothesis =>
      intro table found
      cases rest with
      | nil =>
          rw [mmuWalk] at found ⊢
          split at found
          · next rights => rwa [if_pos (present _ rights)]
          · cases found
      | cons second rest =>
          unfold mmuWalk at found ⊢
          split at found
          · next rights =>
            rw [if_pos (present _ rights)]
            exact inductionHypothesis found
          · cases found

section Access

variable {region : Word → Prop} {place : Word → Nat} {s : Paging}
variable {m : Word → Byte} {v : Word}

theorem UserMemory.translate_userLoad (memory : UserMemory region place s m)
    (inside : region v) :
    ∃ entry, s.translate userLoad v = some entry ∧ frameOf entry = place v :=
  memory.walks s.mem (fun _ _ => rfl) v inside

theorem UserMemory.translate (memory : UserMemory region place s m)
    (inside : region v) :
    ∃ entry, s.translate ptPR v = some entry ∧ frameOf entry = place v := by
  obtain ⟨entry, found, frame⟩ := memory.translate_userLoad inside
  exact ⟨entry, mmuWalk_ptPR found, frame⟩

theorem UserMemory.loadByte_of (memory : UserMemory region place s m)
    (inside : region v) {need : Word}
    (mapped : ∃ entry, s.translate need v = some entry ∧
      frameOf entry = place v) :
    loadByte need v s = .ok (m v, s) := by
  obtain ⟨entry, found, frame⟩ := mapped
  unfold SbuUnix.loadByte
  rw [bind_of_ok (show (get : PagingM Paging) s = .ok (s, s) from rfl), found]
  change Except.ok (Page.byteAt (s.mem (frameOf entry)) v, s) = _
  rw [frame, memory.holds v inside]

theorem UserMemory.loadByte (memory : UserMemory region place s m)
    (inside : region v) : loadByte ptPR v s = .ok (m v, s) :=
  memory.loadByte_of inside (memory.translate inside)

theorem UserMemory.loadByte_user (memory : UserMemory region place s m)
    (inside : region v) : SbuUnix.loadByte userLoad v s = .ok (m v, s) :=
  memory.loadByte_of inside (memory.translate_userLoad inside)

/-- A store changes one byte. -/
theorem UserMemory.storeByte (memory : UserMemory region place s m)
    (inside : region v) (byte : Byte) :
    ∃ next, storeByte ptPR v byte s = .ok ((), next) ∧ next.cr3 = s.cr3 ∧
      UserMemory region place next (withByte m v byte) := by
  obtain ⟨entry, found, frame⟩ := memory.translate inside
  have stored : SbuUnix.storeByte ptPR v byte s =
      .ok ((), s.writePage (place v)
        ((s.mem (place v)).setByteAt v byte)) := by
    unfold SbuUnix.storeByte
    rw [bind_of_ok (show (get : PagingM Paging) s = .ok (s, s) from rfl),
      found, ← frame]
    rfl
  refine ⟨_, stored, rfl, ?_, ?_, memory.apart⟩
  · intro mem same other otherInside
    apply memory.walks mem _ other otherInside
    intro frame away
    rw [same frame away, Paging.writePage_of_ne (away v inside)]
  · intro other otherInside
    unfold withByte
    by_cases here : other = v
    · rw [here, if_pos rfl, Paging.writePage_same]
      exact Page.byteAt_setByteAt_same _ v byte
    · rw [if_neg here, ← memory.holds other otherInside]
      by_cases sameFrame : place other = place v
      · rw [sameFrame, Paging.writePage_same]
        exact Page.byteAt_setByteAt_of_ne _ byte
          (memory.apart other v otherInside inside here sameFrame)
      · rw [Paging.writePage_of_ne sameFrame]

/-- The bytes of a memory that is copied to from an address on. -/
def copiedTo (m : Word → Byte) (source : Nat → Byte) (dest : Word) :
    Nat → Word → Byte
  | 0 => m
  | count + 1 =>
      withByte (copiedTo m source dest count) (dest + BitVec.ofNat 64 count)
        (source count)

theorem copiedTo_of_ne {source : Nat → Byte} {dest : Word} {count : Nat}
    (outside : ∀ index < count, v ≠ dest + BitVec.ofNat 64 index) :
    copiedTo m source dest count v = m v := by
  induction count with
  | zero => rfl
  | succ count inductionHypothesis =>
      rw [copiedTo, withByte, if_neg (outside count (Nat.lt_succ_self count))]
      exact inductionHypothesis fun index below =>
        outside index (Nat.lt_succ_of_lt below)

theorem addr_add_inj {addr : Word} {first second : Nat}
    (firstSmall : first < 2 ^ 64) (secondSmall : second < 2 ^ 64)
    (same : addr + BitVec.ofNat 64 first = addr + BitVec.ofNat 64 second) :
    first = second := by
  have offsets := congrArg BitVec.toNat (BitVec.add_right_inj addr |>.mp same)
  rw [BitVec.toNat_ofNat, BitVec.toNat_ofNat] at offsets
  omega

theorem copiedTo_same {source : Nat → Byte} {dest : Word} {count index : Nat}
    (small : count ≤ 2 ^ 64) (below : index < count) :
    copiedTo m source dest count (dest + BitVec.ofNat 64 index) =
      source index := by
  induction count with
  | zero => exact absurd below (Nat.not_lt_zero index)
  | succ count inductionHypothesis =>
      rw [copiedTo, withByte]
      split
      · next same =>
        rw [addr_add_inj (by omega) (by omega) same]
      · next other =>
        have different : index ≠ count := fun same => other (by rw [same])
        exact inductionHypothesis (by omega) (by omega)

/-- `memcpy` into a region. -/
theorem UserMemory.memcpyOut (memory : UserMemory region place s m)
    (source : Nat → Byte) {dest : Word} {count : Nat}
    (inside : ∀ index < count, region (dest + BitVec.ofNat 64 index)) :
    ∃ next, memcpyOut source dest count s = .ok ((), next) ∧
      next.cr3 = s.cr3 ∧
        UserMemory region place next (copiedTo m source dest count) := by
  have copies : Yields (fun _ => False) (SbuUnix.memcpyOut source dest count) s
      fun _ next => next.cr3 = s.cr3 ∧
        UserMemory region place next (copiedTo m source dest count) := by
    unfold SbuUnix.memcpyOut
    apply yields_forUpto (fun index current => current.cr3 = s.cr3 ∧
      UserMemory region place current (copiedTo m source dest index)) count
        ⟨rfl, memory⟩
    rintro index below current ⟨root, holds⟩
    obtain ⟨next, stored, sameRoot, later⟩ :=
      holds.storeByte (inside index below) (source index)
    rw [yields_iff_of_ok stored]
    exact ⟨sameRoot.trans root, later⟩
  obtain ⟨_, next, returned, root, holds⟩ :=
    copies.returns fun _ none => none.elim
  exact ⟨next, returned, root, holds⟩

/-- A page that is mapped to a frame. -/
theorem userMemory_page {base : Word} {frame : Nat}
    (walks : ∀ mem : Nat → Page,
      (∀ other, other ≠ frame → mem other = s.mem other) → ∃ entry,
        mmuWalk mem userLoad (kernelFrame s.cr3) (pageOf base).reverse =
            some entry ∧
          frameOf entry = frame) :
    UserMemory (fun addr => removeFlag addr = removeFlag base)
      (fun _ => frame) s (Page.byteAt (s.mem frame)) where
  walks := by
    intro mem same addr inside
    rw [← pageOf_removeFlag addr, inside, pageOf_removeFlag]
    exact walks mem fun other away => same other fun _ _ => away
  holds := fun _ _ => rfl
  apart := by
    intro addr other inside otherInside different _ sameOffset
    apply different
    have pages := congrArg BitVec.toNat (inside.trans otherInside.symm)
    rw [toNat_removeFlag, toNat_removeFlag] at pages
    unfold pageSize at sameOffset pages
    apply BitVec.eq_of_toNat_eq
    omega

end Access

section Kernel

variable {region : Word → Prop} {place : Word → Nat} {k : Kernel}
variable {m : Word → Byte} {v : Word}

theorem loadUser_eq (memory : UserMemory region place k.paging m)
    (inside : region v) : loadUser v k = .ok (m v, k) := by
  unfold loadUser runPaging zoom
  rw [memory.loadByte inside]

theorem storeUser_eq (memory : UserMemory region place k.paging m)
    (inside : region v) (byte : Byte) :
    ∃ next, storeUser v byte k = .ok ((), next) ∧
      UserMemory region place next.paging (withByte m v byte) := by
  obtain ⟨paging, stored, -, later⟩ := memory.storeByte inside byte
  refine ⟨{ k with paging := paging }, ?_, later⟩
  unfold storeUser runPaging zoom
  rw [stored]

end Kernel

end SbuUnix
