import SbuUnix.Paging.BootTables

/-!
# The memory map of the loader

`start` of `sys/main.c` looks for the memory map among the modules that the
loader left, takes its largest region of memory and sets up paging for it.
`modulep` is an index into the loader's words of 32 bits; a module is its type,
its size and its data.
-/

namespace SbuUnix

open Outcome

/-- The words behind `modulep`. -/
abbrev LoaderData := Nat → BitVec 32

/-- `struct smap_t` -/
structure Smap where
  base : Word
  length : Word
  type : BitVec 32

/-- `max_size` and `smap_max` -/
structure SmapMax where
  maxSize : Word := 0
  base : Word := 0
  length : Word := 0

/-- Two words of the loader as one of 64 bits. -/
def wideWord (low high : BitVec 32) : Word :=
  high.setWidth 64 <<< 32 ||| low.setWidth 64

/-- The packed structure at an index. -/
def smapAt (data : LoaderData) (smap : Nat) : Smap where
  base := wideWord (data smap) (data (smap + 1))
  length := wideWord (data (smap + 2)) (data (smap + 3))
  type := data (smap + 4)

/-- `while(modulep[0] != 0x9001) modulep += modulep[1]+2;` -/
def findSmap (data : LoaderData) : Nat → Nat → BootM Nat
  | 0, _ => throw .outOfFuel
  | fuel + 1, modulep =>
      if data modulep = 0x9001 then
        pure modulep
      else
        findSmap data fuel (modulep + (data (modulep + 1) + 2).toNat)

/-- The body of the loop over the regions, without the line it prints. -/
def SmapMax.visit (max : SmapMax) (smap : Smap) : SmapMax :=
  if smap.type = 1 ∧ smap.length ≠ 0 then
    if smap.length > max.maxSize then
      { maxSize := smap.length, base := smap.base, length := smap.length }
    else
      max
  else
    max

/-- The loop over the regions; `stop` is in bytes. -/
def visitSmaps (data : LoaderData) (stop : Nat) :
    Nat → Nat → SmapMax → BootM SmapMax
  | 0, _, _ => throw .outOfFuel
  | fuel + 1, smap, max =>
      if 4 * smap < stop then
        visitSmaps data stop fuel (smap + 5) (max.visit (smapAt data smap))
      else
        pure max

/-- `load_CR3`; that `free_map` is read at its address in the linear map from
now on is not visible here. -/
def loadCR3 : BootM Unit := do
  let pml4Addr := (← get).cr3
  onFrames (setCR3 pml4Addr)
  modify fun k => { k with pml4 := kernelAddr ||| k.pml4 }

/-- `start` as far as memory goes. -/
def startPaging (fuel : Nat) (data : LoaderData)
    (kernmem physbase physfree : Word) : BootM Unit := do
  let modulep ← findSmap data fuel 0
  let max ← visitSmaps data (4 * modulep + (data (modulep + 1)).toNat + 2 * 4)
    fuel (modulep + 2) {}
  initPaging physbase physfree max.base max.length
  setupPageTables fuel kernmem physbase physfree
  setIdentityPaging fuel
  loadCR3

/-! ## What the loader leaves -/

/-- The records of some modules, one after the other. -/
def Modules (data : LoaderData) : Nat → List (BitVec 32 × BitVec 32) → Nat →
    Prop
  | place, [], stop => place = stop
  | place, (type, size) :: rest, stop =>
      data place = type ∧ data (place + 1) = size ∧
        Modules data (place + (size + 2).toNat) rest stop

/-- A memory map with these regions. -/
structure HasSmaps (data : LoaderData) (modulep : Nat) (smaps : List Smap) :
    Prop where
  type : data modulep = 0x9001
  size : (data (modulep + 1)).toNat = 20 * smaps.length
  smaps : ∀ (i : Nat) (smap : Smap), smaps[i]? = some smap →
    smapAt data (modulep + 2 + 5 * i) = smap

/-- Memory that `start` may take. -/
def Smap.Usable (smap : Smap) : Prop :=
  smap.type = 1 ∧ smap.length ≠ 0

/-- The first one of the largest usable regions. -/
structure Largest (smaps : List Smap) (smap : Smap) : Prop where
  usable : smap.Usable
  split : ∃ before after, smaps = before ++ smap :: after ∧
    (∀ other ∈ before, other.Usable → other.length < smap.length) ∧
      ∀ other ∈ after, other.Usable → other.length ≤ smap.length

/-! ## The search -/

section Search

variable {data : LoaderData} {fuel place stop : Nat} {k : Boot}

/-- The search passes the modules of other types. -/
theorem findSmap_eq {modules : List (BitVec 32 × BitVec 32)}
    (found : data stop = 0x9001) :
    ∀ {fuel place : Nat}, Modules data place modules stop →
      (∀ header ∈ modules, header.1 ≠ 0x9001) → modules.length < fuel →
        findSmap data fuel place k = .ok (stop, k) := by
  induction modules with
  | nil =>
      rintro fuel place rfl _ enough
      obtain ⟨passes, rfl⟩ : ∃ passes, fuel = passes + 1 :=
        ⟨fuel - 1, by simp only [List.length_nil] at enough; omega⟩
      rw [findSmap, if_pos found]
      rfl
  | cons header rest inductionHypothesis =>
      rintro fuel place ⟨type, size, modules⟩ others enough
      obtain ⟨passes, rfl⟩ : ∃ passes, fuel = passes + 1 :=
        ⟨fuel - 1, by omega⟩
      have other := others header List.mem_cons_self
      rw [findSmap, type, if_neg other, size]
      apply inductionHypothesis modules
      · intro later member
        exact others later (List.mem_cons_of_mem header member)
      · rw [List.length_cons] at enough
        omega

/-- The loop visits the regions in their order. -/
theorem visitSmaps_eq {smaps : List Smap} :
    ∀ {fuel place : Nat} {max : SmapMax},
      (∀ (i : Nat) (smap : Smap), smaps[i]? = some smap →
        smapAt data (place + 5 * i) = smap) →
      stop = 4 * place + 20 * smaps.length → smaps.length < fuel →
        visitSmaps data stop fuel place max k =
          .ok (smaps.foldl SmapMax.visit max, k) := by
  induction smaps with
  | nil =>
      intro fuel place max _ ends enough
      obtain ⟨passes, rfl⟩ : ∃ passes, fuel = passes + 1 :=
        ⟨fuel - 1, by simp only [List.length_nil] at enough; omega⟩
      rw [List.length_nil] at ends
      rw [visitSmaps, if_neg (by omega)]
      rfl
  | cons smap rest inductionHypothesis =>
      intro fuel place max here ends enough
      rw [List.length_cons] at ends enough
      obtain ⟨passes, rfl⟩ : ∃ passes, fuel = passes + 1 :=
        ⟨fuel - 1, by omega⟩
      have first := here 0 smap rfl
      rw [Nat.mul_zero, Nat.add_zero] at first
      rw [visitSmaps, if_pos (by omega), first, List.foldl_cons]
      apply inductionHypothesis
      · intro i later member
        rw [← here (i + 1) later (by rw [List.getElem?_cons_succ, member])]
        congr 1
        omega
      · omega
      · omega

end Search

/-! ## The largest region -/

section Choice

variable {max : SmapMax} {smap : Smap} {smaps : List Smap}

/-- A larger region takes the place of the maximum. -/
theorem SmapMax.visit_of_lt (usable : smap.Usable)
    (larger : max.maxSize < smap.length) :
    max.visit smap =
      { maxSize := smap.length, base := smap.base, length := smap.length } := by
  obtain ⟨memory, nonempty⟩ := usable
  unfold visit
  rw [if_pos ⟨memory, nonempty⟩, if_pos larger]

/-- Regions that are no larger change nothing. -/
theorem foldl_visit_of_le
    (smaller : ∀ other ∈ smaps, other.Usable → other.length ≤ max.maxSize) :
    smaps.foldl SmapMax.visit max = max := by
  induction smaps with
  | nil => rfl
  | cons first rest inductionHypothesis =>
      have same : max.visit first = max := by
        unfold SmapMax.visit
        split
        · next usable =>
            have bound := smaller first List.mem_cons_self usable
            exact if_neg (BitVec.not_lt.mpr bound)
        · rfl
      rw [List.foldl_cons, same]
      exact inductionHypothesis fun other member =>
        smaller other (List.mem_cons_of_mem first member)

/-- The maximum stays below what exceeds all regions. -/
theorem foldl_visit_lt {bound : Word} :
    ∀ {max : SmapMax}, max.maxSize < bound →
      (∀ other ∈ smaps, other.Usable → other.length < bound) →
        (smaps.foldl SmapMax.visit max).maxSize < bound := by
  induction smaps with
  | nil => exact fun start _ => start
  | cons first rest inductionHypothesis =>
      intro max start smaller
      rw [List.foldl_cons]
      apply inductionHypothesis
      · unfold SmapMax.visit
        split
        · next usable =>
            split
            · exact smaller first List.mem_cons_self usable
            · exact start
        · exact start
      · intro other member
        exact smaller other (List.mem_cons_of_mem first member)

/-- The loop takes the first one of the largest regions. -/
theorem foldl_visit_largest (largest : Largest smaps smap) :
    smaps.foldl SmapMax.visit {} =
      { maxSize := smap.length, base := smap.base, length := smap.length } := by
  obtain ⟨before, after, rfl, less, noMore⟩ := largest.split
  have positive : (0 : Word) < smap.length := by
    have nonzero := largest.usable.2
    bv_omega
  have below : (before.foldl SmapMax.visit {}).maxSize < smap.length :=
    foldl_visit_lt positive less
  rw [List.foldl_append, List.foldl_cons,
    SmapMax.visit_of_lt largest.usable below]
  exact foldl_visit_of_le noMore

end Choice

end SbuUnix
