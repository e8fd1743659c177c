import SbuUnix.Paging.FrameLeak
import SbuUnix.Paging.LinearMap

/-!
# Work inside one address space

`Confined kind root s changed next` states what an operation on the user half
of one address space keeps: all words of frames in use that are no table and
no page of it, and its own entry 511.  The kernel half of every address space
then is translated as before, because its tables are never tables of a user
half.
-/

namespace SbuUnix

open TableForest Outcome

/-! ## The frames of an address space -/

/-- A walk in the user half leads to a page in the frame. -/
def IsPageOf (s : Paging) (root frame : Nat) : Prop :=
  ∃ path entry, OwnedPath ownedIndex path ∧ path.length = 4 ∧
    lookup childOf s.mem root path = some entry ∧ frameOf entry = frame

/-- The frame is a table or a page of the user half. -/
def Belongs (s : Paging) (root frame : Nat) : Prop :=
  IsTableOf s root frame ∨ IsPageOf s root frame

structure Confined (kind : Nat → Kind) (root : Nat) (s : Paging)
    (changed : Nat → Kind) (next : Paging) : Prop where
  owned : Owned changed next
  kinds : ∀ frame, s.isFree frame = false → changed frame = kind frame
  words : ∀ frame, s.isFree frame = false → ¬ Belongs s root frame →
    next.mem frame = s.mem frame
  top : next.mem root 511 = s.mem root 511
  belongs : ∀ frame, s.isFree frame = false → Belongs next root frame →
    Belongs s root frame
  fewer : ∀ frame, next.isFree frame = true → s.isFree frame = true
  untouched : ∀ frame, next.isFree frame = true →
    next.mem frame = s.mem frame
  cr3 : next.cr3 = s.cr3

section Frames

variable {kind changed final : Nat → Kind} {root frame : Nat}
variable {s next last : Paging}

/-- A PML4 page is a table of its own address space only. -/
theorem Owned.eq_root_of_isTableOf (owned : Owned kind s)
    (rooted : kind root = .pml4) (frameRooted : kind frame = .pml4)
    (isTable : IsTableOf s root frame) : frame = root := by
  obtain ⟨path, legal, short, reached⟩ := isTable
  have depth := owned.hung.depth_tableAt (Kind.depth_root rooted) legal short
    reached
  rw [frameRooted] at depth
  have length : path.length = 0 := (Option.some.inj depth).symm
  have empty : path = [] := List.eq_nil_of_length_eq_zero length
  subst empty
  cases reached
  rfl

theorem Owned.depth_of_isTableOf (owned : Owned kind s)
    (rooted : kind root = .pml4) (isTable : IsTableOf s root frame) :
    ∃ level, (kind frame).depth = some level := by
  obtain ⟨path, legal, short, reached⟩ := isTable
  exact ⟨path.length, owned.hung.depth_tableAt (Kind.depth_root rooted) legal
    short reached⟩

/-- The frame of a page is in use and no table. -/
theorem Owned.page_of_isPageOf (owned : Owned kind s)
    (rooted : kind root = .pml4) (isPage : IsPageOf s root frame) :
    s.isFree frame = false ∧
      ((∃ pt index, kind frame = .page pt index) ∨ kind frame = .shared) := by
  obtain ⟨path, entry, legal, full, found, rfl⟩ := isPage
  refine ⟨(owned.used_of_lookup rooted legal full found).1, ?_⟩
  match path, full with
  | index :: path, full =>
      obtain ⟨_, _, _, pt, _, _, _, leaf⟩ :=
        owned.leaf_of_lookup rooted legal (Nat.succ.inj full) found
      rcases leaf with ⟨_, known⟩ | ⟨_, known⟩
      · exact Or.inl ⟨pt, index, known⟩
      · exact Or.inr known

/-- Tables of the kernel half belong to no user half. -/
theorem Owned.not_belongs_kernelTable (owned : Owned kind s)
    (rooted : kind root = .pml4) {level : Nat}
    (known : kind frame = .kernelTable level) : ¬ Belongs s root frame := by
  rintro (isTable | isPage)
  · obtain ⟨depth, same⟩ := owned.depth_of_isTableOf rooted isTable
    rw [known] at same
    cases same
  · rcases (owned.page_of_isPageOf rooted isPage).2 with
      ⟨pt, index, same⟩ | same
    · rw [known] at same
      cases same
    · rw [known] at same
      cases same

/-- Another PML4 page belongs to no user half. -/
theorem Owned.not_belongs_root (owned : Owned kind s)
    (rooted : kind root = .pml4) (frameRooted : kind frame = .pml4)
    (different : frame ≠ root) : ¬ Belongs s root frame := by
  rintro (isTable | isPage)
  · exact different
      (owned.eq_root_of_isTableOf rooted frameRooted isTable)
  · rcases (owned.page_of_isPageOf rooted isPage).2 with
      ⟨pt, index, same⟩ | same
    · rw [frameRooted] at same
      cases same
    · rw [frameRooted] at same
      cases same

/-- Only the tables decide what belongs to an address space. -/
theorem Owned.belongs_congr (owned : Owned kind s)
    (rooted : kind root = .pml4)
    (same : ∀ table level position, (kind table).depth = some level →
      next.mem table position = s.mem table position) :
    Belongs next root frame ↔ Belongs s root frame := by
  have walks : ∀ path, OwnedPath ownedIndex path → path.length ≤ 3 →
      tableAt childOf next.mem root path =
        tableAt childOf s.mem root path := by
    intro path legal short
    apply owned.hung.tableAt_congr (Kind.depth_root rooted) legal
      (Nat.le_succ_of_le short)
    intro table level position depth _ _
    rw [same table level position depth]
  have lookups : ∀ path, OwnedPath ownedIndex path → path.length = 4 →
      lookup childOf next.mem root path =
        lookup childOf s.mem root path := by
    intro path legal full
    apply owned.hung.lookup_congr (Kind.depth_root rooted) legal
      (Nat.le_of_eq full)
    intro table level position depth _ _
    exact same table level position depth
  apply or_congr
  · constructor
    · rintro ⟨path, legal, short, reached⟩
      exact ⟨path, legal, short, by rw [← walks path legal short, reached]⟩
    · rintro ⟨path, legal, short, reached⟩
      exact ⟨path, legal, short, by rw [walks path legal short, reached]⟩
  · constructor
    · rintro ⟨path, entry, legal, full, found, here⟩
      exact ⟨path, entry, legal, full,
        by rw [← lookups path legal full, found], here⟩
    · rintro ⟨path, entry, legal, full, found, here⟩
      exact ⟨path, entry, legal, full,
        by rw [lookups path legal full, found], here⟩

theorem Confined.refl (owned : Owned kind s) :
    Confined kind root s kind s where
  owned := owned
  kinds := fun _ _ => rfl
  words := fun _ _ _ => rfl
  top := rfl
  belongs := fun _ _ here => here
  fewer := fun _ free => free
  untouched := fun _ _ => rfl
  cr3 := rfl

theorem Confined.used (first : Confined kind root s changed next)
    (used : s.isFree frame = false) : next.isFree frame = false := by
  cases free : next.isFree frame with
  | false => rfl
  | true =>
      rw [first.fewer frame free] at used
      cases used

theorem Confined.rooted (first : Confined kind root s changed next)
    (owned : Owned kind s) (frameRooted : kind frame = .pml4) :
    changed frame = .pml4 := by
  rw [first.kinds frame (owned.used_of_kind (by rw [frameRooted]; decide)),
    frameRooted]

theorem Confined.trans (first : Confined kind root s changed next)
    (second : Confined changed root next final last) :
    Confined kind root s final last where
  owned := second.owned
  kinds := by
    intro frame used
    rw [second.kinds frame (first.used used), first.kinds frame used]
  words := by
    intro frame used foreign
    have foreignNow : ¬ Belongs next root frame :=
      fun here => foreign (first.belongs frame used here)
    rw [second.words frame (first.used used) foreignNow,
      first.words frame used foreign]
  top := second.top.trans first.top
  belongs := fun frame used here =>
    first.belongs frame used (second.belongs frame (first.used used) here)
  fewer := fun frame free => first.fewer frame (second.fewer frame free)
  untouched := by
    intro frame free
    rw [second.untouched frame free,
      first.untouched frame (second.fewer frame free)]
  cr3 := second.cr3.trans first.cr3

end Frames

/-! ## The kernel half -/

section KernelHalf

variable {kind changed : Nat → Kind} {root other table : Nat}
variable {s next : Paging} {vAddress need : Word}

/-- Below entry 511 and below a kernel table hang kernel tables. -/
theorem Owned.kernelTable_below_root (owned : Owned kind s)
    (rooted : kind root = .pml4)
    (present : hasFlag (s.mem root 511) ptPR = true) :
    kind (frameOf (s.mem root 511)) = .kernelTable 1 := by
  have allowed := owned.entries root 511
  unfold EntryOk at allowed
  simp only [rooted, if_pos] at allowed
  obtain ⟨target, small, address, known⟩ := allowed present
  rw [Owned.eq_frameOf small address, known]

theorem Owned.kernelTable_below (owned : Owned kind s) {level : Nat}
    {index : Fin 512} (known : kind table = .kernelTable level)
    (inner : level < 3)
    (present : hasFlag (s.mem table index) ptPR = true) :
    kind (frameOf (s.mem table index)) = .kernelTable (level + 1) := by
  have allowed := owned.entries table index
  unfold EntryOk at allowed
  simp only [known] at allowed
  rw [if_pos inner] at allowed
  obtain ⟨target, small, address, below⟩ := allowed present
  rw [Owned.eq_frameOf small address, below]

theorem hasFlag_of_needs (needsPresent : need &&& ptPR = ptPR) {entry : Word}
    (grants : entry &&& need = need) : hasFlag entry ptPR = true := by
  rw [hasFlag_ptPR_iff, ← needsPresent, ← BitVec.and_assoc, grants]

variable (confined : Confined kind root s changed next)
variable (owned : Owned kind s) (rooted : kind root = .pml4)

include confined owned rooted

theorem Confined.kernelTable_words {level : Nat}
    (known : kind table = .kernelTable level) :
    next.mem table = s.mem table :=
  confined.words table
    (owned.used_of_kind (by rw [known]; exact Kind.noConfusion))
    (owned.not_belongs_kernelTable rooted known)

theorem Confined.root_top (otherRooted : kind other = .pml4) :
    next.mem other 511 = s.mem other 511 := by
  by_cases same : other = root
  · rw [same]
    exact confined.top
  · rw [confined.words other
      (owned.used_of_kind (by rw [otherRooted]; exact Kind.noConfusion))
      (owned.not_belongs_root rooted otherRooted same)]

/-- The processor's walks through entry 511 find what they found. -/
theorem Confined.mmuWalk_kernel (otherRooted : kind other = .pml4)
    (needsPresent : need &&& ptPR = ptPR)
    (kernelHalf : pml4Index vAddress = 511) :
    mmuWalk next.mem need other (pageOf vAddress).reverse =
      mmuWalk s.mem need other (pageOf vAddress).reverse := by
  have words : ∀ {table level}, kind table = .kernelTable level →
      next.mem table = s.mem table :=
    fun known => confined.kernelTable_words owned rooted known
  simp only [pageOf, List.reverse_cons, List.reverse_nil, List.nil_append,
    List.cons_append, mmuWalk, kernelHalf,
    confined.root_top owned rooted otherRooted]
  by_cases first : s.mem other 511 &&& need = need
  · have pdpt := owned.kernelTable_below_root otherRooted
      (hasFlag_of_needs needsPresent first)
    rw [if_pos first, if_pos first, words pdpt]
    by_cases second :
        s.mem (frameOf (s.mem other 511)) (pdptIndex vAddress) &&& need = need
    · have pd := owned.kernelTable_below pdpt (by decide)
        (hasFlag_of_needs needsPresent second)
      rw [if_pos second, if_pos second, words pd]
      split
      · next third =>
        have pt := owned.kernelTable_below pd (by decide)
          (hasFlag_of_needs needsPresent third)
        rw [words pt]
      · rfl
    · rw [if_neg second, if_neg second]
  · rw [if_neg first, if_neg first]

end KernelHalf

/-! ## Elementary steps -/

section Steps

variable {kind changed : Nat → Kind} {root frame table pt : Nat}
variable {s next : Paging} {index : Fin 512} {path : List (Fin 512)}

/-- Taking a frame from the free map. -/
theorem Confined.allocate (owned : Owned kind s)
    (free : s.isFree frame = true) :
    Confined kind root s (setKind kind frame .held) (s.unsetFree frame) where
  owned := owned.allocate free
  kinds := (Extends.allocate owned free).kinds
  words := fun _ _ _ => rfl
  top := rfl
  belongs := fun _ _ here => here
  fewer := (Extends.allocate owned free).fewer
  untouched := fun _ _ => rfl
  cr3 := rfl

/-- Filling a frame that was free at the start and is no table now. -/
theorem Confined.writeFresh (first : Confined kind root s changed next)
    (owned : Owned kind s) (rooted : kind root = .pml4)
    (fresh : s.isFree frame = true) (taken : next.isFree frame = false)
    (noTable : ¬ (changed frame).IsTable) (page : Page) :
    Confined kind root s changed (next.writePage frame page) where
  owned := first.owned.writePage noTable
  kinds := first.kinds
  words := by
    intro other used foreign
    have different : other ≠ frame := by
      rintro rfl
      rw [fresh] at used
      cases used
    rw [Paging.writePage_of_ne different]
    exact first.words other used foreign
  top := by
    have different : root ≠ frame := by
      rintro rfl
      rw [first.rooted owned rooted] at noTable
      exact noTable trivial
    rw [Paging.writePage_of_ne different]
    exact first.top
  belongs := by
    intro other used here
    apply first.belongs other used
    apply (first.owned.belongs_congr (first.rooted owned rooted) ?_).mp here
    intro table level position depth
    rw [Paging.writePage_of_ne]
    rintro rfl
    exact noTable (Kind.isTable_of_depth depth)
  fewer := first.fewer
  untouched := by
    intro other free
    have different : other ≠ frame := by
      rintro rfl
      rw [Paging.isFree_writePage, taken] at free
      cases free
    rw [Paging.writePage_of_ne different]
    exact first.untouched other free
  cr3 := first.cr3

/-- Filling a page of the address space. -/
theorem Confined.writeUserPage (owned : Owned kind s)
    (rooted : kind root = .pml4) (isPage : IsPageOf s root frame)
    (page : Page) :
    Confined kind root s kind (s.writePage frame page) := by
  obtain ⟨inUse, known⟩ := owned.page_of_isPageOf rooted isPage
  have noTable : ¬ (kind frame).IsTable := by
    rcases known with ⟨pt, index, known⟩ | known
    · rw [known]
      exact fun isTable => isTable
    · rw [known]
      exact fun isTable => isTable
  exact
    { owned := owned.writePage noTable
      kinds := fun _ _ => rfl
      words := by
        intro other _ foreign
        apply Paging.writePage_of_ne
        rintro rfl
        exact foreign (Or.inr isPage)
      top := by
        rw [Paging.writePage_of_ne]
        rintro rfl
        rw [rooted] at noTable
        exact noTable trivial
      belongs := by
        intro other _ here
        apply (owned.belongs_congr rooted ?_).mp here
        intro table level position depth
        rw [Paging.writePage_of_ne]
        rintro rfl
        exact noTable (Kind.isTable_of_depth depth)
      fewer := fun _ free => free
      untouched := by
        intro other free
        apply Paging.writePage_of_ne
        rintro rfl
        rw [Paging.isFree_writePage, inUse] at free
        cases free
      cr3 := rfl }

/-- Hanging a table below an absent entry of a table of the space. -/
theorem Confined.hangTable (owned : Owned kind s)
    (rooted : kind root = .pml4) (legal : OwnedPath ownedIndex (index :: path))
    (short : path.length < 3)
    (reached : tableAt childOf s.mem root path = some table)
    (free : s.isFree frame = true)
    (absent : hasFlag (s.mem table index) ptPR = false) :
    Confined kind root s (hangKind kind path.length table index frame)
      (hangTable s table index frame) := by
  have tableDepth := owned.hung.depth_tableAt (Kind.depth_root rooted) legal.1
    (Nat.le_of_lt short) reached
  have extension := Extends.hangTable owned tableDepth short legal.2 free
    absent
  have different := owned.ne_frame_of_free free tableDepth
  have isTable : Belongs s root table :=
    Or.inl ⟨path, legal.1, Nat.le_of_lt short, reached⟩
  exact
    { owned := extension.owned
      kinds := extension.kinds
      words := by
        intro other used foreign
        have notTable : other ≠ table := by
          rintro rfl
          exact foreign isTable
        have notFresh : other ≠ frame := by
          rintro rfl
          rw [free] at used
          cases used
        rw [SbuUnix.hangTable, Paging.writeWord_of_ne_frame notTable,
          Paging.writePage_of_ne notFresh]
        rfl
      top := by
        have notFresh : root ≠ frame :=
          (owned.ne_frame_of_free free
            (show (kind root).depth = some 0 by rw [rooted]; rfl)).symm
        rw [SbuUnix.hangTable]
        by_cases isRoot : root = table
        · subst isRoot
          rw [rooted] at tableDepth
          have last : (511 : Fin 512) ≠ index :=
            (legal.2 (Option.some.inj tableDepth).symm).symm
          rw [Paging.writeWord_of_ne_index last,
            Paging.writePage_of_ne notFresh]
          rfl
        · rw [Paging.writeWord_of_ne_frame isRoot,
            Paging.writePage_of_ne notFresh]
          rfl
      belongs := by
        rintro other used (⟨walk, walkLegal, walkShort, found⟩ | isPage)
        · rcases owned.tableAt_hangTable rooted walkLegal
            (Nat.le_succ_of_le walkShort) tableDepth free absent with
            same | hung
          · exact Or.inl ⟨walk, walkLegal, walkShort, same ▸ found⟩
          · rw [hung] at found
            cases found
            rw [free] at used
            cases used
        · obtain ⟨walk, entry, walkLegal, full, found, here⟩ := isPage
          rw [extension.lookups root walk rooted walkLegal full] at found
          exact Or.inr ⟨walk, entry, walkLegal, full, found, here⟩
      fewer := extension.fewer
      untouched := extension.untouched
      cr3 := extension.cr3 }

/-- Taking a frame, filling it and mapping a page of the space to it. -/
theorem Confined.mapPage (owned : Owned kind s) (rooted : kind root = .pml4)
    (legal : OwnedPath ownedIndex (index :: path)) (full : path.length = 3)
    (reached : tableAt childOf s.mem root path = some pt)
    (free : s.isFree frame = true) (content : Page) :
    ∃ changed, Confined kind root s changed
      ((((s.unsetFree frame).writePage frame fun _ => 0).writePage frame
        content).writeWord pt index (entryOf frame userFlags)) := by
  have taken : (s.unsetFree frame).isFree frame = false := by
    simp [Paging.isFree_unsetFree]
  have noTable : ¬ (setKind kind frame .held frame).IsTable := by
    rw [setKind_same]
    exact fun isTable => isTable
  let cleared := (s.unsetFree frame).writePage frame fun _ => 0
  let filled := cleared.writePage frame content
  have toCleared : Extends kind s (setKind kind frame .held) cleared :=
    (Extends.allocate owned free).writeFresh owned free taken noTable
  have extension : Extends kind s (setKind kind frame .held) filled :=
    toCleared.writeFresh owned free taken noTable
  have first : Confined kind root s (setKind kind frame .held) filled :=
    ((Confined.allocate owned free).writeFresh owned rooted free taken noTable
      fun _ => 0).writeFresh owned rooted free taken noTable content
  have ptDepth := owned.hung.depth_tableAt (Kind.depth_root rooted) legal.1
    (Nat.le_of_eq full) reached
  rw [full] at ptDepth
  have ptNotFresh : pt ≠ frame := (owned.ne_frame_of_free free ptDepth).symm
  obtain ⟨parent, position, ptKind⟩ := Kind.eq_table_of_depth ptDepth
  have ptNow : setKind kind frame .held pt = .table 3 parent position := by
    rw [setKind_of_ne ptNotFresh, ptKind]
  have reachedNow := extension.tables root path pt rooted legal.1
    (Nat.le_of_eq full) reached
  have remapped := extension.mapLeaf owned free taken setKind_same ptNow
    rooted legal full reachedNow
  have isTable : Belongs s root pt :=
    Or.inl ⟨path, legal.1, Nat.le_of_eq full, reached⟩
  refine ⟨setKind (setKind kind frame .held) frame (.page pt index), ?_⟩
  exact
    { owned := remapped.owned
      kinds := remapped.kinds
      words := by
        intro other used foreign
        rw [Paging.writeWord_of_ne_frame]
        · exact first.words other used foreign
        · rintro rfl
          exact foreign isTable
      top := by
        rw [Paging.writeWord_of_ne_frame]
        · exact first.top
        · rintro rfl
          rw [rooted] at ptKind
          cases ptKind
      belongs := by
        rintro other used (⟨walk, walkLegal, walkShort, found⟩ | isPage)
        · rw [extension.owned.tableAt_writeLeaf _ _
            (by rw [ptNow]; rfl) (first.rooted owned rooted) walkLegal
            walkShort] at found
          exact first.belongs other used
            (Or.inl ⟨walk, walkLegal, walkShort, found⟩)
        · obtain ⟨walk, entry, walkLegal, walkFull, found, rfl⟩ := isPage
          rw [remapped.lookups root walk rooted walkLegal walkFull] at found
          split at found
          · cases found
            have small := lt_of_lt_frameCount (Paging.lt_of_isFree free)
            rw [frameOf_of_removeFlag small
              (removeFlag_entryOf frame (by decide)), free] at used
            cases used
          · exact Or.inr ⟨walk, entry, walkLegal, walkFull, found, rfl⟩
      fewer := remapped.fewer
      untouched := remapped.untouched
      cr3 := remapped.cr3 }

end Steps

/-! ## Programs -/

/-- The tables are in order, CR3 holds the address space at `root`, and the
linear map has the entry that `kmalloc` writes for every free frame. -/
structure Ready (kind : Nat → Kind) (root : Nat) (s : Paging) : Prop where
  owned : Owned kind s
  rooted : kind root = .pml4
  current : kernelFrame s.cr3 = root
  linear : ∀ frame, s.isFree frame = true →
    linearEntry s frame = some (entryOf frame (ptPR ||| ptWR))

/-- From a state in order, only the address space at `root` is worked on. -/
def Within (root : Nat) (s next : Paging) : Prop :=
  ∀ kind, Ready kind root s → ∃ changed, Confined kind root s changed next

section Programs

variable {kind changed : Nat → Kind} {root : Nat} {s next last : Paging}

theorem Ready.confined (ready : Ready kind root s)
    (first : Confined kind root s changed next) :
    Ready changed root next where
  owned := first.owned
  rooted := first.rooted ready.owned ready.rooted
  current := by
    rw [first.cr3]
    exact ready.current
  linear := by
    intro frame free
    have before := ready.linear frame (first.fewer frame free)
    have kernelHalf : pml4Index (linearAddr frame) = 511 :=
      pml4Index_kernelAddr _
    rw [linearEntry, ready.current, ← mmuWalk_ptPR_eq_lookup] at before
    rw [linearEntry, first.cr3, ready.current, ← mmuWalk_ptPR_eq_lookup,
      first.mmuWalk_kernel ready.owned ready.rooted ready.rooted (by decide)
        kernelHalf]
    exact before

theorem Within.refl (s : Paging) : Within root s s :=
  fun kind ready => ⟨kind, Confined.refl ready.owned⟩

theorem Within.trans (s next last : Paging) (first : Within root s next)
    (second : Within root next last) : Within root s last := by
  intro kind ready
  obtain ⟨changed, toNext⟩ := first kind ready
  obtain ⟨final, toLast⟩ := second changed (ready.confined toNext)
  exact ⟨final, toNext.trans toLast⟩

theorem within_allocateVirtPage : Keeps (Within root) allocateVirtPage := by
  intro s page next returned kind ready
  obtain ⟨frame, free, rfl, rfl⟩ := allocateVirtPage_eq_ok returned
  exact ⟨_, Confined.allocate ready.owned free⟩

/-- A frame that is taken and filled before anything else. -/
theorem within_take {frame : Nat} (free : s.isFree frame = true)
    (page : Page) :
    Within root s ((s.unsetFree frame).writePage frame page) := by
  intro kind ready
  refine ⟨_, (Confined.allocate ready.owned free).writeFresh ready.owned
    ready.rooted free (by simp [Paging.isFree_unsetFree]) ?_ page⟩
  rw [setKind_same]
  exact fun isTable => isTable

/-- One level of a mapping in the user half. -/
theorem yields_nextTable_confined {path : List (Fin 512)} {table : Nat}
    {index : Fin 512} (owned : Owned kind s) (rooted : kind root = .pml4)
    (legal : OwnedPath ownedIndex (index :: path))
    (short : path.length < 3)
    (reached : tableAt childOf s.mem root path = some table) :
    Yields AnyFault (nextTable userFlags table index) s fun below next =>
      ∃ changed, Confined kind root s changed next ∧
        tableAt childOf next.mem root (index :: path) = some below := by
  have tableDepth := owned.hung.depth_tableAt (Kind.depth_root rooted) legal.1
    (Nat.le_of_lt short) reached
  rw [nextTable, yields_bind, yields_get]
  by_cases present : hasFlag (s.mem table index) ptPR = true
  · rw [if_pos present, yields_pure]
    refine ⟨kind, Confined.refl owned, ?_⟩
    rw [tableAt_cons_of_eq_some reached]
    exact childOf_eq_some_iff.mpr ⟨present, rfl⟩
  · rw [if_neg present, yields_bind]
    apply yields_allocateVirtPage (anyFault _)
    intro frame free
    have small := Paging.lt_of_isFree free
    have absent : hasFlag (s.mem table index) ptPR = false := by
      simpa using present
    rw [kernelFrame_pageAddr (lt_of_lt_frameCount small)]
    have extension := Extends.hangTable owned tableDepth short legal.2 free
      absent
    refine ⟨_, Confined.hangTable owned rooted legal short reached free
      absent, ?_⟩
    show tableAt childOf (hangTable s table index frame).mem root
      (index :: path) = some frame
    rw [tableAt_cons_of_eq_some (extension.tables root path table rooted
      legal.1 (Nat.le_of_lt short) reached)]
    exact hangTable_entry.trans (childOf_entryOf small (by decide)
      (by decide))

/-- `map_phys_to_user_virt_addr` on a page of the user half. -/
theorem within_mapPhysToUserVirtAddr {vAddress phys cr3Addr : Word}
    (userHalf : pml4Index vAddress ≠ 511) :
    Keeps (Within (kernelFrame cr3Addr))
      (mapPhysToUserVirtAddr vAddress phys cr3Addr) := by
  intro s value next returned kind ready
  have legal := ownedPath_pageOf userHalf
  have runs : Yields AnyFault (mapPhysToUserVirtAddr vAddress phys cr3Addr) s
      fun _ next => ∃ changed,
        Confined kind (kernelFrame cr3Addr) s changed next := by
    rw [mapPhysToUserVirtAddr, yields_bind]
    apply (yields_nextTable_confined ready.owned ready.rooted legal.1.1.1
      (by decide) rfl).mono
    rintro pdpt one ⟨oneKind, toOne, toPdpt⟩
    have oneRooted := toOne.rooted ready.owned ready.rooted
    rw [yields_bind]
    apply (yields_nextTable_confined toOne.owned oneRooted legal.1.1
      (by simp) toPdpt).mono
    rintro pd two ⟨twoKind, toTwo, toPd⟩
    have twoRooted := toTwo.rooted toOne.owned oneRooted
    rw [yields_bind]
    apply (yields_nextTable_confined toTwo.owned twoRooted legal.1
      (by simp) toPd).mono
    rintro pt three ⟨threeKind, toThree, toPt⟩
    have threeRooted := toThree.rooted toTwo.owned twoRooted
    rw [yields_bind]
    apply yields_allocateVirtPage (anyFault _)
    intro frame free
    have small := lt_of_lt_frameCount (Paging.lt_of_isFree free)
    rw [yields_bind, memsetPage, yields_modify, yields_bind, memcpyPage,
      yields_modify, writeEntry, yields_modify, kernelFrame_pageAddr small]
    obtain ⟨changed, mapped⟩ := Confined.mapPage toThree.owned threeRooted
      legal rfl toPt free (((three.unsetFree frame).writePage frame
        fun _ => 0).mem (kernelFrame phys))
    exact ⟨changed, ((toOne.trans toTwo).trans toThree).trans mapped⟩
  have ended := yields_of_ok runs returned
  exact ended

/-- Storing the word that is there changes nothing. -/
theorem Paging.writeWord_mem (s : Paging) (table : Nat) (index : Fin 512) :
    s.writeWord table index (s.mem table index) = s := by
  have same : (s.writeWord table index (s.mem table index)).mem = s.mem := by
    funext other position
    by_cases here : other = table ∧ position = index
    · simp [writeWord, here]
    · simp [writeWord, here]
  exact congrArg (fun mem => { s with mem := mem }) same

/-- The entry that `kmalloc` writes is there already. -/
theorem mapPhysToVirtAddr_linear {frame : Nat}
    (linear : linearEntry s frame =
      some (entryOf frame (ptPR ||| ptWR))) :
    mapPhysToVirtAddr (kernelAddr ||| pageAddr frame) (pageAddr frame) s =
      .ok ((), s) := by
  rw [linearEntry_eq] at linear
  obtain ⟨pt, walked, here⟩ := Option.bind_eq_some_iff.mp linear
  have entry : s.mem pt (ptIndex (linearAddr frame)) =
      entryOf frame (ptPR ||| ptWR) := by
    split at here
    · exact Option.some.inj here
    · cases here
  have unchanged : s.writeWord pt (ptIndex (linearAddr frame))
      (entryOf frame (ptPR ||| ptWR)) = s := by
    rw [← entry, Paging.writeWord_mem]
  exact (mapPhysToVirtAddr_eq walked).trans
    (congrArg (fun after => Except.ok ((), after)) unchanged)

/-- Under the linear map `kmalloc` takes and clears frames, nothing else. -/
theorem within_kmallocPages (count : Nat) :
    Keeps (Within root) (kmallocPages count) := by
  induction count with
  | zero => exact keeps_pure Within.refl _
  | succ count inductionHypothesis =>
      intro s frames last returned kind ready
      rw [kmallocPages] at returned
      obtain ⟨page, taken, allocated, rest⟩ := bind_eq_ok_iff.mp returned
      obtain ⟨frame, free, rfl, rfl⟩ := allocateVirtPage_eq_ok allocated
      have small := lt_of_lt_frameCount (Paging.lt_of_isFree free)
      have linear : linearEntry (s.unsetFree frame) frame =
          some (entryOf frame (ptPR ||| ptWR)) := ready.linear frame free
      rw [bind_of_ok (mapPhysToVirtAddr_linear linear),
        kernelFrame_pageAddr small] at rest
      obtain ⟨_, cleared, filled, rest⟩ := bind_eq_ok_iff.mp rest
      cases filled
      obtain ⟨later, next, more, rest⟩ := bind_eq_ok_iff.mp rest
      cases rest
      have first : Within root s
          ((s.unsetFree frame).writePage frame fun _ => 0) :=
        within_take free _
      exact Within.trans _ _ _ first
        (inductionHypothesis _ _ _ more) kind ready

theorem within_kmalloc (size : Int) :
    Keeps (Within root) (kmalloc size) :=
  keeps_bind Within.trans (within_kmallocPages _) fun _ =>
    keeps_pure Within.refl _

/-- A store of the kernel to an address of the user half. -/
theorem within_storeByte {vAddress : Word} (byte : Byte)
    (userHalf : pml4Index vAddress ≠ 511) :
    Keeps (Within root) (storeByte ptPR vAddress byte) := by
  intro s _ next returned kind ready
  obtain ⟨_, _, here, stored⟩ := bind_eq_ok_iff.mp returned
  cases here
  cases found : s.translate ptPR vAddress with
  | none =>
      simp only [found] at stored
      cases stored
  | some entry =>
      simp only [found] at stored
      cases stored
      rw [Paging.translate, ready.current, mmuWalk_ptPR_eq_lookup] at found
      exact ⟨kind, Confined.writeUserPage ready.owned ready.rooted
        ⟨_, entry, ownedPath_pageOf userHalf, rfl, found, rfl⟩ _⟩

end Programs

end SbuUnix
