import SbuUnix.Paging.Fork

/-!
# The loops of `copy_parent_tables`

One statement, `CopiesBelow`, describes each of the four nested loops: from a
table of the parent and an empty table of the child at the same walk, all
pages below become copy-on-write pages of both.  It holds of the innermost
loop and passes from each loop to the one around it.
-/

namespace SbuUnix

open TableForest Outcome

/-- No table and no page of an address space lies below a slot. -/
def EmptyBelow (s : Paging) (root : Nat) (slot : List (Fin 512)) : Prop :=
  ∀ path, slot <:+ path → OwnedPath ownedIndex path →
    (path.length ≤ 3 → tableAt childOf s.mem root path = none) ∧
      (path.length = 4 → lookup childOf s.mem root path = none)

/-- The state in which a loop starts on a table of the parent and a table of
the child that the same walk leads to. -/
structure CopyReady (kind : Nat → Kind) (s : Paging) (parent child : Nat)
    (path : List (Fin 512)) (table cTable : Nat) : Prop where
  owned : Owned kind s
  zero : FreeZero s
  parentRoot : kind parent = .pml4
  childRoot : kind child = .pml4
  different : parent ≠ child
  legal : OwnedPath ownedIndex path
  reached : tableAt childOf s.mem parent path = some table
  childReached : tableAt childOf s.mem child path = some cTable

/-- The pages below the first slots of a table. -/
def CoveredUpto (path : List (Fin 512)) (count : Nat)
    (walk : List (Fin 512)) : Prop :=
  ∃ index : Fin 512, index.val < count ∧ (index :: path) <:+ walk

section Slots

variable {kind changed : Nat → Kind} {s next : Paging}
variable {parent child table cTable : Nat} {index other : Fin 512}
variable {path walk : List (Fin 512)} {covered : List (Fin 512) → Prop}

/-- A walk passes through one slot of a table only. -/
theorem index_eq_of_suffix (first : (index :: path) <:+ walk)
    (second : (other :: path) <:+ walk) : index = other := by
  have nested :=
    List.suffix_of_suffix_length_le first second (by simp)
  have same := nested.eq_of_length (by simp)
  injection same

theorem ownedPath_of_suffix (legal : OwnedPath ownedIndex walk)
    (suffix : path <:+ walk) : OwnedPath ownedIndex path := by
  obtain ⟨deeper, rfl⟩ := suffix
  exact legal.of_append

/-- A page below a table lies below one of its slots. -/
theorem exists_slot (suffix : path <:+ walk)
    (longer : path.length < walk.length) :
    ∃ index : Fin 512, (index :: path) <:+ walk := by
  obtain ⟨deeper, rfl⟩ := suffix
  rcases List.eq_nil_or_concat deeper with rfl | ⟨start, index, rfl⟩
  · simp at longer
  · exact ⟨index, start, by simp⟩

theorem EmptyBelow.of_entry_zero
    (reached : tableAt childOf s.mem child path = some table)
    (zero : s.mem table index = 0) : EmptyBelow s child (index :: path) := by
  have noTable : tableAt childOf s.mem child (index :: path) = none := by
    rw [tableAt_cons_of_eq_some reached, zero]
    exact childOf_zero
  rintro _ ⟨deeper, rfl⟩ _
  refine ⟨fun _ => tableAt_append_of_eq_none noTable deeper, fun _ => ?_⟩
  cases deeper with
  | nil =>
      show lookup childOf s.mem child (index :: path) = none
      rw [lookup_cons_of_eq_some reached, zero]
      exact if_neg (by decide)
  | cons first deeper =>
      exact lookup_append_of_eq_none noTable (List.cons_ne_nil first deeper)

/-- A slot stays empty while pages elsewhere are copied. -/
theorem EmptyBelow.shares {slot : List (Fin 512)}
    (empty : EmptyBelow s child slot)
    (shares : Shares kind s changed next parent child covered)
    (childRoot : kind child = .pml4)
    (outside : ∀ walk, slot <:+ walk → ¬ covered walk) :
    EmptyBelow next child slot := by
  intro walk suffix legal
  have away := outside walk suffix
  refine ⟨fun short => ?_, fun full => ?_⟩
  · rw [shares.walks child walk childRoot legal short
      fun inside => away inside.2]
    exact (empty walk suffix legal).1 short
  · rw [shares.kept child walk childRoot legal full
      fun inside => away inside.2]
    exact (empty walk suffix legal).2 full

theorem CopyReady.shares
    (ready : CopyReady kind s parent child path table cTable)
    (short : path.length ≤ 3)
    (shares : Shares kind s changed next parent child covered) :
    CopyReady changed next parent child path table cTable where
  owned := shares.owned
  zero := shares.freeZero ready.zero
  parentRoot := shares.root ready.owned ready.parentRoot
  childRoot := shares.root ready.owned ready.childRoot
  different := ready.different
  legal := ready.legal
  reached :=
    shares.tables parent path table ready.parentRoot ready.legal short
      ready.reached
  childReached :=
    shares.tables child path cTable ready.childRoot ready.legal short
      ready.childReached

end Slots

/-! ## One loop -/

section Loop

variable {kind : Nat → Kind} {s : Paging} {allowed : Fault → Prop}
variable {parent child table cTable : Nat} {path : List (Fin 512)}

/-- A loop over the slots of a table copies what every pass copies. -/
theorem yields_copyLoop {body : Nat → PagingM Unit} {count : Nat}
    (bounded : count ≤ 512)
    (ready : CopyReady kind s parent child path table cTable)
    (short : path.length ≤ 3)
    (complete : ∀ index : Fin 512,
      ownedIndex path.length index ↔ index.val < count)
    (empty : ∀ index, ownedIndex path.length index →
      EmptyBelow s child (index :: path))
    (step : ∀ (index : Fin 512) current state,
      ownedIndex path.length index →
        CopyReady current state parent child path table cTable →
          EmptyBelow state child (index :: path) →
            Yields allowed (body index.val) state fun _ next =>
              ∃ changed, Shares current state changed next parent child
                ((index :: path) <:+ ·)) :
    Yields allowed (forUpto count body) s fun _ next =>
      ∃ changed, Shares kind s changed next parent child (path <:+ ·) := by
  refine (yields_forUpto
    (fun done state => ∃ changed,
      Shares kind s changed state parent child (CoveredUpto path done))
    count ?_ ?_).mono ?_
  · refine ⟨kind, Shares.of_absent ready.owned ?_⟩
    rintro _ _ _ _ _ ⟨index, below, _⟩
    exact absurd below (Nat.not_lt_zero _)
  · rintro done below state ⟨current, shares⟩
    let index : Fin 512 := ⟨done, Nat.lt_of_lt_of_le below bounded⟩
    have permitted : ownedIndex path.length index :=
      (complete index).mpr below
    -- The slot of this pass is not among those covered so far.
    have apart : ∀ walk, (index :: path) <:+ walk →
        ¬ CoveredUpto path done walk := by
      rintro walk here ⟨other, earlier, there⟩
      have same := index_eq_of_suffix there here
      rw [same] at earlier
      exact absurd earlier (Nat.lt_irrefl done)
    have readyNow := ready.shares short shares
    have emptyNow :=
      (empty index permitted).shares shares ready.childRoot apart
    apply (step index current state permitted readyNow emptyNow).mono
    rintro _ next ⟨changed, pass⟩
    refine ⟨changed, (shares.trans pass ready.owned ready.parentRoot
      ready.childRoot fun walk _ covered here =>
        apart walk here covered).recover ?_ ?_⟩
    · rintro walk (⟨other, earlier, there⟩ | here)
      · exact ⟨other, Nat.lt_succ_of_lt earlier, there⟩
      · exact ⟨index, Nat.lt_succ_self done, here⟩
    · rintro walk _ _ ⟨other, earlier, there⟩
      rcases Nat.lt_succ_iff_lt_or_eq.mp earlier with before | now
      · exact Or.inl ⟨other, before, there⟩
      · have same : other = index := Fin.ext now
        rw [same] at there
        exact Or.inr there
  · rintro _ next ⟨changed, shares⟩
    refine ⟨changed, shares.recover ?_ ?_⟩
    · rintro walk ⟨index, _, here⟩
      exact (List.suffix_cons index path).trans here
    · intro walk legal full suffix
      obtain ⟨index, here⟩ := exists_slot suffix (by omega)
      exact ⟨index, (complete index).mp (ownedPath_of_suffix legal here).2,
        here⟩

end Loop

/-! ## The four levels -/

/-- `program` copies all pages below a table of the parent into an empty
table of the child. -/
def CopiesBelow (allowed : Fault → Prop) (depth : Nat)
    (program : Nat → Nat → PagingM Unit) : Prop :=
  ∀ (kind : Nat → Kind) (s : Paging) (parent child : Nat)
    (path : List (Fin 512)) (table cTable : Nat), path.length = depth →
      CopyReady kind s parent child path table cTable →
        (∀ index, ownedIndex depth index →
          EmptyBelow s child (index :: path)) →
            Yields allowed (program table cTable) s fun _ next =>
              ∃ changed,
                Shares kind s changed next parent child (path <:+ ·)

theorem ownedIndex_iff_of_pos {depth : Nat} (positive : 0 < depth)
    (index : Fin 512) : ownedIndex depth index ↔ index.val < 512 :=
  ⟨fun _ => index.isLt, fun _ root => by omega⟩

theorem ownedIndex_zero_iff (index : Fin 512) :
    ownedIndex 0 index ↔ index.val < 511 := by
  constructor
  · intro permitted
    have value : index.val ≠ 511 := by
      simpa [Fin.ext_iff] using permitted rfl
    omega
  · intro below _ last
    have value : index.val = 511 := by
      simpa [Fin.ext_iff] using last
    omega

section Levels

variable {allowed : Fault → Prop}

theorem fin_ofNat_val (index : Fin 512) : Fin.ofNat 512 index.val = index :=
  Fin.ext (Nat.mod_eq_of_lt index.isLt)

/-- The innermost loop. -/
theorem copiesBelow_copyPt : CopiesBelow allowed 3 copyPt := by
  intro kind s parent child path table cTable depth ready empty
  rw [copyPt]
  rw [← depth] at empty
  have complete : ∀ index : Fin 512,
      ownedIndex path.length index ↔ index.val < 512 := by
    rw [depth]
    exact ownedIndex_iff_of_pos (by decide)
  have short : path.length ≤ 3 := Nat.le_of_eq depth
  apply yields_copyLoop (Nat.le_refl 512) ready short complete empty
  intro index current state permitted readyNow emptyNow
  have legal : OwnedPath ownedIndex (index :: path) :=
    ⟨readyNow.legal, permitted⟩
  rw [fin_ofNat_val, yields_bind, yields_get]
  by_cases present : hasFlag (state.mem table index) ptPR = true
  · rw [if_pos present]
    have pass :=
      Shares.sharePage readyNow.owned readyNow.parentRoot
        readyNow.childRoot readyNow.different legal depth readyNow.reached
        readyNow.childReached present
    refine (?_ : ∃ changed, Shares _ _ changed
      (((state.writeWord table index 0).writeWord table index _).writeWord
        cTable index _) parent child _)
    rw [Paging.writeWord_writeWord]
    refine ⟨_, pass.recover ?_ ?_⟩
    · rintro walk rfl
      exact List.suffix_refl _
    · intro walk _ full suffix
      exact (suffix.eq_of_length (by simp [depth, full])).symm
  · rw [if_neg present]
    refine ⟨current, Shares.of_absent readyNow.owned ?_⟩
    intro root walk member walkLegal full suffix
    have same : index :: path = walk :=
      suffix.eq_of_length (by simp [depth, full])
    rcases member with isParent | isChild
    · rw [isParent, ← same, lookup_cons_of_eq_some readyNow.reached,
        childOf_isSome, if_neg present]
    · rw [isChild]
      exact (emptyNow walk suffix walkLegal).2 full

theorem Paging.unsetFree_eq_cleared {s : Paging} {frame : Nat}
    (zero : ∀ index, s.mem frame index = 0) :
    s.unsetFree frame =
      (s.unsetFree frame).writePage frame fun _ => 0 := by
  have same : s.mem =
      fun other => if other = frame then (fun _ => 0) else s.mem other := by
    funext other position
    by_cases here : other = frame
    · rw [if_pos here, here]
      exact zero position
    · rw [if_neg here]
  show ({ s.unsetFree frame with mem := s.mem } : Paging) = _
  rw [same]
  rfl

section Hang

variable {kind : Nat → Kind} {s : Paging} {parent child : Nat}
variable {table cTable : Nat} {path : List (Fin 512)} {index : Fin 512}

/-- The slot of the child that a pass is about to fill is absent. -/
theorem CopyReady.childAbsent
    (ready : CopyReady kind s parent child path table cTable)
    (inner : path.length < 3) (permitted : ownedIndex path.length index)
    (empty : EmptyBelow s child (index :: path)) :
    hasFlag (s.mem cTable index) ptPR = false := by
  have none :=
    (empty (index :: path) (List.suffix_refl _)
      ⟨ready.legal, permitted⟩).1 inner
  rw [tableAt_cons_of_eq_some ready.childReached] at none
  exact childOf_eq_none_iff.mp none

/-- After a table was hung for the child, the inner loop can start on the
parent's table and the new one, which is empty. -/
theorem CopyReady.hangTable {frame : Nat}
    (ready : CopyReady kind s parent child path table cTable)
    (inner : path.length < 3) (permitted : ownedIndex path.length index)
    (free : s.isFree frame = true)
    (empty : EmptyBelow s child (index :: path))
    (present : hasFlag (s.mem table index) ptPR = true) :
    CopyReady (hangKind kind path.length cTable index frame)
        (hangTable s cTable index frame) parent child (index :: path)
        (frameOf (s.mem table index)) frame ∧
      ∀ other, EmptyBelow (SbuUnix.hangTable s cTable index frame) child
        (other :: index :: path) := by
  have cTableDepth :=
    ready.owned.hung.depth_tableAt (Kind.depth_root ready.childRoot)
      ready.legal (Nat.le_of_lt inner) ready.childReached
  have extension :=
    Extends.hangTable ready.owned cTableDepth inner permitted free
      (ready.childAbsent inner permitted empty)
  have childReached :
      tableAt childOf (SbuUnix.hangTable s cTable index frame).mem child
        (index :: path) = some frame := by
    rw [tableAt_cons_of_eq_some (extension.tables child path cTable
      ready.childRoot ready.legal (Nat.le_of_lt inner) ready.childReached),
      hangTable_entry]
    exact childOf_entryOf (Paging.lt_of_isFree free) (by decide) (by decide)
  refine ⟨?_, fun other => EmptyBelow.of_entry_zero childReached
    (hangTable_mem_frame
      (ready.owned.ne_frame_of_free free cTableDepth) other)⟩
  exact
    { owned := extension.owned
      zero := extension.freeZero ready.zero
      parentRoot := extension.root ready.owned ready.parentRoot
      childRoot := extension.root ready.owned ready.childRoot
      different := ready.different
      legal := ⟨ready.legal, permitted⟩
      reached := by
        refine extension.tables parent (index :: path) _ ready.parentRoot
          ⟨ready.legal, permitted⟩ inner ?_
        rw [tableAt_cons_of_eq_some ready.reached]
        exact childOf_eq_some_iff.mpr ⟨present, rfl⟩
      childReached := childReached }

end Hang

/-- One of the outer loops, by the loop inside it. -/
theorem copiesBelow_copyLevel {depth count : Nat}
    {below : Nat → Nat → PagingM Unit} (exhausted : allowed .noFreeFrame)
    (inner : depth < 3) (bounded : count ≤ 512)
    (complete : ∀ index : Fin 512, ownedIndex depth index ↔
      index.val < count)
    (deeper : CopiesBelow allowed (depth + 1) below) :
    CopiesBelow allowed depth (copyLevel count below) := by
  intro kind s parent child path table cTable length ready empty
  rw [copyLevel]
  subst length
  apply yields_copyLoop bounded ready (Nat.le_of_lt inner) complete empty
  intro index current state permitted readyNow emptyNow
  have legal : OwnedPath ownedIndex (index :: path) :=
    ⟨readyNow.legal, permitted⟩
  rw [fin_ofNat_val, yields_bind, yields_get]
  by_cases present : hasFlag (state.mem table index) ptPR = true
  · rw [if_pos present, yields_bind]
    apply yields_allocateVirtPage exhausted
    intro frame free
    have small := lt_of_lt_frameCount (Paging.lt_of_isFree free)
    rw [Paging.unsetFree_eq_cleared (readyNow.zero frame free), yields_bind,
      kernelFrame_pageAddr small]
    have hung := readyNow.hangTable inner permitted free emptyNow present
    refine (deeper _ _ parent child (index :: path) _ frame rfl hung.1
      fun other _ => hung.2 other).mono ?_
    rintro _ next ⟨changed, shares⟩
    have cTableDepth :=
      readyNow.owned.hung.depth_tableAt (Kind.depth_root readyNow.childRoot)
        readyNow.legal (Nat.le_of_lt inner) readyNow.childReached
    refine ⟨changed, Shares.after_extends
      (Extends.hangTable readyNow.owned cTableDepth inner permitted free
        (readyNow.childAbsent inner permitted emptyNow)) readyNow.owned
      readyNow.parentRoot ?_ shares⟩
    intro root walk rooted walkLegal short outside
    rcases readyNow.owned.tableAt_hangTable rooted walkLegal
      (Nat.le_succ_of_le short) cTableDepth free
      (readyNow.childAbsent inner permitted emptyNow) with same | new
    · exact same
    · -- Only the child's walk to the slot ends at the new table.
      have agree :=
        hung.1.owned.hung.tableAt_injective
          (by rw [Extends.root (Extends.hangTable readyNow.owned cTableDepth
            inner permitted free (readyNow.childAbsent inner permitted
              emptyNow)) readyNow.owned rooted]; rfl)
          (by rw [hung.1.childRoot]; rfl) walkLegal short legal inner new
          hung.1.childReached
      refine absurd ⟨agree.1, ?_⟩ outside
      rw [agree.2]
  · rw [if_neg present]
    refine ⟨current, Shares.of_absent readyNow.owned ?_⟩
    intro root walk member walkLegal full suffix
    rcases member with isParent | isChild
    · rw [isParent]
      obtain ⟨start, rfl⟩ := suffix
      refine lookup_append_of_eq_none ?_ ?_
      · rw [tableAt_cons_of_eq_some readyNow.reached]
        exact childOf_eq_none_iff.mpr (by simpa using present)
      · rintro rfl
        simp at full
        omega
    · rw [isChild]
      exact (emptyNow walk suffix walkLegal).2 full

end Levels

/-! ## The whole copy -/

section Whole

variable {kind changed : Nat → Kind} {s next : Paging}
variable {parent child table : Nat} {index : Fin 512} {entry : Word}
variable {covered : List (Fin 512) → Prop} {allowed : Fault → Prop}

/-- An entry of the kernel half belongs to no page of a process. -/
theorem Shares.writeKernel
    (shares : Shares kind s changed next parent child covered)
    (owned : Owned kind s) (parentRoot : kind parent = .pml4)
    (childRoot : kind child = .pml4)
    (slot : KernelSlot changed table index 0)
    (allowed : EntryOk changed table index entry) :
    Shares kind s changed (next.writeWord table index entry) parent child
      covered where
  owned := shares.owned.writeWord allowed
  kinds := shares.kinds
  pages := by
    intro frame used noTable
    have different : frame ≠ table := by
      intro same
      apply noTable
      rw [← shares.isTable_iff used, same]
      exact slot.isTable
    rw [Paging.writeWord_of_ne_frame different]
    exact shares.pages frame used noTable
  tables := by
    intro root path found rooted legal short reached
    rw [shares.owned.tableAt_writeKernel slot (shares.root owned rooted)
      legal (Nat.le_succ_of_le short)]
    exact shares.tables root path found rooted legal short reached
  walks := by
    intro root path rooted legal short outside
    rw [shares.owned.tableAt_writeKernel slot (shares.root owned rooted)
      legal (Nat.le_succ_of_le short)]
    exact shares.walks root path rooted legal short outside
  shared := by
    intro root path member legal full inside
    have rooted : kind root = .pml4 := by
      rcases member with same | same <;> rw [same]
      · exact parentRoot
      · exact childRoot
    rw [shares.owned.lookup_writeKernel slot (shares.root owned rooted)
      legal full]
    exact shares.shared root path member legal full inside
  kept := by
    intro root path rooted legal full outside
    rw [shares.owned.lookup_writeKernel slot (shares.root owned rooted)
      legal full]
    exact shares.kept root path rooted legal full outside
  fewer := shares.fewer
  untouched := by
    intro frame free
    have different : frame ≠ table := by
      intro same
      have freeKind := shares.owned.free frame free
      have tableKind := slot.isTable
      rw [← same, freeKind] at tableKind
      exact tableKind
    rw [Paging.writeWord_of_ne_frame different]
    exact shares.untouched frame free
  cr3 := shares.cr3

theorem copiesBelow_copyPml4 (exhausted : allowed .noFreeFrame) :
    CopiesBelow allowed 0 copyPml4 :=
  copiesBelow_copyLevel exhausted (by decide) (by decide)
    ownedIndex_zero_iff <|
      copiesBelow_copyLevel exhausted (by decide) (Nat.le_refl 512)
        (ownedIndex_iff_of_pos (by decide)) <|
        copiesBelow_copyLevel exhausted (by decide) (Nat.le_refl 512)
          (ownedIndex_iff_of_pos (by decide)) copiesBelow_copyPt

/-- Forking into an empty address space makes every user page of the parent
a copy-on-write page of both, when the free frames read as zero: the frames
that become the child's tables are used as they are. -/
theorem yields_copyParentTables {cr3Addr : Word}
    (exhausted : allowed .noFreeFrame) (owned : Owned kind s)
    (zero : FreeZero s) (parentRoot : kind (kernelFrame s.cr3) = .pml4)
    (childRoot : kind (kernelFrame cr3Addr) = .pml4)
    (different : kernelFrame s.cr3 ≠ kernelFrame cr3Addr)
    (empty : ∀ index, index ≠ 511 →
      s.mem (kernelFrame cr3Addr) index = 0) :
    Yields allowed (copyParentTables cr3Addr) s fun _ next =>
      ∃ changed, Shares kind s changed next (kernelFrame s.cr3)
        (kernelFrame cr3Addr) fun _ => True := by
  have ready :
      CopyReady kind s (kernelFrame s.cr3) (kernelFrame cr3Addr) []
        (kernelFrame s.cr3) (kernelFrame cr3Addr) :=
    { owned := owned
      zero := zero
      parentRoot := parentRoot
      childRoot := childRoot
      different := different
      legal := trivial
      reached := rfl
      childReached := rfl }
  rw [copyParentTables, yields_bind, yields_get, yields_bind]
  refine (copiesBelow_copyPml4 exhausted kind s _ _ [] _ _ rfl ready
    fun index permitted =>
      EmptyBelow.of_entry_zero rfl (empty index (permitted rfl))).mono ?_
  rintro _ next ⟨changed, shares⟩
  have everything :
      Shares kind s changed next (kernelFrame s.cr3) (kernelFrame cr3Addr)
        fun _ => True :=
    shares.recover (fun _ _ => trivial)
      fun path _ _ _ => List.nil_suffix
  have rootKind := shares.root owned parentRoot
  have childKind := shares.root owned childRoot
  have entryOk := shares.owned.entries (kernelFrame s.cr3) 511
  rw [yields_bind, yields_get, writeEntry, yields_modify]
  refine ⟨changed, everything.writeKernel owned parentRoot childRoot
    (Or.inl ⟨childKind, rfl, rfl⟩) ?_⟩
  unfold EntryOk at entryOk ⊢
  rw [childKind]
  rw [rootKind] at entryOk
  exact entryOk

end Whole

end SbuUnix
