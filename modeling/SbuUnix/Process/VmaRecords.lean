import SbuUnix.Library.Ring
import SbuUnix.Process.State

/-!
# VMA lists in memory

The records of `sys/vma.c` at their addresses, with the links that the lists
of `MmStruct` leave out.  `addMmstructAt` walks these links as the source does;
on a list that ends at the null pointer it does what `addMmstruct` says.
-/

namespace SbuUnix

open Outcome Links

/-! ## The source -/

/-- `struct vma` -/
structure VmaRecord where
  vmMm : Word := 0
  vmNext : Word := 0
  vmStart : Word := 0
  vmEnd : Word := 0
  type : VmaType := .text
  flags : Word := 0
  file : Word := 0
  fileStart : Word := 0
  fileSize : Word := 0
  deriving DecidableEq, Repr

/-- `struct mm_struct`, without the fields that nothing reads. -/
structure MmRecord where
  codeStart : Word := 0
  codeEnd : Word := 0
  vma : Word := 0
  vmaCount : Word := 0
  mmapStartAddr : Word := 0
  mmapEndAddr : Word := 0
  mmapAllocAddr : Word := 0
  deriving DecidableEq, Repr

/-- The records at each address. -/
structure Records where
  vma : Word → VmaRecord
  mm : Word → MmRecord
  file : Word → TarFile

abbrev RecordM := StateT Records (Except Fault)

namespace Records

def setVma (r : Records) (p : Word) (record : VmaRecord) : Records :=
  { r with vma := fun other => if other = p then record else r.vma other }

def setMm (r : Records) (p : Word) (record : MmRecord) : Records :=
  { r with mm := fun other => if other = p then record else r.mm other }

@[simp]
theorem setVma_same {r : Records} {p : Word} {record : VmaRecord} :
    (r.setVma p record).vma p = record :=
  if_pos rfl

theorem setVma_of_ne {r : Records} {p other : Word} {record : VmaRecord}
    (different : other ≠ p) : (r.setVma p record).vma other = r.vma other :=
  if_neg different

@[simp]
theorem setVma_setVma {r : Records} {p : Word} {record later : VmaRecord} :
    (r.setVma p record).setVma p later = r.setVma p later := by
  unfold setVma
  congr 1
  funext other
  by_cases here : other = p <;> simp [here]

@[simp]
theorem setVma_mm {r : Records} {p : Word} {record : VmaRecord} :
    (r.setVma p record).mm = r.mm :=
  rfl

@[simp]
theorem setVma_file {r : Records} {p : Word} {record : VmaRecord} :
    (r.setVma p record).file = r.file :=
  rfl

@[simp]
theorem setMm_same {r : Records} {p : Word} {record : MmRecord} :
    (r.setMm p record).mm p = record :=
  if_pos rfl

theorem setMm_of_ne {r : Records} {p other : Word} {record : MmRecord}
    (different : other ≠ p) : (r.setMm p record).mm other = r.mm other :=
  if_neg different

@[simp]
theorem setMm_vma {r : Records} {p : Word} {record : MmRecord} :
    (r.setMm p record).vma = r.vma :=
  rfl

@[simp]
theorem setMm_file {r : Records} {p : Word} {record : MmRecord} :
    (r.setMm p record).file = r.file :=
  rfl

end Records

/-- A load through a pointer to a `struct vma`. -/
def vmaAt (p : Word) : RecordM VmaRecord := do
  if p = 0 then
    throw .nullPointer
  else
    pure ((← get).vma p)

/-- A store through a pointer to a `struct vma`. -/
def storeVma (p : Word) (update : VmaRecord → VmaRecord) : RecordM Unit := do
  let record ← vmaAt p
  modify fun r => r.setVma p (update record)

def mmAt (p : Word) : RecordM MmRecord := do
  if p = 0 then
    throw .nullPointer
  else
    pure ((← get).mm p)

def storeMmAt (p : Word) (update : MmRecord → MmRecord) : RecordM Unit := do
  let record ← mmAt p
  modify fun r => r.setMm p (update record)

/-- The last statements of each branch of `add_mmstruct`. -/
def adopt (mm vma : Word) : RecordM Int := do
  storeVma vma fun record => { record with vmMm := mm }
  storeMmAt mm fun record => { record with vmaCount := record.vmaCount + 1 }
  pure 0

/-- The loop of `add_mmstruct`; `fuel` bounds its passes. -/
def addLoop (mm vma : Word) : Nat → Word → RecordM Int
  | 0, _ => throw .outOfFuel
  | fuel + 1, curr =>
      if curr ≠ 0 then do
        let next := (← vmaAt curr).vmNext
        let vmEnd := (← vmaAt vma).vmEnd
        if next ≠ 0 then
          if vmEnd ≤ (← vmaAt next).vmStart then
            storeVma vma fun record => { record with vmNext := next }
            storeVma curr fun record => { record with vmNext := vma }
            adopt mm vma
          else
            addLoop mm vma fuel next
        else
          storeVma curr fun record => { record with vmNext := vma }
          adopt mm vma
      else
        pure (-1)

/-- `add_mmstruct` -/
def addMmstructAt (fuel : Nat) (mm vma : Word) : RecordM Int := do
  let record ← vmaAt vma
  if record.vmEnd ≤ record.vmStart then
    pure (-1)
  else
    let first := (← mmAt mm).vma
    let front ←
      if first = 0 then
        pure true
      else
        pure (decide (record.vmEnd ≤ (← vmaAt first).vmEnd))
    if front then
      storeVma vma fun record => { record with vmNext := first }
      storeMmAt mm fun record => { record with vma := vma }
      adopt mm vma
    else
      addLoop mm vma fuel first

/-! ## Lists -/

namespace Records

variable (r : Records)

/-- The links of all nodes. -/
def next (p : Word) : Word :=
  (r.vma p).vmNext

/-- A node as the lists of `MmStruct` hold it. -/
def view (p : Word) : Vma where
  addr := p
  vmStart := (r.vma p).vmStart
  vmEnd := (r.vma p).vmEnd
  type := (r.vma p).type
  flags := (r.vma p).flags
  file := (r.vma p).file
  fileStart := (r.vma p).fileStart
  fileSize := (r.vma p).fileSize

/-- The list that hangs from `mm->vma`. -/
def ListAt (mm : Word) (nodes : List Word) : Prop :=
  Line r.next 0 (r.mm mm).vma nodes

/-- A descriptor with its list. -/
def mmView (mm : Word) (nodes : List Word) : MmStruct where
  codeStart := (r.mm mm).codeStart
  codeEnd := (r.mm mm).codeEnd
  vma := nodes.map r.view
  vmaCount := (r.mm mm).vmaCount
  mmapStartAddr := (r.mm mm).mmapStartAddr
  mmapEndAddr := (r.mm mm).mmapEndAddr
  mmapAllocAddr := (r.mm mm).mmapAllocAddr

/-- The records after a node was linked behind another one and counted. -/
def linkBehind (mm vma place : Word) : Records where
  vma := fun p =>
    if p = vma then
      { r.vma vma with vmNext := r.next place, vmMm := mm }
    else if p = place then
      { r.vma place with vmNext := vma }
    else
      r.vma p
  mm := fun p =>
    if p = mm then
      { r.mm mm with vmaCount := (r.mm mm).vmaCount + 1 }
    else
      r.mm p
  file := r.file

/-- The records after a node was linked at the front and counted. -/
def linkFront (mm vma : Word) : Records where
  vma := fun p =>
    if p = vma then
      { r.vma vma with vmNext := (r.mm mm).vma, vmMm := mm }
    else
      r.vma p
  mm := fun p =>
    if p = mm then
      { r.mm mm with vma := vma, vmaCount := (r.mm mm).vmaCount + 1 }
    else
      r.mm p
  file := r.file

end Records

/-! ## Runs -/

section Runs

variable {r : Records} {mm vma curr place p : Word} {fuel : Nat}

theorem vmaAt_eq (notNull : p ≠ 0) : vmaAt p r = .ok (r.vma p, r) := by
  rw [vmaAt, if_neg notNull]
  rfl

theorem storeVma_eq {update : VmaRecord → VmaRecord} (notNull : p ≠ 0) :
    storeVma p update r = .ok ((), r.setVma p (update (r.vma p))) := by
  rw [storeVma, bind_of_ok (vmaAt_eq notNull)]
  rfl

theorem mmAt_eq (notNull : p ≠ 0) : mmAt p r = .ok (r.mm p, r) := by
  rw [mmAt, if_neg notNull]
  rfl

theorem storeMmAt_eq {update : MmRecord → MmRecord} (notNull : p ≠ 0) :
    storeMmAt p update r = .ok ((), r.setMm p (update (r.mm p))) := by
  rw [storeMmAt, bind_of_ok (mmAt_eq notNull)]
  rfl

theorem adopt_eq (mmSome : mm ≠ 0) (vmaSome : vma ≠ 0) :
    adopt mm vma r =
      .ok (0, (r.setVma vma { r.vma vma with vmMm := mm }).setMm mm
        { r.mm mm with vmaCount := (r.mm mm).vmaCount + 1 }) := by
  rw [adopt, bind_of_ok (storeVma_eq vmaSome),
    bind_of_ok (storeMmAt_eq mmSome)]
  rfl

/-- The branch of the loop that links the node between two others. -/
theorem linkBetween_eq (mmSome : mm ≠ 0) (vmaSome : vma ≠ 0)
    (placeSome : place ≠ 0) (different : vma ≠ place) :
    (do
      storeVma vma fun record => { record with vmNext := r.next place }
      storeVma place fun record => { record with vmNext := vma }
      adopt mm vma) r = .ok (0, r.linkBehind mm vma place) := by
  rw [bind_of_ok (storeVma_eq vmaSome), bind_of_ok (storeVma_eq placeSome),
    adopt_eq mmSome vmaSome]
  have ends : ((((r.setVma vma
      { r.vma vma with vmNext := r.next place }).setVma place
        { r.vma place with vmNext := vma }).setVma vma
          { r.vma vma with vmNext := r.next place, vmMm := mm }).setMm mm
            { r.mm mm with vmaCount := (r.mm mm).vmaCount + 1 }) =
      r.linkBehind mm vma place := by
    unfold Records.linkBehind Records.setMm Records.setVma
    congr 1
    funext p
    by_cases isVma : p = vma
    · simp [isVma]
    · by_cases isPlace : p = place <;> simp [isVma, isPlace]
  rw [← ends]
  simp [Records.setVma, Records.setMm, different, Ne.symm different]

/-- The branch for the last node, which leaves the link of the new one. -/
theorem linkLast_eq (mmSome : mm ≠ 0) (vmaSome : vma ≠ 0)
    (placeSome : place ≠ 0) (different : vma ≠ place)
    (same : r.next vma = r.next place) :
    (do
      storeVma place fun record => { record with vmNext := vma }
      adopt mm vma) r = .ok (0, r.linkBehind mm vma place) := by
  rw [bind_of_ok (storeVma_eq placeSome), adopt_eq mmSome vmaSome]
  have ends : (((r.setVma place { r.vma place with vmNext := vma }).setVma vma
      { r.vma vma with vmMm := mm }).setMm mm
        { r.mm mm with vmaCount := (r.mm mm).vmaCount + 1 }) =
      r.linkBehind mm vma place := by
    unfold Records.linkBehind Records.setMm Records.setVma
    congr 1
    funext p
    by_cases isVma : p = vma
    · have link : (r.vma place).vmNext = (r.vma vma).vmNext := same.symm
      simp [isVma, Records.next, link]
    · by_cases isPlace : p = place
      · simp [isPlace, Ne.symm different]
      · simp [isVma, isPlace]
  rw [← ends]
  simp [Records.setVma, Records.setMm, different]

/-- The loop of `add_mmstruct` links the node where `insertAfter` puts it. -/
theorem addLoop_eq (mmSome : mm ≠ 0) (vmaSome : vma ≠ 0)
    (unlinked : r.next vma = 0) :
    ∀ {nodes : List Word} {curr : Word} {fuel : Nat},
      Line r.next 0 curr nodes → nodes ≠ [] → vma ∉ nodes →
        nodes.length ≤ fuel →
          ∃ before place after, nodes = before ++ place :: after ∧
            insertAfter (r.view vma) (nodes.map r.view) =
              (before ++ [place]).map r.view ++
                r.view vma :: after.map r.view ∧
            addLoop mm vma fuel curr r =
              .ok (0, r.linkBehind mm vma place) := by
  intro nodes
  induction nodes with
  | nil => exact fun _ nonempty => absurd rfl nonempty
  | cons node rest inductionHypothesis =>
      intro curr fuel line _ new enough
      have currSome : curr ≠ 0 := line.ne_null (List.cons_ne_nil node rest)
      obtain ⟨tail, same, restLine⟩ := line.exists_cons currSome
      injection same with isNode isTail
      subst isNode
      subst isTail
      have different : vma ≠ node := fun same => new (by simp [same])
      obtain ⟨fuel, rfl⟩ : ∃ less, fuel = less + 1 :=
        ⟨fuel - 1, by rw [List.length_cons] at enough; omega⟩
      rw [addLoop, if_pos currSome, bind_of_ok (vmaAt_eq currSome),
        bind_of_ok (vmaAt_eq vmaSome)]
      by_cases last : r.next node = 0
      · have empty : rest = [] := by
          rw [last] at restLine
          exact restLine.eq_nil
        subst empty
        refine ⟨[], node, [], rfl, rfl, ?_⟩
        rw [if_neg (show ¬ (r.vma node).vmNext ≠ 0 from not_not.mpr last)]
        exact linkLast_eq mmSome vmaSome currSome different
          (unlinked.trans last.symm)
      · obtain ⟨others, isRest, _⟩ := restLine.exists_cons last
        rw [if_pos (show (r.vma node).vmNext ≠ 0 from last),
          bind_of_ok (show vmaAt (r.vma node).vmNext r =
            .ok (r.vma (r.vma node).vmNext, r) from vmaAt_eq last)]
        rw [isRest, List.map_cons, List.map_cons, insertAfter]
        by_cases here :
            (r.view vma).vmEnd ≤ (r.view (r.next node)).vmStart
        · rw [if_pos here, if_pos (show (r.vma vma).vmEnd ≤
            (r.vma (r.vma node).vmNext).vmStart from here)]
          exact ⟨[], node, r.next node :: others, rfl, rfl,
            linkBetween_eq mmSome vmaSome currSome different⟩
        · rw [if_neg here, if_neg (show ¬ (r.vma vma).vmEnd ≤
            (r.vma (r.vma node).vmNext).vmStart from here), ← List.map_cons,
            ← isRest]
          obtain ⟨before, place, after, parts, inserted, ran⟩ :=
            inductionHypothesis restLine (by rw [isRest]; simp)
              (fun member => new (List.mem_cons_of_mem _ member))
              (Nat.le_of_succ_le_succ enough)
          refine ⟨node :: before, place, after, by rw [parts]; rfl, ?_, ran⟩
          rw [inserted]
          rfl

end Runs

/-! ## Insertion -/

/-- What `add_mmstruct` may change when it accepts a node: links, the count
and the first node of the one descriptor, and `vm_mm` of the new node. -/
structure Inserts (r next : Records) (mm vma : Word) (all : List Word) :
    Prop where
  list : next.ListAt mm all
  view : ∀ p, next.view p = r.view p
  descriptor : next.mm mm =
    { r.mm mm with
      vma := (next.mm mm).vma
      vmaCount := (r.mm mm).vmaCount + 1 }
  owner : (next.vma vma).vmMm = mm
  owners : ∀ p, p ≠ vma → (next.vma p).vmMm = (r.vma p).vmMm
  others : ∀ p, p ∉ all → next.vma p = r.vma p
  descriptors : ∀ p, p ≠ mm → next.mm p = r.mm p
  files : next.file = r.file

section Insertion

variable {r : Records} {mm vma : Word} {nodes : List Word}

theorem Inserts.mmView {next : Records} {all : List Word}
    (inserts : Inserts r next mm vma all) (nodes : List Word) :
    next.mmView mm all =
      { r.mmView mm nodes with
        vma := all.map r.view
        vmaCount := (r.mm mm).vmaCount + 1 } := by
  have views : next.view = r.view := funext inserts.view
  unfold Records.mmView
  rw [inserts.descriptor, views]

theorem inserts_linkBehind {before after : List Word} {place : Word}
    (list : r.ListAt mm (before ++ place :: after))
    (new : vma ∉ before ++ place :: after) (vmaSome : vma ≠ 0) :
    Inserts r (r.linkBehind mm vma place) mm vma
      (before ++ place :: vma :: after) := by
  have different : vma ≠ place := fun same => new (by simp [same])
  have atPlace : (r.linkBehind mm vma place).next place = vma := by
    simp [Records.next, Records.linkBehind, Ne.symm different]
  have atVma : (r.linkBehind mm vma place).next vma = r.next place := by
    simp [Records.next, Records.linkBehind]
  have elsewhere : ∀ p, p ≠ vma → p ≠ place →
      (r.linkBehind mm vma place).vma p = r.vma p := by
    intro p notVma notPlace
    simp [Records.linkBehind, notVma, notPlace]
  have first : ((r.linkBehind mm vma place).mm mm).vma = (r.mm mm).vma := by
    simp [Records.linkBehind]
  constructor
  · unfold Records.ListAt
    rw [first]
    apply list.insert new vmaSome atPlace atVma
    intro p member notPlace
    unfold Records.next
    rw [elsewhere p (fun same => new (same ▸ member)) notPlace]
  · intro p
    by_cases isVma : p = vma
    · simp [Records.view, Records.linkBehind, isVma]
    · by_cases isPlace : p = place
      · simp [Records.view, Records.linkBehind, isPlace, Ne.symm different]
      · unfold Records.view
        rw [elsewhere p isVma isPlace]
  · simp [Records.linkBehind]
  · simp [Records.linkBehind]
  · intro p notVma
    by_cases isPlace : p = place
    · simp [Records.linkBehind, isPlace, Ne.symm different]
    · rw [elsewhere p notVma isPlace]
  · intro p out
    apply elsewhere
    · rintro rfl
      exact out (by simp)
    · rintro rfl
      exact out (by simp)
  · intro p other
    simp [Records.linkBehind, other]
  · rfl

theorem inserts_linkFront (list : r.ListAt mm nodes) (new : vma ∉ nodes)
    (vmaSome : vma ≠ 0) :
    Inserts r (r.linkFront mm vma) mm vma (vma :: nodes) := by
  have elsewhere : ∀ p, p ≠ vma → (r.linkFront mm vma).vma p = r.vma p := by
    intro p notVma
    simp [Records.linkFront, notVma]
  have first : ((r.linkFront mm vma).mm mm).vma = vma := by
    simp [Records.linkFront]
  have atVma : (r.linkFront mm vma).next vma = (r.mm mm).vma := by
    simp [Records.next, Records.linkFront]
  constructor
  · unfold Records.ListAt
    rw [first]
    apply Line.cons _ new vmaSome atVma
    apply list.congr
    intro p member
    unfold Records.next
    rw [elsewhere p fun same => new (same ▸ member)]
  · intro p
    by_cases isVma : p = vma
    · simp [Records.view, Records.linkFront, isVma]
    · unfold Records.view
      rw [elsewhere p isVma]
  · simp [Records.linkFront]
  · simp [Records.linkFront]
  · intro p notVma
    rw [elsewhere p notVma]
  · intro p out
    apply elsewhere
    rintro rfl
    exact out List.mem_cons_self
  · intro p other
    simp [Records.linkFront, other]
  · rfl

theorem linkFront_eq (mmSome : mm ≠ 0)
    (vmaSome : vma ≠ 0) :
    (do
      storeVma vma fun record => { record with vmNext := (r.mm mm).vma }
      storeMmAt mm fun record => { record with vma := vma }
      adopt mm vma) r = .ok (0, r.linkFront mm vma) := by
  rw [bind_of_ok (storeVma_eq vmaSome), bind_of_ok (storeMmAt_eq mmSome),
    adopt_eq mmSome vmaSome]
  have ends : ((((r.setVma vma
      { r.vma vma with vmNext := (r.mm mm).vma }).setMm mm
        { r.mm mm with vma := vma }).setVma vma
          { r.vma vma with vmNext := (r.mm mm).vma, vmMm := mm }).setMm mm
            { r.mm mm with
              vma := vma
              vmaCount := (r.mm mm).vmaCount + 1 }) =
      r.linkFront mm vma := by
    unfold Records.linkFront Records.setMm Records.setVma
    congr 1
    · funext p
      by_cases isVma : p = vma <;> simp [isVma]
    · funext p
      by_cases isMm : p = mm <;> simp [isMm]
  rw [← ends]
  simp [Records.setVma, Records.setMm]

/-- On a list that ends `add_mmstruct` does what its list version says. -/
theorem addMmstructAt_refines {fuel : Nat} (list : r.ListAt mm nodes)
    (mmSome : mm ≠ 0) (vmaSome : vma ≠ 0) (new : vma ∉ nodes)
    (unlinked : r.next vma = 0) (enough : nodes.length ≤ fuel) :
    (addMmstruct (r.mmView mm nodes) (r.view vma) = none ∧
        addMmstructAt fuel mm vma r = .ok (-1, r)) ∨
      ∃ next before after,
        addMmstructAt fuel mm vma r = .ok (0, next) ∧
        nodes = before ++ after ∧
        Inserts r next mm vma (before ++ vma :: after) ∧
        addMmstruct (r.mmView mm nodes) (r.view vma) =
          some (next.mmView mm (before ++ vma :: after)) := by
  unfold addMmstructAt
  rw [bind_of_ok (vmaAt_eq vmaSome)]
  by_cases refused : (r.vma vma).vmEnd ≤ (r.vma vma).vmStart
  · left
    exact ⟨addMmstruct_eq_none_iff.mpr refused, by rw [if_pos refused]; rfl⟩
  · right
    rw [if_neg refused, bind_of_ok (mmAt_eq mmSome)]
    by_cases none : (r.mm mm).vma = 0
    · have line : Line r.next 0 (r.mm mm).vma nodes := list
      rw [none] at line
      have empty := line.eq_nil
      subst empty
      have inserts : Inserts r (r.linkFront mm vma) mm vma ([] ++ [vma]) :=
        inserts_linkFront list new vmaSome
      refine ⟨r.linkFront mm vma, [], [], ?_, rfl, inserts, ?_⟩
      · rw [if_pos none]
        exact linkFront_eq mmSome vmaSome
      · rw [addMmstruct_front refused (by simp [Records.mmView]),
          inserts.mmView []]
        rfl
    · obtain ⟨rest, isNodes, _⟩ := Line.exists_cons list none
      have loaded : vmaAt (r.mm mm).vma r =
          .ok (r.vma (r.mm mm).vma, r) := vmaAt_eq none
      rw [if_neg none]
      by_cases front : (r.vma vma).vmEnd ≤ (r.vma (r.mm mm).vma).vmEnd
      · have inserts : Inserts r (r.linkFront mm vma) mm vma
            ([] ++ vma :: nodes) := inserts_linkFront list new vmaSome
        refine ⟨r.linkFront mm vma, [], nodes, ?_, rfl, inserts, ?_⟩
        · rw [bind_of_ok loaded, pure_bind, decide_eq_true front]
          exact linkFront_eq mmSome vmaSome
        · have isFront : ∀ first ∈ (r.mmView mm nodes).vma.head?,
              (r.view vma).vmEnd ≤ first.vmEnd := by
            rw [isNodes]
            intro first member
            cases member
            exact front
          rw [addMmstruct_front refused isFront, inserts.mmView nodes]
          rfl
      · obtain ⟨before, place, after, parts, inserted, ran⟩ :=
          addLoop_eq mmSome vmaSome unlinked list (by rw [isNodes]; simp) new
            enough
        have inserts := inserts_linkBehind (parts ▸ list) (parts ▸ new) vmaSome
        rw [List.append_cons] at inserts parts
        refine ⟨r.linkBehind mm vma place, before ++ [place], after, ?_, parts,
          inserts, ?_⟩
        · rw [bind_of_ok loaded, pure_bind, decide_eq_false front]
          exact ran
        · have views : (r.mmView mm nodes).vma =
              r.view (r.mm mm).vma :: rest.map r.view := by
            rw [isNodes]
            rfl
          rw [addMmstruct_behind refused views front, inserts.mmView nodes,
            ← views]
          simp only [Records.mmView, inserted]
          simp

/-- A range behind all others is linked at the end. -/
theorem addMmstructAt_append {fuel : Nat} (list : r.ListAt mm nodes)
    (mmSome : mm ≠ 0) (vmaSome : vma ≠ 0) (new : vma ∉ nodes)
    (unlinked : r.next vma = 0) (enough : nodes.length ≤ fuel)
    (some : nodes ≠ []) (range : (r.view vma).vmStart < (r.view vma).vmEnd)
    (behind : ∀ node ∈ nodes, (r.view node).vmStart < (r.view node).vmEnd ∧
      (r.view node).vmEnd ≤ (r.view vma).vmStart) :
    ∃ next, addMmstructAt fuel mm vma r = .ok (0, next) ∧
      Inserts r next mm vma (nodes ++ [vma]) := by
  have appended : addMmstruct (r.mmView mm nodes) (r.view vma) = _ :=
    addMmstruct_append (by simpa [Records.mmView] using some) range <| by
      intro other member
      obtain ⟨node, inside, rfl⟩ := List.mem_map.mp member
      exact behind node inside
  rcases addMmstructAt_refines list mmSome vmaSome new unlinked enough with
    ⟨refused, _⟩ | ⟨next, before, after, ran, _, inserts, accepted⟩
  · rw [appended] at refused
    cases refused
  · rw [appended] at accepted
    have views := congrArg MmStruct.vma (Option.some.inj accepted)
    have addrs := congrArg (List.map Vma.addr) views
    have order : nodes ++ [vma] = before ++ vma :: after := by
      have ids : ∀ (records : Records) (all : List Word),
          (all.map records.view).map Vma.addr = all := by
        intro records all
        rw [List.map_map]
        exact List.map_id all
      simp only [Records.mmView, List.map_append, ids] at addrs
      exact addrs
    rw [← order] at inserts
    exact ⟨next, ran, inserts⟩

/-- Ordered insertion: an empty or inverted range is refused; any other one
is linked once into the list, whatever its order, and a tidy list stays
tidy. -/
theorem addMmstruct_inserts {fuel : Nat} (list : r.ListAt mm nodes)
    (count : (r.mm mm).vmaCount = BitVec.ofNat 64 nodes.length)
    (mmSome : mm ≠ 0) (vmaSome : vma ≠ 0) (new : vma ∉ nodes)
    (unlinked : r.next vma = 0) (enough : nodes.length ≤ fuel) :
    ((r.vma vma).vmEnd ≤ (r.vma vma).vmStart →
        addMmstructAt fuel mm vma r = .ok (-1, r)) ∧
      ((r.vma vma).vmStart < (r.vma vma).vmEnd →
        ∃ next before after,
          addMmstructAt fuel mm vma r = .ok (0, next) ∧
          nodes = before ++ after ∧
          Inserts r next mm vma (before ++ vma :: after) ∧
          (next.mm mm).vmaCount =
            BitVec.ofNat 64 (before ++ vma :: after).length ∧
          (Tidy (nodes.map r.view) →
            (∀ node ∈ nodes, (r.view vma).Apart (r.view node)) →
              Tidy ((before ++ vma :: after).map next.view))) := by
  have refines := addMmstructAt_refines list mmSome vmaSome new unlinked
    enough
  constructor
  · intro refused
    have none : addMmstruct (r.mmView mm nodes) (r.view vma) = none :=
      addMmstruct_eq_none_iff.mpr refused
    rcases refines with ⟨_, ran⟩ | ⟨_, _, _, _, _, _, accepted⟩
    · exact ran
    · rw [none] at accepted
      cases accepted
  · intro range
    rcases refines with
      ⟨refused, _⟩ | ⟨next, before, after, ran, parts, inserts, accepted⟩
    · exact absurd (addMmstruct_eq_none_iff.mp refused)
        (BitVec.not_le.mpr range)
    · refine ⟨next, before, after, ran, parts, inserts, ?_, ?_⟩
      · rw [inserts.descriptor, count, parts]
        simp only [List.length_append, List.length_cons]
        rw [BitVec.ofNat_add, BitVec.ofNat_add, BitVec.ofNat_add,
          BitVec.add_assoc]
        rfl
      · intro tidy apart
        refine Tidy.addMmstruct tidy ?_ accepted
        intro other member
        obtain ⟨node, inside, rfl⟩ := List.mem_map.mp member
        exact apart node inside

/-- A list of two nodes, and a node that lies between them. -/
def sampleRecords : Records where
  vma := fun p =>
    if p = 0x1000 then
      { vmMm := 0x100, vmNext := 0x2000, vmStart := 0x400000,
        vmEnd := 0x401000 }
    else if p = 0x2000 then
      { vmMm := 0x100, vmStart := 0x600000, vmEnd := 0x601000 }
    else if p = 0x3000 then
      { vmStart := 0x500000, vmEnd := 0x501000 }
    else
      {}
  mm := fun p => if p = 0x100 then { vma := 0x1000, vmaCount := 2 } else {}
  file := fun _ => {}

theorem listAt_sampleRecords :
    sampleRecords.ListAt 0x100 [0x1000, 0x2000] :=
  ⟨⟨rfl, rfl, rfl⟩, by decide, by decide⟩

theorem tidy_sampleRecords :
    Tidy ([0x1000, 0x2000].map sampleRecords.view) :=
  tidy_iff.mpr ⟨by decide, by decide⟩

theorem addMmstruct_inserts_sample :
    ∃ next before after,
      addMmstructAt 2 0x100 0x3000 sampleRecords = .ok (0, next) ∧
      [0x1000, 0x2000] = before ++ after ∧
      next.ListAt 0x100 (before ++ 0x3000 :: after) ∧
      Tidy ((before ++ 0x3000 :: after).map next.view) := by
  obtain ⟨next, before, after, ran, parts, inserts, _, tidy⟩ :=
    (addMmstruct_inserts listAt_sampleRecords rfl
      (show (0x100 : Word) ≠ 0 by decide) (show (0x3000 : Word) ≠ 0 by decide)
      (by decide) rfl (Nat.le_refl 2)).2 (by decide)
  have apart : ∀ node ∈ ([0x1000, 0x2000] : List Word),
      (sampleRecords.view 0x3000).Apart (sampleRecords.view node) := by
    intro node member
    rcases List.mem_pair.mp member with rfl | rfl
    · exact Or.inr (by decide)
    · exact Or.inl (by decide)
  exact ⟨next, before, after, ran, parts, inserts.list,
    tidy tidy_sampleRecords apart⟩

end Insertion

end SbuUnix
