import SbuUnix.Paging.Blocks
import SbuUnix.Process.Loader

/-!
# The areas of a loaded image

`load_binaries` stores a null pointer to `vm_next` of a node that
`add_mmstruct` has just linked in, so whatever stands behind the node is no
longer on the list.  The list describes the image as long as there is nothing
behind any node at that time.
-/

namespace SbuUnix

open Outcome

/-! ## Lists that are cut behind each new item -/

section Cuts

variable {α : Type} {before : α → α → Prop} [DecidableRel before]
  {items later : List α}

/-- The items before a new one, and the new one. -/
def cutBehind (before : α → α → Prop) [DecidableRel before] (items : List α)
    (item : α) : List α :=
  items.filter (fun other => before other item) ++ [item]

theorem subset_cutBehind (items : List α) (item : α) :
    cutBehind before items item ⊆ items ++ [item] := by
  intro other member
  rcases List.mem_append.mp member with kept | new
  · exact List.mem_append_left _ (List.mem_filter.mp kept).1
  · exact List.mem_append_right _ new

theorem subset_foldl_cutBehind (later : List α) :
    ∀ items : List α,
      later.foldl (cutBehind before) items ⊆ items ++ later := by
  induction later with
  | nil => exact fun items _ member => List.mem_append_left _ member
  | cons item rest inductionHypothesis =>
      intro items other member
      rw [List.append_cons]
      rcases List.mem_append.mp (inductionHypothesis _ member) with kept | new
      · exact List.mem_append_left _ (subset_cutBehind items item kept)
      · exact List.mem_append_right _ new

theorem length_cutBehind_le (items : List α) (item : α) :
    (cutBehind before items item).length ≤ items.length + 1 := by
  rw [cutBehind, List.length_append, List.length_singleton]
  exact Nat.succ_le_succ (List.length_filter_le _ items)

theorem cutBehind_eq_append {item : α}
    (all : ∀ other ∈ items, before other item) :
    cutBehind before items item = items ++ [item] := by
  rw [cutBehind, List.filter_eq_self.mpr fun other member =>
    decide_eq_true (all other member)]

/-- Nothing was lost when the length says so. -/
theorem all_of_length_cutBehind {item : α}
    (length : (cutBehind before items item).length = items.length + 1) :
    ∀ other ∈ items, before other item := by
  rw [cutBehind, List.length_append, List.length_singleton] at length
  have same := List.length_filter_eq_length_iff.mp (Nat.succ.inj length)
  exact fun other member => of_decide_eq_true (same other member)

theorem length_foldl_cutBehind_le (later : List α) :
    ∀ items : List α,
      (later.foldl (cutBehind before) items).length ≤
        items.length + later.length := by
  induction later with
  | nil => exact fun items => Nat.le_refl _
  | cons item rest inductionHypothesis =>
      intro items
      have one : (cutBehind before items item).length ≤ items.length + 1 :=
        length_cutBehind_le items item
      have others := inductionHypothesis (cutBehind before items item)
      rw [List.foldl_cons, List.length_cons]
      omega

/-- All items are kept exactly when they come in order. -/
theorem length_foldl_cutBehind_eq_iff (later : List α) :
    ∀ items : List α, items.Pairwise before →
      ((later.foldl (cutBehind before) items).length =
          items.length + later.length ↔
        (items ++ later).Pairwise before) := by
  induction later with
  | nil =>
      intro items ordered
      simpa using ordered
  | cons item rest inductionHypothesis =>
      intro items ordered
      have one : (cutBehind before items item).length ≤ items.length + 1 :=
        length_cutBehind_le items item
      have others : (rest.foldl (cutBehind before)
          (cutBehind before items item)).length ≤
            (cutBehind before items item).length + rest.length :=
        length_foldl_cutBehind_le rest _
      have step : (∀ other ∈ items, before other item) →
          (items ++ [item]).Pairwise before := fun all =>
        List.pairwise_append.mpr ⟨ordered, List.pairwise_singleton .., by
          simpa using all⟩
      rw [List.foldl_cons, List.length_cons, List.append_cons]
      constructor
      · intro length
        have all := all_of_length_cutBehind
          (show (cutBehind before items item).length = items.length + 1 by
            omega)
        rw [cutBehind_eq_append all] at length
        apply (inductionHypothesis _ (step all)).mp
        rw [length, List.length_append, List.length_singleton]
        omega
      · intro whole
        have all : ∀ other ∈ items, before other item := by
          have parts := (List.pairwise_append.mp whole).1
          simpa using (List.pairwise_append.mp parts).2.2
        rw [cutBehind_eq_append all,
          (inductionHypothesis _ (step all)).mpr whole, List.length_append,
          List.length_singleton]
        omega

theorem foldl_cutBehind_eq (later : List α) :
    ∀ items : List α, (items ++ later).Pairwise before →
      later.foldl (cutBehind before) items = items ++ later := by
  induction later with
  | nil => exact fun items _ => (List.append_nil items).symm
  | cons item rest inductionHypothesis =>
      intro items whole
      rw [List.append_cons] at whole ⊢
      have all : ∀ other ∈ items, before other item := by
        have parts := (List.pairwise_append.mp whole).1
        simpa using (List.pairwise_append.mp parts).2.2
      rw [List.foldl_cons, cutBehind_eq_append all, inductionHypothesis _ whole]

end Cuts

/-! ## Areas -/

/-- Where an area starts and ends. -/
def Vma.range (vma : Vma) : Word × Word :=
  (vma.vmStart, vma.vmEnd)

/-- One range ends before the other starts. -/
def Before (range other : Word × Word) : Prop :=
  range.2 ≤ other.1

instance : DecidableRel Before :=
  fun range other => inferInstanceAs (Decidable (range.2 ≤ other.1))

/-- The ranges have no byte in common. -/
def RangeApart (range other : Word × Word) : Prop :=
  Before range other ∨ Before other range

section Areas

variable {mm added : MmStruct} {vma : Vma}

theorem cutAfter_append {before after : List Vma}
    (fresh : ∀ other ∈ before, other.addr ≠ vma.addr) :
    cutAfter vma.addr (before ++ vma :: after) = before ++ [vma] := by
  induction before with
  | nil => exact if_pos rfl
  | cons first rest inductionHypothesis =>
      rw [List.cons_append, cutAfter, if_neg (fresh first List.mem_cons_self),
        inductionHypothesis fun other member =>
          fresh other (List.mem_cons_of_mem _ member)]
      rfl

/-- A store to the last node only changes this one. -/
theorem updateVma_append {update : Vma → Vma} {before : List Vma}
    (fresh : ∀ other ∈ before, other.addr ≠ vma.addr) :
    updateVma vma.addr update (before ++ [vma]) =
      before ++ [update vma] := by
  unfold updateVma
  rw [List.map_append, List.map_singleton, if_pos rfl]
  congr 1
  calc
    (before.map fun other =>
        if other.addr = vma.addr then update other else other) =
        before.map id :=
      List.map_congr_left fun other member => if_neg (fresh other member)
    _ = before := List.map_id before

theorem cutAfter_updateVma {update : Vma → Vma} {addr : Word}
    (sameAddr : ∀ vma, (update vma).addr = vma.addr) (vmas : List Vma) :
    cutAfter addr (updateVma addr update vmas) =
      updateVma addr update (cutAfter addr vmas) := by
  induction vmas with
  | nil => rfl
  | cons first rest inductionHypothesis =>
      unfold updateVma at inductionHypothesis ⊢
      by_cases here : first.addr = addr
      · simp [cutAfter, here, sameAddr]
      · simp [cutAfter, here, inductionHypothesis]

/-- A node that is linked into a tidy list and cut behind. -/
theorem cutAfter_addMmstruct (tidy : Tidy mm.vma)
    (apart : ∀ other ∈ mm.vma, vma.Apart other)
    (fresh : ∀ other ∈ mm.vma, other.addr ≠ vma.addr)
    (accepted : addMmstruct mm vma = some added) :
    cutAfter vma.addr added.vma =
      mm.vma.filter (fun other => Before other.range vma.range) ++ [vma] := by
  obtain ⟨before, after, parts, whole⟩ := exists_split_addMmstruct accepted
  have ordered := (tidy_iff.mp (tidy.addMmstruct apart accepted)).2
  rw [whole, List.pairwise_append, List.pairwise_cons] at ordered
  obtain ⟨_, ⟨behind, _⟩, ahead⟩ := ordered
  have range := range_of_addMmstruct accepted
  have kept : before.filter (fun other => Before other.range vma.range) =
      before := by
    apply List.filter_eq_self.mpr
    intro other member
    exact decide_eq_true (ahead other member vma List.mem_cons_self)
  have lost : after.filter (fun other => Before other.range vma.range) =
      [] := by
    apply List.filter_eq_nil_iff.mpr
    intro other member holds
    have first := behind other member
    have second : other.vmEnd ≤ vma.vmStart := of_decide_eq_true holds
    have otherRange := tidy.nonempty other
      (parts ▸ List.mem_append_right _ member)
    simp only [BitVec.lt_def, BitVec.le_def] at *
    omega
  rw [whole, cutAfter_append fun other member =>
    fresh other (parts ▸ List.mem_append_left _ member), parts,
    List.filter_append, kept, lost, List.append_nil]

end Areas

/-! ## The list of a process -/

/-- `proc->mm` -/
def Kernel.HasMm (k : Kernel) (proc : Word) (mm : MmStruct) : Prop :=
  (k.procs.pcb proc).bind Pcb.mm = some mm

section Rules

variable {allowed : Fault → Prop} {k : Kernel} {proc : Word} {mm : MmStruct}

theorem yields_derefMm_of {post : MmStruct → Kernel → Prop}
    (has : k.HasMm proc mm) (holds : post mm k) :
    Yields allowed (derefMm proc) k post := by
  obtain ⟨pcb, found, isMm⟩ := Option.bind_eq_some_iff.mp has
  have read : derefMm proc k = .ok (mm, k) := by
    unfold derefMm
    rw [bind_of_ok (derefPcb_eq found), isMm]
    rfl
  rw [yields_iff_of_ok read]
  exact holds

theorem yields_derefPcb_of {post : Pcb → Kernel → Prop}
    (has : k.HasMm proc mm) (holds : ∀ pcb, post pcb k) :
    Yields allowed (derefPcb proc) k post := by
  obtain ⟨pcb, found, _⟩ := Option.bind_eq_some_iff.mp has
  rw [yields_iff_of_ok (derefPcb_eq found)]
  exact holds pcb

theorem yields_storeMm_of {new : MmStruct} {post : Unit → Kernel → Prop}
    (has : k.HasMm proc mm)
    (holds : ∀ procs, Kernel.HasMm { k with procs := procs } proc new →
      post () { k with procs := procs }) :
    Yields allowed (storeMm proc new) k post := by
  unfold storeMm
  rw [yields_bind]
  apply yields_derefMm_of has
  obtain ⟨pcb, found, _⟩ := Option.bind_eq_some_iff.mp has
  rw [yields_iff_of_ok (storePcb_eq found)]
  apply holds
  simp [Kernel.HasMm]

/-- A node from `kmalloc` has a name of its own. -/
theorem yields_kmallocRecord_named {post : Word × List Nat → Kernel → Prop}
    (holds : ∀ frame paging, frame < frameCount → frame ∉ k.objects →
      post (linearAddr frame, [frame])
        { k with paging := paging, objects := k.objects ++ [frame] }) :
    Yields AnyFault (kmallocRecord 4096) k post :=
  (yields_kmallocRecord_page holds).weaken fun failure _ => anyFault failure

end Rules

/-- The list while segments are loaded: its ranges, and how many nodes were
ever linked. -/
structure Areas (k : Kernel) (mm : MmStruct) (ranges : List (Word × Word))
    (count : Nat) : Prop where
  tidy : Tidy mm.vma
  ranges : mm.vma.map Vma.range = ranges
  count : mm.vmaCount = BitVec.ofNat 64 count
  types : ∀ vma ∈ mm.vma, vma.type = .text ∨ vma.type = .data
  named : ∀ vma ∈ mm.vma, ∃ frame < frameCount,
    frame ∈ k.objects ∧ vma.addr = linearAddr frame

section Segments

variable {k next : Kernel} {proc : Word} {mm added final : MmStruct}
  {vma last : Vma} {ranges : List (Word × Word)} {count : Nat}

theorem Areas.apart (areas : Areas k mm ranges count)
    (apart : ∀ range ∈ ranges, RangeApart vma.range range) :
    ∀ other ∈ mm.vma, vma.Apart other := by
  intro other member
  apply apart other.range
  rw [← areas.ranges]
  exact List.mem_map_of_mem member

theorem Areas.fresh (areas : Areas k mm ranges count) {frame : Nat}
    (below : frame < frameCount) (new : frame ∉ k.objects) :
    ∀ other ∈ mm.vma, other.addr ≠ linearAddr frame := by
  intro other member same
  obtain ⟨held, heldBelow, inside, isHeld⟩ := areas.named other member
  have isFrame : held = frame :=
    linearAddr_injective heldBelow below (isHeld.symm.trans same)
  exact new (isFrame ▸ inside)

/-- A node of a segment at the end, and the nodes before it that are left. -/
theorem Areas.place (areas : Areas k mm ranges count) {frame : Nat}
    (below : frame < frameCount) (addr : last.addr = linearAddr frame)
    (range : last.vmStart < last.vmEnd)
    (type : last.type = .text ∨ last.type = .data)
    (objects : ∀ held ∈ k.objects ++ [frame], held ∈ next.objects)
    (nodes : final.vma =
      mm.vma.filter (fun other => Before other.range last.range) ++ [last])
    (counted : final.vmaCount = mm.vmaCount + 1) :
    Areas next final (cutBehind Before ranges last.range) (count + 1) where
  tidy := by
    obtain ⟨nonempty, ordered⟩ := tidy_iff.mp areas.tidy
    rw [nodes]
    refine tidy_iff.mpr ⟨?_, ?_⟩
    · intro other member
      rcases List.mem_append.mp member with old | new
      · exact nonempty other (List.mem_filter.mp old).1
      · rw [List.mem_singleton.mp new]
        exact range
    · refine List.pairwise_append.mpr
        ⟨ordered.filter _, List.pairwise_singleton .., ?_⟩
      intro other member item isLast
      rw [List.mem_singleton.mp isLast]
      exact of_decide_eq_true (List.mem_filter.mp member).2
  ranges := by
    rw [nodes, List.map_append, List.map_singleton, cutBehind,
      ← areas.ranges, List.filter_map]
    rfl
  count := by
    rw [counted, areas.count, BitVec.ofNat_add]
    rfl
  types := by
    intro other member
    rw [nodes] at member
    rcases List.mem_append.mp member with old | new
    · exact areas.types other (List.mem_filter.mp old).1
    · rw [List.mem_singleton.mp new]
      exact type
  named := by
    intro other member
    rw [nodes] at member
    rcases List.mem_append.mp member with old | new
    · obtain ⟨held, heldBelow, inside, isHeld⟩ :=
        areas.named other (List.mem_filter.mp old).1
      exact ⟨held, heldBelow, objects held (List.mem_append_left _ inside),
        isHeld⟩
    · rw [List.mem_singleton.mp new]
      exact ⟨frame, below, objects frame (by simp), addr⟩

/-- The range of a segment. -/
def ElfPhdr.range (phdr : ElfPhdr) : Word × Word :=
  (phdr.pVaddr, phdr.stop)

theorem yields_loadSegment_areas {fuel : Nat} {elfHdr : Word}
    {phdr : ElfPhdr} (has : k.HasMm proc mm)
    (areas : Areas k mm ranges count)
    (apart : ∀ range ∈ ranges, RangeApart phdr.range range) :
    Yields AnyFault (loadSegment fuel proc elfHdr phdr) k fun loaded next =>
      loaded = true → ∃ final, next.HasMm proc final ∧
        Areas next final (cutBehind Before ranges phdr.range) (count + 1) := by
  unfold loadSegment
  rw [yields_bind]
  apply yields_kmallocRecord_named
  intro frame paging below new
  rw [yields_bind]
  have here : Kernel.HasMm
      { k with paging := paging, objects := k.objects ++ [frame] } proc mm :=
    has
  apply yields_derefMm_of here
  let vma : Vma :=
    { addr := linearAddr frame, vmStart := phdr.pVaddr, vmEnd := phdr.stop }
  have fresh := areas.fresh below new
  cases accepted : addMmstruct mm vma with
  | none =>
      rw [yields_pure]
      exact fun refused => Bool.noConfusion refused
  | some added =>
      have apartFrom : ∀ other ∈ mm.vma, vma.Apart other := areas.apart apart
      have linked := cutAfter_addMmstruct areas.tidy apartFrom fresh accepted
      have range := range_of_addMmstruct accepted
      have counted := vmaCount_of_addMmstruct accepted
      let kept := mm.vma.filter fun other => Before other.range vma.range
      have keptFresh : ∀ other ∈ kept, other.addr ≠ vma.addr :=
        fun other member => fresh other (List.mem_filter.mp member).1
      let flag : Vma → Vma := fun vma =>
        { vma with flags := phdr.pFlags.setWidth 64 }
      have sameAddr : ∀ vma, (flag vma).addr = vma.addr := fun _ => rfl
      have cut : cutAfter vma.addr (updateVma vma.addr flag added.vma) =
          kept ++ [flag vma] := by
        rw [cutAfter_updateVma sameAddr, linked, updateVma_append keptFresh]
      dsimp only
      rw [yields_bind]
      apply yields_storeMm_of here
      intro procs linkedHas
      rw [yields_bind]
      apply yields_derefPcb_of linkedHas
      intro pcb
      dsimp only
      rw [yields_bind, yields_runPaging, yields_anyFault]
      intro stop mapped _
      rw [yields_bind]
      refine yields_derefMm_of linkedHas ?_
      rw [yields_bind]
      refine yields_storeMm_of linkedHas fun procs cutHas => ?_
      rw [yields_ite]
      constructor
      · intro _
        rw [yields_bind]
        apply yields_kmallocRecord_named
        intro file later _ _
        dsimp only
        rw [yields_bind, yields_get, yields_bind, yields_runPaging,
          yields_anyFault]
        intro _ copied _
        rw [yields_bind]
        refine yields_derefMm_of cutHas ?_
        dsimp only
        rw [yields_bind]
        refine yields_storeMm_of cutHas fun procs lastHas => ?_
        rw [yields_pure]
        refine fun _ => ⟨_, lastHas, ?_⟩
        let describe : Vma → Vma := fun vma =>
          { vma with
            file := linearAddr file
            fileStart := phdr.pOffset
            fileSize := phdr.pFilesz
            type := if phdr.pFlags = (pfR ||| pfX) then .text else .data }
        have flagFresh : ∀ other ∈ kept, other.addr ≠ (flag vma).addr :=
          keptFresh
        have described : updateVma vma.addr describe (kept ++ [flag vma]) =
            kept ++ [describe (flag vma)] :=
          updateVma_append flagFresh
        have addr : (describe (flag vma)).addr = linearAddr frame := rfl
        have type : (describe (flag vma)).type = .text ∨
            (describe (flag vma)).type = .data := by
          by_cases text : phdr.pFlags = (pfR ||| pfX)
          · exact Or.inl (if_pos text)
          · exact Or.inr (if_neg text)
        rw [← cut] at described
        refine areas.place below addr range type ?_ described counted
        exact fun held member => List.mem_append_left _ member
      · intro _
        rw [yields_pure]
        refine fun _ => ⟨_, cutHas, ?_⟩
        have addr : (flag vma).addr = linearAddr frame := rfl
        exact areas.place below addr range (Or.inl rfl)
          (fun held member => member) cut counted

end Segments

/-! ## All segments -/

/-- The program headers that `load_binaries` does not pass over. -/
def loadedSegments (phdrs : List ElfPhdr) : List ElfPhdr :=
  phdrs.filter fun phdr => phdr.pType = ptLoad

section Image

variable {proc elfHdr : Word} {fuel : Nat}

theorem yields_loadSegments_areas (phdrs : List ElfPhdr) :
    ∀ {k : Kernel} {mm : MmStruct} {ranges : List (Word × Word)}
      {count : Nat}, k.HasMm proc mm → Areas k mm ranges count →
        (∀ phdr ∈ loadedSegments phdrs, ∀ range ∈ ranges,
          RangeApart phdr.range range) →
        (loadedSegments phdrs).Pairwise
          (fun phdr other => RangeApart phdr.range other.range) →
          Yields AnyFault (loadSegments fuel proc elfHdr phdrs) k
            fun loaded next => loaded = true → ∃ final,
              next.HasMm proc final ∧
                Areas next final
                  (((loadedSegments phdrs).map ElfPhdr.range).foldl
                    (cutBehind Before) ranges)
                  (count + (loadedSegments phdrs).length) := by
  induction phdrs with
  | nil =>
      intro k mm ranges count has areas _ _
      rw [loadSegments, yields_pure]
      exact fun _ => ⟨mm, has, areas⟩
  | cons phdr rest inductionHypothesis =>
      intro k mm ranges count has areas apart disjoint
      rw [loadSegments]
      by_cases load : phdr.pType = ptLoad
      · have isFirst : loadedSegments (phdr :: rest) =
            phdr :: loadedSegments rest :=
          List.filter_cons_of_pos (decide_eq_true load)
        rw [isFirst] at apart disjoint ⊢
        obtain ⟨apartRest, disjointRest⟩ := List.pairwise_cons.mp disjoint
        rw [if_pos load, yields_bind]
        apply (yields_loadSegment_areas has areas
          (apart phdr List.mem_cons_self)).mono
        intro loaded next placed
        rw [yields_ite]
        constructor
        · intro isLoaded
          obtain ⟨final, finalHas, finalAreas⟩ := placed isLoaded
          have later := inductionHypothesis finalHas finalAreas ?_ disjointRest
          · apply later.mono
            intro _ last ends yes
            rw [List.map_cons, List.foldl_cons, List.length_cons,
              Nat.add_comm _ 1, ← Nat.add_assoc]
            exact ends yes
          · intro other member range inside
            rcases List.mem_append.mp (subset_cutBehind _ _ inside) with
              old | new
            · exact apart other (List.mem_cons_of_mem _ member) range old
            · rw [List.mem_singleton.mp new]
              exact (apartRest other member).symm
        · intro _
          rw [yields_pure]
          exact fun refused => Bool.noConfusion refused
      · have isRest : loadedSegments (phdr :: rest) = loadedSegments rest :=
          List.filter_cons_of_neg (by simpa using load)
        rw [isRest] at apart disjoint ⊢
        rw [if_neg load]
        exact inductionHypothesis has areas apart disjoint

/-! ## Heap and stack -/

/-- The list at the end: what is left of the segments, the heap and the
stack. -/
structure WholeList (mm : MmStruct) (ranges : List (Word × Word))
    (count : Nat) : Prop where
  nodes : ∃ kept heap stack, mm.vma = kept ++ [heap, stack] ∧
    (∀ vma ∈ kept, vma.type = .text ∨ vma.type = .data) ∧
    kept.map Vma.range =
      ranges.filter (fun range => Before range (heapAddr, heapEnd)) ∧
    heap.type = .heap ∧ heap.range = (heapAddr, heapEnd) ∧
    stack.type = .stack ∧ stack.range = (stackAddr, stackEnd)
  count : mm.vmaCount = BitVec.ofNat 64 (count + 2)

theorem yields_initMmap_areas {k : Kernel} {mm : MmStruct} {kept : List Vma}
    {heap stack : Vma} (has : k.HasMm proc mm)
    (nodes : mm.vma = kept ++ [heap, stack])
    (types : ∀ vma ∈ kept, vma.type = .text ∨ vma.type = .data)
    (isHeap : heap.type = .heap)
    (fresh : ∀ vma ∈ kept, vma.addr ≠ heap.addr)
    (different : stack.addr ≠ heap.addr) :
    Yields AnyFault (initMmap proc) k fun _ next => ∃ final,
      next.HasMm proc final ∧ final.vmaCount = mm.vmaCount ∧
        final.vma = kept ++
          [{ heap with vmStart := heapAddr, vmEnd := heapEnd }, stack] := by
  unfold initMmap
  rw [yields_bind, yields_runPaging, yields_anyFault]
  intro page taken _
  rw [yields_bind]
  have here : Kernel.HasMm { k with paging := taken } proc mm := has
  apply yields_derefPcb_of here
  intro pcb
  dsimp only
  rw [yields_bind, yields_runPaging, yields_anyFault]
  intro _ mapped _
  rw [yields_bind]
  have still : Kernel.HasMm { k with paging := mapped } proc mm := has
  apply yields_derefMm_of still
  have none : kept.find? (fun vma => vma.type = .heap) = .none := by
    apply List.find?_eq_none.mpr
    intro vma member
    rcases types vma member with text | data
    · simp [text]
    · simp [data]
  have found : mm.vma.find? (fun vma => vma.type = .heap) = some heap := by
    rw [nodes, List.find?_append, none]
    simp [isHeap]
  rw [found]
  dsimp only
  apply yields_storeMm_of still
  intro procs finalHas
  refine ⟨_, finalHas, rfl, ?_⟩
  dsimp only
  rw [nodes, List.append_cons, updateVma, List.map_append, ← updateVma,
    updateVma_append fresh, List.map_singleton, if_neg different,
    ← List.append_cons]

/-- The node of the heap as it is linked, and as it is when it stands last. -/
theorem yields_loadHeapAndStack_areas {k : Kernel} {mm : MmStruct}
    {ranges : List (Word × Word)} {count : Nat} (has : k.HasMm proc mm)
    (areas : Areas k mm ranges count)
    (apart : ∀ range ∈ ranges, RangeApart (heapAddr, heapEnd) range) :
    Yields AnyFault (loadHeapAndStack proc) k fun loaded next =>
      loaded = true → ∃ final, next.HasMm proc final ∧
        WholeList final ranges count := by
  unfold loadHeapAndStack
  rw [yields_bind]
  apply yields_kmallocRecord_named
  intro frame paging below new
  rw [yields_bind]
  have here : Kernel.HasMm
      { k with paging := paging, objects := k.objects ++ [frame] } proc mm :=
    has
  apply yields_derefMm_of here
  let vma : Vma :=
    { addr := linearAddr frame
      vmStart := heapAddr
      vmEnd := heapAddr + 4096 }
  have heapPage : heapAddr + 4096 ≤ heapEnd := by decide
  have heapRange : heapAddr < heapAddr + 4096 := by decide
  have heapGap : heapAddr + 4096 ≤ stackAddr := by decide
  have stackRange : stackAddr < stackEnd := by decide
  have low : heapAddr ≤ stackAddr := by decide
  have fresh := areas.fresh below new
  have separate : ∀ other ∈ mm.vma, vma.Apart other := by
    apply areas.apart
    intro range member
    rcases apart range member with behind | ahead
    · exact Or.inl (BitVec.le_trans heapPage behind)
    · exact Or.inr ahead
  cases accepted : addMmstruct mm vma with
  | none =>
      rw [yields_pure]
      exact fun refused => Bool.noConfusion refused
  | some added =>
      have linked := cutAfter_addMmstruct areas.tidy separate fresh accepted
      have counted := vmaCount_of_addMmstruct accepted
      let kept := mm.vma.filter fun other => Before other.range vma.range
      have keptFresh : ∀ other ∈ kept, other.addr ≠ vma.addr :=
        fun other member => fresh other (List.mem_filter.mp member).1
      let describe : Vma → Vma := fun vma =>
        { vma with flags := userVmaFlags, type := .heap, file := 0 }
      have sameAddr : ∀ vma, (describe vma).addr = vma.addr := fun _ => rfl
      have cut : cutAfter vma.addr (updateVma vma.addr describe added.vma) =
          kept ++ [describe vma] := by
        rw [cutAfter_updateVma sameAddr, linked, updateVma_append keptFresh]
      dsimp only
      rw [yields_bind]
      apply yields_storeMm_of here
      intro procs heapHas
      rw [yields_bind]
      apply yields_kmallocRecord_named
      intro second later secondBelow secondNew
      rw [yields_bind]
      have heapHere : Kernel.HasMm
          { k with
            paging := later
            procs := procs
            objects := k.objects ++ [frame] ++ [second] } proc
          { added with
            vma := cutAfter vma.addr
              (updateVma vma.addr describe added.vma) } :=
        heapHas
      apply yields_derefMm_of heapHere
      rw [cut] at heapHere ⊢
      let stack : Vma :=
        { addr := linearAddr second
          vmStart := stackAddr
          vmEnd := stackEnd
          flags := userVmaFlags
          type := .stack }
      have behind : ∀ other ∈ kept ++ [describe vma],
          other.vmStart < other.vmEnd ∧ other.vmEnd ≤ stack.vmStart := by
        intro other member
        rcases List.mem_append.mp member with old | new
        · obtain ⟨inside, ahead⟩ := List.mem_filter.mp old
          have ends : other.vmEnd ≤ heapAddr := of_decide_eq_true ahead
          exact ⟨areas.tidy.nonempty other inside,
            BitVec.le_trans ends low⟩
        · rw [List.mem_singleton.mp new]
          exact ⟨heapRange, heapGap⟩
      have appended : addMmstruct
          { added with vma := kept ++ [describe vma] } stack = _ :=
        addMmstruct_append (by simp) stackRange behind
      dsimp only
      rw [appended]
      dsimp only
      rw [yields_bind]
      apply yields_storeMm_of heapHere
      intro procs wholeHas
      rw [yields_bind]
      have different : stack.addr ≠ vma.addr := by
        intro same
        have isFirst := linearAddr_injective secondBelow below same
        exact secondNew (by simp [isFirst])
      refine (yields_initMmap_areas wholeHas (List.append_assoc ..)
        (fun vma member => areas.types vma (List.mem_filter.mp member).1) rfl
        keptFresh different).mono ?_
      rintro _ next ⟨final, finalHas, finalCount, nodes⟩
      rw [yields_pure]
      refine fun _ => ⟨final, finalHas, ⟨_, _, _, nodes, ?_, ?_, rfl, rfl,
        rfl, rfl⟩, ?_⟩
      · exact fun vma member => areas.types vma (List.mem_filter.mp member).1
      · rw [← areas.ranges, List.filter_map]
        rfl
      · rw [finalCount]
        change added.vmaCount + 1 = _
        rw [counted, areas.count, BitVec.ofNat_add, BitVec.add_assoc]
        rfl

/-! ## The image -/

/-- An area for each segment, one for the heap and one for the stack, in
increasing order, and the count of the list. -/
structure DescribesImage (mm : MmStruct) (segments : List ElfPhdr) :
    Prop where
  areas : ((mm.vma.filter fun vma =>
    vma.type = .text ∨ vma.type = .data).map Vma.range).Perm
      (segments.map ElfPhdr.range)
  heap : (mm.vma.filter fun vma => vma.type = .heap).map Vma.range =
    [(heapAddr, heapEnd)]
  stack : (mm.vma.filter fun vma => vma.type = .stack).map Vma.range =
    [(stackAddr, stackEnd)]
  length : mm.vma.length = segments.length + 2
  ordered : (mm.vma.map Vma.range).Pairwise Before
  count : mm.vmaCount = BitVec.ofNat 64 mm.vma.length

/-- The headers come in the order of their addresses, which are all below the
heap. -/
def Ascending (segments : List ElfPhdr) : Prop :=
  (segments.map ElfPhdr.range).Pairwise Before ∧
    ∀ phdr ∈ segments, Before phdr.range (heapAddr, heapEnd)

theorem WholeList.describesImage_iff {mm : MmStruct}
    {segments : List ElfPhdr}
    (whole : WholeList mm
      ((segments.map ElfPhdr.range).foldl (cutBehind Before) [])
      segments.length) :
    DescribesImage mm segments ↔ Ascending segments := by
  obtain ⟨⟨kept, heap, stack, nodes, types, ranges, isHeap, heapRange, isStack,
    stackRange⟩, count⟩ := whole
  have onlySegments : mm.vma.filter
      (fun vma => vma.type = .text ∨ vma.type = .data) = kept := by
    have all : kept.filter (fun vma => vma.type = .text ∨ vma.type = .data) =
        kept :=
      List.filter_eq_self.mpr fun vma member =>
        decide_eq_true (types vma member)
    rw [nodes, List.filter_append, all]
    simp [isHeap, isStack]
  have most : ((segments.map ElfPhdr.range).foldl (cutBehind Before)
      []).length ≤ _ :=
    length_foldl_cutBehind_le (segments.map ElfPhdr.range) []
  have all : ((segments.map ElfPhdr.range).foldl (cutBehind Before)
      []).length = _ ↔ _ :=
    length_foldl_cutBehind_eq_iff (segments.map ElfPhdr.range) []
      List.Pairwise.nil
  rw [List.length_nil, Nat.zero_add, List.length_map] at most all
  rw [List.nil_append] at all
  constructor
  · intro describes
    have same := describes.areas.length_eq
    rw [onlySegments, ranges, List.length_map] at same
    have filtered := List.length_filter_le
      (fun range => decide (Before range (heapAddr, heapEnd)))
      ((segments.map ElfPhdr.range).foldl (cutBehind Before) [])
    have ordered := all.mp (by omega)
    rw [foldl_cutBehind_eq _ _ ordered, List.nil_append] at same
    refine ⟨ordered, fun phdr member => ?_⟩
    rw [← List.length_map ElfPhdr.range] at same
    have below := List.length_filter_eq_length_iff.mp same
    exact of_decide_eq_true (below _ (List.mem_map_of_mem member))
  · rintro ⟨ordered, below⟩
    rw [foldl_cutBehind_eq _ _ ordered, List.nil_append] at ranges
    have keptRanges : kept.map Vma.range = segments.map ElfPhdr.range := by
      rw [ranges]
      apply List.filter_eq_self.mpr
      intro range member
      obtain ⟨phdr, inside, rfl⟩ := List.mem_map.mp member
      exact decide_eq_true (below phdr inside)
    have keptLength : kept.length = segments.length := by
      rw [← List.length_map Vma.range, keptRanges, List.length_map]
    have wholeLength : mm.vma.length = segments.length + 2 := by
      rw [nodes, List.length_append, keptLength]
      rfl
    have onlyHeap : kept.filter (fun vma => vma.type = .heap) = [] := by
      apply List.filter_eq_nil_iff.mpr
      intro vma member
      rcases types vma member with text | data
      · simp [text]
      · simp [data]
    have onlyStack : kept.filter (fun vma => vma.type = .stack) = [] := by
      apply List.filter_eq_nil_iff.mpr
      intro vma member
      rcases types vma member with text | data
      · simp [text]
      · simp [data]
    constructor
    · rw [onlySegments, keptRanges]
    · rw [nodes, List.filter_append, onlyHeap]
      simp [isHeap, isStack, heapRange]
    · rw [nodes, List.filter_append, onlyStack]
      simp [isHeap, isStack, stackRange]
    · exact wholeLength
    · rw [nodes, List.map_append, keptRanges, List.map_cons, List.map_cons,
        List.map_nil, heapRange, stackRange]
      have apart : Before (heapAddr, heapEnd) (stackAddr, stackEnd) := by
        decide
      refine List.pairwise_append.mpr ⟨ordered, ?_, ?_⟩
      · simpa using apart
      · intro range member later isLater
        obtain ⟨phdr, inside, rfl⟩ := List.mem_map.mp member
        have ends := below phdr inside
        rcases List.mem_pair.mp isLater with rfl | rfl
        · exact ends
        · exact BitVec.le_trans ends (show heapAddr ≤ stackAddr by decide)
    · rw [count, wholeLength]

theorem yields_loadBinaries_areas {k : Kernel} {mm : MmStruct}
    {elfStart : Word} {segments : List ElfPhdr} (has : k.HasMm proc mm)
    (empty : mm.vma = []) (unused : mm.vmaCount = 0)
    (image : segments = loadedSegments (elfPhdrs k.archive elfStart))
    (disjoint : segments.Pairwise
      fun phdr other => RangeApart phdr.range other.range)
    (offHeap : ∀ phdr ∈ segments,
      RangeApart phdr.range (heapAddr, heapEnd)) :
    Yields AnyFault (loadBinaries fuel proc elfStart) k fun loaded next =>
      loaded = true → ∃ final, next.HasMm proc final ∧
        (DescribesImage final segments ↔ Ascending segments) := by
  subst image
  unfold loadBinaries
  rw [yields_bind, yields_get, yields_ite]
  constructor
  · intro _
    rw [yields_bind, yields_storePcb]
    intro pcb found
    have isMm : pcb.mm = some mm := by
      have here := has
      rwa [Kernel.HasMm, found] at here
    let started : Kernel :=
      { k with
        procs := k.procs.put proc
          { pcb with rip := elfEntry k.archive elfStart } }
    have here : started.HasMm proc mm := by
      simpa [Kernel.HasMm, started] using isMm
    have areas : Areas started mm [] 0 := by
      refine ⟨?_, by rw [empty]; rfl, unused, ?_, ?_⟩
      · rw [empty]
        exact tidy_iff.mpr ⟨by simp, List.Pairwise.nil⟩
      · simp [empty]
      · simp [empty]
    rw [yields_bind]
    apply (yields_loadSegments_areas _ here areas (by simp) disjoint).mono
    intro loaded next placed
    rw [yields_ite]
    constructor
    · intro isLoaded
      obtain ⟨final, finalHas, finalAreas⟩ := placed isLoaded
      rw [Nat.zero_add] at finalAreas
      refine (yields_loadHeapAndStack_areas finalHas finalAreas ?_).mono ?_
      · intro range member
        have segment := subset_foldl_cutBehind _ _ member
        rw [List.nil_append] at segment
        obtain ⟨phdr, inside, rfl⟩ := List.mem_map.mp segment
        exact (offHeap phdr inside).symm
      · intro whole last ends yes
        obtain ⟨described, lastHas, wholeList⟩ := ends yes
        exact ⟨described, lastHas, wholeList.describesImage_iff⟩
    · intro _
      rw [yields_pure]
      exact fun refused => Bool.noConfusion refused
  · intro _
    rw [yields_pure]
    exact fun refused => Bool.noConfusion refused

/-- The list that a fresh `mm_struct` has when `load_binaries` returns 0
describes the image exactly when the headers come in the order of their
addresses and no segment lies above the heap. -/
theorem loadBinaries_describesImage_iff {k next : Kernel} {mm : MmStruct}
    {elfStart : Word} {segments : List ElfPhdr} (has : k.HasMm proc mm)
    (empty : mm.vma = []) (unused : mm.vmaCount = 0)
    (image : segments = loadedSegments (elfPhdrs k.archive elfStart))
    (disjoint : segments.Pairwise
      fun phdr other => RangeApart phdr.range other.range)
    (offHeap : ∀ phdr ∈ segments,
      RangeApart phdr.range (heapAddr, heapEnd))
    (returned : loadBinaries fuel proc elfStart k = .ok (true, next)) :
    ∃ final, next.HasMm proc final ∧
      (DescribesImage final segments ↔ Ascending segments) :=
  yields_of_ok (yields_loadBinaries_areas has empty unused image disjoint
    offHeap) returned rfl

end Image

/-! ### Two segments -/

/-- An image with two segments of 16 bytes, at `first` and `second` times
64 KiB. -/
def pairImage (first second : Byte) (a : Word) : Byte :=
  match (a - 0xFFFFFFFF80210000).toNat with
  | 0 => 0x7F
  | 1 => 0x45
  | 2 => 0x4C
  | 3 => 0x46
  | 32 => 64
  | 56 => 2
  | 64 => 1
  | 68 => 4
  | 82 => first
  | 104 => 16
  | 120 => 1
  | 124 => 4
  | 138 => second
  | 160 => 16
  | _ => 0

def pairKernel (first second : Byte) : Kernel where
  paging := linearPaging (BitVec.allOnes 64)
  procs :=
    { pcb := fun p =>
        if p = 0x1000 then
          some { cr3 := pageAddr 16, mm := some {} }
        else
          none }
  archive := pairImage first second

def loadPair (first second : Byte) : Except Fault (Bool × Kernel) :=
  loadBinaries 4 0x1000 0xFFFFFFFF80210000 (pairKernel first second)

/-- The two segments as the loader reads them. -/
def pairSegments (first second : Word) : List ElfPhdr :=
  [{ pType := 1, pFlags := 4, pOffset := 0, pVaddr := first, pFilesz := 0,
     pMemsz := 16 },
   { pType := 1, pFlags := 4, pOffset := 0, pVaddr := second, pFilesz := 0,
     pMemsz := 16 }]

theorem loadBinaries_describesImage_ascending :
    ∃ next final, loadPair 0x40 0x60 = .ok (true, next) ∧
      next.HasMm 0x1000 final ∧
      DescribesImage final (pairSegments 0x400000 0x600000) := by
  have loads : shown (fun loaded _ => loaded) (loadPair 0x40 0x60) =
      some true := by
    decide +kernel
  obtain ⟨loaded, next, returned, rfl⟩ := exists_of_shown loads
  have image : pairSegments 0x400000 0x600000 = loadedSegments
      (elfPhdrs (pairKernel 0x40 0x60).archive 0xFFFFFFFF80210000) := by
    decide +kernel
  have disjoint : (pairSegments 0x400000 0x600000).Pairwise
      fun phdr other => RangeApart phdr.range other.range := by
    unfold RangeApart
    decide
  have offHeap : ∀ phdr ∈ pairSegments 0x400000 0x600000,
      RangeApart phdr.range (heapAddr, heapEnd) := by
    unfold RangeApart
    decide
  have ascending : Ascending (pairSegments 0x400000 0x600000) := by
    unfold Ascending
    decide
  have has : (pairKernel 0x40 0x60).HasMm 0x1000 {} := rfl
  obtain ⟨final, finalHas, describes⟩ := loadBinaries_describesImage_iff has
    rfl rfl image disjoint offHeap returned
  exact ⟨next, final, returned, finalHas, describes.mpr ascending⟩

/-- With the higher segment first the list has three nodes, and the count is
four. -/
theorem not_describesImage_descending :
    (pairSegments 0x600000 0x400000 = loadedSegments
        (elfPhdrs (pairKernel 0x60 0x40).archive 0xFFFFFFFF80210000)) ∧
      (pairSegments 0x600000 0x400000).Pairwise
        (fun phdr other => RangeApart phdr.range other.range) ∧
      (∀ phdr ∈ pairSegments 0x600000 0x400000,
        RangeApart phdr.range (heapAddr, heapEnd) ∧
          RangeApart phdr.range (stackAddr, stackEnd)) ∧
      ∃ next final, loadPair 0x60 0x40 = .ok (true, next) ∧
        next.HasMm 0x1000 final ∧
        final.vma.map Vma.range =
          [(0x400000, 0x400010), (heapAddr, heapEnd),
            (stackAddr, stackEnd)] ∧
        final.vmaCount = 4 ∧
        ¬ DescribesImage final (pairSegments 0x600000 0x400000) := by
  refine ⟨by decide +kernel, by unfold RangeApart; decide,
    by unfold RangeApart; decide, ?_⟩
  have loads : shown
      (fun loaded next => (loaded,
        ((next.procs.pcb 0x1000).bind Pcb.mm).map fun mm =>
          (mm.vma.map Vma.range, mm.vmaCount)))
      (loadPair 0x60 0x40) =
        some (true, some ([(0x400000, 0x400010), (heapAddr, heapEnd),
          (stackAddr, stackEnd)], 4)) := by
    decide +kernel
  obtain ⟨loaded, next, returned, read⟩ := exists_of_shown loads
  simp only [Prod.mk.injEq] at read
  obtain ⟨rfl, read⟩ := read
  obtain ⟨final, has, values⟩ := Option.map_eq_some_iff.mp read
  obtain ⟨ranges, count⟩ := Prod.mk.inj values
  refine ⟨next, final, returned, has, ranges, count, ?_⟩
  intro describes
  have length := describes.length
  rw [← List.length_map Vma.range, ranges] at length
  exact absurd length (by decide)

end SbuUnix
