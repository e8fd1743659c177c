import SbuUnix.Paging.Exhaustion
import SbuUnix.Paging.PageFault

/-!
# Whether the page-fault handler comes back

The scan of the memory areas goes to the next area only where the faulting
page is not in the range of this one.  At a matching area that does not grow
it stays for ever.
-/

namespace SbuUnix

open Outcome

/-- The copy-on-write branch of the handler, which scans no area. -/
def takesCopy (s : Paging) (cr2 : Word) : Bool :=
  let physAddr := virtToPhys s (removeFlag cr2)
  decide (physAddr ≠ 999 ∧ physAddr ≠ 0)

/-- The values of the list pointer in the passes of the scan. -/
def scanPasses (faultAddr : Word) : Nat → List Vma → List (List Vma)
  | 0, _ => []
  | _ + 1, [] => []
  | fuel + 1, vma :: rest =>
      (vma :: rest) ::
        if vma.matchesPage faultAddr then
          if vma.type.grows then
            []
          else
            scanPasses faultAddr fuel (vma :: rest)
        else
          scanPasses faultAddr fuel rest

def handlerPasses (s : Paging) (vmas : List Vma) (cr2 : Word) (fuel : Nat) :
    List (List Vma) :=
  if takesCopy s cr2 then [] else scanPasses (removeFlag cr2) fuel vmas

/-- The handler decides in as many passes as there are areas, and one more to
see the end of the list, and it looks at no area twice. -/
structure ReachesDecision (s : Paging) (cr3Addr : Word) (vmas : List Vma)
    (cr2 : Word) : Prop where
  decides : pagefaultHandler (vmas.length + 1) cr3Addr vmas cr2 s ≠
    .error .outOfFuel
  once : ∀ fuel, (handlerPasses s vmas cr2 fuel).Nodup

/-- The area where the scan stops grows, if there is one. -/
def StopsToGrow (faultAddr : Word) (vmas : List Vma) : Prop :=
  ∀ vma, firstMatch faultAddr vmas = some vma → vma.type.grows = true

/-! ## The passes -/

section Passes

variable {faultAddr : Word} {vma : Vma} {vmas rest : List Vma}

theorem stopsToGrow_cons_of_neg
    (away : ¬ vma.matchesPage faultAddr = true) :
    StopsToGrow faultAddr (vma :: rest) ↔ StopsToGrow faultAddr rest := by
  unfold StopsToGrow
  rw [firstMatch_cons_of_neg away]

theorem stopsToGrow_cons_of_pos
    (here : vma.matchesPage faultAddr = true) :
    StopsToGrow faultAddr (vma :: rest) ↔ vma.type.grows = true := by
  unfold StopsToGrow
  rw [firstMatch_cons_of_pos here]
  constructor
  · exact fun grows => grows vma rfl
  · intro grows other same
    rw [← Option.some.inj same]
    exact grows

/-- The scan looks only at what is left of the list. -/
theorem length_le_of_mem_scanPasses {pointer : List Vma} :
    ∀ {fuel : Nat} {vmas : List Vma},
      pointer ∈ scanPasses faultAddr fuel vmas →
        pointer.length ≤ vmas.length := by
  intro fuel
  induction fuel with
  | zero => exact fun member => absurd member List.not_mem_nil
  | succ fuel inductionHypothesis =>
      intro vmas member
      cases vmas with
      | nil => exact absurd member List.not_mem_nil
      | cons vma rest =>
          rw [scanPasses] at member
          rcases List.mem_cons.mp member with same | later
          · rw [same]
          · split at later
            · split at later
              · exact absurd later List.not_mem_nil
              · exact inductionHypothesis later
            · have shorter := inductionHypothesis later
              rw [List.length_cons]
              omega

theorem nodup_scanPasses :
    ∀ {vmas : List Vma}, StopsToGrow faultAddr vmas →
      ∀ fuel, (scanPasses faultAddr fuel vmas).Nodup := by
  intro vmas
  induction vmas with
  | nil =>
      intro _ fuel
      cases fuel <;> exact List.nodup_nil
  | cons vma rest inductionHypothesis =>
      intro grows fuel
      cases fuel with
      | zero => exact List.nodup_nil
      | succ fuel =>
          rw [scanPasses]
          split
          · next here =>
            rw [if_pos ((stopsToGrow_cons_of_pos here).mp grows)]
            exact List.nodup_singleton _
          · next away =>
            apply List.nodup_cons.mpr
            constructor
            · intro member
              have shorter := length_le_of_mem_scanPasses member
              rw [List.length_cons] at shorter
              omega
            · exact inductionHypothesis
                ((stopsToGrow_cons_of_neg away).mp grows) fuel

end Passes

/-! ## The scan -/

section Scan

variable {faultAddr cr3Addr : Word} {vmas : List Vma} {s : Paging}

/-- A mapper that does not return lacks a frame. -/
theorem mapPhysToUserVirtAddr_ne_outOfFuel (vAddress phys cr3Addr : Word)
    (s : Paging) :
    mapPhysToUserVirtAddr vAddress phys cr3Addr s ≠ .error .outOfFuel := by
  intro ended
  let request : FrameRequest := .mapUser vAddress phys cr3Addr
  change request.serve s = _ at ended
  rcases Nat.lt_or_ge s.freeCount (request.needed s) with short | enough
  · rw [FrameRequest.serve_of_short short] at ended
    cases ended
  · obtain ⟨next, served, -⟩ := FrameRequest.serve_of_enough enough
    rw [served] at ended
    cases ended

theorem yields_mapUser_fuel (vAddress phys cr3Addr : Word) (s : Paging) :
    Yields (fun failure => failure ≠ .outOfFuel)
      (mapPhysToUserVirtAddr vAddress phys cr3Addr) s fun _ _ => True := by
  unfold Yields
  split
  · trivial
  · next failure failed =>
    intro same
    rw [same] at failed
    exact mapPhysToUserVirtAddr_ne_outOfFuel _ _ _ _ failed

theorem ne_outOfFuel_of_yields {α : Type} {program : PagingM α} {s : Paging}
    (yields : Yields (fun failure => failure ≠ .outOfFuel) program s
      fun _ _ => True) : program s ≠ .error .outOfFuel := by
  intro ended
  unfold Yields at yields
  rw [ended] at yields
  exact yields rfl

/-- A scan that stops to grow an area needs a pass for each area. -/
theorem yields_growVma_fuel :
    ∀ {vmas : List Vma} (s : Paging), StopsToGrow faultAddr vmas →
      Yields (fun failure => failure ≠ .outOfFuel)
        (growVma cr3Addr faultAddr (vmas.length + 1) vmas) s
        fun _ _ => True := by
  intro vmas
  induction vmas with
  | nil => exact fun _ _ => trivial
  | cons vma rest inductionHypothesis =>
      intro s grows
      rw [List.length_cons, growVma, yields_ite]
      constructor
      · intro here
        rw [if_pos ((stopsToGrow_cons_of_pos here).mp grows), yields_bind]
        apply yields_allocateVirtPage Fault.noConfusion
        intro frame _
        rw [yields_bind, memsetPage, yields_modify, yields_bind]
        exact yields_mapUser_fuel _ _ _ _
      · intro away
        exact inductionHypothesis s
          ((stopsToGrow_cons_of_neg away).mp grows)

/-- At a matching area that does not grow the scan never ends. -/
theorem growVma_stuck {vma : Vma} (s : Paging)
    (stops : firstMatch faultAddr vmas = some vma)
    (still : ¬ vma.type.grows = true) :
    ∀ fuel, growVma cr3Addr faultAddr fuel vmas s = .error .outOfFuel := by
  intro fuel
  induction fuel generalizing vmas with
  | zero => rfl
  | succ fuel inductionHypothesis =>
      cases vmas with
      | nil => cases stops
      | cons first rest =>
          rw [growVma]
          by_cases here : first.matchesPage faultAddr = true
          · rw [firstMatch_cons_of_pos here] at stops
            cases stops
            rw [if_pos here, if_neg still]
            exact inductionHypothesis (firstMatch_cons_of_pos here)
          · rw [firstMatch_cons_of_neg here] at stops
            rw [if_neg here]
            exact inductionHypothesis stops

end Scan

/-! ## The handler -/

section Handler

variable {s : Paging} {cr3Addr cr2 : Word} {vmas : List Vma}

theorem yields_kernelPage_fuel (vAddress : Word) (s : Paging) :
    Yields (fun failure => failure ≠ .outOfFuel) (kernelPage vAddress) s
      fun _ _ => True := by
  unfold kernelPage
  rw [yields_bind, yields_get]
  cases s.translate ptPR vAddress with
  | none => exact Fault.noConfusion
  | some entry => trivial

theorem pagefaultHandler_copies (copies : takesCopy s cr2 = true)
    (fuel : Nat) :
    pagefaultHandler fuel cr3Addr vmas cr2 s ≠ .error .outOfFuel := by
  apply ne_outOfFuel_of_yields
  rw [pagefaultHandler, yields_bind, yields_get]
  dsimp only
  rw [if_pos (of_decide_eq_true copies), yields_bind]
  apply yields_allocateVirtPage Fault.noConfusion
  intro frame _
  rw [yields_bind]
  apply (yields_kernelPage_fuel _ _).mono
  intro source next _
  rw [yields_bind, memcpyPage, yields_modify, yields_bind]
  apply (yields_mapUser_fuel _ _ _ _).mono
  exact fun _ _ _ => trivial

theorem pagefaultHandler_scans (scans : ¬ takesCopy s cr2 = true)
    (areas : vmas ≠ []) (fuel : Nat) :
    pagefaultHandler fuel cr3Addr vmas cr2 s =
      (growVma cr3Addr (removeFlag cr2) fuel vmas >>= fun result =>
        setCR3 cr3Addr >>= fun _ => pure result) s := by
  have noCopy := fun copies => scans (decide_eq_true copies)
  rw [pagefaultHandler,
    bind_of_ok (show (get : PagingM Paging) s = .ok (s, s) from rfl)]
  rw [if_neg noCopy, if_pos areas]

theorem pagefaultHandler_exits (scans : ¬ takesCopy s cr2 = true)
    (fuel : Nat) :
    pagefaultHandler fuel cr3Addr [] cr2 s = .ok (.exited, s) := by
  have noCopy := fun copies => scans (decide_eq_true copies)
  rw [pagefaultHandler,
    bind_of_ok (show (get : PagingM Paging) s = .ok (s, s) from rfl)]
  rw [if_neg noCopy, if_neg (fun nonempty => nonempty rfl)]
  rfl

theorem pagefaultHandler_decides
    (grows : takesCopy s cr2 = true ∨ StopsToGrow (removeFlag cr2) vmas) :
    pagefaultHandler (vmas.length + 1) cr3Addr vmas cr2 s ≠
      .error .outOfFuel := by
  by_cases copies : takesCopy s cr2 = true
  · exact pagefaultHandler_copies copies _
  · have stops := grows.resolve_left copies
    by_cases areas : vmas = []
    · rw [areas, pagefaultHandler_exits copies]
      exact fun ended => by cases ended
    · rw [pagefaultHandler_scans copies areas]
      apply ne_outOfFuel_of_yields
      rw [yields_bind]
      apply (yields_growVma_fuel s stops).mono
      exact fun _ _ _ => trivial

/-- A page in the range of an area that does not grow is never decided on. -/
theorem pagefaultHandler_stuck {vma : Vma}
    (scans : ¬ takesCopy s cr2 = true)
    (stops : firstMatch (removeFlag cr2) vmas = some vma)
    (still : ¬ vma.type.grows = true) (fuel : Nat) :
    pagefaultHandler fuel cr3Addr vmas cr2 s = .error .outOfFuel := by
  have areas : vmas ≠ [] := by
    rintro rfl
    cases stops
  have stuck := @growVma_stuck _ cr3Addr _ _ s stops still fuel
  rw [pagefaultHandler_scans scans areas]
  simp only [bind, StateT.bind, Except.bind, stuck]

/-- The handler comes back exactly when it copies a page, or the first area
with the page in its range, if there is one, is a heap, stack or data area. -/
theorem reachesDecision_iff (s : Paging) (cr3Addr : Word) (vmas : List Vma)
    (cr2 : Word) :
    ReachesDecision s cr3Addr vmas cr2 ↔
      takesCopy s cr2 = true ∨ StopsToGrow (removeFlag cr2) vmas := by
  constructor
  · intro reaches
    by_contra neither
    obtain ⟨scans, stays⟩ := not_or.mp neither
    unfold StopsToGrow at stays
    push Not at stays
    obtain ⟨vma, stops, still⟩ := stays
    exact reaches.decides (pagefaultHandler_stuck scans stops still _)
  · intro grows
    refine ⟨pagefaultHandler_decides grows, fun fuel => ?_⟩
    unfold handlerPasses
    split
    · exact List.nodup_nil
    · next scans => exact nodup_scanPasses (grows.resolve_left scans) fuel

end Handler

/-- The text of a program at 4 MiB. -/
def textArea : Vma where
  addr := kernelAddr
  vmStart := 0x400000
  vmEnd := 0x402000
  type := .text

/-- A load from a page of the text that is not mapped. -/
theorem not_reachesDecision_text :
    ¬ ReachesDecision emptyPaging (pageAddr 16) [textArea] 0x401008 := by
  intro reaches
  apply reaches.decides
  exact @pagefaultHandler_stuck emptyPaging (pageAddr 16) 0x401008 [textArea]
    textArea (by decide +kernel) (by decide) (by decide) _

end SbuUnix
