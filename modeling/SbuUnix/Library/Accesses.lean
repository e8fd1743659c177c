import Mathlib.Data.Set.Basic
import Mathlib.Logic.Function.Basic

/-!
# Programs that are interrupted

A program is the tree of its accesses to the memory, which an interrupt may
come between.  `own` are the locations of the interrupt handlers: a handler
changes nothing else and looks at nothing else.  A program that keeps away
from them does not notice the interrupts, and they do not notice it.
-/

namespace Accesses

universe u v w

variable {Loc : Type u} {Val : Loc → Type v} {α β : Type w}

/-- A program by its accesses to a memory. -/
inductive Program (Loc : Type u) (Val : Loc → Type v) (α : Type w) where
  | done (value : α)
  | read (loc : Loc) (next : Val loc → Program Loc Val α)
  | write (loc : Loc) (value : Val loc) (next : Program Loc Val α)

namespace Program

def bind : Program Loc Val α → (α → Program Loc Val β) → Program Loc Val β
  | done value, rest => rest value
  | read loc next, rest => read loc fun value => (next value).bind rest
  | write loc value next, rest => write loc value (next.bind rest)

instance : Monad (Program Loc Val) where
  pure := done
  bind := bind

/-- A load. -/
def readLoc (loc : Loc) : Program Loc Val (Val loc) := read loc done

/-- A store. -/
def writeLoc (loc : Loc) (value : Val loc) : Program Loc Val Unit :=
  write loc value (done ())

section Run

variable [DecidableEq Loc]

/-- The program without interrupts. -/
def run : Program Loc Val α → ((loc : Loc) → Val loc) →
    α × ((loc : Loc) → Val loc)
  | done value, mem => (value, mem)
  | read loc next, mem => (next (mem loc)).run mem
  | write loc value next, mem => next.run (Function.update mem loc value)

/-- The program, run without interrupts, keeps away from some locations. -/
def Avoids (own : Set Loc) : Program Loc Val α → ((loc : Loc) → Val loc) →
    Prop
  | done _, _ => True
  | read loc next, mem => loc ∉ own ∧ (next (mem loc)).Avoids own mem
  | write loc value next, mem =>
      loc ∉ own ∧ next.Avoids own (Function.update mem loc value)

/-- What a program returns and leaves, when it keeps away from the locations
of the interrupts. -/
def Leaves (own : Set Loc) (program : Program Loc Val α)
    (mem : (loc : Loc) → Val loc)
    (post : α → ((loc : Loc) → Val loc) → Prop) : Prop :=
  program.Avoids own mem ∧ post (program.run mem).1 (program.run mem).2

variable {own : Set Loc} {mem : (loc : Loc) → Val loc}

@[simp]
theorem leaves_pure {value : α} {post : α → ((loc : Loc) → Val loc) → Prop} :
    Leaves own (pure value) mem post ↔ post value mem :=
  ⟨fun leaves => leaves.2, fun holds => ⟨trivial, holds⟩⟩

/-- Sequencing: the second program runs from where the first one ended. -/
@[simp]
theorem leaves_bind {rest : α → Program Loc Val β}
    {post : β → ((loc : Loc) → Val loc) → Prop}
    (program : Program Loc Val α) :
    Leaves own (program >>= rest) mem post ↔
      Leaves own program mem fun value next =>
        Leaves own (rest value) next post := by
  change Leaves own (program.bind rest) mem post ↔ _
  induction program generalizing mem with
  | done value =>
      constructor
      · exact fun leaves => ⟨trivial, leaves⟩
      · exact fun leaves => leaves.2
  | read loc next inductionHypothesis =>
      have later := @inductionHypothesis (mem loc) mem
      unfold Leaves at later ⊢
      rw [bind, Avoids, run, Avoids, run, and_assoc, later, and_assoc]
  | write loc value next inductionHypothesis =>
      have later := @inductionHypothesis (Function.update mem loc value)
      unfold Leaves at later ⊢
      rw [bind, Avoids, run, Avoids, run, and_assoc, later, and_assoc]

theorem leaves_readLoc {loc : Loc}
    {post : Val loc → ((loc : Loc) → Val loc) → Prop} :
    Leaves own (readLoc loc) mem post ↔ loc ∉ own ∧ post (mem loc) mem := by
  constructor
  · exact fun leaves => ⟨leaves.1.1, leaves.2⟩
  · exact fun holds => ⟨⟨holds.1, trivial⟩, holds.2⟩

theorem leaves_writeLoc {loc : Loc} {value : Val loc}
    {post : Unit → ((loc : Loc) → Val loc) → Prop} :
    Leaves own (writeLoc loc value) mem post ↔
      loc ∉ own ∧ post () (Function.update mem loc value) := by
  constructor
  · exact fun leaves => ⟨leaves.1.1, leaves.2⟩
  · exact fun holds => ⟨⟨holds.1, trivial⟩, holds.2⟩

theorem Leaves.mono {program : Program Loc Val α}
    {post weaker : α → ((loc : Loc) → Val loc) → Prop}
    (leaves : Leaves own program mem post)
    (implied : ∀ value next, post value next → weaker value next) :
    Leaves own program mem weaker :=
  ⟨leaves.1, implied _ _ leaves.2⟩

theorem leaves_forM_from {ι : Type} {pass : ι → Program Loc Val PUnit}
    {inv : List ι → ((loc : Loc) → Val loc) → Prop} {items : List ι} :
    ∀ {before : List ι} {mem : (loc : Loc) → Val loc},
      (∀ before, ∀ item ∈ items, ∀ mem, inv before mem →
        Leaves own (pass item) mem fun _ next => inv (before ++ [item]) next) →
        inv before mem →
          Leaves own (items.forM pass) mem fun _ next =>
            inv (before ++ items) next := by
  induction items with
  | nil =>
      intro before mem _ holds
      rw [List.append_nil]
      exact ⟨trivial, holds⟩
  | cons item rest inductionHypothesis =>
      intro before mem step holds
      change Leaves own (pass item >>= fun _ => rest.forM pass) mem _
      rw [leaves_bind]
      apply (step before item (List.mem_cons_self ..) mem holds).mono
      intro _ next held
      have later := inductionHypothesis (fun before other member =>
        step before other (List.mem_cons_of_mem item member)) held
      rwa [List.append_assoc] at later

/-- A loop: what one pass keeps, all passes keep. -/
theorem leaves_forM {ι : Type} {pass : ι → Program Loc Val PUnit}
    (inv : List ι → ((loc : Loc) → Val loc) → Prop) {items : List ι}
    (step : ∀ before, ∀ item ∈ items, ∀ mem, inv before mem →
      Leaves own (pass item) mem fun _ next => inv (before ++ [item]) next)
    (start : inv [] mem) :
    Leaves own (items.forM pass) mem fun _ next => inv items next :=
  leaves_forM_from step start

end Run

end Program

/-! ## Interrupts -/

section Interrupts

variable {ι : Type}
variable {handler : ι → ((loc : Loc) → Val loc) → (loc : Loc) → Val loc}

/-- The program ends with a value and a memory when the interrupts of a list
came, in this order, before, between or behind its accesses. -/
inductive Interrupted [DecidableEq Loc]
    (handler : ι → ((loc : Loc) → Val loc) → (loc : Loc) → Val loc) :
    Program Loc Val α → ((loc : Loc) → Val loc) → List ι → α →
      ((loc : Loc) → Val loc) → Prop
  | done {value : α} {mem : (loc : Loc) → Val loc} :
      Interrupted handler (.done value) mem [] value mem
  | read {loc : Loc} {next : Val loc → Program Loc Val α}
      {mem last : (loc : Loc) → Val loc} {fired : List ι} {value : α}
      (later : Interrupted handler (next (mem loc)) mem fired value last) :
      Interrupted handler (.read loc next) mem fired value last
  | write {loc : Loc} {stored : Val loc} {next : Program Loc Val α}
      {mem last : (loc : Loc) → Val loc} {fired : List ι} {value : α}
      (later : Interrupted handler next (Function.update mem loc stored) fired
        value last) :
      Interrupted handler (.write loc stored next) mem fired value last
  | interrupt {program : Program Loc Val α}
      {mem last : (loc : Loc) → Val loc} {fired : List ι} {value : α}
      (irq : ι)
      (later : Interrupted handler program (handler irq mem) fired value
        last) :
      Interrupted handler program mem (irq :: fired) value last

/-- Every program has its runs under all interrupts. -/
theorem exists_interrupted [DecidableEq Loc]
    (handler : ι → ((loc : Loc) → Val loc) → (loc : Loc) → Val loc)
    (program : Program Loc Val α)
    (fired : List ι) :
    ∀ mem : (loc : Loc) → Val loc, ∃ value last,
      Interrupted handler program mem fired value last := by
  induction fired with
  | nil =>
      induction program with
      | done value => exact fun mem => ⟨value, mem, .done⟩
      | read loc next inductionHypothesis =>
          intro mem
          obtain ⟨value, last, later⟩ := inductionHypothesis (mem loc) mem
          exact ⟨value, last, .read later⟩
      | write loc stored next inductionHypothesis =>
          intro mem
          obtain ⟨value, last, later⟩ :=
            inductionHypothesis (Function.update mem loc stored)
          exact ⟨value, last, .write later⟩
  | cons irq rest inductionHypothesis =>
      intro mem
      obtain ⟨value, last, later⟩ := inductionHypothesis (handler irq mem)
      exact ⟨value, last, .interrupt irq later⟩

/-- The handler changes its own locations only, and by what stands in them. -/
structure Confined (own : Set Loc)
    (handler : ((loc : Loc) → Val loc) → (loc : Loc) → Val loc) : Prop where
  keeps : ∀ mem, ∀ loc ∉ own, handler mem loc = mem loc
  depends : ∀ first second : (loc : Loc) → Val loc,
    (∀ loc ∈ own, first loc = second loc) →
      ∀ loc ∈ own, handler first loc = handler second loc

/-- The interrupts one after the other. -/
def fireAll (handler : ι → ((loc : Loc) → Val loc) → (loc : Loc) → Val loc)
    (fired : List ι) (mem : (loc : Loc) → Val loc) : (loc : Loc) → Val loc :=
  fired.foldl (fun mem irq => handler irq mem) mem

theorem fireAll_congr {own : Set Loc}
    (confined : ∀ irq, Confined own (handler irq)) (fired : List ι) :
    ∀ {first second : (loc : Loc) → Val loc},
      (∀ loc ∈ own, first loc = second loc) →
        ∀ loc ∈ own, fireAll handler fired first loc =
          fireAll handler fired second loc := by
  induction fired with
  | nil => exact fun same => same
  | cons irq rest inductionHypothesis =>
      intro first second same
      exact inductionHypothesis ((confined irq).depends first second same)

/-- The value and the memory outside `own` are those of the program alone, and
`own` is as the interrupts alone leave it. -/
theorem Interrupted.apart [DecidableEq Loc] {own : Set Loc}
    (confined : ∀ irq, Confined own (handler irq))
    {program : Program Loc Val α} {mem last : (loc : Loc) → Val loc}
    {fired : List ι} {value : α}
    (interrupted : Interrupted handler program mem fired value last) :
    ∀ {alone : (loc : Loc) → Val loc},
      (∀ loc ∉ own, mem loc = alone loc) → program.Avoids own alone →
        value = (program.run alone).1 ∧
          (∀ loc ∉ own, last loc = (program.run alone).2 loc) ∧
            ∀ loc ∈ own, last loc = fireAll handler fired mem loc := by
  induction interrupted with
  | done =>
      intro alone same _
      exact ⟨rfl, same, fun _ _ => rfl⟩
  | @read loc next mem last fired value later inductionHypothesis =>
      intro alone same avoids
      have seen : mem loc = alone loc := same loc avoids.1
      rw [seen] at inductionHypothesis
      exact inductionHypothesis same avoids.2
  | @write loc stored next mem last fired value later inductionHypothesis =>
      intro alone same avoids
      have updated : ∀ other ∉ own, Function.update mem loc stored other =
          Function.update alone loc stored other := by
        intro other outside
        by_cases here : other = loc
        · subst here
          rw [Function.update_self, Function.update_self]
        · rw [Function.update_of_ne here, Function.update_of_ne here]
          exact same other outside
      obtain ⟨returned, outside, inside⟩ := inductionHypothesis updated avoids.2
      refine ⟨returned, outside, ?_⟩
      intro other member
      rw [inside other member]
      apply fireAll_congr confined fired _ other member
      intro place owned
      apply Function.update_of_ne
      intro here
      exact avoids.1 (here ▸ owned)
  | @interrupt program mem last fired value irq later inductionHypothesis =>
      intro alone same avoids
      apply inductionHypothesis _ avoids
      intro loc outside
      rw [(confined irq).keeps mem loc outside]
      exact same loc outside

/-- A program that keeps away from the locations of the interrupts leaves
outside of them, under all interrupts, what it leaves without. -/
theorem Program.Leaves.interrupted [DecidableEq Loc] {own : Set Loc}
    (confined : ∀ irq, Confined own (handler irq))
    {program : Program Loc Val α} {mem last : (loc : Loc) → Val loc}
    {fired : List ι} {value : α}
    {post : α → ((loc : Loc) → Val loc) → Prop}
    (leaves : program.Leaves own mem post)
    (interrupted : Interrupted handler program mem fired value last) :
    ∃ alone, post value alone ∧ (∀ loc ∉ own, last loc = alone loc) ∧
      ∀ loc ∈ own, last loc = fireAll handler fired mem loc := by
  obtain ⟨returned, outside, inside⟩ :=
    interrupted.apart confined (fun _ _ => rfl) leaves.1
  exact ⟨_, returned ▸ leaves.2, outside, inside⟩

end Interrupts

end Accesses
