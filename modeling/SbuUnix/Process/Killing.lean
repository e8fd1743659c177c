import SbuUnix.Library.Ring
import SbuUnix.Process.Exit

/-!
# What `kill` does to another process

The first loop of `kill` stops at the process behind the one it remembers,
the second one hands the children of the victim to process 1, and the victim
moves from the ring to the end of `stopped_process`.  The first process has
nothing in front of it that the loop remembers, and the second loop ends
before it looks at the process in front of the victim.
-/

namespace SbuUnix

open Outcome Links

namespace Procs

/-- The control block at an address. -/
def block (t : Procs) (p : Word) : Pcb :=
  (t.pcb p).getD {}

/-- `p->next_proc` -/
def next (t : Procs) (p : Word) : Word :=
  (t.block p).nextProc

/-- The process has the pid, as `kill` compares them. -/
def HasPid (t : Procs) (pid p : Word) : Prop :=
  (t.block p).pid.signExtend 64 = pid

/-- The process is a child of the pid, as `kill` compares them. -/
def IsChild (t : Procs) (pid p : Word) : Prop :=
  (t.block p).ppid.signExtend 64 = pid

instance (t : Procs) (pid p : Word) : Decidable (t.HasPid pid p) :=
  inferInstanceAs (Decidable (_ = _))

instance (t : Procs) (pid p : Word) : Decidable (t.IsChild pid p) :=
  inferInstanceAs (Decidable (_ = _))

/-- `p->next_proc = link` -/
def relink (t : Procs) (p link : Word) : Procs :=
  t.put p { t.block p with nextProc := link }

/-- A child of the pid becomes a child of process 1. -/
def adoptOne (t : Procs) (pid p : Word) : Procs :=
  if (t.block p).ppid.signExtend 64 = pid then
    t.put p { t.block p with ppid := 1 }
  else
    t

/-- The children of the pid among the nodes become children of process 1. -/
def adopt (t : Procs) (pid : Word) : List Word → Procs
  | [] => t
  | p :: rest => adopt (t.adoptOne pid p) pid rest

variable {t : Procs} {p q link pid : Word} {nodes : List Word}

theorem pcb_eq_block (present : (t.pcb p).isSome) :
    t.pcb p = some (t.block p) := by
  obtain ⟨pcb, found⟩ := Option.isSome_iff_exists.mp present
  simp [block, found]

theorem block_of_pcb {pcb : Pcb} (found : t.pcb p = some pcb) :
    t.block p = pcb := by
  simp [block, found]

/-! ## Stores to links -/

theorem relink_same : (t.relink p link).pcb p =
    some { t.block p with nextProc := link } :=
  put_same

theorem relink_of_ne (different : q ≠ p) :
    (t.relink p link).pcb q = t.pcb q :=
  put_of_ne different

@[simp]
theorem next_relink_same : (t.relink p link).next p = link := by
  unfold next
  rw [block_of_pcb relink_same]

theorem block_relink_of_ne (different : q ≠ p) :
    (t.relink p link).block q = t.block q := by
  simp [block, relink_of_ne different]

theorem next_relink_of_ne (different : q ≠ p) :
    (t.relink p link).next q = t.next q := by
  simp [next, block_relink_of_ne different]

theorem isSome_relink (present : (t.pcb q).isSome) :
    ((t.relink p link).pcb q).isSome := by
  by_cases same : q = p
  · rw [same, relink_same]
    rfl
  · rwa [relink_of_ne same]

/-! ## Adoption -/

/-- What adoption makes of one control block. -/
def adopted (pid : Word) (pcb : Pcb) : Pcb :=
  if pcb.ppid.signExtend 64 = pid then { pcb with ppid := 1 } else pcb

@[simp]
theorem adopted_nextProc {pcb : Pcb} :
    (adopted pid pcb).nextProc = pcb.nextProc := by
  unfold adopted
  split <;> rfl

theorem adoptOne_pcb_same (present : (t.pcb p).isSome) :
    (t.adoptOne pid p).pcb p = some (adopted pid (t.block p)) := by
  unfold adoptOne adopted
  split
  · exact put_same
  · exact pcb_eq_block present

theorem adoptOne_pcb_of_ne (different : q ≠ p) :
    (t.adoptOne pid p).pcb q = t.pcb q := by
  unfold adoptOne
  split
  · exact put_of_ne different
  · rfl

theorem adoptOne_isSome (present : (t.pcb p).isSome) :
    ((t.adoptOne pid p).pcb q).isSome = (t.pcb q).isSome := by
  by_cases same : q = p
  · rw [same, adoptOne_pcb_same present, present]
    rfl
  · rw [adoptOne_pcb_of_ne same]

theorem adopt_of_not_mem (outside : q ∉ nodes) :
    (t.adopt pid nodes).pcb q = t.pcb q := by
  induction nodes generalizing t with
  | nil => rfl
  | cons p rest inductionHypothesis =>
      rw [List.mem_cons, not_or] at outside
      rw [adopt, inductionHypothesis outside.2, adoptOne_pcb_of_ne outside.1]

theorem adopt_of_mem (distinct : nodes.Nodup) (member : q ∈ nodes)
    (exist : ∀ p ∈ nodes, (t.pcb p).isSome) :
    (t.adopt pid nodes).pcb q = some (adopted pid (t.block q)) := by
  induction nodes generalizing t with
  | nil => cases member
  | cons p rest inductionHypothesis =>
      have here := exist p (List.mem_cons_self ..)
      have split := List.nodup_cons.mp distinct
      rw [adopt]
      rcases List.mem_cons.mp member with same | later
      · rw [same, adopt_of_not_mem split.1, adoptOne_pcb_same here]
      · have different : q ≠ p := by
          intro same
          rw [same] at later
          exact split.1 later
        have known : (t.adoptOne pid p).block q = t.block q := by
          simp [block, adoptOne_pcb_of_ne different]
        rw [inductionHypothesis split.2 later, known]
        intro other inside
        rw [adoptOne_isSome here]
        exact exist other (List.mem_cons_of_mem _ inside)

theorem adopt_isSome (exist : ∀ p ∈ nodes, (t.pcb p).isSome) :
    ((t.adopt pid nodes).pcb q).isSome = (t.pcb q).isSome := by
  induction nodes generalizing t with
  | nil => rfl
  | cons p rest inductionHypothesis =>
      have here := exist p (List.mem_cons_self ..)
      rw [adopt, inductionHypothesis, adoptOne_isSome here]
      intro other inside
      rw [adoptOne_isSome here]
      exact exist other (List.mem_cons_of_mem _ inside)

/-- Adoption is confined to control blocks. -/
theorem adopt_eq : t.adopt pid nodes =
    { t with pcb := (t.adopt pid nodes).pcb } := by
  induction nodes generalizing t with
  | nil => rfl
  | cons p rest inductionHypothesis =>
      rw [adopt, inductionHypothesis]
      unfold adoptOne
      split <;> rfl

theorem next_adopt (distinct : nodes.Nodup)
    (exist : ∀ p ∈ nodes, (t.pcb p).isSome) :
    (t.adopt pid nodes).next = t.next := by
  funext q
  unfold next
  by_cases member : q ∈ nodes
  · rw [block_of_pcb (adopt_of_mem distinct member exist), adopted_nextProc]
  · simp only [block, adopt_of_not_mem member]

end Procs

/-! ## The loops -/

section Loops

variable {k : Kernel} {pid : Word}

/-- A chain that visits something starts there. -/
theorem head_mem {next : Word → Word} {start last stop : Word}
    {walked : List Word} (chain : Chain next start (walked ++ [last]) stop) :
    start ∈ walked ++ [last] := by
  cases walked with
  | nil =>
      rw [chain.1]
      simp
  | cons head rest =>
      rw [chain.1]
      simp

theorem derefPcb_block {p : Word} (present : (k.procs.pcb p).isSome) :
    derefPcb p k = .ok (k.procs.block p, k) :=
  derefPcb_eq (Procs.pcb_eq_block present)

/-- The loop passes over the nodes that are neither the one it looks for nor
the last one, and remembers the latest of them. -/
theorem findVictim_eq {victim previous first : Word} {before : List Word} :
    ∀ {fuel : Nat} {start prevTask : Word},
      Chain k.procs.next start (before ++ [previous]) victim →
        (∀ p ∈ before ++ [previous],
          (k.procs.pcb p).isSome ∧ ¬ k.procs.HasPid pid p ∧
            k.procs.next p ≠ first) →
          (k.procs.pcb victim).isSome →
            (k.procs.HasPid pid victim ∨ k.procs.next victim = first) →
              before.length + 2 ≤ fuel →
                findVictim pid first fuel prevTask start k =
                  .ok (previous, k) := by
  induction before with
  | nil =>
      intro fuel start prevTask chain passes present stops enough
      obtain ⟨fuel, rfl⟩ : ∃ less, fuel = less + 2 :=
        ⟨fuel - 2, by simp at enough; omega⟩
      obtain ⟨here, leads⟩ := chain
      subst here
      obtain ⟨found, other, goesOn⟩ := passes start (by simp)
      rw [findVictim, bind_of_ok (derefPcb_block found),
        if_pos ⟨other, goesOn⟩]
      have toVictim : (k.procs.block start).nextProc = victim := leads
      rw [toVictim, findVictim, bind_of_ok (derefPcb_block present), if_neg]
      · rfl
      · intro passes
        rcases stops with hit | last
        · exact passes.1 hit
        · exact passes.2 last
  | cons node rest inductionHypothesis =>
      intro fuel start prevTask chain passes present stops enough
      obtain ⟨fuel, rfl⟩ : ∃ less, fuel = less + 1 :=
        ⟨fuel - 1, by simp at enough; omega⟩
      obtain ⟨here, leads⟩ := chain
      subst here
      obtain ⟨found, other, goesOn⟩ := passes start (by simp)
      rw [findVictim, bind_of_ok (derefPcb_block found),
        if_pos ⟨other, goesOn⟩]
      apply inductionHypothesis leads
      · intro p member
        exact passes p (List.mem_cons_of_mem _ member)
      · exact present
      · exact stops
      · simp at enough
        omega

/-- The loop hands over the nodes it passes, and ends before it looks at the
parent of the last one. -/
theorem adoptChildren_eq {victim last : Word} {walked : List Word} :
    ∀ {fuel : Nat} {start : Word} {k : Kernel},
      Chain k.procs.next start (walked ++ [last]) victim →
        (walked ++ [last]).Nodup → victim ∉ walked ++ [last] →
          (∀ p ∈ walked ++ [last], (k.procs.pcb p).isSome) →
            walked.length + 1 ≤ fuel →
              adoptChildren pid victim fuel start k =
                .ok ((), { k with procs := k.procs.adopt pid walked }) := by
  induction walked with
  | nil =>
      intro fuel start k chain _ _ exist enough
      obtain ⟨fuel, rfl⟩ : ∃ less, fuel = less + 1 :=
        ⟨fuel - 1, by simp at enough; omega⟩
      obtain ⟨here, leads⟩ := chain
      subst here
      have stops : ¬ (k.procs.block start).nextProc ≠ victim :=
        not_not.mpr leads
      rw [adoptChildren, bind_of_ok (derefPcb_block (exist start (by simp))),
        if_neg stops]
      rfl
  | cons node rest inductionHypothesis =>
      intro fuel start k chain distinct notVictim exist enough
      obtain ⟨fuel, rfl⟩ : ∃ less, fuel = less + 1 :=
        ⟨fuel - 1, by simp at enough; omega⟩
      obtain ⟨here, leads⟩ := chain
      subst here
      have found := exist start (by simp)
      have inside : k.procs.next start ∈ rest ++ [last] := head_mem leads
      have goesOn : (k.procs.block start).nextProc ≠ victim := by
        intro stops
        rw [Procs.next, stops] at inside
        exact notVictim (List.mem_cons_of_mem _ inside)
      have sameNext : (k.procs.adoptOne pid start).next = k.procs.next := by
        have adopts := @Procs.next_adopt k.procs pid [start]
        exact adopts (List.nodup_singleton start) (by
          intro p member
          rw [List.mem_singleton.mp member]
          exact found)
      have later : adoptChildren pid victim fuel (k.procs.next start)
          { k with procs := k.procs.adoptOne pid start } =
            .ok ((), { k with
              procs := (k.procs.adoptOne pid start).adopt pid rest }) := by
        apply inductionHypothesis
        · show Chain (k.procs.adoptOne pid start).next _ _ _
          rw [sameNext]
          exact leads
        · exact (List.nodup_cons.mp distinct).2
        · intro member
          exact notVictim (List.mem_cons_of_mem _ member)
        · intro p member
          show ((k.procs.adoptOne pid start).pcb p).isSome
          rw [Procs.adoptOne_isSome found]
          exact exist p (List.mem_cons_of_mem _ member)
        · simp at enough
          omega
      rw [adoptChildren, bind_of_ok (derefPcb_block found), if_pos goesOn]
      by_cases child : (k.procs.block start).ppid.signExtend 64 = pid
      · rw [Procs.adoptOne, if_pos child] at later
        rw [if_pos child,
          bind_of_ok (storePcb_eq (Procs.pcb_eq_block found)), Procs.adopt,
          Procs.adoptOne, if_pos child]
        exact later
      · rw [Procs.adoptOne, if_neg child] at later
        rw [if_neg child, Procs.adopt, Procs.adoptOne, if_neg child]
        exact later

/-- The walk along `stopped_process` ends at its last node. -/
theorem findBefore_eq {last stop : Word} {walked : List Word} :
    ∀ {fuel : Nat} {start : Word},
      Chain k.procs.next start (walked ++ [last]) stop →
        stop ∉ walked ++ [last] →
          (∀ p ∈ walked ++ [last], (k.procs.pcb p).isSome) →
            walked.length + 1 ≤ fuel →
              findBefore stop fuel start k = .ok (last, k) := by
  induction walked with
  | nil =>
      intro fuel start chain _ exist enough
      obtain ⟨fuel, rfl⟩ : ∃ less, fuel = less + 1 :=
        ⟨fuel - 1, by simp at enough; omega⟩
      obtain ⟨here, leads⟩ := chain
      subst here
      have stops : ¬ (k.procs.block start).nextProc ≠ stop :=
        not_not.mpr leads
      rw [findBefore, bind_of_ok (derefPcb_block (exist start (by simp))),
        if_neg stops]
      rfl
  | cons node rest inductionHypothesis =>
      intro fuel start chain notStop exist enough
      obtain ⟨fuel, rfl⟩ : ∃ less, fuel = less + 1 :=
        ⟨fuel - 1, by simp at enough; omega⟩
      obtain ⟨here, leads⟩ := chain
      subst here
      have inside : k.procs.next start ∈ rest ++ [last] := head_mem leads
      have goesOn : (k.procs.block start).nextProc ≠ stop := by
        intro stops
        rw [Procs.next, stops] at inside
        exact notStop (List.mem_cons_of_mem _ inside)
      rw [findBefore, bind_of_ok (derefPcb_block (exist start (by simp))),
        if_pos goesOn]
      apply inductionHypothesis leads
      · intro member
        exact notStop (List.mem_cons_of_mem _ member)
      · intro p member
        exact exist p (List.mem_cons_of_mem _ member)
      · simp at enough
        omega

end Loops

/-! ## The lists before and after -/

/-- A ring of processes with distinct pids, and a list of stopped ones. -/
structure ProcessLists (t : Procs) (nodes stopped : List Word) : Prop where
  ring : Ring t.next t.firstProcess nodes
  line : Line t.next 0 t.stoppedProcess stopped
  exist : ∀ p ∈ nodes ++ stopped, (t.pcb p).isSome
  pids : ∀ p ∈ nodes, ∀ q ∈ nodes,
    (t.block p).pid = (t.block q).pid → p = q
  current : (t.pcb t.currProcess).isSome
  null : t.pcb 0 = none

/-- The victim has moved to the end of the stopped processes, its children in
the ring belong to process 1, and nothing else is different. -/
structure Killed (pid : Word) (nodes stopped : List Word) (victim : Word)
    (t after : Procs) : Prop where
  ring : Ring after.next after.firstProcess (nodes.erase victim)
  line : Line after.next 0 after.stoppedProcess (stopped ++ [victim])
  blocks : ∀ p, after.pcb p = (t.pcb p).map fun pcb =>
    { pcb with
      nextProc := after.next p
      ppid := if p ∈ nodes ∧ p ≠ victim ∧ pcb.ppid.signExtend 64 = pid then
          1
        else
          pcb.ppid }
  elsewhere : ∀ p, p ∉ nodes ++ stopped → after.pcb p = t.pcb p

/-- `kill` returns, has moved the process with the pid if there is one, and
has left the processes alone otherwise. -/
def KillsExactly (fuel : Nat) (pid : Word) (nodes stopped : List Word)
    (k : Kernel) : Prop :=
  ∃ reported k', kill fuel pid k = .ok (reported, k') ∧
    (∀ victim ∈ nodes, k.procs.HasPid pid victim →
      Killed pid nodes stopped victim k.procs k'.procs) ∧
    ((∀ p ∈ nodes, ¬ k.procs.HasPid pid p) → k'.procs = k.procs)

namespace ProcessLists

variable {t : Procs} {nodes stopped before after : List Word}
variable {p q previous victim : Word}

theorem notNull (lists : ProcessLists t nodes stopped) : 0 ∉ nodes := by
  intro member
  have present := lists.exist 0 (List.mem_append_left _ member)
  rw [lists.null] at present
  cases present

theorem apart (lists : ProcessLists t nodes stopped) (member : p ∈ nodes) :
    p ∉ stopped := by
  intro other
  exact lists.ring.not_mem_of_line lists.notNull lists.line p other member

/-- Where the links around the victim lead. -/
theorem chains
    (lists : ProcessLists t (before ++ previous :: victim :: after)
      stopped) :
    Chain t.next t.firstProcess (before ++ [previous]) victim ∧
      Chain t.next (t.next victim)
        ((after ++ before) ++ [previous]) victim := by
  have chain := lists.ring.chain
  rw [List.append_cons, chain_append] at chain
  obtain ⟨middle, reaches, leads⟩ := chain
  have here : middle = victim := leads.1
  rw [here] at reaches
  refine ⟨reaches, ?_⟩
  rw [List.append_assoc]
  exact chain_append.mpr ⟨t.firstProcess, leads.2, reaches⟩

theorem nodup_around
    (lists : ProcessLists t (before ++ previous :: victim :: after)
      stopped) :
    (victim :: ((after ++ before) ++ [previous])).Nodup := by
  have distinct := lists.ring.nodup
  have same : (before ++ previous :: victim :: after).Perm
      (victim :: ((after ++ before) ++ [previous])) := by
    rw [List.append_cons]
    apply List.perm_append_comm.trans
    rw [List.cons_append, List.append_assoc]
  exact same.nodup_iff.mp distinct

theorem ne_of_mem (lists : ProcessLists t nodes stopped) (member : p ∈ nodes)
    (other : q ∈ stopped) : p ≠ q := by
  intro same
  rw [← same] at other
  exact lists.apart member other

end ProcessLists

namespace Procs

/-- The two tables differ in links only. -/
def LinksOnly (t after : Procs) : Prop :=
  ∀ p, after.pcb p = (t.pcb p).map fun pcb =>
    { pcb with nextProc := after.next p }

variable {t after later : Procs} {p q link pid : Word}

theorem linksOnly_of_pcb (same : after.pcb = t.pcb) : LinksOnly t after := by
  intro p
  rw [same]
  cases found : t.pcb p with
  | none => rfl
  | some pcb =>
      have links : after.next p = pcb.nextProc := by
        unfold next
        rw [block_of_pcb (same ▸ found)]
      rw [links]
      rfl

theorem LinksOnly.trans (first : LinksOnly t after)
    (second : LinksOnly after later) : LinksOnly t later := by
  intro p
  rw [second p, first p, Option.map_map]
  rfl

theorem linksOnly_relink (present : (t.pcb p).isSome) :
    LinksOnly t (t.relink p link) := by
  intro q
  by_cases same : q = p
  · rw [same, relink_same, pcb_eq_block present, next_relink_same]
    rfl
  · rw [next_relink_of_ne same, relink_of_ne same]
    exact linksOnly_of_pcb rfl q

/-- `stopped_process` with the victim at its end. -/
def enlist (t : Procs) (last victim : Word) : Procs :=
  if t.stoppedProcess = 0 then
    { t with stoppedProcess := victim }
  else
    t.relink last victim

/-- What `kill` makes of the table when `previous` stands before the victim
and `last` is the end of `stopped_process`. -/
def moveVictim (t : Procs) (previous victim last : Word) : Procs :=
  ((t.enlist last victim).relink previous (t.next victim)).relink victim 0

end Procs

section Effect

variable {t : Procs} {before after stopped : List Word}
variable {previous victim last p : Word}

/-- The three links that `kill` stores. -/
structure Placed (t : Procs) (before after stopped : List Word)
    (previous victim last : Word) : Prop where
  lists :
    ProcessLists t (before ++ previous :: victim :: after) stopped
  ending : t.stoppedProcess ≠ 0 → ∃ front, stopped = front ++ [last]

namespace Placed

theorem previous_ne_victim
    (placed : Placed t before after stopped previous victim last) :
    previous ≠ victim := by
  have distinct := (List.nodup_append.mp placed.lists.ring.nodup).2.1
  intro same
  apply (List.nodup_cons.mp distinct).1
  rw [same]
  exact List.mem_cons_self ..

theorem last_mem
    (placed : Placed t before after stopped previous victim last)
    (some : t.stoppedProcess ≠ 0) : last ∈ stopped := by
  obtain ⟨front, same⟩ := placed.ending some
  rw [same]
  simp

theorem victim_present
    (placed : Placed t before after stopped previous victim last) :
    (t.pcb victim).isSome :=
  placed.lists.exist victim (by simp)

theorem previous_present
    (placed : Placed t before after stopped previous victim last) :
    (t.pcb previous).isSome :=
  placed.lists.exist previous (by simp)

theorem last_present
    (placed : Placed t before after stopped previous victim last)
    (some : t.stoppedProcess ≠ 0) : (t.pcb last).isSome :=
  placed.lists.exist last
    (List.mem_append_right _ (placed.last_mem some))

theorem enlist_isSome
    (present : (t.pcb p).isSome) : ((t.enlist last victim).pcb p).isSome := by
  unfold Procs.enlist
  split
  · exact present
  · exact Procs.isSome_relink present

/-- Only links change. -/
theorem linksOnly
    (placed : Placed t before after stopped previous victim last) :
    t.LinksOnly (t.moveVictim previous victim last) := by
  have enlisted : t.LinksOnly (t.enlist last victim) := by
    unfold Procs.enlist
    split
    · exact Procs.linksOnly_of_pcb rfl
    · next some => exact Procs.linksOnly_relink (placed.last_present some)
  have previousThere : ((t.enlist last victim).pcb previous).isSome :=
    enlist_isSome placed.previous_present
  have victimThere : (((t.enlist last victim).relink previous
      (t.next victim)).pcb victim).isSome :=
    Procs.isSome_relink (enlist_isSome placed.victim_present)
  exact (enlisted.trans (Procs.linksOnly_relink previousThere)).trans
    (Procs.linksOnly_relink victimThere)

theorem next_victim :
    (t.moveVictim previous victim last).next victim = 0 :=
  Procs.next_relink_same

theorem next_previous
    (placed : Placed t before after stopped previous victim last) :
    (t.moveVictim previous victim last).next previous = t.next victim := by
  unfold Procs.moveVictim
  rw [Procs.next_relink_of_ne placed.previous_ne_victim,
    Procs.next_relink_same]

theorem next_enlisted (notVictim : p ≠ victim) (notPrevious : p ≠ previous) :
    (t.moveVictim previous victim last).next p =
      (t.enlist last victim).next p := by
  unfold Procs.moveVictim
  rw [Procs.next_relink_of_ne notVictim, Procs.next_relink_of_ne notPrevious]

theorem next_of_ne (notVictim : p ≠ victim) (notPrevious : p ≠ previous)
    (notLast : t.stoppedProcess ≠ 0 → p ≠ last) :
    (t.moveVictim previous victim last).next p = t.next p := by
  rw [next_enlisted notVictim notPrevious]
  unfold Procs.enlist
  split
  · rfl
  · next some => exact Procs.next_relink_of_ne (notLast some)

theorem next_last
    (placed : Placed t before after stopped previous victim last)
    (some : t.stoppedProcess ≠ 0) :
    (t.moveVictim previous victim last).next last = victim := by
  have member := placed.last_mem some
  have notVictim : last ≠ victim :=
    (placed.lists.ne_of_mem (by simp) member).symm
  have notPrevious : last ≠ previous :=
    (placed.lists.ne_of_mem (by simp) member).symm
  rw [next_enlisted notVictim notPrevious, Procs.enlist, if_neg some]
  exact Procs.next_relink_same

theorem pcb_elsewhere
    (placed : Placed t before after stopped previous victim last)
    (outside : p ∉ (before ++ previous :: victim :: after) ++ stopped) :
    (t.moveVictim previous victim last).pcb p = t.pcb p := by
  have notVictim : p ≠ victim := by
    rintro rfl
    simp at outside
  have notPrevious : p ≠ previous := by
    rintro rfl
    simp at outside
  unfold Procs.moveVictim
  rw [Procs.relink_of_ne notVictim, Procs.relink_of_ne notPrevious]
  unfold Procs.enlist
  split
  · rfl
  · next some =>
      apply Procs.relink_of_ne
      rintro rfl
      exact outside (List.mem_append_right _ (placed.last_mem some))

theorem firstProcess_eq :
    (t.moveVictim previous victim last).firstProcess = t.firstProcess := by
  unfold Procs.moveVictim Procs.enlist
  split <;> rfl

theorem stoppedProcess_eq :
    (t.moveVictim previous victim last).stoppedProcess =
      if t.stoppedProcess = 0 then victim else t.stoppedProcess := by
  unfold Procs.moveVictim Procs.enlist
  split <;> rfl

/-- The ring without the victim. -/
theorem ring (placed : Placed t before after stopped previous victim last) :
    Ring (t.moveVictim previous victim last).next
      (t.moveVictim previous victim last).firstProcess
      (before ++ previous :: after) := by
  rw [firstProcess_eq]
  apply placed.lists.ring.remove placed.next_previous
  intro node member notPrevious
  have inRing : node ∈ before ++ previous :: victim :: after := by
    simp only [List.mem_append, List.mem_cons] at member ⊢
    tauto
  have notVictim : node ≠ victim := by
    rintro rfl
    apply (List.nodup_cons.mp placed.lists.nodup_around).1
    simp only [List.mem_append, List.mem_cons, List.not_mem_nil,
      or_false] at member ⊢
    tauto
  apply next_of_ne notVictim notPrevious
  intro some
  exact placed.lists.ne_of_mem inRing (placed.last_mem some)

/-- The victim at the end of the stopped processes. -/
theorem line (placed : Placed t before after stopped previous victim last) :
    Line (t.moveVictim previous victim last).next 0
      (t.moveVictim previous victim last).stoppedProcess
      (stopped ++ [victim]) := by
  have inRing : victim ∈ before ++ previous :: victim :: after := by simp
  have notNull : victim ≠ 0 := by
    rintro rfl
    exact placed.lists.notNull inRing
  rw [stoppedProcess_eq]
  split
  · next none =>
      have line := placed.lists.line
      rw [none] at line
      rw [line.eq_nil]
      exact ⟨⟨rfl, next_victim⟩, List.nodup_singleton victim, by
        simpa using notNull.symm⟩
  · next some =>
      obtain ⟨front, same⟩ := placed.ending some
      have line := placed.lists.line
      have away : victim ∉ stopped := placed.lists.apart inRing
      have ends : t.next last = 0 := by
        have chain := line.chain
        rw [same, chain_append] at chain
        obtain ⟨_, _, here⟩ := chain
        exact here.2
      rw [same, List.append_assoc]
      rw [same] at line away
      apply line.insert away notNull (placed.next_last some)
      · rw [next_victim, ends]
      · intro node member notLast
        have inLine : node ∈ stopped := by
          rw [same]
          exact member
        apply next_of_ne
        · exact (placed.lists.ne_of_mem inRing inLine).symm
        · exact (placed.lists.ne_of_mem (by simp) inLine).symm
        · exact fun _ => notLast

end Placed

theorem ProcessLists.adopt {nodes children : List Word} {pid : Word}
    (lists : ProcessLists t nodes stopped) (distinct : children.Nodup)
    (inside : ∀ p ∈ children, p ∈ nodes) :
    ProcessLists (t.adopt pid children) nodes stopped := by
  have exist : ∀ p ∈ children, (t.pcb p).isSome := fun p member =>
    lists.exist p (List.mem_append_left _ (inside p member))
  have sameNext : (t.adopt pid children).next = t.next :=
    Procs.next_adopt distinct exist
  have present : ∀ p, ((t.adopt pid children).pcb p).isSome =
      (t.pcb p).isSome := fun p => Procs.adopt_isSome exist
  have samePid : ∀ p,
      ((t.adopt pid children).block p).pid = (t.block p).pid := by
    intro p
    by_cases member : p ∈ children
    · rw [Procs.block_of_pcb (Procs.adopt_of_mem distinct member exist)]
      unfold Procs.adopted
      split <;> rfl
    · simp only [Procs.block, Procs.adopt_of_not_mem member]
  have globals := @Procs.adopt_eq t pid children
  refine ⟨?_, ?_, ?_, ?_, ?_, ?_⟩
  · rw [sameNext, globals]
    exact lists.ring
  · rw [sameNext, globals]
    exact lists.line
  · intro p member
    rw [present]
    exact lists.exist p member
  · intro p member q other same
    rw [samePid, samePid] at same
    exact lists.pids p member q other same
  · rw [present, globals]
    exact lists.current
  · have absent := present 0
    rw [lists.null] at absent
    simpa using absent

end Effect

/-! ## The run -/

section Run

variable {k : Kernel} {before after stopped : List Word} {pid : Word}
variable {previous victim last : Word} {fuel : Nat}

theorem storePcb_relink {p link : Word} (present : (k.procs.pcb p).isSome) :
    storePcb p (fun pcb => { pcb with nextProc := link }) k =
      .ok ((), { k with procs := k.procs.relink p link }) :=
  storePcb_eq (Procs.pcb_eq_block present)

/-- The end of `kill`: the victim moves behind the stopped processes. -/
def moveToStopped (fuel : Nat) (stoppedProcess iterator victim link : Word) :
    KernelM (Option Word) := do
  if stoppedProcess = 0 then
    setGlobals fun t => { t with stoppedProcess := victim }
    storePcb iterator fun pcb => { pcb with nextProc := link }
  else
    let last ← findBefore 0 fuel stoppedProcess
    storePcb last fun pcb => { pcb with nextProc := victim }
    let again ← derefPcb victim
    storePcb iterator fun pcb => { pcb with nextProc := again.nextProc }
  storePcb victim fun pcb => { pcb with nextProc := 0 }
  pure (some victim)

theorem moveToStopped_eq
    (placed : Placed k.procs before after stopped previous victim last)
    (enough : stopped.length ≤ fuel) :
    moveToStopped fuel k.procs.stoppedProcess previous victim
        (k.procs.next victim) k =
      .ok (some victim, { k with
        procs := k.procs.moveVictim previous victim last }) := by
  have victimThere : ∀ link, (((k.procs.enlist last victim).relink previous
      link).pcb victim).isSome := fun link =>
    Procs.isSome_relink (Placed.enlist_isSome placed.victim_present)
  have previousThere : ((k.procs.enlist last victim).pcb previous).isSome :=
    Placed.enlist_isSome placed.previous_present
  unfold moveToStopped
  unfold Procs.moveVictim Procs.enlist at *
  by_cases none : k.procs.stoppedProcess = 0
  · simp only [if_pos none] at *
    let listed : Kernel :=
      { k with procs := { k.procs with stoppedProcess := victim } }
    have relinked := @storePcb_relink listed
    have set : setGlobals (fun t => { t with stoppedProcess := victim }) k =
        .ok ((), listed) := rfl
    rw [bind_of_ok set, bind_of_ok (relinked previousThere),
      bind_of_ok (storePcb_relink (victimThere _))]
    rfl
  · simp only [if_neg none] at *
    obtain ⟨front, same⟩ := placed.ending none
    have line := placed.lists.line
    rw [same] at line enough
    have found : findBefore 0 fuel k.procs.stoppedProcess k =
        .ok (last, k) := by
      apply findBefore_eq line.chain line.notNull
      · intro p member
        rw [← same] at member
        exact placed.lists.exist p (List.mem_append_right _ member)
      · simpa using enough
    have member := placed.last_mem none
    have notLast : victim ≠ last := placed.lists.ne_of_mem (by simp) member
    have sameLink : ((k.procs.relink last victim).block victim).nextProc =
        k.procs.next victim := by
      rw [Procs.block_relink_of_ne notLast]
      rfl
    have present : ((k.procs.relink last victim).pcb victim).isSome :=
      Procs.isSome_relink placed.victim_present
    rw [bind_of_ok found,
      bind_of_ok (storePcb_relink (placed.last_present none)),
      bind_of_ok (derefPcb_block present), sameLink,
      bind_of_ok (storePcb_relink previousThere),
      bind_of_ok (storePcb_relink (victimThere _))]
    rfl

/-- Pids that compare equal after widening are equal. -/
theorem signExtend_injective {first second : BitVec 32}
    (same : first.signExtend 64 = second.signExtend 64) : first = second := by
  apply BitVec.eq_of_toInt_eq
  have widened := congrArg BitVec.toInt same
  rwa [BitVec.toInt_signExtend_of_le (by decide),
    BitVec.toInt_signExtend_of_le (by decide)] at widened

theorem ProcessLists.eq_of_hasPid {t : Procs} {nodes : List Word} {p q : Word}
    (lists : ProcessLists t nodes stopped) (member : p ∈ nodes)
    (other : q ∈ nodes) (first : t.HasPid pid p) (second : t.HasPid pid q) :
    p = q := by
  apply lists.pids p member q other
  exact signExtend_injective (Eq.trans first second.symm)

/-- Only the last process leads back to the first one. -/
theorem ProcessLists.next_ne_first {t : Procs} {p : Word}
    (lists : ProcessLists t (before ++ previous :: victim :: after) stopped)
    (member : p ∈ before ++ [previous]) : t.next p ≠ t.firstProcess := by
  obtain ⟨front, rest, split⟩ := List.append_of_mem member
  have ring := lists.ring
  rw [List.append_cons, split, List.append_assoc, List.cons_append] at ring
  intro back
  have none := ring.eq_nil_of_next_eq_first back
  simp at none

/-- The process behind `previous` is found and moved. -/
theorem kill_found
    (lists : ProcessLists k.procs (before ++ previous :: victim :: after)
      stopped)
    (ending : k.procs.stoppedProcess ≠ 0 → ∃ front, stopped = front ++ [last])
    (other : pid ≠ (k.procs.block k.procs.currProcess).pid.signExtend 64)
    (hit : k.procs.HasPid pid victim)
    (enough : (before ++ previous :: victim :: after).length +
      stopped.length ≤ fuel) :
    kill fuel pid k = .ok (some victim, { k with
      procs := (k.procs.adopt pid (after ++ before)).moveVictim previous
        victim last }) := by
  have distinct := lists.nodup_around
  obtain ⟨reaches, around⟩ := lists.chains
  have placed : Placed k.procs before after stopped previous victim last :=
    ⟨lists, ending⟩
  have links : (k.procs.block previous).nextProc = victim := by
    obtain ⟨_, _, here⟩ := chain_append.mp reaches
    exact here.2
  have toVictim : findVictim pid k.procs.firstProcess fuel 0
      k.procs.firstProcess k = .ok (previous, k) := by
    apply findVictim_eq reaches
    · intro p member
      refine ⟨lists.exist p ?_, ?_, ?_⟩
      · simp at member ⊢
        tauto
      · intro same
        have here : p = victim := by
          apply lists.eq_of_hasPid _ (by simp) same hit
          simp at member ⊢
          tauto
        rw [here] at member
        apply (List.nodup_cons.mp distinct).1
        simp at member ⊢
        tauto
      · exact lists.next_ne_first member
    · exact placed.victim_present
    · exact Or.inl hit
    · simp at enough
      omega
  have children :
      adoptChildren pid victim fuel (k.procs.block victim).nextProc k =
      .ok ((), { k with
        procs := k.procs.adopt pid (after ++ before) }) := by
    apply adoptChildren_eq around
    · exact (List.nodup_cons.mp distinct).2
    · exact (List.nodup_cons.mp distinct).1
    · intro p member
      apply lists.exist p
      simp at member ⊢
      tauto
    · simp at enough ⊢
      omega
  have childrenDistinct : (after ++ before).Nodup :=
    (List.nodup_append.mp (List.nodup_cons.mp distinct).2).1
  have childrenInside : ∀ p ∈ after ++ before,
      p ∈ before ++ previous :: victim :: after := by
    intro p member
    simp at member ⊢
    tauto
  unfold kill
  rw [bind_of_ok (show globals k = .ok (k.procs, k) from rfl),
    bind_of_ok (derefPcb_block lists.current), if_neg other,
    bind_of_ok toVictim, bind_of_ok (derefPcb_block placed.previous_present),
    links, bind_of_ok (derefPcb_block placed.victim_present),
    if_pos (show (k.procs.block victim).pid.signExtend 64 = pid from hit),
    bind_of_ok children]
  have adoptedLists :
      ProcessLists (k.procs.adopt pid (after ++ before)) _ stopped :=
    lists.adopt childrenDistinct childrenInside
  have sameStopped : (k.procs.adopt pid (after ++ before)).stoppedProcess =
      k.procs.stoppedProcess := by
    rw [Procs.adopt_eq]
  have sameNext : (k.procs.adopt pid (after ++ before)).next = k.procs.next :=
    Procs.next_adopt childrenDistinct fun p member =>
      lists.exist p (List.mem_append_left _ (childrenInside p member))
  have toNext : (k.procs.block victim).nextProc =
      (k.procs.adopt pid (after ++ before)).next victim := by
    rw [sameNext]
    rfl
  rw [toNext, ← sameStopped]
  rw [← sameStopped] at ending
  let adopted : Kernel :=
    { k with procs := k.procs.adopt pid (after ++ before) }
  have enoughLeft : stopped.length ≤ fuel := by omega
  have moved := @moveToStopped_eq adopted
  exact moved ⟨adoptedLists, ending⟩ enoughLeft

/-- Without the pid the walk ends at the last process. -/
theorem kill_missing
    (lists : ProcessLists k.procs (before ++ [previous, victim]) stopped)
    (other : pid ≠ (k.procs.block k.procs.currProcess).pid.signExtend 64)
    (missing : ∀ p ∈ before ++ [previous, victim], ¬ k.procs.HasPid pid p)
    (enough : before.length + 2 ≤ fuel) :
    kill fuel pid k = .ok (none, k) := by
  have reaches := lists.chains.1
  have links : (k.procs.block previous).nextProc = victim := by
    obtain ⟨_, _, here⟩ := chain_append.mp reaches
    exact here.2
  have back : k.procs.next victim = k.procs.firstProcess := by
    have chain := lists.ring.chain
    rw [List.append_cons, chain_append] at chain
    obtain ⟨_, _, here⟩ := chain
    exact here.2
  have present : (k.procs.pcb victim).isSome := lists.exist victim (by simp)
  have toLast : findVictim pid k.procs.firstProcess fuel 0
      k.procs.firstProcess k = .ok (previous, k) := by
    apply findVictim_eq reaches
    · intro p member
      refine ⟨lists.exist p ?_, missing p ?_, lists.next_ne_first member⟩
      · simp at member ⊢
        tauto
      · simp at member ⊢
        tauto
    · exact present
    · exact Or.inr back
    · exact enough
  have miss : ¬ (k.procs.block victim).pid.signExtend 64 = pid :=
    missing victim (by simp)
  unfold kill
  rw [bind_of_ok (show globals k = .ok (k.procs, k) from rfl),
    bind_of_ok (derefPcb_block lists.current), if_neg other,
    bind_of_ok toLast,
    bind_of_ok (derefPcb_block (lists.exist previous (by simp))),
    links, bind_of_ok (derefPcb_block present), if_neg miss]
  rfl

/-- Where the walk ends at the first process, the source follows the null
pointer. -/
theorem kill_null {nodes : List Word}
    (lists : ProcessLists k.procs nodes stopped)
    (other : pid ≠ (k.procs.block k.procs.currProcess).pid.signExtend 64)
    (atOnce : k.procs.HasPid pid k.procs.firstProcess ∨
      k.procs.next k.procs.firstProcess = k.procs.firstProcess)
    (enough : 1 ≤ fuel) :
    kill fuel pid k = .error .nullPointer := by
  obtain ⟨fuel, rfl⟩ : ∃ less, fuel = less + 1 := ⟨fuel - 1, by omega⟩
  have present : (k.procs.pcb k.procs.firstProcess).isSome :=
    lists.exist _ (List.mem_append_left _ lists.ring.first_mem)
  have stops : findVictim pid k.procs.firstProcess (fuel + 1) 0
      k.procs.firstProcess k = .ok (0, k) := by
    rw [findVictim, bind_of_ok (derefPcb_block present), if_neg]
    · rfl
    · intro passes
      rcases atOnce with hit | alone
      · exact passes.1 hit
      · exact passes.2 alone
  have null : derefPcb 0 k = .error .nullPointer := by
    unfold derefPcb
    rw [bind_of_ok (show globals k = .ok (k.procs, k) from rfl), lists.null]
    rfl
  unfold kill
  rw [bind_of_ok (show globals k = .ok (k.procs, k) from rfl),
    bind_of_ok (derefPcb_block lists.current), if_neg other,
    bind_of_ok stops]
  simp only [bind, StateT.bind, Except.bind, null]

end Run

/-! ## When `kill` is right -/

section Correct

variable {k : Kernel} {before after nodes stopped : List Word} {pid : Word}
variable {previous victim last : Word} {fuel : Nat}

/-- The pid is not that of the first process, which does not stand alone, and
the process in front of the one with the pid is no child of it, unless
process 1 is killed. -/
structure KillApplies (t : Procs) (pid : Word) (nodes : List Word) : Prop where
  notFirst : ¬ t.HasPid pid t.firstProcess
  several : 2 ≤ nodes.length
  parents : ∀ p ∈ nodes, t.HasPid pid (t.next p) → t.IsChild pid p → pid = 1

theorem ProcessLists.erase_victim {t : Procs}
    (lists : ProcessLists t (before ++ previous :: victim :: after) stopped) :
    (before ++ previous :: victim :: after).erase victim =
      before ++ previous :: after := by
  have away := (List.nodup_cons.mp lists.nodup_around).1
  simp only [List.mem_append, List.mem_singleton, not_or] at away
  rw [List.erase_append_right _ away.1.2,
    List.erase_cons_tail (by simpa using fun same => away.2 same.symm),
    List.erase_cons_head]

/-- The process in front of the victim keeps its parent. -/
theorem not_mem_children {t : Procs}
    (lists : ProcessLists t (before ++ previous :: victim :: after) stopped) :
    previous ∉ after ++ before := by
  have distinct := (List.nodup_cons.mp lists.nodup_around).2
  intro member
  exact (List.nodup_append.mp distinct).2.2 previous member previous
    (List.mem_singleton_self previous) rfl

theorem children_nodup {t : Procs}
    (lists : ProcessLists t (before ++ previous :: victim :: after) stopped) :
    (after ++ before).Nodup :=
  (List.nodup_append.mp (List.nodup_cons.mp lists.nodup_around).2).1

/-- The children that the loop sees are the ring without the victim and the
process in front of it. -/
theorem mem_children_iff {t : Procs} {p : Word}
    (lists : ProcessLists t (before ++ previous :: victim :: after) stopped) :
    p ∈ after ++ before ↔
      p ∈ before ++ previous :: victim :: after ∧ p ≠ victim ∧
        p ≠ previous := by
  have away := (List.nodup_cons.mp lists.nodup_around).1
  have notChild := not_mem_children lists
  constructor
  · intro member
    refine ⟨?_, ?_, ?_⟩
    · simp only [List.mem_append, List.mem_cons] at member ⊢
      tauto
    · rintro rfl
      exact away (List.mem_append_left _ member)
    · rintro rfl
      exact notChild member
  · intro inside
    simp only [List.mem_append, List.mem_cons] at inside ⊢
    tauto

/-- What adoption leaves in the table. -/
theorem adopt_pcb {t : Procs} {p : Word}
    (lists : ProcessLists t (before ++ previous :: victim :: after) stopped) :
    (t.adopt pid (after ++ before)).pcb p =
      (t.pcb p).map fun pcb =>
        if p ∈ after ++ before then Procs.adopted pid pcb else pcb := by
  have exist : ∀ q ∈ after ++ before, (t.pcb q).isSome := fun q member =>
    lists.exist q
      (List.mem_append_left _ ((mem_children_iff lists).mp member).1)
  by_cases member : p ∈ after ++ before
  · rw [Procs.adopt_of_mem (children_nodup lists) member exist,
      Procs.pcb_eq_block (exist p member)]
    simp [member]
  · rw [Procs.adopt_of_not_mem member]
    simp [member]

/-- With nothing to adopt in front of the victim, the loop reaches every
child. -/
theorem parentAfter {t : Procs} {p : Word} {pcb : Pcb}
    (lists : ProcessLists t (before ++ previous :: victim :: after) stopped)
    (parents : t.IsChild pid previous → pid = 1) (found : t.pcb p = some pcb) :
    (if p ∈ after ++ before then Procs.adopted pid pcb else pcb).ppid =
      if p ∈ before ++ previous :: victim :: after ∧ p ≠ victim ∧
          pcb.ppid.signExtend 64 = pid then
        1
      else
        pcb.ppid := by
  by_cases child : pcb.ppid.signExtend 64 = pid
  · by_cases here : p = previous
    · have isChild : t.IsChild pid previous := by
        unfold Procs.IsChild
        rw [← here, Procs.block_of_pcb found]
        exact child
      have first : pcb.ppid = 1 := by
        apply signExtend_injective
        rw [child, parents isChild]
        decide
      unfold Procs.adopted
      split <;> split <;> simp [first]
    · have same := mem_children_iff (p := p) lists
      unfold Procs.adopted
      by_cases member : p ∈ after ++ before
      · rw [if_pos member, if_pos child]
        rw [if_pos ⟨(same.mp member).1, (same.mp member).2.1, child⟩]
      · rw [if_neg member, if_neg]
        intro inside
        exact member (same.mpr ⟨inside.1, inside.2.1, here⟩)
  · have same : Procs.adopted pid pcb = pcb := if_neg child
    rw [same, ite_self, if_neg]
    exact fun wanted => child wanted.2.2

/-- The move is right exactly when the process in front of the victim need not
be adopted. -/
theorem killed_moveVictim_iff
    (lists : ProcessLists k.procs (before ++ previous :: victim :: after)
      stopped)
    (ending : k.procs.stoppedProcess ≠ 0 →
      ∃ front, stopped = front ++ [last]) :
    Killed pid (before ++ previous :: victim :: after) stopped victim k.procs
        ((k.procs.adopt pid (after ++ before)).moveVictim previous victim
          last) ↔
      (k.procs.IsChild pid previous → pid = 1) := by
  have inside : ∀ p ∈ after ++ before,
      p ∈ before ++ previous :: victim :: after := fun p member =>
    ((mem_children_iff lists).mp member).1
  have placed : Placed (k.procs.adopt pid (after ++ before)) before after
      stopped previous victim last := by
    refine ⟨lists.adopt (children_nodup lists) inside, ?_⟩
    rw [Procs.adopt_eq]
    exact ending
  have links := placed.linksOnly
  have different := placed.previous_ne_victim
  constructor
  · intro killed child
    have present : (k.procs.pcb previous).isSome :=
      lists.exist previous (by simp)
    have wanted := killed.blocks previous
    rw [links previous, adopt_pcb lists, Procs.pcb_eq_block present,
      Option.map_map, Option.map_some, Option.map_some,
      Option.some.injEq] at wanted
    have parent := congrArg Pcb.ppid wanted
    simp only [Function.comp, not_mem_children lists, if_false] at parent
    rw [if_pos ⟨by simp, different, child⟩] at parent
    rw [← show (k.procs.block previous).ppid.signExtend 64 = pid from child,
      parent]
    decide
  · intro parents
    refine ⟨?_, placed.line, ?_, ?_⟩
    · rw [lists.erase_victim]
      exact placed.ring
    · intro p
      rw [links p, adopt_pcb lists, Option.map_map]
      cases found : k.procs.pcb p with
      | none => rfl
      | some pcb =>
          have parent := parentAfter lists parents found
          simp only [Option.map_some, Function.comp, Option.some.injEq]
          split
          · next member =>
              rw [if_pos member] at parent
              unfold Procs.adopted at parent ⊢
              split
              · next child =>
                  rw [if_pos child] at parent
                  rw [← parent]
              · next notChild =>
                  rw [if_neg notChild] at parent
                  rw [← parent]
          · next notMember =>
              rw [if_neg notMember] at parent
              rw [← parent]
    · intro p outside
      have notChild : p ∉ after ++ before := by
        intro member
        exact outside (List.mem_append_left _ (inside p member))
      rw [placed.pcb_elsewhere outside, Procs.adopt_of_not_mem notChild]

/-- The end of the list of stopped processes, where there is one. -/
theorem ProcessLists.exists_last (lists : ProcessLists k.procs nodes stopped) :
    ∃ last, k.procs.stoppedProcess ≠ 0 →
      ∃ front, stopped = front ++ [last] := by
  rcases List.eq_nil_or_concat stopped with none | ⟨front, last, some⟩
  · refine ⟨0, fun listed => ?_⟩
    have line := lists.line
    rw [none] at line
    exact absurd line.chain listed
  · exact ⟨last, fun _ => ⟨front, by rw [some, List.concat_eq_append]⟩⟩

theorem found_iff
    (lists : ProcessLists k.procs (before ++ previous :: victim :: after)
      stopped)
    (other : pid ≠ (k.procs.block k.procs.currProcess).pid.signExtend 64)
    (hit : k.procs.HasPid pid victim)
    (enough : (before ++ previous :: victim :: after).length +
      stopped.length ≤ fuel)
    (notFirst : ¬ k.procs.HasPid pid k.procs.firstProcess)
    (several : 2 ≤ (before ++ previous :: victim :: after).length)
    (toVictim : k.procs.next previous = victim) :
    KillsExactly fuel pid (before ++ previous :: victim :: after) stopped k ↔
      KillApplies k.procs pid (before ++ previous :: victim :: after) := by
  obtain ⟨last, ending⟩ := lists.exists_last
  have run := kill_found lists ending other hit enough
  have moved := @killed_moveVictim_iff k before after stopped pid previous
    victim last lists ending
  constructor
  · intro exactly
    obtain ⟨_, _, returned, found, _⟩ := exactly
    rw [run] at returned
    cases returned
    have parents := moved.mp (found victim (by simp) hit)
    refine ⟨notFirst, several, ?_⟩
    intro p member leads child
    have same : k.procs.next p = victim :=
      lists.eq_of_hasPid (lists.ring.next_mem member) (by simp) leads hit
    have here : p = previous := by
      apply lists.ring.next_injective member (by simp)
      rw [same, toVictim]
    rw [here] at child
    exact parents child
  · intro applies
    refine ⟨some victim, _, run, ?_, ?_⟩
    · intro p member hitToo
      have same := lists.eq_of_hasPid member (by simp) hitToo hit
      rw [same]
      apply moved.mpr
      intro child
      apply applies.parents previous (by simp) _ child
      rw [toVictim]
      exact hit
    · intro missing
      exact absurd hit (missing victim (by simp))

theorem missing_iff (lists : ProcessLists k.procs nodes stopped)
    (other : pid ≠ (k.procs.block k.procs.currProcess).pid.signExtend 64)
    (missing : ∀ p ∈ nodes, ¬ k.procs.HasPid pid p)
    (enough : nodes.length + stopped.length ≤ fuel)
    (notFirst : ¬ k.procs.HasPid pid k.procs.firstProcess)
    (several : 2 ≤ nodes.length) :
    KillsExactly fuel pid nodes stopped k ↔
      KillApplies k.procs pid nodes := by
  have run : kill fuel pid k = .ok (none, k) := by
    rcases List.eq_nil_or_concat nodes with empty | ⟨front, victim, split⟩
    · simp [empty] at several
    · rcases List.eq_nil_or_concat front with single | ⟨before, previous, more⟩
      · simp [split, single] at several
      · have same : nodes = before ++ [previous, victim] := by
          rw [split, more]
          simp
        subst same
        apply kill_missing lists other missing
        simp at enough
        omega
  constructor
  · intro _
    refine ⟨notFirst, several, ?_⟩
    intro p member leads _
    exact absurd leads (missing _ (lists.ring.next_mem member))
  · intro _
    refine ⟨none, k, run, ?_, fun _ => rfl⟩
    intro victim member hit
    exact absurd hit (missing victim member)

/-- `kill` does what it is for exactly when the pid is not that of the first
process, that process is not alone, and the process in front of the victim is
not one of its children. -/
theorem kill_killsExactly_iff
    (lists : ProcessLists k.procs nodes stopped)
    (other : pid ≠ (k.procs.block k.procs.currProcess).pid.signExtend 64)
    (enough : nodes.length + stopped.length ≤ fuel) :
    KillsExactly fuel pid nodes stopped k ↔
      KillApplies k.procs pid nodes := by
  have notAlone : 2 ≤ nodes.length ↔
      k.procs.next k.procs.firstProcess ≠ k.procs.firstProcess :=
    lists.ring.two_le_length_iff
  have some : 1 ≤ nodes.length := List.length_pos_iff.mpr lists.ring.nonempty
  by_cases atOnce : k.procs.HasPid pid k.procs.firstProcess ∨
      k.procs.next k.procs.firstProcess = k.procs.firstProcess
  · have fails := kill_null lists other atOnce (by omega : 1 ≤ fuel)
    constructor
    · intro exactly
      obtain ⟨_, _, returned, _⟩ := exactly
      rw [fails] at returned
      cases returned
    · intro applies
      rcases atOnce with hit | alone
      · exact absurd hit applies.notFirst
      · exact absurd alone (notAlone.mp applies.several)
  · rw [not_or] at atOnce
    obtain ⟨notFirst, goesOn⟩ := atOnce
    have several := notAlone.mpr goesOn
    by_cases hits : ∃ victim ∈ nodes, k.procs.HasPid pid victim
    · obtain ⟨victim, member, hit⟩ := hits
      have different : victim ≠ k.procs.firstProcess := by
        intro same
        rw [same] at hit
        exact notFirst hit
      obtain ⟨before, previous, after, split, toVictim⟩ :=
        lists.ring.split_before member different
      subst split
      exact found_iff lists other hit enough notFirst several toVictim
    · have missing : ∀ p ∈ nodes, ¬ k.procs.HasPid pid p := by
        intro p member hit
        exact hits ⟨p, member, hit⟩
      exact missing_iff lists other missing enough notFirst several

end Correct

/-- Three processes in a ring, the third a child of the second, and one that
has stopped; `curr` is the current process. -/
def familyOfThree (curr : Word) : Kernel where
  paging := ⟨fun _ _ => 0, fun _ => 0, 0⟩
  procs :=
    { pcb := fun p =>
        if p = 0x1000 then some { pid := 1, nextProc := 0x2000 }
        else if p = 0x2000 then
          some { pid := 2, ppid := 1, nextProc := 0x3000 }
        else if p = 0x3000 then
          some { pid := 3, ppid := 2, nextProc := 0x1000 }
        else if p = 0x4000 then some { pid := 4, ppid := 1 }
        else none
      firstProcess := 0x1000
      currProcess := curr
      stoppedProcess := 0x4000 }

theorem mem_family_iff {p : Word} :
    p ∈ ([0x1000, 0x2000, 0x3000] : List Word) ↔
      p = 0x1000 ∨ p = 0x2000 ∨ p = 0x3000 := by
  simp

theorem familyOfThree_lists {curr : Word}
    (current : ((familyOfThree curr).procs.pcb curr).isSome) :
    ProcessLists (familyOfThree curr).procs [0x1000, 0x2000, 0x3000]
      [0x4000] where
  ring := ⟨⟨rfl, rfl, rfl, rfl⟩, by decide, by decide⟩
  line := ⟨⟨rfl, rfl⟩, by decide, by decide⟩
  exist := by
    intro p member
    rw [List.mem_append, mem_family_iff, List.mem_singleton] at member
    rcases member with (rfl | rfl | rfl) | rfl <;> rfl
  pids := by
    intro p member q other same
    have pids : ([0x1000, 0x2000, 0x3000] : List Word).map (fun p =>
        ((familyOfThree curr).procs.block p).pid) = [1, 2, 3] := rfl
    have distinct : (([0x1000, 0x2000, 0x3000] : List Word).map fun p =>
        ((familyOfThree curr).procs.block p).pid).Nodup := by
      rw [pids]
      decide
    exact List.inj_on_of_nodup_map distinct member other same
  current := current
  null := rfl

/-- The first process kills the second one. -/
theorem kill_killsExactly_second :
    KillsExactly 4 2 [0x1000, 0x2000, 0x3000] [0x4000]
      (familyOfThree 0x1000) := by
  have lists := familyOfThree_lists (show
    ((familyOfThree 0x1000).procs.pcb 0x1000).isSome from rfl)
  apply (kill_killsExactly_iff lists (by decide) (by decide)).mpr
  refine ⟨by decide, by decide, ?_⟩
  intro p member
  rw [mem_family_iff] at member
  rcases member with rfl | rfl | rfl <;> decide

/-- The second process kills the first one, and the source follows a null
pointer. -/
theorem not_killsExactly_first :
    ¬ KillsExactly 4 1 [0x1000, 0x2000, 0x3000] [0x4000]
      (familyOfThree 0x2000) := by
  have lists := familyOfThree_lists (show
    ((familyOfThree 0x2000).procs.pcb 0x2000).isSome from rfl)
  have hit : (familyOfThree 0x2000).procs.HasPid 1
      (familyOfThree 0x2000).procs.firstProcess := by decide
  have fails := kill_null lists (by decide) (Or.inl hit) (by decide : 1 ≤ 4)
  intro exactly
  obtain ⟨_, _, returned, _⟩ := exactly
  rw [fails] at returned
  cases returned

end SbuUnix
