import Mathlib.Data.List.Basic
import Mathlib.Data.List.Nodup
import Mathlib.Logic.Function.Basic
import Mathlib.Tactic.Common

/-!
# Singly linked rings

A store of nodes is a function `next`.  `Chain next start nodes stop` says
that the links from `start` visit exactly `nodes` and then reach `stop`; a
ring is a chain without repetition back to its start.  The three edits of a
run queue (a node put behind another one, taken out, or replaced) are edits
of the list, and `Search` is the loop that looks for a node by walking to the
one before it.
-/

namespace Links

variable {α : Type} {next other : α → α}

/-- The links from `start` visit `nodes` in this order and lead to `stop`. -/
def Chain (next : α → α) : α → List α → α → Prop
  | start, [], stop => start = stop
  | start, node :: rest, stop => start = node ∧ Chain next (next node) rest stop

@[simp]
theorem chain_nil {start stop : α} : Chain next start [] stop ↔ start = stop :=
  Iff.rfl

@[simp]
theorem chain_cons {start node stop : α} {rest : List α} :
    Chain next start (node :: rest) stop ↔
      start = node ∧ Chain next (next node) rest stop :=
  Iff.rfl

instance Chain.decidable [DecidableEq α] :
    ∀ (start : α) (nodes : List α) (stop : α),
      Decidable (Chain next start nodes stop)
  | start, [], stop => decEq start stop
  | start, node :: rest, stop =>
      @instDecidableAnd _ _ (decEq start node)
        (Chain.decidable (next node) rest stop)

/-- A chain of two parts meets somewhere between them. -/
theorem chain_append {before after : List α} {stop : α} :
    ∀ {start : α}, Chain next start (before ++ after) stop ↔
      ∃ middle, Chain next start before middle ∧
        Chain next middle after stop := by
  induction before with
  | nil =>
      intro start
      simp
  | cons node rest inductionHypothesis =>
      intro start
      simp only [List.cons_append, chain_cons, inductionHypothesis]
      constructor
      · rintro ⟨same, middle, first, second⟩
        exact ⟨middle, ⟨same, first⟩, second⟩
      · rintro ⟨middle, ⟨same, first⟩, second⟩
        exact ⟨same, middle, first, second⟩

/-- A chain reads only the links of its own nodes. -/
theorem Chain.congr {nodes : List α} {stop : α} :
    ∀ {start : α}, Chain next start nodes stop →
      (∀ node ∈ nodes, other node = next node) →
        Chain other start nodes stop := by
  induction nodes with
  | nil => exact fun chain _ => chain
  | cons node rest inductionHypothesis =>
      intro start chain agree
      refine ⟨chain.1, ?_⟩
      rw [agree node (List.mem_cons_self ..)]
      exact inductionHypothesis chain.2 fun later member =>
        agree later (List.mem_cons_of_mem _ member)

/-- A link leads to another node of the chain or to its end. -/
theorem Chain.next_mem {nodes : List α} {stop : α} :
    ∀ {start : α}, Chain next start nodes stop →
      ∀ node ∈ nodes, next node ∈ nodes ∨ next node = stop := by
  induction nodes with
  | nil =>
      intro _ _ node member
      cases member
  | cons head rest inductionHypothesis =>
      intro start chain node member
      rcases List.mem_cons.mp member with rfl | later
      · cases rest with
        | nil => exact Or.inr chain.2
        | cons second rest =>
            left
            rw [chain.2.1]
            simp
      · rcases inductionHypothesis chain.2 node later with inside | stops
        · exact Or.inl (List.mem_cons_of_mem _ inside)
        · exact Or.inr stops

/-- The targets of the links are the nodes again, moved up by one. -/
theorem Chain.map_next {head stop : α} {rest : List α} :
    ∀ {start : α}, Chain next start (head :: rest) stop →
      (head :: rest).map next = rest ++ [stop] := by
  induction rest generalizing head with
  | nil =>
      intro start chain
      have ends : next head = stop := chain.2
      simp [ends]
  | cons second rest inductionHypothesis =>
      intro start chain
      have later := inductionHypothesis chain.2
      rw [List.map_cons, later, chain.2.1, List.cons_append]

/-- A new node behind a node of a chain. -/
theorem Chain.insert {before after : List α} {place fresh start stop : α}
    (chain : Chain next start (before ++ place :: after) stop)
    (distinct : (before ++ place :: after).Nodup)
    (atPlace : other place = fresh) (atFresh : other fresh = next place)
    (elsewhere : ∀ node ∈ before ++ place :: after, node ≠ place →
      other node = next node) :
    Chain other start (before ++ place :: fresh :: after) stop := by
  have split := List.nodup_append.mp distinct
  obtain ⟨notAfter, -⟩ := List.nodup_cons.mp split.2.1
  obtain ⟨middle, reaches, leads⟩ := chain_append.mp chain
  refine chain_append.mpr ⟨middle, reaches.congr ?_, ?_⟩
  · intro node member
    apply elsewhere node (List.mem_append_left _ member)
    intro same
    exact split.2.2 node member place (List.mem_cons_self ..) same
  · refine ⟨leads.1, atPlace, ?_⟩
    rw [atFresh]
    apply leads.2.congr
    intro node member
    refine elsewhere node ?_ fun same => notAfter (same ▸ member)
    exact List.mem_append_right _ (List.mem_cons_of_mem _ member)

theorem nodup_insert {before after : List α} {fresh : α}
    (distinct : (before ++ after).Nodup) (new : fresh ∉ before ++ after) :
    (before ++ fresh :: after).Nodup :=
  (List.perm_middle.nodup_iff).mpr (List.nodup_cons.mpr ⟨new, distinct⟩)

section Line

/-- A list of distinct nodes that ends at `null`, which is none of them. -/
structure Line (next : α → α) (null start : α) (nodes : List α) : Prop where
  chain : Chain next start nodes null
  nodup : nodes.Nodup
  notNull : null ∉ nodes

variable {null start : α} {nodes : List α}

theorem Line.nil (null : α) : Line next null null [] :=
  ⟨rfl, List.nodup_nil, List.not_mem_nil⟩

theorem Line.eq_nil (line : Line next null null nodes) : nodes = [] := by
  cases nodes with
  | nil => rfl
  | cons node rest =>
      refine absurd ?_ line.notNull
      rw [line.chain.1]
      exact List.mem_cons_self

theorem Line.exists_cons (line : Line next null start nodes)
    (notNull : start ≠ null) :
    ∃ rest, nodes = start :: rest ∧ Line next null (next start) rest := by
  cases nodes with
  | nil => exact absurd line.chain notNull
  | cons node rest =>
      obtain ⟨rfl, leads⟩ := line.chain
      exact ⟨rest, rfl, leads, (List.nodup_cons.mp line.nodup).2,
        fun member => line.notNull (List.mem_cons_of_mem _ member)⟩

theorem Line.ne_null (line : Line next null start nodes) (some : nodes ≠ []) :
    start ≠ null := by
  rintro rfl
  exact some line.eq_nil

theorem Line.congr (line : Line next null start nodes)
    (agree : ∀ node ∈ nodes, other node = next node) :
    Line other null start nodes :=
  ⟨line.chain.congr agree, line.nodup, line.notNull⟩

/-- A new node at the front. -/
theorem Line.cons {fresh : α} (line : Line next null start nodes)
    (new : fresh ∉ nodes) (notNull : fresh ≠ null)
    (links : next fresh = start) : Line next null fresh (fresh :: nodes) where
  chain := ⟨rfl, by rw [links]; exact line.chain⟩
  nodup := List.nodup_cons.mpr ⟨new, line.nodup⟩
  notNull := by
    intro member
    rcases List.mem_cons.mp member with same | old
    · exact notNull same.symm
    · exact line.notNull old

/-- A new node behind one of the list. -/
theorem Line.insert {before after : List α} {place fresh : α}
    (line : Line next null start (before ++ place :: after))
    (new : fresh ∉ before ++ place :: after) (notNull : fresh ≠ null)
    (atPlace : other place = fresh) (atFresh : other fresh = next place)
    (elsewhere : ∀ node ∈ before ++ place :: after, node ≠ place →
      other node = next node) :
    Line other null start (before ++ place :: fresh :: after) where
  chain := line.chain.insert line.nodup atPlace atFresh elsewhere
  nodup := by
    have distinct := line.nodup
    rw [List.append_cons] at distinct new ⊢
    exact nodup_insert distinct new
  notNull := by
    intro member
    rw [List.append_cons, List.mem_append, List.mem_cons] at member
    rcases member with old | same | old
    · apply line.notNull
      rw [List.append_cons]
      exact List.mem_append_left _ old
    · exact notNull same.symm
    · apply line.notNull
      rw [List.append_cons]
      exact List.mem_append_right _ old

end Line

section Ring

/-- A cycle of distinct nodes, listed from `first` on. -/
structure Ring (next : α → α) (first : α) (nodes : List α) : Prop where
  chain : Chain next first nodes first
  nodup : nodes.Nodup
  nonempty : nodes ≠ []

variable {first : α} {nodes : List α}

theorem Ring.eq_cons (ring : Ring next first nodes) :
    ∃ rest, nodes = first :: rest := by
  cases nodes with
  | nil => exact absurd rfl ring.nonempty
  | cons head rest => exact ⟨rest, by rw [ring.chain.1]⟩

theorem Ring.first_mem (ring : Ring next first nodes) : first ∈ nodes := by
  obtain ⟨rest, rfl⟩ := ring.eq_cons
  exact List.mem_cons_self ..

theorem Ring.next_mem (ring : Ring next first nodes) {node : α}
    (member : node ∈ nodes) : next node ∈ nodes := by
  rcases ring.chain.next_mem node member with inside | stops
  · exact inside
  · rw [stops]
    exact ring.first_mem

/-- Every node but the first one stands behind another one. -/
theorem Ring.split_before (ring : Ring next first nodes) {node : α}
    (member : node ∈ nodes) (notFirst : node ≠ first) :
    ∃ before previous after,
      nodes = before ++ previous :: node :: after ∧ next previous = node := by
  obtain ⟨front, after, split⟩ := List.append_of_mem member
  have chain := ring.chain
  rw [split, chain_append] at chain
  obtain ⟨middle, reaches, leads⟩ := chain
  rcases List.eq_nil_or_concat front with rfl | ⟨before, previous, rfl⟩
  · exact absurd (leads.1.symm.trans reaches.symm) notFirst
  · rw [List.concat_eq_append, chain_append] at reaches
    obtain ⟨_, _, last⟩ := reaches
    refine ⟨before, previous, after, ?_, last.2.trans leads.1⟩
    rw [split]
    simp

/-- The links of a ring are one to one. -/
theorem Ring.next_injective (ring : Ring next first nodes) {node previous : α}
    (member : node ∈ nodes) (known : previous ∈ nodes)
    (same : next node = next previous) : node = previous := by
  obtain ⟨rest, rfl⟩ := ring.eq_cons
  have targets := ring.chain.map_next
  have distinct : ((first :: rest).map next).Nodup := by
    rw [targets]
    exact (List.perm_append_singleton first rest).nodup_iff.mpr ring.nodup
  exact List.inj_on_of_nodup_map distinct member known same

/-- A ring of one node leads back at once. -/
theorem Ring.two_le_length_iff (ring : Ring next first nodes) :
    2 ≤ nodes.length ↔ next first ≠ first := by
  obtain ⟨rest, rfl⟩ := ring.eq_cons
  have leads := ring.chain.2
  cases rest with
  | nil =>
      have back : next first = first := leads
      simp [back]
  | cons second others =>
      have toSecond : next first = second := leads.1
      have different := (List.nodup_cons.mp ring.nodup).1
      simp only [List.length_cons]
      constructor
      · intro _ back
        rw [← toSecond, back] at different
        exact different (List.mem_cons_self ..)
      · intro _
        omega

/-- A new node behind a node of the ring. -/
theorem Ring.insert {before after : List α} {place fresh : α}
    (ring : Ring next first (before ++ place :: after))
    (new : fresh ∉ before ++ place :: after)
    (atPlace : other place = fresh) (atFresh : other fresh = next place)
    (elsewhere : ∀ node ∈ before ++ place :: after, node ≠ place →
      other node = next node) :
    Ring other first (before ++ place :: fresh :: after) := by
  refine ⟨ring.chain.insert ring.nodup atPlace atFresh elsewhere, ?_,
    by simp⟩
  have distinct := ring.nodup
  rw [List.append_cons] at distinct new ⊢
  exact nodup_insert distinct new

/-- The node behind a node of the ring taken out. -/
theorem Ring.remove {before after : List α} {place victim : α}
    (ring : Ring next first (before ++ place :: victim :: after))
    (atPlace : other place = next victim)
    (elsewhere : ∀ node ∈ before ++ place :: after, node ≠ place →
      other node = next node) :
    Ring other first (before ++ place :: after) := by
  have smaller : (before ++ place :: after).Nodup := by
    refine ring.nodup.sublist ?_
    exact (List.Sublist.refl before).append
      ((List.sublist_cons_self victim after).cons_cons place)
  have split := List.nodup_append.mp smaller
  obtain ⟨notAfter, -⟩ := List.nodup_cons.mp split.2.1
  obtain ⟨middle, reaches, leads⟩ := chain_append.mp ring.chain
  refine ⟨?_, smaller, by simp⟩
  refine chain_append.mpr ⟨middle, reaches.congr ?_, leads.1, ?_⟩
  · intro node member
    apply elsewhere node (List.mem_append_left _ member)
    intro same
    exact split.2.2 node member place (List.mem_cons_self ..) same
  · rw [atPlace]
    apply leads.2.2.congr
    intro node member
    refine elsewhere node ?_ fun same => notAfter (same ▸ member)
    exact List.mem_append_right _ (List.mem_cons_of_mem _ member)

/-- A node of the ring in the place of another one. -/
theorem Ring.replace {before after : List α} {place victim fresh : α}
    (ring : Ring next first (before ++ place :: victim :: after))
    (new : fresh ∉ before ++ place :: after)
    (atPlace : other place = fresh) (atFresh : other fresh = next victim)
    (elsewhere : ∀ node ∈ before ++ place :: after, node ≠ place →
      other node = next node) :
    Ring other first (before ++ place :: fresh :: after) := by
  classical
  have removed : Ring (fun node => if node = place then next victim
      else next node) first (before ++ place :: after) :=
    ring.remove (if_pos rfl) fun node _ different => if_neg different
  apply removed.insert new atPlace (atFresh.trans (if_pos rfl).symm)
  intro node member different
  exact (elsewhere node member different).trans (if_neg different).symm

theorem Ring.congr (ring : Ring next first nodes)
    (agree : ∀ node ∈ nodes, other node = next node) :
    Ring other first nodes :=
  ⟨ring.chain.congr agree, ring.nodup, ring.nonempty⟩

/-- A list that ends leaves a ring at no point, so it shares no node with
it. -/
theorem Ring.not_mem_of_line {null start : α} {others : List α}
    (ring : Ring next first nodes) (notNull : null ∉ nodes)
    (line : Line next null start others) : ∀ node ∈ others, node ∉ nodes := by
  induction others generalizing start with
  | nil =>
      intro node member
      cases member
  | cons head rest inductionHypothesis =>
      have tail : Line next null (next head) rest :=
        ⟨line.chain.2, (List.nodup_cons.mp line.nodup).2,
          fun member => line.notNull (List.mem_cons_of_mem _ member)⟩
      have later := inductionHypothesis tail
      intro node member
      rcases List.mem_cons.mp member with here | behind
      · rw [here]
        intro inRing
        have follows := ring.next_mem inRing
        cases rest with
        | nil =>
            rw [tail.chain] at follows
            exact notNull follows
        | cons second rest =>
            rw [tail.chain.1] at follows
            exact later second (List.mem_cons_self ..) follows
      · exact later node behind

/-- The links determine the ring. -/
theorem Ring.unique {others : List α} (ring : Ring next first nodes)
    (ring' : Ring next first others) : nodes = others := by
  have tails : ∀ (start : α) (left right : List α),
      Chain next start left first → Chain next start right first →
        first ∉ left → first ∉ right → left = right := by
    intro start left
    induction left generalizing start with
    | nil =>
        intro right reaches leads _ out
        cases right with
        | nil => rfl
        | cons node rest =>
            refine absurd ?_ out
            rw [← reaches, leads.1]
            exact List.mem_cons_self ..
    | cons node rest inductionHypothesis =>
        intro right leads reaches out out'
        cases right with
        | nil =>
            refine absurd ?_ out
            rw [← reaches, leads.1]
            exact List.mem_cons_self ..
        | cons node' rest' =>
            have same : node' = node := reaches.1.symm.trans leads.1
            subst same
            rw [inductionHypothesis _ _ leads.2 reaches.2
              (fun member => out (List.mem_cons_of_mem _ member))
              (fun member => out' (List.mem_cons_of_mem _ member))]
  obtain ⟨rest, rfl⟩ := ring.eq_cons
  obtain ⟨rest', rfl⟩ := ring'.eq_cons
  rw [tails _ _ _ ring.chain.2 ring'.chain.2 (List.nodup_cons.mp ring.nodup).1
    (List.nodup_cons.mp ring'.nodup).1]

/-- The node that leads back to the first one is the last. -/
theorem Ring.eq_nil_of_next_eq_first {before after : List α} {node : α}
    (ring : Ring next first (before ++ node :: after))
    (back : next node = first) : after = [] := by
  cases after with
  | nil => rfl
  | cons second rest =>
      obtain ⟨middle, reaches, leads⟩ := chain_append.mp ring.chain
      have second' : next node = second := leads.2.1
      have distinct := List.nodup_append.mp ring.nodup
      cases before with
      | nil =>
          have same : first = node := reaches.trans leads.1
          have notLater := (List.nodup_cons.mp distinct.2.1).1
          refine absurd ?_ notLater
          rw [← same, ← back, second']
          exact List.mem_cons_self ..
      | cons head others =>
          refine absurd ?_ (distinct.2.2 head (List.mem_cons_self ..) second
            (List.mem_cons_of_mem _ (List.mem_cons_self ..)))
          rw [← second', back]
          exact reaches.1.symm

end Ring

/-! ## Walking to the node before a hit -/

/-- The loop that goes on until the next node is a hit, and the node it ends
at. -/
inductive Search (next : α → α) (hit : α → Prop) : α → α → Prop
  | here {node : α} (found : hit (next node)) : Search next hit node node
  | later {node last : α} (goesOn : ¬ hit (next node))
      (rest : Search next hit (next node) last) : Search next hit node last

variable {hit : α → Prop} {start last first : α} {nodes : List α}

theorem Search.found (search : Search next hit start last) :
    hit (next last) := by
  induction search with
  | here found => exact found
  | later _ _ inductionHypothesis => exact inductionHypothesis

/-- A walk stays where the links stay. -/
theorem Search.mem (inside : α → Prop)
    (search : Search next hit start last) (begins : inside start)
    (stays : ∀ node, inside node → ¬ hit (next node) → inside (next node)) :
    inside last := by
  induction search with
  | here _ => exact begins
  | later goesOn _ inductionHypothesis =>
      exact inductionHypothesis (stays _ begins goesOn)

/-- In a ring the walk ends before the one node that is a hit. -/
theorem Ring.search (ring : Ring next first nodes)
    (search : Search next hit start last) (begins : start ∈ nodes)
    {target : α} (unique : ∀ node ∈ nodes, hit node → node = target) :
    last ∈ nodes ∧ next last = target := by
  have member : last ∈ nodes :=
    search.mem (fun node => node ∈ nodes) begins
      fun _ known _ => ring.next_mem known
  exact ⟨member, unique _ (ring.next_mem member) search.found⟩

end Links
