import Mathlib.Data.List.Basic
import Mathlib.Tactic.Common

/-!
# The pieces between separators

A piece of a text is a run of elements that are no separators and that has a
separator, or an end of the text, on both sides.  `Cuts` goes over a text from
the left, past separators and pieces in turn, as a tokenizer does; what it
lists is every piece.
-/

namespace Pieces

variable {α : Type} {separator : α}

/-- `piece` is a maximal run without separators, `place` elements into the
text. -/
structure IsPiece (separator : α) (text : List α) (place : Nat)
    (piece : List α) : Prop where
  nonempty : piece ≠ []
  free : separator ∉ piece
  occurs : piece <+: text.drop place
  before : ∀ i, i + 1 = place → ∀ item, text[i]? = some item →
    item = separator
  behind : ∀ item, text[place + piece.length]? = some item →
    item = separator

/-- The pieces of a text, with their places counted from `start`. -/
inductive Cuts (separator : α) :
    Nat → List α → List (Nat × List α) → Prop
  | separators {start : Nat} {text : List α} :
      (∀ item ∈ text, item = separator) → Cuts separator start text []
  | piece {start : Nat} {front piece rest : List α}
      {pieces : List (Nat × List α)} :
      (∀ item ∈ front, item = separator) → piece ≠ [] → separator ∉ piece →
      (∀ item, rest.head? = some item → item = separator) →
      Cuts separator (start + front.length + piece.length) rest pieces →
      Cuts separator start (front ++ (piece ++ rest))
        ((start + front.length, piece) :: pieces)

/-! ## Every text can be cut -/

/-- A text starts with elements of one kind, up to one of another. -/
theorem exists_front (kind : α → Prop) (text : List α) :
    ∃ front rest, text = front ++ rest ∧ (∀ item ∈ front, kind item) ∧
      ∀ item, rest.head? = some item → ¬ kind item := by
  induction text with
  | nil =>
      refine ⟨[], [], rfl, ?_, ?_⟩
      · intro item member
        cases member
      · intro item first
        cases first
  | cons first text inductionHypothesis =>
      by_cases isKind : kind first
      · obtain ⟨front, rest, rfl, same, other⟩ := inductionHypothesis
        refine ⟨first :: front, rest, rfl, ?_, other⟩
        intro item member
        rcases List.mem_cons.mp member with rfl | later
        · exact isKind
        · exact same item later
      · refine ⟨[], first :: text, rfl, ?_, ?_⟩
        · intro item member
          cases member
        · intro item isFirst
          cases isFirst
          exact isKind

theorem exists_cuts (separator : α) (text : List α) :
    ∀ start, ∃ pieces, Cuts separator start text pieces := by
  induction length : text.length using Nat.strongRecOn generalizing text with
  | ind count inductionHypothesis =>
      intro start
      obtain ⟨front, later, rfl, blank, notBlank⟩ :=
        exists_front (fun item => item = separator) text
      obtain ⟨piece, rest, rfl, free, ended⟩ :=
        exists_front (fun item => item ≠ separator) later
      cases piece with
      | nil =>
          cases rest with
          | nil =>
              rw [List.nil_append, List.append_nil]
              exact ⟨[], Cuts.separators blank⟩
          | cons item rest =>
              exact absurd (notBlank item rfl) (ended item rfl)
      | cons item piece =>
          have shorter : rest.length < count := by
            rw [← length]
            simp only [List.length_append, List.length_cons]
            omega
          obtain ⟨pieces, cuts⟩ := inductionHypothesis rest.length shorter
            rest rfl (start + front.length + (item :: piece).length)
          refine ⟨_, Cuts.piece blank (List.cons_ne_nil _ _) ?_ ?_ cuts⟩
          · intro member
            exact free separator member rfl
          · intro next first
            exact not_not.mp (ended next first)

/-! ## The pieces are listed in order -/

theorem Cuts.start_le {start : Nat} {text : List α}
    {pieces : List (Nat × List α)} (cuts : Cuts separator start text pieces) :
    ∀ cut ∈ pieces, start ≤ cut.1 := by
  induction cuts with
  | separators => intro cut member; cases member
  | piece _ _ _ _ _ inductionHypothesis =>
      intro cut member
      rcases List.mem_cons.mp member with rfl | later
      · exact Nat.le_add_right _ _
      · have behind := inductionHypothesis cut later
        omega

theorem Cuts.ordered {start : Nat} {text : List α}
    {pieces : List (Nat × List α)} (cuts : Cuts separator start text pieces) :
    pieces.Pairwise fun first second => first.1 < second.1 := by
  induction cuts with
  | separators => exact List.Pairwise.nil
  | piece _ nonempty _ _ later inductionHypothesis =>
      refine List.Pairwise.cons (fun cut member => ?_) inductionHypothesis
      have behind := later.start_le cut member
      have positive := List.length_pos_iff.mpr nonempty
      dsimp only
      omega

/-! ## They are the pieces -/

section Parts

variable {front piece rest other : List α} {place : Nat}

theorem isPiece_first (blank : ∀ item ∈ front, item = separator)
    (nonempty : piece ≠ []) (free : separator ∉ piece)
    (ended : ∀ item, rest.head? = some item → item = separator) :
    IsPiece separator (front ++ (piece ++ rest)) front.length piece := by
  refine ⟨nonempty, free, ?_, ?_, ?_⟩
  · rw [List.drop_left]
    exact List.prefix_append _ _
  · intro i next item found
    rw [List.getElem?_append_left (by omega)] at found
    exact blank item (List.mem_of_getElem? found)
  · intro item found
    rw [← List.append_assoc, ← List.length_append,
      List.getElem?_append_right (Nat.le_refl _), Nat.sub_self,
      ← List.head?_eq_getElem?] at found
    exact ended item found

/-- A piece does not start with its separator. -/
theorem IsPiece.head_ne {text : List α}
    (isPiece : IsPiece separator text place piece) :
    ∃ item, item ≠ separator ∧ text[place]? = some item := by
  obtain ⟨nonempty, free, ⟨rest, found⟩, -, -⟩ := isPiece
  cases piece with
  | nil => exact absurd rfl nonempty
  | cons item piece =>
      refine ⟨item, ?_, ?_⟩
      · rintro rfl
        exact free List.mem_cons_self
      · rw [← Nat.add_zero place, ← List.getElem?_drop, ← found]
        rfl

theorem getElem?_rest (i : Nat) :
    (front ++ (piece ++ rest))[front.length + piece.length + i]? =
      rest[i]? := by
  rw [← List.append_assoc, ← List.length_append,
    List.getElem?_append_right (Nat.le_add_right _ _),
    Nat.add_sub_cancel_left]

theorem drop_rest (i : Nat) :
    (front ++ (piece ++ rest)).drop (front.length + piece.length + i) =
      rest.drop i := by
  rw [← List.append_assoc, ← List.length_append, ← List.drop_drop,
    List.drop_left]

theorem getElem?_piece {i : Nat} (inside : i < piece.length) :
    (front ++ (piece ++ rest))[front.length + i]? = some piece[i] := by
  rw [List.getElem?_append_right (Nat.le_add_right _ _),
    Nat.add_sub_cancel_left, List.getElem?_append_left inside,
    List.getElem?_eq_getElem inside]

/-- A piece of what is left is one of the whole text. -/
theorem isPiece_later
    (ended : ∀ item, rest.head? = some item → item = separator)
    (isPiece : IsPiece separator rest place other) :
    IsPiece separator (front ++ (piece ++ rest))
      (front.length + piece.length + place) other := by
  refine ⟨isPiece.nonempty, isPiece.free, ?_, ?_, ?_⟩
  · rw [drop_rest]
    exact isPiece.occurs
  · intro i next item found
    cases place with
    | zero =>
        -- the separator behind the first piece would start this one
        obtain ⟨first, notSeparator, isFirst⟩ := isPiece.head_ne
        rw [← List.head?_eq_getElem?] at isFirst
        exact absurd (ended first isFirst) notSeparator
    | succ place =>
        have same : i = front.length + piece.length + place := by omega
        rw [same, getElem?_rest] at found
        exact isPiece.before place rfl item found
  · intro item found
    rw [Nat.add_assoc, getElem?_rest] at found
    exact isPiece.behind item found

/-- A piece that starts with the first one is not shorter or longer. -/
theorem isPiece_same (free : separator ∉ piece)
    (ended : ∀ item, rest.head? = some item → item = separator)
    (isPiece :
      IsPiece separator (front ++ (piece ++ rest)) front.length other) :
    other = piece := by
  have occurs := isPiece.occurs
  rw [List.drop_left] at occurs
  rcases Nat.lt_trichotomy other.length piece.length with less | same | more
  · have isSeparator := isPiece.behind _ (getElem?_piece less)
    exact absurd (isSeparator ▸ List.getElem_mem less) free
  · exact (List.prefix_of_prefix_length_le occurs
      (List.prefix_append piece rest) (Nat.le_of_eq same)).eq_of_length same
  · have next : (piece ++ rest)[piece.length]? = some other[piece.length] := by
      obtain ⟨back, found⟩ := occurs
      rw [← found, List.getElem?_append_left more,
        List.getElem?_eq_getElem more]
    rw [List.getElem?_append_right (Nat.le_refl _), Nat.sub_self,
      ← List.head?_eq_getElem?] at next
    have isSeparator := ended _ next
    exact absurd (isSeparator ▸ List.getElem_mem more) isPiece.free

theorem isPiece_cases (blank : ∀ item ∈ front, item = separator)
    (free : separator ∉ piece)
    (ended : ∀ item, rest.head? = some item → item = separator)
    (isPiece : IsPiece separator (front ++ (piece ++ rest)) place other) :
    (place = front.length ∧ other = piece) ∨
      ∃ offset, place = front.length + piece.length + offset ∧
        IsPiece separator rest offset other := by
  obtain ⟨item, notSeparator, isItem⟩ := isPiece.head_ne
  rcases Nat.lt_trichotomy place front.length with early | rfl | late
  · rw [List.getElem?_append_left early] at isItem
    exact absurd (blank item (List.mem_of_getElem? isItem)) notSeparator
  · exact Or.inl ⟨rfl, isPiece_same free ended isPiece⟩
  rcases Nat.lt_or_ge place (front.length + piece.length) with inside | behind
  · have previous : place - front.length - 1 < piece.length := by omega
    have isSeparator := isPiece.before
      (front.length + (place - front.length - 1)) (by omega) _
      (getElem?_piece previous)
    exact absurd (isSeparator ▸ List.getElem_mem previous) free
  · right
    obtain ⟨offset, rfl⟩ := Nat.exists_eq_add_of_le behind
    refine ⟨offset, rfl, isPiece.nonempty, isPiece.free, ?_, ?_, ?_⟩
    · have occurs := isPiece.occurs
      rwa [drop_rest] at occurs
    · intro i next char found
      rw [← getElem?_rest i] at found
      exact isPiece.before _ (by omega) char found
    · intro char found
      rw [← getElem?_rest (offset + other.length), ← Nat.add_assoc] at found
      exact isPiece.behind char found

end Parts

/-- What is listed is every piece. -/
theorem Cuts.mem_iff {start : Nat} {text : List α}
    {pieces : List (Nat × List α)} (cuts : Cuts separator start text pieces) :
    ∀ (place : Nat) (piece : List α), (start + place, piece) ∈ pieces ↔
      IsPiece separator text place piece := by
  induction cuts with
  | separators blank =>
      intro place piece
      constructor
      · intro member
        cases member
      · intro isPiece
        obtain ⟨item, notSeparator, found⟩ := isPiece.head_ne
        exact absurd (blank item (List.mem_of_getElem? found)) notSeparator
  | @piece start front first rest pieces blank nonempty free ended later
      inductionHypothesis =>
      intro place piece
      rw [List.mem_cons, Prod.mk.injEq]
      constructor
      · rintro (⟨samePlace, rfl⟩ | member)
        · rw [show place = front.length by omega]
          exact isPiece_first blank nonempty free ended
        · obtain ⟨offset, behind⟩ := Nat.exists_eq_add_of_le
            (later.start_le _ member)
          dsimp only at behind
          rw [behind, inductionHypothesis] at member
          rw [show place = front.length + first.length + offset by omega]
          exact isPiece_later ended member
      · intro isPiece
        rcases isPiece_cases blank free ended isPiece with
          ⟨rfl, rfl⟩ | ⟨offset, rfl, isLater⟩
        · exact Or.inl ⟨rfl, rfl⟩
        · right
          rw [← Nat.add_assoc, ← Nat.add_assoc]
          exact (inductionHypothesis offset piece).mpr isLater

end Pieces
