import SbuUnix.Tarfs.Archive

/-!
# Listing directories

`opendir`, `countslash` and `read_dir` of `sys/tarfs.c` on the table of an
archive that is a tree.  `get_parent_inode` looks for the last slash of a
name; the name of a directory ends in one, so that a directory finds itself
instead of its parent, and `read_dir` prints no sub-directory.
-/

namespace SbuUnix

open Outcome

/-! ## The source -/

/-- `opendir` -/
def opendir (tarfs : List TarFile) (filename : List Byte) : Word :=
  if filename.length = 0 ∨ filename = [slash] then
    0
  else
    match tarfs.find? fun file =>
        file.type = directory ∧ file.name = filename with
    | some file => file.inode
    | none => 999

/-- `countslash` -/
def countslash (s : List Byte) (i : Nat) : Nat :=
  match s with
  | [] => 1
  | char :: rest =>
      if i = 1 then
        if char = slash then
          if rest = [] then 1 else 999
        else
          countslash rest i
      else if i = 2 then
        if char = slash then 999 else countslash rest i
      else
        1

/-- `kprintf("%s     \n", name)` -/
def listingLine (name : List Byte) : List Byte :=
  name ++ [0x20, 0x20, 0x20, 0x20, 0x20, 0x0A]

/-- The test of `read_dir` for an entry of the table. -/
def isListed (fd : Int) (file : TarFile) : Bool :=
  if fd = 0 then
    if file.type = directory then
      countslash file.name 1 == 1
    else
      countslash file.name 2 == 1
  else
    file.pInode == BitVec.ofInt 64 fd

/-- `read_dir`: what it prints, line by line. -/
def readDir (tarfs : List TarFile) (fd : Int) : List (List Byte) :=
  (tarfs.filter (isListed fd)).map fun file => listingLine file.name

/-- `read_dir(opendir(filename))`; the inode goes through an `int`. -/
def listDirectory (tarfs : List TarFile) (filename : List Byte) :
    List (List Byte) :=
  readDir tarfs (int32 (opendir tarfs filename).toInt)

/-! ## Trees -/

/-- The entry is in the directory with a path, which is empty or ends in a
slash, and in no sub-directory of it. -/
def Entry.ChildOf (parent : List Byte) (entry : Entry) : Prop :=
  ∃ child, child ≠ [] ∧ slash ∉ child ∧
    entry.name =
      parent ++ child ++ if entry.isDirectory then [slash] else []

/-- The part of a name that can be the `child` of `Entry.ChildOf`. -/
def Entry.childName (parent : List Byte) (entry : Entry) : List Byte :=
  (entry.name.drop parent.length).take
    (entry.name.length - parent.length - if entry.isDirectory then 1 else 0)

theorem Entry.childName_eq {parent child : List Byte} {entry : Entry}
    (name : entry.name =
      parent ++ child ++ if entry.isDirectory then [slash] else []) :
    entry.childName parent = child := by
  unfold Entry.childName
  rw [name, List.append_assoc, List.drop_left]
  split
  · simp
  · simp

instance Entry.ChildOf.decidable (parent : List Byte) (entry : Entry) :
    Decidable (entry.ChildOf parent) :=
  decidable_of_iff
    (entry.childName parent ≠ [] ∧ slash ∉ entry.childName parent ∧
      entry.name =
        parent ++ entry.childName parent ++
          if entry.isDirectory then [slash] else [])
    ⟨fun holds => ⟨_, holds⟩, fun ⟨_, nonempty, noSlash, name⟩ => by
      rw [Entry.childName_eq name]
      exact ⟨nonempty, noSlash, name⟩⟩

/-- Every entry is at the top level or in a directory whose header comes
before it, and no name occurs twice. -/
structure Tree (entries : List Entry) : Prop where
  parent : ∀ index (within : index < entries.length), ∃ parent,
    entries[index].ChildOf parent ∧
      (parent = [] ∨ ∃ earlier, ∃ inside : earlier < entries.length,
        earlier < index ∧
          entries[earlier].isDirectory ∧ entries[earlier].name = parent)
  distinct : (entries.map Entry.name).Nodup

theorem Tree.index_eq {entries : List Entry} (tree : Tree entries)
    {first second : Nat} (firstInside : first < entries.length)
    (secondInside : second < entries.length)
    (same : entries[first].name = entries[second].name) :
    first = second := by
  have inMap : ∀ index (within : index < entries.length),
      (entries.map Entry.name)[index]? = some entries[index].name := by
    intro index within
    rw [List.getElem?_map, List.getElem?_eq_getElem within]
    rfl
  have alike := (inMap first firstInside).trans
    ((congrArg some same).trans (inMap second secondInside).symm)
  exact (List.getElem?_inj (by rw [List.length_map]; exact firstInside)
    tree.distinct).mp alike

/-- What `read_dir` should print for the directory with a path. -/
def childLines (entries : List Entry) (parent : List Byte) :
    List (List Byte) :=
  (entries.filter fun entry => entry.ChildOf parent).map fun entry =>
    listingLine entry.name

/-! ## Paths -/

/-- The path of a directory. -/
def IsPath (path : List Byte) : Prop :=
  path = [] ∨ ∃ front, path = front ++ [slash]

theorem Entry.ChildOf.isPath_name {parent : List Byte} {entry : Entry}
    (child : entry.ChildOf parent) (isDirectory : entry.isDirectory) :
    IsPath entry.name := by
  obtain ⟨name, _, _, same⟩ := child
  rw [if_pos isDirectory] at same
  exact .inr ⟨_, same⟩

/-- Only one directory has an entry as its child. -/
theorem isPath_unique {parent other child name : List Byte}
    (path : IsPath parent) (otherPath : IsPath other)
    (noSlash : slash ∉ child) (noSlashName : slash ∉ name)
    (same : parent ++ child = other ++ name) : parent = other := by
  -- the longer path ends in a slash that lies in the other one's child
  have shorter : ∀ {first second rest more : List Byte}, IsPath second →
      slash ∉ more → second = first ++ rest → more = rest ++ child ∨
        more = rest ++ name → first = second := by
    intro first second rest more path absent longer split
    rcases List.eq_nil_or_concat rest with rfl | ⟨front, last, rfl⟩
    · rw [longer, List.append_nil]
    · rcases path with empty | ⟨before, ends⟩
      · rw [empty] at longer
        simp at longer
      · have lastSlash : last = slash := by
          rw [longer, List.concat_eq_append, ← List.append_assoc] at ends
          exact (List.append_inj' ends rfl).2 |> List.singleton_inj.mp
        rw [lastSlash] at split
        rcases split with split | split <;> simp [split] at absent
  rcases List.append_eq_append_iff.mp same with
    ⟨rest, longer, split⟩ | ⟨rest, longer, split⟩
  · exact shorter otherPath noSlash longer (.inr split)
  · exact (shorter path noSlashName longer (.inl split)).symm

theorem Entry.ChildOf.unique {parent other : List Byte} {entry : Entry}
    (child : entry.ChildOf parent) (otherChild : entry.ChildOf other)
    (path : IsPath parent) (otherPath : IsPath other) : parent = other := by
  obtain ⟨name, _, noSlash, same⟩ := child
  obtain ⟨otherName, _, otherNoSlash, otherSame⟩ := otherChild
  have front : parent ++ name = other ++ otherName :=
    List.append_cancel_right (same.symm.trans otherSame)
  exact isPath_unique path otherPath noSlash otherNoSlash front

/-- Scanning back over a slash-free name. -/
theorem slashIndex_append {front name : List Byte} (noSlash : slash ∉ name) :
    ∀ count < name.length,
      slashIndex (front ++ name) (front.length + count) =
        slashIndex (front ++ name) (front.length - 1) := by
  have other : ∀ index (within : index < name.length),
      (front ++ name).getD (front.length + index) 0 ≠ slash := by
    intro index within same
    rw [List.getD_append_right _ _ _ _ (Nat.le_add_right _ _),
      Nat.add_sub_cancel_left, List.getD_eq_getElem _ _ within] at same
    exact noSlash (same ▸ List.getElem_mem within)
  intro count
  induction count with
  | zero =>
      intro within
      cases length : front.length with
      | zero => rfl
      | succ before =>
          have char := other 0 within
          rw [length] at char
          rw [Nat.add_zero, slashIndex, if_neg char]
          rfl
  | succ count inductionHypothesis =>
      intro within
      have char := other (count + 1) within
      rw [← Nat.add_assoc] at char ⊢
      rw [slashIndex, if_neg char]
      exact inductionHypothesis (by omega)

/-- A name directly behind a path: the scan stops at the end of the path. -/
theorem slashIndex_file {parent name : List Byte} (path : IsPath parent)
    (long : parent = [] ∨ 2 ≤ parent.length) (nonempty : name ≠ [])
    (noSlash : slash ∉ name) :
    slashIndex (parent ++ name) ((parent ++ name).length - 1) =
      if parent = [] then none else some (parent.length - 1) := by
  have positive : 0 < name.length := List.length_pos_iff.mpr nonempty
  have last : (parent ++ name).length - 1 =
      parent.length + (name.length - 1) := by
    rw [List.length_append]
    omega
  rw [last, slashIndex_append noSlash _ (by omega)]
  rcases path with rfl | ⟨front, rfl⟩
  · rfl
  · rw [if_neg (by simp)]
    have deep : 1 ≤ front.length := by
      rcases long with empty | long
      · simp at empty
      · rw [List.length_append, List.length_singleton] at long
        omega
    obtain ⟨before, length⟩ : ∃ before, front.length = before + 1 :=
      ⟨front.length - 1, by omega⟩
    have char : (front ++ [slash] ++ name).getD (before + 1) 0 = slash := by
      rw [← length]
      simp [List.getD_eq_getElem?_getD]
    rw [List.length_append, List.length_singleton, Nat.add_sub_cancel,
      length, slashIndex, if_pos char]

/-- The name of a directory: the scan stops at once. -/
theorem slashIndex_directory {front : List Byte} (nonempty : front ≠ []) :
    slashIndex (front ++ [slash]) ((front ++ [slash]).length - 1) =
      some front.length := by
  have positive : 0 < front.length := List.length_pos_iff.mpr nonempty
  obtain ⟨before, length⟩ : ∃ before, front.length = before + 1 :=
    ⟨front.length - 1, by omega⟩
  have char : (front ++ [slash]).getD (before + 1) 0 = slash := by
    rw [← length]
    simp [List.getD_eq_getElem?_getD]
  rw [List.length_append, List.length_singleton, Nat.add_sub_cancel, length,
    slashIndex, if_pos char]

/-! ## The table of a tree -/

section Table

variable {start : Word} {entries : List Entry}

theorem indexed_name (start : Word) (entries : List Entry) (index : Nat) :
    (indexed start entries)[index]?.map TarFile.name =
      entries[index]?.map Entry.name := by
  rw [← List.getElem?_map, ← List.getElem?_map, indexed_names]

/-- A name that no entry before an index has. -/
theorem findIdx?_indexed_none {index : Nat} {path : List Byte}
    (absent : ∀ earlier < index,
      entries[earlier]?.map Entry.name ≠ some path) :
    ((indexed start entries).take index).findIdx?
      (fun file => file.name = path) = none := by
  apply List.findIdx?_eq_none_iff.mpr
  intro file member
  obtain ⟨earlier, within, here⟩ := List.mem_iff_getElem.mp member
  rw [List.length_take] at within
  have stored : (indexed start entries)[earlier]? = some file := by
    rw [← here, List.getElem_take, List.getElem?_eq_getElem]
  have name := indexed_name start entries earlier
  rw [stored] at name
  have differs := absent earlier (by omega)
  rw [← name] at differs
  simpa using differs

/-- The entry with a name, when no name occurs twice. -/
theorem findIdx?_indexed_some {index earlier : Nat}
    (distinct : (entries.map Entry.name).Nodup)
    (within : earlier < entries.length) (before : earlier < index) :
    ((indexed start entries).take index).findIdx?
      (fun file => file.name = entries[earlier].name) = some earlier := by
  apply List.findIdx?_eq_some_iff_getElem.mpr
  have length := indexed_length start entries
  refine ⟨by rw [List.length_take]; omega, ?_, ?_⟩
  · have name := indexed_name start entries earlier
    rw [List.getElem?_eq_getElem (by omega),
      List.getElem?_eq_getElem within] at name
    simpa using name
  · intro other otherBefore
    have name := indexed_name start entries other
    rw [List.getElem?_eq_getElem (by omega),
      List.getElem?_eq_getElem (by omega)] at name
    have differ := List.pairwise_iff_getElem.mp distinct other earlier
      (by rw [List.length_map]; omega) (by rw [List.length_map]; omega)
      otherBefore
    simp only [List.getElem_map] at differ
    simp only [Option.map_some, Option.some.injEq] at name
    simpa [name] using differ

/-- A directory looks for its own name among the entries before it. -/
theorem parentIndex_directory (start : Word) (tree : Tree entries) {index : Nat}
    (within : index < entries.length)
    (isDirectory : entries[index].isDirectory) :
    parentIndex ((indexed start entries).take index) entries[index].name =
      none := by
  obtain ⟨parent, child, -⟩ := tree.parent index within
  obtain ⟨name, nonempty, -, same⟩ := child
  rw [if_pos isDirectory] at same
  have absent : ∀ earlier < index, entries[earlier]?.map Entry.name ≠
      some entries[index].name := by
    intro earlier before sameName
    have differ := List.pairwise_iff_getElem.mp tree.distinct earlier index
      (by rw [List.length_map]; omega) (by rw [List.length_map]; omega)
      before
    rw [List.getElem?_eq_getElem (by omega)] at sameName
    simp only [List.getElem_map] at differ
    exact differ (Option.some.inj sameName)
  have whole : entries[index].name.take ((parent ++ name).length + 1) =
      entries[index].name := by
    apply List.take_of_length_le
    rw [same, List.length_append, List.length_singleton]
  have scan := slashIndex_directory
    (show parent ++ name ≠ [] by simp [nonempty])
  rw [← same] at scan
  unfold parentIndex
  rw [scan, Option.bind_some, whole]
  exact findIdx?_indexed_none absent

/-- A file at the top level finds no slash. -/
theorem parentIndex_topLevel (table : List TarFile) {entry : Entry}
    (isFile : ¬ entry.isDirectory) (child : entry.ChildOf []) :
    parentIndex table entry.name = none := by
  obtain ⟨name, nonempty, noSlash, same⟩ := child
  rw [if_neg isFile, List.append_nil] at same
  have scan := slashIndex_file (.inl rfl) (.inl rfl) nonempty noSlash
  rw [← same, if_pos rfl] at scan
  unfold parentIndex
  rw [scan]
  rfl

/-- A file in a directory finds the header of the directory. -/
theorem parentIndex_file (start : Word) (tree : Tree entries)
    (long : ∀ entry ∈ entries, 2 ≤ entry.name.length)
    {index earlier : Nat} (within : index < entries.length)
    (before : earlier < index) (isDirectory : entries[earlier].isDirectory)
    (isFile : ¬ entries[index].isDirectory)
    (child : entries[index].ChildOf entries[earlier].name) :
    parentIndex ((indexed start entries).take index) entries[index].name =
      some earlier := by
  have inside : earlier < entries.length := Nat.lt_trans before within
  have deep := long entries[earlier] (List.getElem_mem inside)
  obtain ⟨name, nonempty, noSlash, same⟩ := child
  obtain ⟨_, directoryChild, -⟩ := tree.parent earlier inside
  have path := directoryChild.isPath_name isDirectory
  rw [if_neg isFile, List.append_nil] at same
  have scan := slashIndex_file path (.inr deep) nonempty noSlash
  have some : entries[earlier].name ≠ [] := by
    intro empty
    rw [empty] at deep
    simp at deep
  have front : entries[index].name.take
      (entries[earlier].name.length - 1 + 1) = entries[earlier].name := by
    rw [same, Nat.sub_add_cancel (by omega), List.take_left]
  rw [← same, if_neg some] at scan
  unfold parentIndex
  rw [scan, Option.bind_some, front]
  exact findIdx?_indexed_some tree.distinct inside before

/-- The entries with the inode of a directory as their `p_inode` are the files
in it. -/
theorem pInode_indexed (tree : Tree entries) (few : entries.length ≤ 100)
    (long : ∀ entry ∈ entries, 2 ≤ entry.name.length)
    {index found : Nat} (within : index < entries.length)
    (inside : found < entries.length)
    (isDirectory : entries[found].isDirectory) {file : TarFile}
    (stored : (indexed start entries)[index]? = some file) :
    file.pInode = BitVec.ofNat 64 (found + 4) ↔
      ¬ entries[index].isDirectory ∧
        entries[index].ChildOf entries[found].name := by
  have inode : ∀ {first second : Nat}, first < entries.length →
      second < entries.length →
        (BitVec.ofNat 64 (first + 4) = BitVec.ofNat 64 (second + 4) ↔
          first = second) := by
    intro first second firstInside secondInside
    rw [← BitVec.toNat_inj, BitVec.toNat_ofNat, BitVec.toNat_ofNat]
    omega
  have noInode : (0 : Word) ≠ BitVec.ofNat 64 (found + 4) := by
    intro same
    have value := congrArg BitVec.toNat same
    simp only [BitVec.ofNat_eq_ofNat, BitVec.toNat_ofNat] at value
    omega
  obtain ⟨_, directoryChild, -⟩ := tree.parent found inside
  have path := directoryChild.isPath_name isDirectory
  obtain ⟨parent, child, place⟩ := tree.parent index within
  rw [indexed_get start within] at stored
  rw [← Option.some.inj stored]
  by_cases isDir : entries[index].isDirectory
  · have none := parentIndex_directory start tree within isDir
    simp only [fileOf, none, isDir, not_true_eq_false, false_and, iff_false]
    exact noInode
  · rcases place with
      top | ⟨earlier, earlierInside, before, earlierDirectory, named⟩
    · rw [top] at child
      have none := parentIndex_topLevel
        ((indexed start entries).take index) isDir child
      simp only [fileOf, none]
      constructor
      · intro same
        exact absurd same noInode
      rintro ⟨-, otherChild⟩
      have empty := child.unique otherChild (.inl rfl) path
      have deep := long entries[found] (List.getElem_mem inside)
      rw [← empty] at deep
      simp at deep
    · rw [← named] at child
      have some := parentIndex_file start tree long within before
        earlierDirectory isDir child
      obtain ⟨_, earlierChild, -⟩ := tree.parent earlier earlierInside
      have earlierPath := earlierChild.isPath_name earlierDirectory
      simp only [fileOf, some]
      rw [inode earlierInside inside]
      constructor
      · rintro rfl
        exact ⟨isDir, child⟩
      · rintro ⟨_, otherChild⟩
        exact tree.index_eq earlierInside inside
          (child.unique otherChild earlierPath path)

/-! ## What is printed -/

/-- Entries of the table and of the archive that are chosen alike print the
same lines. -/
theorem filter_lines {chosen : TarFile → Bool} {wanted : Entry → Bool}
    {files : List TarFile} {entries : List Entry}
    (alike : List.Forall₂ (fun file entry =>
      file.name = entry.name ∧ (chosen file = wanted entry)) files entries) :
    (files.filter chosen).map (fun file => listingLine file.name) =
      (entries.filter wanted).map fun entry => listingLine entry.name := by
  induction alike with
  | nil => rfl
  | @cons file entry files entries same _ inductionHypothesis =>
      rw [List.filter_cons, List.filter_cons, same.2]
      split
      · rw [List.map_cons, List.map_cons, same.1, inductionHypothesis]
      · exact inductionHypothesis

/-- What `read_dir` chooses, by the entries of the archive. -/
theorem readDir_indexed {fd : Int} {wanted : Entry → Bool}
    (alike : ∀ index (within : index < entries.length) (file : TarFile),
      (indexed start entries)[index]? = some file →
        isListed fd file = wanted entries[index]) :
    readDir (indexed start entries) fd =
      (entries.filter wanted).map fun entry => listingLine entry.name := by
  apply filter_lines
  apply List.forall₂_iff_get.mpr
  refine ⟨indexed_length start entries, ?_⟩
  intro index inTable within
  have stored := List.getElem?_eq_getElem inTable
  have name := indexed_name start entries index
  rw [stored, List.getElem?_eq_getElem within] at name
  exact ⟨Option.some.inj name, alike index within _ stored⟩

/-- Opening a directory gives its inode. -/
theorem opendir_indexed (start : Word) (tree : Tree entries)
    (long : ∀ entry ∈ entries, 2 ≤ entry.name.length)
    {found : Nat} (inside : found < entries.length)
    (isDirectory : entries[found].isDirectory) :
    opendir (indexed start entries) entries[found].name =
      BitVec.ofNat 64 (found + 4) := by
  have deep := long entries[found] (List.getElem_mem inside)
  have notRoot : ¬ (entries[found].name.length = 0 ∨
      entries[found].name = [slash]) := by
    rintro (empty | root)
    · omega
    · rw [root] at deep
      simp at deep
  have length := indexed_length start entries
  have opened : (indexed start entries).find? (fun file =>
      file.type = directory ∧ file.name = entries[found].name) =
        some (fileOf start (offsetOf entries found)
          ((indexed start entries).take found) entries[found]) := by
    apply List.find?_eq_some_iff_getElem.mpr
    refine ⟨by simp [fileOf, isDirectory], found, by omega, ?_, ?_⟩
    · apply Option.some.inj
      rw [← List.getElem?_eq_getElem, indexed_get start inside]
    · intro earlier before
      have name := indexed_name start entries earlier
      have earlierInside : earlier < entries.length :=
        Nat.lt_trans before inside
      rw [List.getElem?_eq_getElem (by omega),
        List.getElem?_eq_getElem earlierInside] at name
      have differ : entries[earlier].name ≠ entries[found].name := fun same =>
        Nat.ne_of_lt before (tree.index_eq earlierInside inside same)
      simp only [Option.map_some, Option.some.injEq] at name
      simp [name, differ]
  have stored : ((indexed start entries).take found).length = found := by
    rw [List.length_take]
    omega
  unfold opendir
  rw [if_neg notRoot, opened]
  simp only [fileOf, stored]

/-- The inode of a directory as a file descriptor. -/
theorem inode_toInt {index : Nat} (small : index ≤ 100) :
    int32 (BitVec.ofNat 64 (index + 4)).toInt = (index + 4 : Nat) := by
  have value : (BitVec.ofNat 64 (index + 4)).toNat = index + 4 := by
    rw [BitVec.toNat_ofNat]
    omega
  rw [BitVec.toInt_eq_toNat_of_lt (by omega), value]
  exact int32_of_small (by omega)

/-- The listing of a directory: the files in it, and no directory. -/
theorem listDirectory_indexed (tree : Tree entries)
    (few : entries.length ≤ 100)
    (long : ∀ entry ∈ entries, 2 ≤ entry.name.length)
    {found : Nat} (inside : found < entries.length)
    (isDirectory : entries[found].isDirectory) :
    listDirectory (indexed start entries) entries[found].name =
      (entries.filter fun entry => ¬ entry.isDirectory ∧
        entry.ChildOf entries[found].name).map fun entry =>
          listingLine entry.name := by
  unfold listDirectory
  rw [opendir_indexed start tree long inside isDirectory,
    inode_toInt (by omega)]
  apply readDir_indexed
  intro index within file stored
  have parent := pInode_indexed tree few long within inside isDirectory stored
  have number : BitVec.ofInt 64 ((found + 4 : Nat) : Int) =
      BitVec.ofNat 64 (found + 4) := BitVec.ofInt_natCast 64 (found + 4)
  unfold isListed
  rw [if_neg (by omega), number, Bool.eq_iff_iff, beq_iff_eq, parent,
    decide_eq_true_iff]

end Table

/-! ## The root -/

theorem countslash_one {front rest : List Byte} (noSlash : slash ∉ front) :
    countslash (front ++ slash :: rest) 1 = if rest = [] then 1 else 999 := by
  induction front with
  | nil => rfl
  | cons char front inductionHypothesis =>
      have other : char ≠ slash := fun same =>
        noSlash (same ▸ List.mem_cons_self ..)
      rw [List.cons_append, countslash, if_pos rfl, if_neg other]
      exact inductionHypothesis fun member =>
        noSlash (List.mem_cons_of_mem _ member)

theorem countslash_two (s : List Byte) :
    countslash s 2 = if slash ∈ s then 999 else 1 := by
  induction s with
  | nil => rfl
  | cons char rest inductionHypothesis =>
      rw [countslash, if_neg (by decide), if_pos rfl]
      by_cases same : char = slash
      · rw [if_pos same, if_pos (by rw [same]; exact List.mem_cons_self ..)]
      · have other : slash ∈ char :: rest ↔ slash ∈ rest := by
          rw [List.mem_cons]
          exact or_iff_right fun here => same here.symm
        rw [if_neg same, inductionHypothesis]
        simp only [other]

/-- `countslash` is 1 for the entries at the top level. -/
theorem countslash_eq_one_iff {parent : List Byte} {entry : Entry}
    (child : entry.ChildOf parent) (path : IsPath parent) :
    countslash entry.name (if entry.isDirectory then 1 else 2) = 1 ↔
      entry.ChildOf [] := by
  have top : entry.ChildOf [] ↔ parent = [] :=
    ⟨fun other => child.unique other path (.inl rfl),
      fun empty => empty ▸ child⟩
  obtain ⟨name, nonempty, noSlash, same⟩ := child
  rw [top, same]
  by_cases isDirectory : entry.isDirectory
  · rw [if_pos isDirectory, if_pos isDirectory]
    rcases path with rfl | ⟨front, rfl⟩
    · rw [List.nil_append, countslash_one noSlash]
      simp
    · have member : slash ∈ front ++ [slash] := by simp
      obtain ⟨before, behind, split, first⟩ :=
        List.eq_append_cons_of_mem member
      rw [split, List.append_assoc, List.append_assoc, List.cons_append,
        countslash_one first]
      simp [nonempty]
  · rw [if_neg isDirectory, if_neg isDirectory, List.append_nil,
      countslash_two]
    rcases path with rfl | ⟨front, rfl⟩
    · simp [noSlash]
    · simp

section Root

variable {start : Word} {entries : List Entry}

/-- The listing of the root. -/
theorem listDirectory_root (tree : Tree entries) :
    listDirectory (indexed start entries) [slash] =
      childLines entries [] := by
  have root : int32 (opendir (indexed start entries) [slash]).toInt = 0 := by
    unfold opendir
    rw [if_pos (.inr rfl)]
    decide
  unfold listDirectory
  rw [root]
  apply readDir_indexed
  intro index within file stored
  obtain ⟨parent, child, place⟩ := tree.parent index within
  have path : IsPath parent := by
    rcases place with top | ⟨earlier, inside, -, isDirectory, named⟩
    · exact .inl top
    · obtain ⟨_, earlierChild, -⟩ := tree.parent earlier inside
      rw [← named]
      exact earlierChild.isPath_name isDirectory
  have count := countslash_eq_one_iff child path
  rw [indexed_get start within] at stored
  rw [← Option.some.inj stored]
  unfold isListed
  rw [if_pos rfl]
  by_cases isDirectory : entries[index].isDirectory
  · rw [if_pos isDirectory] at count
    rw [if_pos (by simp [fileOf, isDirectory]), Bool.eq_iff_iff, beq_iff_eq,
      decide_eq_true_iff]
    exact count
  · rw [if_neg isDirectory] at count
    rw [if_neg (by simp [fileOf, isDirectory, directory]), Bool.eq_iff_iff,
      beq_iff_eq, decide_eq_true_iff]
    exact count

/-- Leaving out entries leaves out lines. -/
theorem perm_filter_iff {skipped wanted : Entry → Prop}
    [DecidablePred skipped] [DecidablePred wanted] :
    ((entries.filter fun entry => ¬ skipped entry ∧ wanted entry).map
      fun entry => listingLine entry.name).Perm
        ((entries.filter fun entry => wanted entry).map
          fun entry => listingLine entry.name) ↔
      ∀ entry ∈ entries, skipped entry → ¬ wanted entry := by
  have twice : entries.filter (fun entry => ¬ skipped entry ∧ wanted entry) =
      (entries.filter fun entry => wanted entry).filter
        fun entry => ¬ skipped entry := by
    rw [List.filter_filter]
    simp only [Bool.decide_and]
  rw [twice]
  constructor
  · intro perm entry member isSkipped isWanted
    have lengths := perm.length_eq
    rw [List.length_map, List.length_map,
      List.length_filter_eq_length_iff] at lengths
    have kept := lengths entry
      (List.mem_filter.mpr ⟨member, decide_eq_true isWanted⟩)
    exact of_decide_eq_true kept isSkipped
  · intro none
    have same : (entries.filter fun entry => wanted entry).filter
        (fun entry => ¬ skipped entry) =
          entries.filter fun entry => wanted entry := by
      apply List.filter_eq_self.mpr
      intro entry member
      obtain ⟨inArchive, isWanted⟩ := List.mem_filter.mp member
      exact decide_eq_true fun isSkipped =>
        none entry inArchive isSkipped (of_decide_eq_true isWanted)
    rw [same]

/-- The listing of a directory of an indexed tree is exact when the directory
has no sub-directory, and only then; that of the root always is. -/
theorem listDirectory_exact_iff {s : Tarfs} {fuel : Nat}
    (indexable : Indexable s start entries) (tree : Tree entries)
    (enough : entries.length + 100 < fuel) :
    ∃ next, initTarfs fuel start s = .ok ((), next) ∧
      ∀ directory ∈ entries, directory.isDirectory →
        ((listDirectory next.tarfs directory.name).Perm
            (childLines entries directory.name) ∧
          (listDirectory next.tarfs [slash]).Perm (childLines entries []) ↔
            ∀ entry ∈ entries, entry.isDirectory →
              ¬ entry.ChildOf directory.name) := by
  refine ⟨_, initTarfs_eq indexable enough, ?_⟩
  intro directory member isDirectory
  obtain ⟨found, inside, here⟩ := List.mem_iff_getElem.mp member
  have long : ∀ entry ∈ entries, 2 ≤ entry.name.length := by
    intro entry inArchive
    obtain ⟨index, within, same⟩ := List.mem_iff_getElem.mp inArchive
    rw [← same]
    exact (indexable.archive.encodes within).nameLength.1
  rw [← here] at isDirectory ⊢
  rw [listDirectory_indexed tree indexable.few long inside isDirectory,
    listDirectory_root tree, and_iff_left (List.Perm.refl _)]
  exact perm_filter_iff

end Root

/-! ### A directory with a sub-directory -/

theorem tree_smallArchive : Tree smallArchive := by
  have first : smallArchive[0].ChildOf [] := by decide
  have second : smallArchive[1].ChildOf [0x64, 0x2F] := by decide
  have third : smallArchive[2].ChildOf [0x64, 0x2F] := by decide
  refine ⟨?_, by decide⟩
  intro index within
  have cases : index = 0 ∨ index = 1 ∨ index = 2 := by
    have length : smallArchive.length = 3 := rfl
    omega
  rcases cases with rfl | rfl | rfl
  · exact ⟨[], first, .inl rfl⟩
  · exact ⟨_, second, .inr ⟨0, by decide, by decide, rfl, rfl⟩⟩
  · exact ⟨_, third, .inr ⟨0, by decide, by decide, rfl, rfl⟩⟩

/-- The listing of `d/e/`, which has no sub-directory. -/
theorem listDirectory_exact_small :
    ∃ next, initTarfs 200 smallStart smallTarfs = .ok ((), next) ∧
      (listDirectory next.tarfs [0x64, 0x2F, 0x65, 0x2F]).Perm
        (childLines smallArchive [0x64, 0x2F, 0x65, 0x2F]) := by
  obtain ⟨next, indexes, exact⟩ := listDirectory_exact_iff
    indexable_smallTarfs tree_smallArchive
      (show smallArchive.length + 100 < 200 by decide)
  have listing := exact smallArchive[2] (List.getElem_mem _) rfl
  exact ⟨next, indexes, (listing.mpr (by decide)).1⟩

/-- The listing of `d/` shows `d/f` and not `d/e/`. -/
theorem listDirectory_not_exact :
    ∃ next, initTarfs 200 smallStart smallTarfs = .ok ((), next) ∧
      listDirectory next.tarfs [0x64, 0x2F] =
        [listingLine [0x64, 0x2F, 0x66]] ∧
      ¬ (listDirectory next.tarfs [0x64, 0x2F]).Perm
        (childLines smallArchive [0x64, 0x2F]) := by
  have listing : listDirectory (indexed smallStart smallArchive)
      [0x64, 0x2F] = [listingLine [0x64, 0x2F, 0x66]] := by
    decide +kernel
  have children : (childLines smallArchive [0x64, 0x2F]).length = 2 := by
    decide
  refine ⟨_, initTarfs_eq indexable_smallTarfs (by decide), listing, ?_⟩
  intro perm
  have lengths := perm.length_eq
  rw [listing, children] at lengths
  simp at lengths

end SbuUnix
