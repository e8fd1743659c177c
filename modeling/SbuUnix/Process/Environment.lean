import SbuUnix.Console.Cursor
import SbuUnix.Process.Arguments

/-!
# Environment variables

`setEnv` and `printEnv` of `sys/process.c`.  A PCB holds five keys, then five
values, in slots of 50 bytes, and behind them the count.  `strcpy` ends a copy
with two NULs, so a string of 49 characters puts the second one into the next
slot.
-/

namespace SbuUnix

open Outcome

/-! ## The strings of the kernel -/

/-- A store to an array of `size` bytes. -/
def storeAt (size : Nat) (array : Nat → Byte) (index : Nat) (byte : Byte) :
    Except Fault (Nat → Byte) :=
  if index < size then
    pure fun other => if other = index then byte else array other
  else
    throw .outOfBounds

/-- `strcpy` of `sys/string.c`, from index `sr` to index `temp`; the call of
`strcat` at the end writes the NUL again and another one behind it. -/
def strcpy (source : Nat → Byte) (size : Nat) :
    Nat → Nat → (Nat → Byte) → Nat → Except Fault (Nat → Byte)
  | 0, _, _, _ => throw .outOfFuel
  | fuel + 1, sr, target, temp =>
      if source sr ≠ 0 then do
        let target ← storeAt size target temp (source sr)
        strcpy source size fuel (sr + 1) target (temp + 1)
      else do
        let target ← storeAt size target temp 0
        storeAt size target (temp + 1) 0

/-- `strcmp` -/
def strcmp (first second : Nat → Byte) :
    Nat → Nat → Nat → Except Fault Nat
  | 0, _, _ => throw .outOfFuel
  | fuel + 1, str1, str2 =>
      if first str1 ≠ 0 ∧ second str2 ≠ 0 then
        if first str1 ≠ second str2 then
          pure 1
        else
          strcmp first second fuel (str1 + 1) (str2 + 1)
      else if first str1 ≠ 0 ∨ second str2 ≠ 0 then
        pure 1
      else
        pure 0

/-! ## The variables of a process -/

/-- The bytes of a PCB from `echo_var_key` on, up to `next_proc`. -/
abbrev Environment := Nat → Byte

def environmentSize : Nat := 504

/-- `echo_var_key[i]` -/
def echoVarKey (i : Nat) : Nat := 50 * i

/-- `echo_var[i]` -/
def echoVar (i : Nat) : Nat := 250 + 50 * i

/-- The field `echo_count`. -/
def echoCount (env : Environment) : BitVec 32 :=
  env 503 ++ env 502 ++ env 501 ++ env 500

def setEchoCount (env : Environment) (count : BitVec 32) : Environment :=
  putField env 500
    [count.extractLsb' 0 8, count.extractLsb' 8 8, count.extractLsb' 16 8,
      count.extractLsb' 24 8]

/-- The loop that compares the keys, for the slots from `i` on. -/
def findKey (fuel : Nat) (env : Environment) (key : Nat → Byte) :
    Nat → Nat → Except Fault (Option Nat)
  | 0, _ => pure none
  | left + 1, i => do
      if (← strcmp env key fuel (echoVarKey i) 0) = 0 then
        pure (some i)
      else
        findKey fuel env key left (i + 1)

/-- `while(*temp != '=') temp++;` in `buf[100]`. -/
def findEquals (buf : Nat → Byte) : Nat → Nat → Except Fault Nat
  | 0, _ => throw .outOfBounds
  | room + 1, temp =>
      if buf temp ≠ 0x3D then findEquals buf room (temp + 1) else pure temp

/-- `setEnv` before its loop, with what stood in `buf`; returns the index of
`value`. -/
def cutAssignment (fuel : Nat) (stack s : Nat → Byte) :
    Except Fault (Nat × (Nat → Byte)) := do
  let buf ← strcpy s 100 fuel 0 stack 0
  let temp ← findEquals buf 100 0
  let buf ← storeAt 100 buf temp 0
  pure (temp + 1, buf)

def setEnv (fuel : Nat) (stack s : Nat → Byte) (env : Environment) :
    Except Fault Environment := do
  let (value, buf) ← cutAssignment fuel stack s
  match ← findKey fuel env buf 5 0 with
  | some i => strcpy buf environmentSize fuel value env (echoVar i)
  | none =>
      let index := echoCount env
      let env ←
        strcpy buf environmentSize fuel 0 env (echoVarKey index.toNat)
      let env ←
        strcpy buf environmentSize fuel value env (echoVar index.toNat)
      let env := setEchoCount env (index + 1)
      pure (if index + 1 = 5 then setEchoCount env 0 else env)

/-- `"sbush: No such environment variable"` -/
def missingText : List Byte :=
  [0x73, 0x62, 0x75, 0x73, 0x68, 0x3A, 0x20, 0x4E, 0x6F, 0x20, 0x73, 0x75,
    0x63, 0x68, 0x20, 0x65, 0x6E, 0x76, 0x69, 0x72, 0x6F, 0x6E, 0x6D, 0x65,
    0x6E, 0x74, 0x20, 0x76, 0x61, 0x72, 0x69, 0x61, 0x62, 0x6C, 0x65]

/-- The C string of a list. -/
def textBytes (text : List Byte) : Nat → Byte :=
  fun i => text.getD i 0

/-- `printEnv`; `args` is what `kprintf` finds where it looks for the
arguments that it is not given. -/
def printEnv (fuel : Nat) (s : Nat → Byte) (args : Nat → PrintArg)
    (env : Environment) (t : Terminal) : Except Fault Terminal := do
  match ← findKey fuel env s 5 0 with
  | some i =>
      let t ← kprintf fuel (fun offset => env (echoVar i + offset)) args t
      kprintf fuel (textBytes [0x0A]) args t
  | none =>
      kprintf fuel (textBytes [0x25, 0x73, 0x0A])
        (fun _ => ⟨0, textBytes missingText⟩) t

/-- The environment that `create_user_process` writes to a new PCB. -/
def createEnvironment (fuel : Nat) : Except Fault Environment := do
  let env ← strcpy (textBytes pathKey) environmentSize fuel 0 (fun _ => 0)
    (echoVarKey 0)
  let env ← strcpy (textBytes pathValue) environmentSize fuel 0 env
    (echoVar 0)
  pure (setEchoCount env 1)

/-- The loop of `copy_parent_structure` and of `execve`, from slot `i` on. -/
def copySlots (fuel : Nat) (parent : Environment) :
    Nat → Nat → Environment → Except Fault Environment
  | 0, _, child => pure child
  | left + 1, i, child => do
      let child ←
        strcpy parent environmentSize fuel (echoVar i) child (echoVar i)
      let child ← strcpy parent environmentSize fuel (echoVarKey i) child
        (echoVarKey i)
      copySlots fuel parent left (i + 1) child

/-- The environment that a new PCB gets from its parent, or from the program
that it replaces. -/
def inheritEnvironment (fuel : Nat) (parent : Environment) :
    Except Fault Environment :=
  copySlots fuel parent 5 0 (setEchoCount (fun _ => 0) (echoCount parent))

/-! ## The abstract map -/

/-- `k=v`, with a key and a value that fit a slot. -/
structure Assignment where
  key : List Byte
  value : List Byte
  nonempty : key ≠ []
  plainKey : 0x3D ∉ key ∧ 0 ∉ key
  noNul : 0 ∉ value
  keyLength : key.length ≤ 49
  valueLength : value.length ≤ 49

/-- The variables in the order of their slots. -/
abbrev Vars := List (List Byte × List Byte)

/-- A variable gets a value, in its place or behind all others. -/
def assign (key value : List Byte) : Vars → Vars
  | [] => [(key, value)]
  | var :: rest =>
      if var.1 = key then (key, value) :: rest
      else var :: assign key value rest

/-- The string of a slot: five keys, then five values. -/
def slotText (vars : Vars) (slot : Nat) : List Byte :=
  if slot < 5 then (vars.getD slot ([], [])).1
  else (vars.getD (slot - 5) ([], [])).2

/-- The slot of a key, or the next one. -/
def slotOf (key : List Byte) (vars : Vars) : Nat :=
  vars.findIdx fun var => var.1 = key

inductive EnvCall where
  | set (assignment : Assignment)
  | inherit

def EnvCall.serve (fuel : Nat) (stack : Nat → Byte) :
    EnvCall → StateT Environment (Except Fault) Unit
  | .set a => fun env => do
      let env ← setEnv fuel stack (textBytes (a.key ++ 0x3D :: a.value)) env
      pure ((), env)
  | .inherit => fun env => do
      let env ← inheritEnvironment fuel env
      pure ((), env)

/-- The variables after a call. -/
def EnvCall.vars : EnvCall → Vars → Vars
  | .set a, vars => assign a.key a.value vars
  | .inherit, vars => vars

/-! ## What the loops do -/

theorem ok_bind {α β : Type} (value : α) (rest : α → Except Fault β) :
    (Except.ok value >>= rest) = rest value :=
  rfl

theorem storeAt_of_lt {size index : Nat} (inside : index < size)
    (array : Nat → Byte) (byte : Byte) :
    storeAt size array index byte =
      .ok fun other => if other = index then byte else array other :=
  if_pos inside

theorem putField_outside {array : Nat → Byte} {index other : Nat}
    {field : List Byte}
    (outside : other < index ∨ index + field.length ≤ other) :
    putField array index field other = array other := by
  unfold putField
  rw [if_neg (by omega)]

theorem textBytes_holds (text : List Byte) :
    HoldsAt (textBytes text) 0 (text ++ [0]) := by
  intro offset below
  rw [Nat.zero_add, textBytes]
  by_cases inside : offset < text.length
  · rw [List.getD_append _ _ _ _ inside]
  · have last : offset = text.length := by
      simp only [List.length_append, List.length_singleton] at below
      omega
    rw [last, List.getD_eq_default _ _ (Nat.le_refl _),
      List.getD_append_right _ _ _ _ (Nat.le_refl _), Nat.sub_self]
    rfl

/-- A string and two NULs are copied. -/
theorem strcpy_eq {source : Nat → Byte} {size : Nat} :
    ∀ {text : List Byte} {fuel sr temp : Nat} {target : Nat → Byte},
      0 ∉ text → HoldsAt source sr (text ++ [0]) → text.length < fuel →
        temp + text.length + 2 ≤ size →
          strcpy source size fuel sr target temp =
            .ok (putField target temp (text ++ [0, 0])) := by
  intro text
  induction text with
  | nil =>
      intro fuel sr temp target _ holds enough room
      obtain ⟨fuel, rfl⟩ := Nat.exists_eq_add_of_lt enough
      have nul : source sr = 0 := (holdsAt_cons.mp holds).1
      rw [List.length_nil] at room
      rw [strcpy, if_neg (not_not.mpr nul), storeAt_of_lt (by omega)]
      refine (storeAt_of_lt (by omega) _ _).trans (congrArg Except.ok ?_)
      rw [List.nil_append, ← putField_cons, ← putField_cons, putField_nil]
  | cons char rest inductionHypothesis =>
      intro fuel sr temp target noNul holds enough room
      rw [List.length_cons] at enough room
      obtain ⟨fuel, rfl⟩ : ∃ less, fuel = less + 1 := ⟨fuel - 1, by omega⟩
      obtain ⟨here, later⟩ := holdsAt_cons.mp holds
      rw [List.mem_cons, not_or] at noNul
      rw [strcpy, here, if_pos (Ne.symm noNul.1),
        storeAt_of_lt (by omega)]
      refine (inductionHypothesis noNul.2 later (by omega)
        (by omega)).trans (congrArg Except.ok ?_)
      rw [putField_cons]
      rfl

/-- Two strings are compared. -/
theorem strcmp_eq {first second : Nat → Byte} :
    ∀ {left right : List Byte} {fuel str1 str2 : Nat},
      0 ∉ left → 0 ∉ right → HoldsAt first str1 (left ++ [0]) →
        HoldsAt second str2 (right ++ [0]) → left.length < fuel →
          strcmp first second fuel str1 str2 =
            .ok (if left = right then 0 else 1) := by
  intro left
  induction left with
  | nil =>
      intro right fuel str1 str2 _ noNul holdsLeft holdsRight enough
      obtain ⟨fuel, rfl⟩ := Nat.exists_eq_add_of_lt enough
      have nul : first str1 = 0 := (holdsAt_cons.mp holdsLeft).1
      rw [strcmp, if_neg (fun both => both.1 nul)]
      cases right with
      | nil =>
          have end2 : second str2 = 0 := (holdsAt_cons.mp holdsRight).1
          rw [if_neg (fun either => either.elim (· nul) (· end2)),
            if_pos rfl]
          rfl
      | cons char rest =>
          have here : second str2 = char := (holdsAt_cons.mp holdsRight).1
          rw [List.mem_cons, not_or] at noNul
          rw [if_pos (Or.inr (here ▸ Ne.symm noNul.1)), if_neg (by simp)]
          rfl
  | cons char rest inductionHypothesis =>
      intro right fuel str1 str2 noNulLeft noNul holdsLeft holdsRight enough
      rw [List.length_cons] at enough
      obtain ⟨fuel, rfl⟩ : ∃ less, fuel = less + 1 := ⟨fuel - 1, by omega⟩
      obtain ⟨here, later⟩ := holdsAt_cons.mp holdsLeft
      rw [List.mem_cons, not_or] at noNulLeft
      have present : first str1 ≠ 0 := here ▸ Ne.symm noNulLeft.1
      rw [strcmp]
      cases right with
      | nil =>
          have end2 : second str2 = 0 := (holdsAt_cons.mp holdsRight).1
          rw [if_neg (fun both => both.2 end2), if_pos (Or.inl present),
            if_neg (by simp)]
          rfl
      | cons other others =>
          obtain ⟨here2, later2⟩ := holdsAt_cons.mp holdsRight
          rw [List.mem_cons, not_or] at noNul
          have present2 : second str2 ≠ 0 := here2 ▸ Ne.symm noNul.1
          rw [if_pos ⟨present, present2⟩, here, here2]
          by_cases same : char = other
          · rw [if_neg (not_not.mpr same),
              inductionHypothesis noNulLeft.2 noNul.2 later later2
                (by omega)]
            simp only [List.cons.injEq, same, true_and]
          · rw [if_pos same, if_neg (fun equal =>
              same (List.cons.inj equal).1)]
            rfl

/-- `temp` stops at the first `'='`. -/
theorem findEquals_eq {buf : Nat → Byte} :
    ∀ {key : List Byte} {room temp : Nat}, 0x3D ∉ key →
      HoldsAt buf temp (key ++ [0x3D]) → key.length < room →
        findEquals buf room temp = .ok (temp + key.length) := by
  intro key
  induction key with
  | nil =>
      intro room temp _ holds enough
      obtain ⟨room, rfl⟩ := Nat.exists_eq_add_of_lt enough
      have here : buf temp = 0x3D := (holdsAt_cons.mp holds).1
      rw [findEquals, if_neg (not_not.mpr here)]
      rfl
  | cons char rest inductionHypothesis =>
      intro room temp noEquals holds enough
      rw [List.length_cons] at enough ⊢
      obtain ⟨room, rfl⟩ : ∃ less, room = less + 1 := ⟨room - 1, by omega⟩
      obtain ⟨here, later⟩ := holdsAt_cons.mp holds
      rw [List.mem_cons, not_or] at noEquals
      rw [findEquals, here, if_pos (Ne.symm noEquals.1),
        inductionHypothesis noEquals.2 later (by omega)]
      congr 1
      omega

/-! ## Slots -/

section Slots

variable {key value : List Byte} {vars : Vars}

theorem slotOf_le (key : List Byte) (vars : Vars) :
    slotOf key vars ≤ vars.length :=
  List.findIdx_le_length

theorem getD_slotOf (found : slotOf key vars < vars.length) :
    (vars.getD (slotOf key vars) ([], [])).1 = key := by
  rw [List.getD_eq_getElem _ _ found]
  have isKey := @List.findIdx_getElem _
    (fun var : List Byte × List Byte => decide (var.1 = key)) vars found
  exact of_decide_eq_true isKey

theorem slotOf_le_of_key {i : Nat} (nonempty : key ≠ [])
    (same : (vars.getD i ([], [])).1 = key) :
    slotOf key vars ≤ i ∧ i < vars.length := by
  have inside : i < vars.length := by
    by_contra outside
    rw [List.getD_eq_default _ _ (by omega)] at same
    exact nonempty same.symm
  refine ⟨?_, inside⟩
  by_contra before
  rw [List.getD_eq_getElem _ _ inside] at same
  have other := List.not_of_lt_findIdx (Nat.not_le.mp before)
  simp [same] at other

theorem assign_getD (key value : List Byte) (vars : Vars) :
    ∀ i, (assign key value vars).getD i ([], []) =
      if i = slotOf key vars then (key, value) else vars.getD i ([], []) := by
  induction vars with
  | nil =>
      intro i
      cases i with
      | zero => rfl
      | succ i => rfl
  | cons var rest inductionHypothesis =>
      intro i
      unfold assign slotOf
      by_cases here : var.1 = key
      · rw [if_pos here, List.findIdx_cons]
        cases i with
        | zero => simp [here]
        | succ i => simp [here]
      · rw [if_neg here, List.findIdx_cons]
        cases i with
        | zero => simp [here]
        | succ i =>
            have later := inductionHypothesis i
            unfold slotOf at later
            simp only [List.getD_cons_succ, later, here, decide_false,
              cond_false, Nat.add_right_cancel_iff]

theorem assign_length (key value : List Byte) (vars : Vars) :
    (assign key value vars).length =
      if slotOf key vars < vars.length then vars.length
      else vars.length + 1 := by
  induction vars with
  | nil => rfl
  | cons var rest inductionHypothesis =>
      unfold assign slotOf
      by_cases here : var.1 = key
      · simp [here, List.findIdx_cons]
      · unfold slotOf at inductionHypothesis
        rw [if_neg here, List.length_cons, inductionHypothesis,
          List.findIdx_cons]
        simp only [here, decide_false, cond_false, List.length_cons,
          Nat.add_lt_add_iff_right]
        split <;> rfl

theorem mem_assign {var : List Byte × List Byte} :
    ∀ {vars : Vars}, var ∈ assign key value vars →
      var = (key, value) ∨ var ∈ vars := by
  intro vars
  induction vars with
  | nil => exact fun member => Or.inl (List.mem_singleton.mp member)
  | cons head rest inductionHypothesis =>
      unfold assign
      split
      · intro member
        rcases List.mem_cons.mp member with same | later
        · exact Or.inl same
        · exact Or.inr (List.mem_cons_of_mem _ later)
      · intro member
        rcases List.mem_cons.mp member with rfl | later
        · exact Or.inr (List.mem_cons_self ..)
        · exact (inductionHypothesis later).imp_right
            (List.mem_cons_of_mem _)

theorem slotText_assign {slot : Nat} (few : slotOf key vars < 5)
    (inside : slot < 10) :
    slotText (assign key value vars) slot =
      if slot = slotOf key vars then key
      else if slot = 5 + slotOf key vars then value
      else slotText vars slot := by
  unfold slotText
  rw [assign_getD, assign_getD]
  split_ifs <;> first | rfl | omega

end Slots

/-- What a slot may hold, and what `printEnv` prints as it stands. -/
structure ValidVar (var : List Byte × List Byte) : Prop where
  nonempty : var.1 ≠ []
  noNulKey : 0 ∉ var.1
  keyLength : var.1.length ≤ 49
  noNulValue : 0 ∉ var.2
  valueLength : var.2.length ≤ 49
  plain : 0x25 ∉ var.2

/-- The environment holds the variables. -/
structure Represents (env : Environment) (vars : Vars) : Prop where
  few : vars.length ≤ 5
  texts : ∀ slot < 10, HoldsAt env (50 * slot) (slotText vars slot ++ [0])
  count : HoldsAt env 500
    [BitVec.ofNat 8 (if vars.length = 5 then 0 else vars.length), 0, 0, 0]
  valid : ∀ var ∈ vars, ValidVar var

section Represented

variable {env : Environment} {vars : Vars}

/-- The entry of a slot is a variable, or none. -/
theorem Represents.getD (represents : Represents env vars) (i : Nat) :
    ValidVar (vars.getD i ([], [])) ∨ vars.getD i ([], []) = ([], []) := by
  by_cases inside : i < vars.length
  · left
    rw [List.getD_eq_getElem _ _ inside]
    exact represents.valid _ (List.getElem_mem inside)
  · right
    exact List.getD_eq_default _ _ (by omega)

theorem Represents.text_valid (represents : Represents env vars)
    (slot : Nat) :
    0 ∉ slotText vars slot ∧ (slotText vars slot).length ≤ 49 := by
  unfold slotText
  split
  · rcases represents.getD slot with valid | none
    · exact ⟨valid.noNulKey, valid.keyLength⟩
    · rw [none]
      exact ⟨List.not_mem_nil, Nat.zero_le _⟩
  · rcases represents.getD (slot - 5) with valid | none
    · exact ⟨valid.noNulValue, valid.valueLength⟩
    · rw [none]
      exact ⟨List.not_mem_nil, Nat.zero_le _⟩

/-- The search stops at the slot of the key. -/
theorem Represents.findKey_eq (represents : Represents env vars)
    {key : List Byte} (nonempty : key ≠ []) (noNul : 0 ∉ key)
    {s : Nat → Byte} (holds : HoldsAt s 0 (key ++ [0])) {fuel : Nat}
    (enough : 49 < fuel) :
    ∀ left i, i + left = 5 →
      (slotOf key vars < vars.length → i ≤ slotOf key vars) →
        findKey fuel env s left i =
          .ok (if slotOf key vars < vars.length
            then some (slotOf key vars) else none) := by
  intro left
  induction left with
  | zero =>
      intro i last before
      have few := represents.few
      rw [if_neg (by omega)]
      rfl
  | succ left inductionHypothesis =>
      intro i last before
      have inside : i < 5 := by omega
      have text := represents.texts i (by omega)
      have valid := represents.text_valid i
      have compared : strcmp env s fuel (echoVarKey i) 0 =
          .ok (if slotText vars i = key then 0 else 1) :=
        strcmp_eq valid.1 noNul text holds (by omega)
      have isKey : slotText vars i = (vars.getD i ([], [])).1 :=
        if_pos inside
      rw [findKey, compared]
      by_cases same : slotText vars i = key
      · obtain ⟨upTo, found⟩ := slotOf_le_of_key nonempty (isKey ▸ same)
        obtain rfl : slotOf key vars = i :=
          Nat.le_antisymm upTo (before (by omega))
        rw [if_pos same, if_pos found]
        rfl
      · rw [if_neg same]
        apply inductionHypothesis (i + 1) (by omega)
        intro found
        have other : i ≠ slotOf key vars := by
          rintro rfl
          exact same (isKey.trans (getD_slotOf found))
        have upTo := before found
        omega

end Represented

theorem second_nul (new : List Byte) :
    (new ++ [0, 0]).getD (new.length + 1) 0 = 0 := by
  simp

/-- A string goes to a slot.  Only a string of 49 characters reaches the next
one, which keeps its text when that is empty. -/
theorem texts_putField {env : Environment} {text : Nat → List Byte}
    (texts : ∀ slot < 10, HoldsAt env (50 * slot) (text slot ++ [0]))
    (short : ∀ slot, (text slot).length ≤ 49) {slot : Nat}
    {new : List Byte} (length : new.length ≤ 49)
    (spill : new.length = 49 → text (slot + 1) = []) :
    ∀ other < 10,
      HoldsAt (putField env (50 * slot) (new ++ [0, 0])) (50 * other)
        ((if other = slot then new else text other) ++ [0]) := by
  intro other inside
  have bytes : (new ++ [(0 : Byte), 0]).length = new.length + 2 := by
    simp only [List.length_append, List.length_cons, List.length_nil]
  by_cases same : other = slot
  · rw [if_pos same, same,
      show new ++ [(0 : Byte), 0] = (new ++ [0]) ++ [0] by simp]
    exact holdsAt_putField_append
  · rw [if_neg same]
    intro offset below
    have upTo := short other
    simp only [List.length_append, List.length_singleton] at below
    by_cases next : other = slot + 1 ∧ new.length = 49
    · -- the second NUL stands where the empty text ends
      rw [next.1, spill next.2] at below ⊢
      obtain rfl : offset = 0 := by
        simp only [List.length_nil] at below
        omega
      have last : 50 * (slot + 1) + 0 - 50 * slot = new.length + 1 := by
        omega
      unfold putField
      rw [if_pos (by omega), last, second_nul]
      rfl
    · rw [putField_outside (by omega)]
      exact texts other inside offset (by
        simp only [List.length_append, List.length_singleton]
        omega)

/-- The count behind the slots is reached by a string of 49 characters in the
last one. -/
theorem count_putField {env : Environment} {low : Byte}
    (count : HoldsAt env 500 [low, 0, 0, 0]) {slot : Nat} {new : List Byte}
    (inside : slot < 10) (length : new.length ≤ 49)
    (spill : slot = 9 → new.length = 49 → low = 0) :
    HoldsAt (putField env (50 * slot) (new ++ [0, 0])) 500
      [low, 0, 0, 0] := by
  have bytes : (new ++ [(0 : Byte), 0]).length = new.length + 2 := by
    simp only [List.length_append, List.length_cons, List.length_nil]
  intro offset below
  by_cases reached : offset = 0 ∧ slot = 9 ∧ new.length = 49
  · have last : 500 + 0 - 50 * slot = new.length + 1 := by omega
    rw [reached.1, spill reached.2.1 reached.2.2]
    unfold putField
    rw [if_pos (by omega), last, second_nul]
    rfl
  · rw [putField_outside (by omega)]
    exact count offset below

theorem texts_setEchoCount {env : Environment} {text : Nat → List Byte}
    (texts : ∀ slot < 10, HoldsAt env (50 * slot) (text slot ++ [0]))
    (short : ∀ slot, (text slot).length ≤ 49) (count : BitVec 32) :
    ∀ slot < 10,
      HoldsAt (setEchoCount env count) (50 * slot) (text slot ++ [0]) := by
  intro slot inside offset below
  have upTo := short slot
  have within := below
  simp only [List.length_append, List.length_singleton] at within
  unfold setEchoCount
  rw [putField_below (by omega)]
  exact texts slot inside offset below

theorem count_setEchoCount (env : Environment) :
    ∀ count ≤ 5, HoldsAt (setEchoCount env (BitVec.ofNat 32 count)) 500
      [BitVec.ofNat 8 count, 0, 0, 0] := by
  intro count small
  have bytes : ∀ count ≤ 5,
      [(BitVec.ofNat 32 count).extractLsb' 0 8,
        (BitVec.ofNat 32 count).extractLsb' 8 8,
        (BitVec.ofNat 32 count).extractLsb' 16 8,
        (BitVec.ofNat 32 count).extractLsb' 24 8] =
          [BitVec.ofNat 8 count, 0, 0, 0] := by
    decide
  rw [← bytes count small]
  exact holdsAt_putField env 500 _

theorem echoCount_eq {env : Environment} {count : Nat} (small : count ≤ 5)
    (holds : HoldsAt env 500 [BitVec.ofNat 8 count, 0, 0, 0]) :
    echoCount env = BitVec.ofNat 32 count := by
  have joined : ∀ count ≤ 5,
      (0 : Byte) ++ (0 : Byte) ++ (0 : Byte) ++ BitVec.ofNat 8 count =
        BitVec.ofNat 32 count := by
    decide
  have low : env 500 = BitVec.ofNat 8 count := holds 0 (Nat.succ_pos 3)
  have second : env 501 = 0 := holds 1 (Nat.lt_of_sub_pos (Nat.succ_pos 2))
  have third : env 502 = 0 := holds 2 (Nat.lt_of_sub_pos (Nat.succ_pos 1))
  have high : env 503 = 0 := holds 3 (Nat.lt_of_sub_pos (Nat.succ_pos 0))
  unfold echoCount
  rw [low, second, third, high]
  exact joined count small

/-! ## `setEnv` -/

/-- The text of the assignment and its NULs fit in `buf`, the value has no
conversion, and where 49 characters reach the next slot there is no text. -/
structure AssignmentFits (a : Assignment) (vars : Vars) : Prop where
  copied : a.key.length + a.value.length ≤ 97
  plain : 0x25 ∉ a.value
  key : a.key.length = 49 → vars.length ≤ slotOf a.key vars →
    slotText vars (slotOf a.key vars + 1) = []
  value : a.value.length = 49 →
    slotText vars (5 + slotOf a.key vars + 1) = []

/-- `buf` behind the loop: the key, and the value behind its NUL. -/
theorem cutAssignment_eq (a : Assignment)
    (copied : a.key.length + a.value.length ≤ 97) (stack : Nat → Byte)
    {fuel : Nat} (enough : 100 < fuel) :
    ∃ buf, cutAssignment fuel stack
        (textBytes (a.key ++ 0x3D :: a.value)) =
          .ok (a.key.length + 1, buf) ∧
      HoldsAt buf 0 (a.key ++ [0]) ∧
        HoldsAt buf (a.key.length + 1) (a.value ++ [0]) := by
  have noNul : 0 ∉ a.key ++ 0x3D :: a.value := by
    rw [List.mem_append, List.mem_cons, not_or, not_or]
    exact ⟨a.plainKey.2, by decide, a.noNul⟩
  have length : (a.key ++ 0x3D :: a.value).length =
      a.key.length + a.value.length + 1 := by
    simp only [List.length_append, List.length_cons]
    omega
  have ran := @strcpy_eq (textBytes (a.key ++ 0x3D :: a.value)) 100
    (a.key ++ 0x3D :: a.value) fuel 0 0 stack noNul (textBytes_holds _)
    (by omega) (by omega)
  have parts : a.key ++ 0x3D :: a.value ++ [0, 0] =
      (a.key ++ [0x3D]) ++ ((a.value ++ [0]) ++ [0]) := by
    simp
  have holds := holdsAt_putField stack 0 (a.key ++ 0x3D :: a.value ++ [0, 0])
  rw [parts] at holds ran
  obtain ⟨first, second⟩ := holdsAt_append.mp holds
  have behind := (holdsAt_append.mp second).1
  simp only [List.length_append, List.length_singleton, Nat.zero_add]
    at behind
  have found := @findEquals_eq _ a.key 100 0 a.plainKey.1 first
    (by have short := a.keyLength; omega)
  rw [Nat.zero_add] at found
  refine ⟨fun other => if other = a.key.length then 0 else
    putField stack 0 ((a.key ++ [0x3D]) ++ ((a.value ++ [0]) ++ [0])) other,
    ?_, ?_, ?_⟩
  · rw [cutAssignment, ran, ok_bind, found, ok_bind,
      storeAt_of_lt (by have short := a.keyLength; omega), ok_bind]
    rfl
  · apply holdsAt_append.mpr
    refine ⟨?_, ?_⟩
    · exact (holdsAt_append.mp first).1.congr fun place below =>
        if_neg (by omega)
    · rw [Nat.zero_add]
      exact holdsAt_cons.mpr ⟨if_pos rfl, holdsAt_nil⟩
  · intro offset below
    apply (if_neg (by omega)).trans
    exact behind offset below

theorem echoVar_eq (i : Nat) : echoVar i = 50 * (5 + i) := by
  unfold echoVar
  omega

/-- A copy to a slot of the environment. -/
theorem strcpy_slot {source : Nat → Byte} {text : List Byte}
    {fuel sr slot : Nat} (noNul : 0 ∉ text)
    (holds : HoldsAt source sr (text ++ [0])) (enough : 49 < fuel)
    (length : text.length ≤ 49) (inside : slot < 10) (env : Environment) :
    strcpy source environmentSize fuel sr env (50 * slot) =
      .ok (putField env (50 * slot) (text ++ [0, 0])) := by
  apply strcpy_eq noNul holds (by omega)
  unfold environmentSize
  omega

/-- A variable that exists gets its value in its place. -/
theorem Represents.put_value {env : Environment} {vars : Vars}
    (represents : Represents env vars) {a : Assignment}
    (fits : AssignmentFits a vars)
    (present : slotOf a.key vars < vars.length) :
    Represents
      (putField env (50 * (5 + slotOf a.key vars)) (a.value ++ [0, 0]))
      (assign a.key a.value vars) := by
  have atMost := represents.few
  have inside : slotOf a.key vars < 5 := by omega
  have length := assign_length a.key a.value vars
  rw [if_pos present] at length
  have keyText : slotText vars (slotOf a.key vars) = a.key :=
    (if_pos inside).trans (getD_slotOf present)
  constructor
  · omega
  · intro slot within
    have put := texts_putField represents.texts
      (fun slot => (represents.text_valid slot).2) a.valueLength fits.value
      slot within
    rw [slotText_assign inside within]
    by_cases isKey : slot = slotOf a.key vars
    · rw [isKey, if_neg (by omega), keyText] at put
      rw [isKey, if_pos rfl]
      exact put
    · rw [if_neg isKey]
      exact put
  · rw [length]
    apply count_putField represents.count (by omega) a.valueLength
    intro last _
    rw [if_pos (by omega)]
    rfl
  · intro var member
    rcases mem_assign member with rfl | old
    · exact ⟨a.nonempty, a.plainKey.2, a.keyLength, a.noNul, a.valueLength,
        fits.plain⟩
    · exact represents.valid var old

/-- A new variable goes behind the others, and the count goes on. -/
theorem Represents.put_variable {env : Environment} {vars : Vars}
    (represents : Represents env vars) {a : Assignment}
    (fits : AssignmentFits a vars) (last : slotOf a.key vars = vars.length)
    (room : vars.length < 5) {count : Nat}
    (next : count = if vars.length + 1 = 5 then 0 else vars.length + 1)
    {result : Environment}
    (texts : ∀ text : Nat → List Byte, (∀ slot, (text slot).length ≤ 49) →
      (∀ slot < 10, HoldsAt
        (putField (putField env (50 * slotOf a.key vars) (a.key ++ [0, 0]))
          (50 * (5 + slotOf a.key vars)) (a.value ++ [0, 0]))
        (50 * slot) (text slot ++ [0])) →
          ∀ slot < 10, HoldsAt result (50 * slot) (text slot ++ [0]))
    (holdsCount : HoldsAt result 500 [BitVec.ofNat 8 count, 0, 0, 0]) :
    Represents result (assign a.key a.value vars) := by
  have inside : slotOf a.key vars < 5 := by omega
  have length := assign_length a.key a.value vars
  rw [if_neg (by omega)] at length
  have short := fun slot => (represents.text_valid slot).2
  have shortKey : ∀ slot, (if slot = slotOf a.key vars then a.key
      else slotText vars slot).length ≤ 49 := by
    intro slot
    split
    · exact a.keyLength
    · exact short slot
  have shortBoth : ∀ slot, (if slot = 5 + slotOf a.key vars then a.value
      else if slot = slotOf a.key vars then a.key
      else slotText vars slot).length ≤ 49 := by
    intro slot
    split
    · exact a.valueLength
    · exact shortKey slot
  have textsKey := texts_putField represents.texts short a.keyLength
    fun full => fits.key full (by omega)
  have textsValue := texts_putField textsKey shortKey a.valueLength
    fun full => (if_neg (by omega)).trans (fits.value full)
  constructor
  · omega
  · intro slot within
    have put := texts _ shortBoth textsValue slot within
    rw [slotText_assign inside within]
    by_cases isKey : slot = slotOf a.key vars
    · rw [if_neg (by omega), if_pos isKey] at put
      rwa [if_pos isKey]
    · rw [if_neg isKey] at put
      rwa [if_neg isKey]
  · rw [length, ← next]
    exact holdsCount
  · intro var member
    rcases mem_assign member with rfl | old
    · exact ⟨a.nonempty, a.plainKey.2, a.keyLength, a.noNul, a.valueLength,
        fits.plain⟩
    · exact represents.valid var old

/-- An assignment that fits is made. -/
theorem Represents.setEnv {env : Environment} {vars : Vars}
    (represents : Represents env vars) {a : Assignment}
    (fits : AssignmentFits a vars)
    (few : (assign a.key a.value vars).length ≤ 5) (stack : Nat → Byte)
    {fuel : Nat} (enough : 100 < fuel) :
    ∃ next, setEnv fuel stack (textBytes (a.key ++ 0x3D :: a.value)) env =
        .ok next ∧
      Represents next (assign a.key a.value vars) := by
  obtain ⟨buf, cut, holdsKey, holdsValue⟩ :=
    cutAssignment_eq a fits.copied stack enough
  have short := fun slot => (represents.text_valid slot).2
  have atMost := represents.few
  have upTo := slotOf_le a.key vars
  have length := assign_length a.key a.value vars
  have large : 49 < fuel := by omega
  have found := represents.findKey_eq a.nonempty a.plainKey.2 holdsKey
    large 5 0 rfl (fun _ => Nat.zero_le _)
  unfold SbuUnix.setEnv
  rw [cut, ok_bind]
  simp only [found, ok_bind]
  by_cases present : slotOf a.key vars < vars.length
  · simp only [if_pos present]
    rw [echoVar_eq, strcpy_slot a.noNul holdsValue large a.valueLength
      (by omega)]
    exact ⟨_, rfl, represents.put_value fits present⟩
  · have last : slotOf a.key vars = vars.length := by omega
    rw [if_neg present] at length
    simp only [if_neg present]
    have low := represents.count
    rw [if_neg (by omega)] at low
    have index := echoCount_eq (by omega) low
    have isIndex : (echoCount env).toNat = slotOf a.key vars := by
      rw [index, BitVec.toNat_ofNat, last]
      omega
    have nextIndex :
        echoCount env + 1 = BitVec.ofNat 32 (vars.length + 1) := by
      rw [index]
      exact (BitVec.ofNat_add vars.length 1).symm
    rw [isIndex, echoVar_eq, echoVarKey,
      strcpy_slot a.plainKey.2 holdsKey large a.keyLength (by omega),
      ok_bind, strcpy_slot a.noNul holdsValue large a.valueLength (by omega),
      ok_bind, nextIndex]
    refine ⟨_, rfl, ?_⟩
    by_cases full : vars.length + 1 = 5
    · rw [if_pos (by rw [full]; rfl)]
      apply represents.put_variable fits last (by omega) (if_pos full).symm
      · intro text shortText texts
        exact texts_setEchoCount
          (texts_setEchoCount texts shortText _) shortText _
      · exact count_setEchoCount _ 0 (by omega)
    · have notFive : BitVec.ofNat 32 (vars.length + 1) ≠ 5 := by
        intro same
        have value : (BitVec.ofNat 32 (vars.length + 1)).toNat = 5 :=
          congrArg BitVec.toNat same
        rw [BitVec.toNat_ofNat] at value
        omega
      rw [if_neg notFive]
      apply represents.put_variable fits last (by omega) (if_neg full).symm
      · intro text shortText texts
        exact texts_setEchoCount texts shortText _
      · exact count_setEchoCount _ _ (by omega)

/-! ## `fork` and `execve` -/

/-- The texts of a new PCB when the slots below `i` are copied. -/
def copiedText (vars : Vars) (i slot : Nat) : List Byte :=
  if slot < i ∨ 5 ≤ slot ∧ slot < 5 + i then slotText vars slot else []

theorem copiedText_succ (vars : Vars) {i slot : Nat} (inside : i < 5) :
    (if slot = i then slotText vars i
      else if slot = 5 + i then slotText vars (5 + i)
      else copiedText vars i slot) = copiedText vars (i + 1) slot := by
  unfold copiedText
  by_cases isKey : slot = i
  · rw [if_pos isKey, if_pos (by omega), isKey]
  · rw [if_neg isKey]
    by_cases isValue : slot = 5 + i
    · rw [if_pos isValue, if_pos (by omega), isValue]
    · rw [if_neg isValue]
      by_cases before : slot < i ∨ 5 ≤ slot ∧ slot < 5 + i
      · rw [if_pos before, if_pos (by omega)]
      · rw [if_neg before, if_neg (by omega)]

/-- The loop copies the slots that are left. -/
theorem Represents.copySlots {env : Environment} {vars : Vars}
    (represents : Represents env vars)
    (fits : (slotText vars 4).length = 49 → slotText vars 5 = [])
    {low : Byte} (lowZero : vars.length = 5 → low = 0)
    {fuel : Nat} (enough : 49 < fuel) :
    ∀ left i child, i + left = 5 →
      (∀ slot < 10,
        HoldsAt child (50 * slot) (copiedText vars i slot ++ [0])) →
      HoldsAt child 500 [low, 0, 0, 0] →
        ∃ next, copySlots fuel env left i child = .ok next ∧
          (∀ slot < 10,
            HoldsAt next (50 * slot) (copiedText vars 5 slot ++ [0])) ∧
          HoldsAt next 500 [low, 0, 0, 0] := by
  have short : ∀ i slot, (copiedText vars i slot).length ≤ 49 := by
    intro i slot
    unfold copiedText
    split
    · exact (represents.text_valid slot).2
    · exact Nat.zero_le _
  intro left
  induction left with
  | zero =>
      intro i child last texts count
      obtain rfl : i = 5 := last
      exact ⟨child, rfl, texts, count⟩
  | succ left inductionHypothesis =>
      intro i child last texts count
      have inside : i < 5 := by omega
      have key := represents.text_valid i
      have value := represents.text_valid (5 + i)
      have textsValue := @texts_putField child (copiedText vars i) texts
        (short i) (5 + i) (slotText vars (5 + i)) value.2
        fun _ => if_neg (by omega)
      have shortValue : ∀ slot, (if slot = 5 + i then slotText vars (5 + i)
          else copiedText vars i slot).length ≤ 49 := by
        intro slot
        split
        · exact value.2
        · exact short i slot
      have textsKey := @texts_putField _ _ textsValue shortValue i
        (slotText vars i) key.2 (by
        intro full
        by_cases fifth : i = 4
        · subst fifth
          rw [if_neg (by decide), copiedText, if_pos (by decide)]
          exact fits full
        · rw [if_neg (by omega), copiedText, if_neg (by omega)])
      have countValue := @count_putField child low count (5 + i)
        (slotText vars (5 + i)) (by omega) value.2 (by
          intro isLast full
          apply lowZero
          have atMost := represents.few
          by_contra fewer
          rw [slotText, if_neg (by omega),
            List.getD_eq_default _ _ (by omega)] at full
          exact absurd full (by decide))
      have countKey := @count_putField _ low countValue i (slotText vars i)
        (by omega) key.2 (by omega)
      unfold SbuUnix.copySlots
      rw [echoVar_eq, echoVarKey,
        strcpy_slot value.1 (represents.texts _ (by omega)) enough value.2
          (by omega), ok_bind,
        strcpy_slot key.1 (represents.texts _ (by omega)) enough key.2
          (by omega), ok_bind]
      apply inductionHypothesis (i + 1) _ (by omega) _ countKey
      intro slot within
      rw [← copiedText_succ vars inside]
      exact textsKey slot within

/-- A new PCB gets the variables, unless a fifth key of 49 characters reaches
the first value. -/
theorem Represents.inherit {env : Environment} {vars : Vars}
    (represents : Represents env vars)
    (fits : (slotText vars 4).length = 49 → slotText vars 5 = [])
    {fuel : Nat} (enough : 49 < fuel) :
    ∃ next, inheritEnvironment fuel env = .ok next ∧
      Represents next vars := by
  have small : (if vars.length = 5 then 0 else vars.length) ≤ 5 := by
    have atMost := represents.few
    split <;> omega
  have empty : ∀ slot < 10, HoldsAt (setEchoCount (fun _ => 0)
      (echoCount env)) (50 * slot) (copiedText vars 0 slot ++ [0]) := by
    intro slot within
    have none : copiedText vars 0 slot = [] := if_neg (by omega)
    rw [none]
    apply @texts_setEchoCount _ (fun _ => []) _ _ _ slot within
    · intro other _ offset below
      obtain rfl : offset = 0 := Nat.lt_one_iff.mp below
      rfl
    · exact fun _ => Nat.zero_le _
  have count := count_setEchoCount (fun _ => 0) _ small
  rw [← echoCount_eq small represents.count] at count
  obtain ⟨next, ran, texts, countNext⟩ := represents.copySlots fits
    (fun five => by rw [if_pos five]; rfl) enough 5 0 _ rfl empty count
  refine ⟨next, ran, represents.few, ?_, countNext, represents.valid⟩
  intro slot within
  have all : copiedText vars 5 slot = slotText vars slot := if_pos (by omega)
  rw [← all]
  exact texts slot within

/-! ## `printEnv` -/

/-- A string without `'\n'` is printed as it stands. -/
theorem printString_text {text : Nat → Byte} :
    ∀ {rest : List Byte} {fuel i : Nat} {t : Terminal},
      (∀ char ∈ rest, char ≠ 0 ∧ char ≠ 0x0A) →
        HoldsAt text i (rest ++ [0]) → rest.length < fuel →
          printString fuel text i t =
            .ok (rest.foldl Terminal.putChar t) := by
  intro rest
  induction rest with
  | nil =>
      intro fuel i t _ holds enough
      obtain ⟨fuel, rfl⟩ := Nat.exists_eq_add_of_lt enough
      have nul : text i = 0 := (holdsAt_cons.mp holds).1
      rw [printString, if_neg (not_not.mpr nul)]
      rfl
  | cons char rest inductionHypothesis =>
      intro fuel i t plain holds enough
      rw [List.length_cons] at enough
      obtain ⟨fuel, rfl⟩ : ∃ less, fuel = less + 1 := ⟨fuel - 1, by omega⟩
      obtain ⟨here, later⟩ := holdsAt_cons.mp holds
      have isPlain := plain char (List.mem_cons_self ..)
      rw [printString, here, if_pos isPlain.1, if_neg isPlain.2]
      exact inductionHypothesis
        (fun other member => plain other (List.mem_cons_of_mem _ member))
        later (by omega)

/-- `kprintf` of a string in memory, without conversions. -/
theorem kprintf_text {string : Nat → Byte} {text : List Byte} {fuel : Nat}
    (plain : ∀ char ∈ text, char ≠ 0 ∧ char ≠ 0x25)
    (holds : HoldsAt string 0 (text ++ [0])) (enough : text.length < fuel)
    (args : Nat → PrintArg) (t : Terminal) :
    kprintf fuel string args t = .ok (text.foldl Terminal.putText t) := by
  obtain ⟨bytes, nul⟩ := holdsAt_append.mp holds
  apply kprintfFrom_text enough plain
  · intro k inside
    rw [bytes k inside]
    exact List.getD_eq_getElem _ _ inside
  · exact (holdsAt_cons.mp nul).1

theorem kprintf_missing {fuel : Nat} (enough : 100 < fuel) (t : Terminal) :
    kprintf fuel (textBytes [0x25, 0x73, 0x0A])
        (fun _ => ⟨0, textBytes missingText⟩) t =
      .ok (missingText.foldl Terminal.putChar t).newline := by
  obtain ⟨fuel, rfl⟩ : ∃ less, fuel = less + 3 := ⟨fuel - 3, by omega⟩
  have length : missingText.length = 35 := rfl
  have printed : printString (fuel + 2) (textBytes missingText) 0 t =
      .ok (missingText.foldl Terminal.putChar t) :=
    printString_text (by decide) (textBytes_holds missingText) (by omega)
  have conversion : printConversion (fuel + 2) 0x73
      (fun _ => ⟨0, textBytes missingText⟩) 0 t =
        .ok (1, missingText.foldl Terminal.putChar t) := by
    unfold printConversion
    rw [if_neg (by decide), if_pos rfl, printed]
    rfl
  have behind : ∀ args t, kprintfFrom (fuel + 2)
      (textBytes [0x25, 0x73, 0x0A]) args 2 1 t =
        .ok t.newline := by
    intro args t
    have isNewline : t.putText 0x0A = t.newline := if_pos rfl
    rw [← isNewline]
    apply @kprintfFrom_text _ args [0x0A] (fuel + 2) 2 1 t
    · exact Nat.lt_add_left fuel (Nat.lt_succ_self 1)
    · decide
    · decide
    · rfl
  rw [kprintf, kprintfFrom, if_pos (by decide), if_neg (by decide)]
  refine (congrArg (· >>= _) conversion).trans ?_
  exact behind (fun _ => ⟨0, textBytes missingText⟩) _

theorem lookup_slotOf (key : List Byte) (vars : Vars) :
    vars.lookup key =
      if slotOf key vars < vars.length then
        some (vars.getD (slotOf key vars) ([], [])).2
      else
        none := by
  induction vars with
  | nil => rfl
  | cons var rest inductionHypothesis =>
      obtain ⟨name, value⟩ := var
      unfold slotOf at inductionHypothesis ⊢
      rw [List.lookup_cons, List.findIdx_cons]
      by_cases here : name = key
      · simp [here]
      · have other : (key == name) = false := beq_eq_false_iff_ne.mpr
          (Ne.symm here)
        simp only [other, here, decide_false, cond_false,
          inductionHypothesis, List.length_cons, Nat.add_lt_add_iff_right,
          List.getD_cons_succ]

/-- What `printEnv` prints for a key: the value and a `'\n'`, or that there is
none. -/
def printed (value : Option (List Byte)) (t : Terminal) : Terminal :=
  match value with
  | some value => (value ++ [0x0A]).foldl Terminal.putText t
  | none => (missingText.foldl Terminal.putChar t).newline

/-- `printEnv` prints the value of each variable, and reports every other key
missing. -/
def ActsAsMap (fuel : Nat) (env : Environment)
    (values : List Byte → Option (List Byte)) : Prop :=
  ∀ key, key ≠ [] → 0 ∉ key → ∀ s, HoldsAt s 0 (key ++ [0]) → ∀ args t,
    printEnv fuel s args env t = .ok (printed (values key) t)

theorem Represents.actsAsMap {env : Environment} {vars : Vars}
    (represents : Represents env vars) {fuel : Nat} (enough : 100 < fuel) :
    ActsAsMap fuel env fun key => vars.lookup key := by
  intro key nonempty noNul s holds args t
  have large : 49 < fuel := by omega
  have found := represents.findKey_eq nonempty noNul holds large 5 0 rfl
    (fun _ => Nat.zero_le _)
  have atMost := represents.few
  unfold printEnv
  simp only [found, ok_bind, lookup_slotOf]
  by_cases present : slotOf key vars < vars.length
  · simp only [if_pos present]
    have inside : slotOf key vars < 5 := by omega
    have isValue : slotText vars (5 + slotOf key vars) =
        (vars.getD (slotOf key vars) ([], [])).2 := by
      rw [slotText, if_neg (by omega), Nat.add_sub_cancel_left]
    have valid : ValidVar (vars.getD (slotOf key vars) ([], [])) := by
      rw [List.getD_eq_getElem _ _ present]
      exact represents.valid _ (List.getElem_mem present)
    have text := represents.texts (5 + slotOf key vars) (by omega)
    rw [isValue] at text
    have plain : ∀ char ∈ (vars.getD (slotOf key vars) ([], [])).2,
        char ≠ 0 ∧ char ≠ 0x25 := by
      intro char member
      constructor
      · rintro rfl
        exact valid.noNulValue member
      · rintro rfl
        exact valid.plain member
    have short := valid.valueLength
    have holdsValue : HoldsAt
        (fun offset => env (echoVar (slotOf key vars) + offset)) 0
        ((vars.getD (slotOf key vars) ([], [])).2 ++ [0]) := by
      intro offset below
      rw [Nat.zero_add, echoVar_eq]
      exact text offset below
    rw [kprintf_text plain holdsValue (by omega), ok_bind,
      kprintf_text (by decide) (textBytes_holds [0x0A])
        (by rw [List.length_singleton]; omega), printed, List.foldl_append]
  · simp only [if_neg present]
    exact kprintf_missing enough t

/-! ## Runs -/

/-- What a call does to the map from keys to values. -/
def EnvCall.values (values : List Byte → Option (List Byte)) :
    EnvCall → List Byte → Option (List Byte)
  | .set a => Function.update values a.key (some a.value)
  | .inherit => values

/-- The last assignment to each key. -/
def lastValues (calls : List EnvCall) : List Byte → Option (List Byte) :=
  calls.foldl EnvCall.values
    (Function.update (fun _ => none) pathKey (some pathValue))

/-- The calls use at most five keys, `PATH` included. -/
def FiveKeys (calls : List EnvCall) : Prop :=
  ∃ keys : List (List Byte), keys.length ≤ 5 ∧ pathKey ∈ keys ∧
    ∀ a, EnvCall.set a ∈ calls → a.key ∈ keys

/-- The condition on a call: no second NUL reaches a text. -/
def EnvCall.Fits : EnvCall → Vars → Prop
  | .set a, vars => AssignmentFits a vars
  | .inherit, vars =>
      (slotText vars 4).length = 49 → slotText vars 5 = []

/-- Every call of a run meets the condition. -/
def RunFits : List EnvCall → Vars → Prop
  | [], _ => True
  | call :: rest, vars => call.Fits vars ∧ RunFits rest (call.vars vars)

theorem lookup_assign (key value other : List Byte) (vars : Vars) :
    (assign key value vars).lookup other =
      if other = key then some value else vars.lookup other := by
  induction vars with
  | nil =>
      unfold assign
      by_cases same : other = key
      · simp [same]
      · have apart : (other == key) = false := beq_eq_false_iff_ne.mpr same
        simp [List.lookup_cons, same, apart]
  | cons var rest inductionHypothesis =>
      obtain ⟨name, old⟩ := var
      unfold assign
      by_cases here : name = key
      · rw [if_pos here]
        by_cases same : other = key
        · simp [same]
        · have apart : (other == key) = false :=
            beq_eq_false_iff_ne.mpr same
          simp [List.lookup_cons, here, same, apart]
      · rw [if_neg here, List.lookup_cons, inductionHypothesis,
          List.lookup_cons]
        by_cases same : other = key
        · have apart : (key == name) = false :=
            beq_eq_false_iff_ne.mpr (Ne.symm here)
          simp [same, apart]
        · simp [same]

theorem lookup_vars (call : EnvCall) (vars : Vars) :
    (fun key => (call.vars vars).lookup key) =
      call.values fun key => vars.lookup key := by
  cases call with
  | set a =>
      funext other
      have updated : Function.update (fun key => vars.lookup key) a.key
          (some a.value) other =
            if other = a.key then some a.value else vars.lookup other :=
        Function.update_apply ..
      exact (lookup_assign a.key a.value other vars).trans updated.symm
  | inherit => rfl

theorem keys_assign (key value : List Byte) (vars : Vars) :
    (assign key value vars).map Prod.fst =
      if key ∈ vars.map Prod.fst then vars.map Prod.fst
      else vars.map Prod.fst ++ [key] := by
  induction vars with
  | nil => rfl
  | cons var rest inductionHypothesis =>
      unfold assign
      by_cases here : var.1 = key
      · simp [here]
      · rw [if_neg here, List.map_cons, inductionHypothesis, List.map_cons]
        have apart : key ≠ var.1 := Ne.symm here
        split_ifs with later all all <;> simp_all

/-- A run of calls that meet the condition. -/
theorem Represents.runAll {fuel : Nat} (enough : 100 < fuel)
    (stack : Nat → Byte) {keys : List (List Byte)} (five : keys.length ≤ 5) :
    ∀ {calls : List EnvCall} {env : Environment} {vars : Vars},
      Represents env vars → (vars.map Prod.fst).Nodup →
        vars.map Prod.fst ⊆ keys →
          (∀ a, EnvCall.set a ∈ calls → a.key ∈ keys) →
            RunFits calls vars →
              ∃ next nextVars,
                runAll (EnvCall.serve fuel stack) calls env =
                  .ok ((), next) ∧
                Represents next nextVars ∧
                (fun key => nextVars.lookup key) =
                  calls.foldl EnvCall.values fun key => vars.lookup key := by
  intro calls
  induction calls with
  | nil =>
      intro env vars represents _ _ _ _
      exact ⟨env, vars, rfl, represents, rfl⟩
  | cons call rest inductionHypothesis =>
      intro env vars represents distinct known member fits
      have nextKeys : ((call.vars vars).map Prod.fst).Nodup ∧
          (call.vars vars).map Prod.fst ⊆ keys := by
        cases call with
        | set a =>
            have isKey := member a (List.mem_cons_self ..)
            unfold EnvCall.vars
            rw [keys_assign]
            split_ifs with old
            · exact ⟨distinct, known⟩
            · refine ⟨List.nodup_append.mpr ⟨distinct, List.nodup_singleton _,
                ?_⟩, List.append_subset.mpr ⟨known, ?_⟩⟩
              · intro first isOld second isNew same
                rw [List.mem_singleton.mp isNew] at same
                exact old (same ▸ isOld)
              · exact List.cons_subset.mpr ⟨isKey, List.nil_subset _⟩
        | inherit => exact ⟨distinct, known⟩
      have few : (call.vars vars).length ≤ 5 := by
        have upTo := (nextKeys.1.subperm nextKeys.2).length_le
        rw [List.length_map] at upTo
        omega
      have served : ∃ between,
          call.serve fuel stack env = .ok ((), between) ∧
            Represents between (call.vars vars) := by
        cases call with
        | set a =>
            obtain ⟨between, made, after⟩ :=
              represents.setEnv fits.1 few stack enough
            refine ⟨between, ?_, after⟩
            simp only [EnvCall.serve, made, ok_bind]
            rfl
        | inherit =>
            obtain ⟨between, copied, after⟩ :=
              @Represents.inherit env vars represents fits.1 fuel (by omega)
            refine ⟨between, ?_, after⟩
            simp only [EnvCall.serve, copied, ok_bind]
            rfl
      obtain ⟨between, first, after⟩ := served
      obtain ⟨next, nextVars, ran, representsNext, values⟩ :=
        inductionHypothesis after nextKeys.1 nextKeys.2
          (fun a later => member a (List.mem_cons_of_mem _ later)) fits.2
      refine ⟨next, nextVars, ?_, representsNext, ?_⟩
      · exact bind_eq_ok_iff.mpr ⟨(), between, first, ran⟩
      · rw [values, lookup_vars]
        rfl

/-- What `create_user_process` writes. -/
theorem represents_createEnvironment {fuel : Nat} (enough : 49 < fuel) :
    ∃ env, createEnvironment fuel = .ok env ∧
      Represents env [(pathKey, pathValue)] := by
  have noNulKey : 0 ∉ pathKey := by decide
  have noNulValue : 0 ∉ pathValue := by decide
  have keyLength : pathKey.length ≤ 49 := by decide
  have valueLength : pathValue.length ≤ 49 := by decide
  have empty : ∀ slot < 10,
      HoldsAt (fun _ => 0) (50 * slot) ((fun _ => []) slot ++ [0]) := by
    intro slot _ offset below
    obtain rfl : offset = 0 := Nat.lt_one_iff.mp below
    rfl
  have textsKey := @texts_putField _ _ empty (fun _ => Nat.zero_le _) 0
    pathKey keyLength (fun _ => rfl)
  have shortKey : ∀ slot : Nat,
      (if slot = 0 then pathKey else []).length ≤ 49 := by
    intro slot
    split
    · exact keyLength
    · exact Nat.zero_le _
  have textsValue := @texts_putField _ _ textsKey shortKey 5 pathValue
    valueLength (fun _ => rfl)
  have shortValue : ∀ slot : Nat, (if slot = 5 then pathValue
      else if slot = 0 then pathKey else []).length ≤ 49 := by
    intro slot
    split
    · exact valueLength
    · exact shortKey slot
  unfold createEnvironment
  rw [echoVarKey, echoVar_eq,
    strcpy_slot noNulKey (textBytes_holds _) enough keyLength (by decide),
    ok_bind,
    strcpy_slot noNulValue (textBytes_holds _) enough valueLength
      (by decide), ok_bind]
  refine ⟨_, rfl, by decide, ?_, count_setEchoCount _ 1 (by decide), ?_⟩
  · intro slot within
    have isText : slotText [(pathKey, pathValue)] slot =
        if slot = 5 then pathValue else if slot = 0 then pathKey else [] := by
      revert slot
      decide
    rw [isText]
    exact texts_setEchoCount textsValue shortValue 1 slot within
  · intro var member
    obtain rfl := List.mem_singleton.mp member
    exact ⟨by decide, noNulKey, keyLength, noNulValue, valueLength, by decide⟩

/-- On the condition the environment of a process, from the one that
`create_user_process` writes, acts as the map of the last assignments. -/
theorem environment_actsAsMap {calls : List EnvCall} (five : FiveKeys calls)
    (fits : RunFits calls [(pathKey, pathValue)]) {fuel : Nat}
    (enough : 100 < fuel) (stack : Nat → Byte) :
    ∃ start next, createEnvironment fuel = .ok start ∧
      runAll (EnvCall.serve fuel stack) calls start = .ok ((), next) ∧
        ActsAsMap fuel next (lastValues calls) := by
  obtain ⟨keys, few, hasPath, member⟩ := five
  obtain ⟨start, created, represents⟩ :=
    @represents_createEnvironment fuel (by omega)
  obtain ⟨next, vars, ran, after, values⟩ := represents.runAll enough stack few
    (List.nodup_singleton _) (List.cons_subset.mpr ⟨hasPath, List.nil_subset _⟩)
    member fits
  refine ⟨start, next, created, ran, ?_⟩
  have initial : (fun key => List.lookup key [(pathKey, pathValue)]) =
      Function.update (fun _ => none) pathKey (some pathValue) := by
    funext key
    by_cases same : key = pathKey
    · rw [same, Function.update_self]
      exact List.lookup_cons_self
    · have apart : (key == pathKey) = false := beq_eq_false_iff_ne.mpr same
      rw [Function.update_of_ne same, List.lookup_cons, apart]
      rfl
  rw [lastValues, ← initial, ← values]
  exact after.actsAsMap enough

/-- `A=b` -/
def assignA : Assignment where
  key := [0x41]
  value := [0x62]
  nonempty := by decide
  plainKey := by decide
  noNul := by decide
  keyLength := by decide
  valueLength := by decide

/-- `PATH=` and 49 characters. -/
def assignLongPath : Assignment where
  key := pathKey
  value := List.replicate 49 0x78
  nonempty := by decide
  plainKey := by decide
  noNul := by decide
  keyLength := by decide
  valueLength := by decide

theorem environment_actsAsMap_one :
    ∃ start next, createEnvironment 101 = .ok start ∧
      runAll (EnvCall.serve 101 fun _ => 0) [.set assignA, .inherit] start =
          .ok ((), next) ∧
        ActsAsMap 101 next (lastValues [.set assignA, .inherit]) := by
  have five : FiveKeys [.set assignA, .inherit] := by
    refine ⟨[pathKey, [0x41]], by decide, by decide, ?_⟩
    intro a member
    rcases List.mem_cons.mp member with same | later
    · cases same
      decide
    · cases List.mem_singleton.mp later
  have fits : RunFits [.set assignA, .inherit] [(pathKey, pathValue)] :=
    ⟨⟨by decide, by decide, by decide, by decide⟩, by
      unfold EnvCall.Fits
      decide, trivial⟩
  exact environment_actsAsMap five fits (by decide) fun _ => 0

/-- The second NUL behind a long value cuts the value of the next slot. -/
theorem not_environment_actsAsMap_long :
    ¬ ∀ (calls : List EnvCall) (fuel : Nat) (stack : Nat → Byte),
      FiveKeys calls → 100 < fuel →
        ∃ start next, createEnvironment fuel = .ok start ∧
          runAll (EnvCall.serve fuel stack) calls start = .ok ((), next) ∧
            ActsAsMap fuel next (lastValues calls) := by
  intro always
  have five : FiveKeys [.set assignA, .set assignLongPath] := by
    refine ⟨[pathKey, [0x41]], by decide, by decide, ?_⟩
    intro a member
    rcases List.mem_cons.mp member with same | later
    · cases same
      decide
    · cases List.mem_singleton.mp later
      decide
  obtain ⟨start, next, created, ran, acts⟩ :=
    always [.set assignA, .set assignLongPath] 101 (fun _ => 0) five
      (by decide)
  have seen := acts [0x41] (by decide) (by decide) (textBytes [0x41])
    (textBytes_holds _) (fun _ => ⟨0, fun _ => 0⟩) { video := fun _ => 0 }
  have value : lastValues [.set assignA, .set assignLongPath] [0x41] =
      some [0x62] := by
    decide
  have wrong : (do
      let start ← createEnvironment 101
      let ((), next) ← runAll (EnvCall.serve 101 fun _ => 0)
        [.set assignA, .set assignLongPath] start
      let t ← printEnv 101 (textBytes [0x41]) (fun _ => ⟨0, fun _ => 0⟩) next
        { video := fun _ => 0 }
      pure (t.video 0) : Except Fault Byte) = .ok 0 := by
    decide +kernel
  rw [created, ok_bind, ran, ok_bind] at wrong
  simp only [seen, ok_bind, value] at wrong
  revert wrong
  decide +kernel

end SbuUnix
