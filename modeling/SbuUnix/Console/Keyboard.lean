import SbuUnix.Console.Screen
import SbuUnix.Library.Outcome

/-!
# Line editing

`sys/kb.c`: the interrupt handler of the keyboard, which collects characters
in `pressed`, and `scanf`, which waits for the Enter key.  The reference looks
at the keys alone; the code agrees with it as long as every press of a
character finds flags that tell which shift keys are down, and no key without
a character is pressed.
-/

namespace SbuUnix

open Outcome

/-! ## The handler -/

def keyboardMap : List Byte :=
  [0x00, 0x1B, 0x31, 0x32, 0x33, 0x34, 0x35, 0x36, 0x37, 0x38,
    0x39, 0x30, 0x2D, 0x3D, 0x08, 0x09, 0x71, 0x77, 0x65, 0x72,
    0x74, 0x79, 0x75, 0x69, 0x6F, 0x70, 0x5B, 0x5D, 0x0A, 0x0D,
    0x61, 0x73, 0x64, 0x66, 0x67, 0x68, 0x6A, 0x6B, 0x6C, 0x3B,
    0x27, 0x60, 0x0F, 0x5C, 0x7A, 0x78, 0x63, 0x76, 0x62, 0x6E,
    0x6D, 0x2C, 0x2E, 0x2F, 0x0F, 0x2A, 0x00, 0x20, 0x00, 0x00,
    0x00, 0x00, 0x00, 0x00, 0x00, 0x00, 0x00, 0x00, 0x00, 0x00,
    0x00, 0x00, 0x00, 0x00, 0x2D, 0x00, 0x00, 0x00, 0x2B, 0x00] ++
  List.replicate 48 0x00

def keyboardUpperMap : List Byte :=
  [0x00, 0x1B, 0x21, 0x40, 0x23, 0x24, 0x25, 0x5E, 0x26, 0x2A,
    0x28, 0x29, 0x5F, 0x3D, 0x08, 0x09, 0x51, 0x57, 0x45, 0x52,
    0x54, 0x59, 0x55, 0x49, 0x4F, 0x50, 0x7B, 0x7D, 0x0A, 0x00,
    0x41, 0x53, 0x44, 0x46, 0x47, 0x48, 0x4A, 0x4B, 0x4C, 0x3A,
    0x22, 0x7E, 0x0F, 0x5C, 0x5A, 0x58, 0x43, 0x56, 0x42, 0x4E,
    0x4D, 0x3C, 0x3E, 0x3F, 0x00, 0x2A]

/-- The globals of `sys/kb.c`; `control` and `shift` are the screen's. -/
structure Keyboard where
  terminal : Terminal
  count : Nat := 0
  inputDone : Bool := false
  pressed : Nat → Byte

namespace Keyboard

/-- `control = 1; …; kprintf_kb(ch); control = 0;` -/
def showControl (k : Keyboard) (ch : Byte) : Keyboard :=
  { k with
    terminal :=
      { kprintfKb ch { k.terminal with control := true } with
        control := false } }

/-- The same with both flags, for the arrows. -/
def showArrow (k : Keyboard) (ch : Byte) : Keyboard :=
  { k with
    terminal :=
      { kprintfKb ch { k.terminal with control := true, shift := true } with
        control := false
        shift := false } }

/-- `pressed[index] = byte` -/
def store (k : Keyboard) (index : Nat) (byte : Byte) : Keyboard :=
  { k with
    pressed := fun other => if other = index then byte else k.pressed other }

end Keyboard

/-- `status = map[scancode]; pressed[count++] = status; kprintf_kb(status);` -/
def typeKey (map : List Byte) (scancode : Byte) :
    StateT Keyboard (Except Fault) Unit := fun k =>
  match map[scancode.toNat]? with
  | some status =>
      if k.count < 200 then
        pure ((), { k.store k.count status with
          count := k.count + 1
          terminal := kprintfKb status k.terminal })
      else
        throw .outOfBounds
  | none => throw .outOfBounds

/-- The chain of tests of `kb_handler`. -/
def dispatchKey (scancode : Byte) : StateT Keyboard (Except Fault) Unit :=
  if scancode = 0x2A ∨ scancode = 0x36 then
    modify fun k => { k with terminal := { k.terminal with shift := true } }
  else if scancode = 0xAA ∨ scancode = 0xB6 then
    modify fun k => { k with terminal := { k.terminal with shift := false } }
  else if scancode = 0x1D then
    modify fun k => { k with terminal := { k.terminal with control := true } }
  else if scancode = 0x9D then
    modify fun k => { k with terminal := { k.terminal with control := false } }
  else if scancode = 0x48 ∨ scancode = 0x4B ∨ scancode = 0x50 ∨
      scancode = 0x4D then
    modify fun k => k.showArrow scancode
  else if scancode = 0x0E then
    modify fun k => { k with count := k.count - 1 }.showControl 0x68
  else if scancode = 0x53 then
    modify fun k => k.showControl 0x3F
  else if 127 < scancode then
    pure ()
  else do
    let k ← get
    if k.terminal.shift ∨ k.terminal.control then
      typeKey keyboardUpperMap scancode
    else
      typeKey keyboardMap scancode

/-- `kb_handler`, with the bytes of the two ports. -/
def kbHandler (status scancode : Byte) :
    StateT Keyboard (Except Fault) Unit :=
  if status &&& 0x01 ≠ 0 then do
    modify fun k =>
      { k with inputDone := if scancode = 0x1C then false else k.inputDone }
    dispatchKey scancode
  else
    pure ()

/-- The interrupt for a scancode. -/
def keyboardInterrupt (scancode : Byte) :
    StateT Keyboard (Except Fault) Unit :=
  kbHandler 0x01 scancode

/-! ## `scanf` -/

/-- `while (input_done == 1);`, while the scancodes arrive. -/
def waitInput : List Byte → StateT Keyboard (Except Fault) Unit
  | [] => fun k => if k.inputDone then throw .outOfFuel else pure ((), k)
  | scancode :: rest => do
      if (← get).inputDone then
        keyboardInterrupt scancode
        waitInput rest

/-- The bytes up to the NUL, from `index` on, of an array of 200. -/
def stringFrom (pressed : Nat → Byte) : Nat → Nat →
    Except Fault (List Byte)
  | 0, _ => throw .outOfBounds
  | room + 1, index =>
      if pressed index = 0 then
        pure []
      else do
        let rest ← stringFrom pressed room (index + 1)
        pure (pressed index :: rest)

/-- The loop of `clear_buffer`. -/
def clearFrom : Nat → Nat → (Nat → Byte) → Except Fault (Nat → Byte)
  | 0, _, _ => throw .outOfBounds
  | room + 1, index, pressed =>
      if pressed index = 0 then
        pure pressed
      else
        clearFrom room (index + 1) fun other =>
          if other = index then 0 else pressed other

/-- `scanf` behind its loop; the value is the string that it copies. -/
def takeLine : StateT Keyboard (Except Fault) (List Byte) := fun k =>
  if k.count = 0 then
    throw .outOfBounds
  else do
    let k := { k.store (k.count - 1) 0 with count := 0 }
    let line ← stringFrom k.pressed 200 0
    let pressed ← clearFrom 200 0 k.pressed
    pure (line, { k with pressed := pressed })

/-- `scanf`, with the scancodes that arrive while it waits. -/
def scanf (arriving : List Byte) :
    StateT Keyboard (Except Fault) (List Byte) := do
  modify fun k => { k with inputDone := true }
  waitInput arriving
  takeLine

/-! ## The reference -/

/-- The shift keys that are down, and the characters of the line. -/
structure Editing where
  left : Bool := false
  right : Bool := false
  pending : List Byte := []

/-- A press of a key that is not one of those the handler looks for. -/
def Typed (scancode : Byte) : Prop :=
  scancode ≤ 127 ∧
    scancode ∉ [0x2A, 0x36, 0x1D, 0x48, 0x4B, 0x50, 0x4D, 0x0E, 0x53]

instance (scancode : Byte) : Decidable (Typed scancode) :=
  inferInstanceAs (Decidable (_ ∧ _))

/-- A press of a key that has a character.  The entry of Control is none. -/
def HasCharacter (scancode : Byte) : Prop :=
  Typed scancode ∧ keyboardMap.getD scancode.toNat 0 ≠ 0

instance (scancode : Byte) : Decidable (HasCharacter scancode) :=
  inferInstanceAs (Decidable (_ ∧ _))

/-- The shifted character, which is the other one for a key that the upper
table does not reach. -/
def shifted (scancode : Byte) : Byte :=
  keyboardUpperMap.getD scancode.toNat (keyboardMap.getD scancode.toNat 0)

def Editing.held (e : Editing) : Bool :=
  e.left || e.right

/-- What a key does to the line. -/
def Editing.key (e : Editing) (scancode : Byte) : Editing :=
  if scancode = 0x2A then { e with left := true }
  else if scancode = 0x36 then { e with right := true }
  else if scancode = 0xAA then { e with left := false }
  else if scancode = 0xB6 then { e with right := false }
  else if scancode = 0x0E then { e with pending := e.pending.dropLast }
  else if HasCharacter scancode then
    { e with
      pending := e.pending ++
        [if e.held then shifted scancode
          else keyboardMap.getD scancode.toNat 0] }
  else e

/-- What a sequence of keys does to the line. -/
def Editing.keys (e : Editing) (scancodes : List Byte) : Editing :=
  scancodes.foldl Editing.key e

/-! ## One key -/

/-- Nothing is pending. -/
structure EmptyBuffer (k : Keyboard) : Prop where
  count : k.count = 0
  nul : k.pressed 0 = 0

/-- The buffer holds the line of the reference. -/
structure Follows (k : Keyboard) (e : Editing) : Prop where
  count : k.count = e.pending.length
  bytes : ∀ i (inside : i < e.pending.length), k.pressed i = e.pending[i]
  present : ∀ char ∈ e.pending, char ≠ 0

/-- The key has a character; the flags reach into the upper table only where
it has an entry, and tell that a shift key is down, or it does not matter. -/
structure PlainPress (scancode : Byte) (k : Keyboard) (e : Editing) : Prop where
  character : HasCharacter scancode
  inside : k.terminal.shift ∨ k.terminal.control →
    scancode.toNat < keyboardUpperMap.length
  flags : (k.terminal.shift ∨ k.terminal.control ↔ e.held) ∨
    shifted scancode = keyboardMap.getD scancode.toNat 0

/-- The condition on a key. -/
def KeyAgrees (scancode : Byte) (k : Keyboard) (e : Editing) : Prop :=
  Typed scancode → PlainPress scancode k e

/-- A key that the handler looks for types nothing. -/
theorem dispatchKey_of_not_typed {scancode : Byte}
    (special : ¬ Typed scancode) (k : Keyboard) :
    ∃ next, dispatchKey scancode k = .ok ((), next) ∧
      next.count = (if scancode = 0x0E then k.count - 1 else k.count) ∧
        next.pressed = k.pressed ∧ next.inputDone = k.inputDone := by
  unfold dispatchKey
  by_cases shiftDown : scancode = 0x2A ∨ scancode = 0x36
  · rw [if_pos shiftDown]
    refine ⟨_, Eq.refl _, ?_, Eq.refl _, Eq.refl _⟩
    rw [if_neg (by rintro rfl; exact absurd shiftDown (by decide))]
  rw [if_neg shiftDown]
  by_cases shiftUp : scancode = 0xAA ∨ scancode = 0xB6
  · rw [if_pos shiftUp]
    refine ⟨_, Eq.refl _, ?_, Eq.refl _, Eq.refl _⟩
    rw [if_neg (by rintro rfl; exact absurd shiftUp (by decide))]
  rw [if_neg shiftUp]
  by_cases controlDown : scancode = 0x1D
  · rw [if_pos controlDown]
    refine ⟨_, Eq.refl _, ?_, Eq.refl _, Eq.refl _⟩
    rw [if_neg (by rintro rfl; exact absurd controlDown (by decide))]
  rw [if_neg controlDown]
  by_cases controlUp : scancode = 0x9D
  · rw [if_pos controlUp]
    refine ⟨_, Eq.refl _, ?_, Eq.refl _, Eq.refl _⟩
    rw [if_neg (by rintro rfl; exact absurd controlUp (by decide))]
  rw [if_neg controlUp]
  by_cases arrow : scancode = 0x48 ∨ scancode = 0x4B ∨ scancode = 0x50 ∨
      scancode = 0x4D
  · rw [if_pos arrow]
    refine ⟨_, Eq.refl _, ?_, Eq.refl _, Eq.refl _⟩
    rw [if_neg (by rintro rfl; exact absurd arrow (by decide))]
    rfl
  rw [if_neg arrow]
  by_cases backspace : scancode = 0x0E
  · rw [if_pos backspace]
    refine ⟨_, Eq.refl _, ?_, Eq.refl _, Eq.refl _⟩
    rw [if_pos backspace]
    rfl
  rw [if_neg backspace, if_neg backspace]
  by_cases delete : scancode = 0x53
  · rw [if_pos delete]
    exact ⟨_, Eq.refl _, Eq.refl _, Eq.refl _, Eq.refl _⟩
  rw [if_neg delete]
  by_cases above : 127 < scancode
  · rw [if_pos above]
    exact ⟨k, rfl, rfl, rfl, rfl⟩
  · refine absurd ⟨BitVec.not_lt.mp above, ?_⟩ special
    simp only [List.mem_cons, List.not_mem_nil, or_false]
    tauto

/-- Every other key goes through one of the tables. -/
theorem dispatchKey_of_typed {scancode : Byte} (typed : Typed scancode)
    (k : Keyboard) :
    dispatchKey scancode k =
      typeKey
        (if k.terminal.shift ∨ k.terminal.control then keyboardUpperMap
          else keyboardMap) scancode k := by
  have apart := typed.2
  simp only [List.mem_cons, List.not_mem_nil, or_false, not_or] at apart
  have small : ¬ (127 : Byte) < scancode := BitVec.not_lt.mpr typed.1
  have noShiftUp : ¬ (scancode = 0xAA ∨ scancode = 0xB6) := by
    rintro (rfl | rfl) <;> exact absurd typed.1 (by decide)
  have noControlUp : scancode ≠ 0x9D := by
    rintro rfl
    exact absurd typed.1 (by decide)
  unfold dispatchKey
  rw [if_neg (by tauto), if_neg noShiftUp, if_neg (by tauto),
    if_neg noControlUp, if_neg (by tauto), if_neg (by tauto),
    if_neg (by tauto), if_neg small]
  by_cases flags : k.terminal.shift ∨ k.terminal.control
  · rw [if_pos flags]
    exact congrFun (if_pos flags) k
  · rw [if_neg flags]
    exact congrFun (if_neg flags) k

/-- The character that a key adds to the line. -/
def Editing.character (e : Editing) (scancode : Byte) : Byte :=
  if e.held then shifted scancode else keyboardMap.getD scancode.toNat 0

theorem Editing.key_of_hasCharacter {e : Editing} {scancode : Byte}
    (character : HasCharacter scancode) :
    (e.key scancode).pending = e.pending ++ [e.character scancode] := by
  have apart := character.1.2
  simp only [List.mem_cons, List.not_mem_nil, or_false, not_or] at apart
  have noShiftUp : scancode ≠ 0xAA ∧ scancode ≠ 0xB6 := by
    constructor <;> rintro rfl <;> exact absurd character.1.1 (by decide)
  unfold Editing.key
  rw [if_neg (by tauto), if_neg (by tauto), if_neg noShiftUp.1,
    if_neg noShiftUp.2, if_neg (by tauto), if_pos character]
  rfl

theorem Editing.key_of_not_typed {e : Editing} {scancode : Byte}
    (special : ¬ Typed scancode) :
    (e.key scancode).pending =
      if scancode = 0x0E then e.pending.dropLast else e.pending := by
  have noCharacter : ¬ HasCharacter scancode := fun has => special has.1
  unfold Editing.key
  by_cases leftDown : scancode = 0x2A
  · rw [if_pos leftDown, leftDown, if_neg (by decide)]
  rw [if_neg leftDown]
  by_cases rightDown : scancode = 0x36
  · rw [if_pos rightDown, rightDown, if_neg (by decide)]
  rw [if_neg rightDown]
  by_cases leftUp : scancode = 0xAA
  · rw [if_pos leftUp, leftUp, if_neg (by decide)]
  rw [if_neg leftUp]
  by_cases rightUp : scancode = 0xB6
  · rw [if_pos rightUp, rightUp, if_neg (by decide)]
  rw [if_neg rightUp]
  by_cases backspace : scancode = 0x0E
  · rw [if_pos backspace, if_pos backspace]
  · rw [if_neg backspace, if_neg backspace, if_neg noCharacter]

theorem keyboardMap_get {scancode : Byte} (typed : Typed scancode) :
    keyboardMap[scancode.toNat]? =
      some (keyboardMap.getD scancode.toNat 0) := by
  have small : scancode.toNat < 128 := by
    have upTo : scancode.toNat ≤ 127 := BitVec.le_def.mp typed.1
    omega
  have inside : scancode.toNat < keyboardMap.length := small
  rw [List.getD_eq_getElem _ _ inside, List.getElem?_eq_getElem inside]

theorem keyboardUpperMap_get {scancode : Byte}
    (inside : scancode.toNat < keyboardUpperMap.length) :
    keyboardUpperMap[scancode.toNat]? = some (shifted scancode) := by
  rw [shifted, List.getD_eq_getElem _ _ inside,
    List.getElem?_eq_getElem inside]

theorem shifted_ne_zero : ∀ scancode : Byte, HasCharacter scancode →
    shifted scancode ≠ 0 := by
  decide +kernel

theorem Editing.character_ne_zero {e : Editing} {scancode : Byte}
    (has : HasCharacter scancode) : e.character scancode ≠ 0 := by
  unfold Editing.character
  split
  · exact shifted_ne_zero scancode has
  · exact has.2

/-- On the condition the table gives the character of the reference. -/
theorem PlainPress.get {scancode : Byte} {k : Keyboard} {e : Editing}
    (plain : PlainPress scancode k e) :
    (if k.terminal.shift ∨ k.terminal.control then keyboardUpperMap
      else keyboardMap)[scancode.toNat]? = some (e.character scancode) := by
  unfold Editing.character
  by_cases flags : k.terminal.shift ∨ k.terminal.control
  · rw [if_pos flags, keyboardUpperMap_get (plain.inside flags)]
    rcases plain.flags with same | same
    · rw [if_pos (same.mp flags)]
    · rw [same, ite_self]
  · rw [if_neg flags, keyboardMap_get plain.character.1]
    rcases plain.flags with same | same
    · rw [if_neg (fun held => flags (same.mpr held))]
    · rw [same, ite_self]

theorem keyboardInterrupt_eq (scancode : Byte) (k : Keyboard) :
    keyboardInterrupt scancode k =
      dispatchKey scancode
        { k with
          inputDone := if scancode = 0x1C then false else k.inputDone } := by
  unfold keyboardInterrupt kbHandler
  rw [if_pos (by decide)]
  rfl

/-- One key, which does to the buffer what it does to the line. -/
theorem Follows.key {scancode : Byte} {k : Keyboard} {e : Editing}
    (follows : Follows k e) (agrees : KeyAgrees scancode k e)
    (room : e.pending.length < 200) :
    ∃ next, keyboardInterrupt scancode k = .ok ((), next) ∧
      Follows next (e.key scancode) ∧
        next.inputDone = if scancode = 0x1C then false else k.inputDone := by
  rw [keyboardInterrupt_eq]
  by_cases typed : Typed scancode
  · have plain := agrees typed
    rw [dispatchKey_of_typed typed, typeKey]
    simp only [plain.get, if_pos (follows.count ▸ room)]
    refine ⟨_, Eq.refl _, ⟨?_, ?_, ?_⟩, rfl⟩
    · rw [Editing.key_of_hasCharacter plain.character, List.length_append,
        List.length_singleton, ← follows.count]
    · rw [Editing.key_of_hasCharacter plain.character]
      intro i inside
      rw [List.length_append, List.length_singleton] at inside
      simp only [Keyboard.store, follows.count]
      by_cases new : i = e.pending.length
      · subst new
        rw [if_pos rfl, List.getElem_concat_length rfl]
      · rw [if_neg new, List.getElem_append_left (by omega)]
        exact follows.bytes i (by omega)
    · rw [Editing.key_of_hasCharacter plain.character]
      intro char member
      rcases List.mem_append.mp member with before | new
      · exact follows.present char before
      · rw [List.mem_singleton.mp new]
        exact Editing.character_ne_zero plain.character
  · obtain ⟨next, ran, count, pressed, inputDone⟩ :=
      dispatchKey_of_not_typed typed
        { k with
          inputDone := if scancode = 0x1C then false else k.inputDone }
    refine ⟨next, ran, ?_, inputDone⟩
    have pending := Editing.key_of_not_typed (e := e) typed
    by_cases backspace : scancode = 0x0E
    · rw [if_pos backspace] at count pending
      constructor
      · rw [pending, List.length_dropLast, count, follows.count]
      · rw [pending]
        intro i inside
        rw [pressed, List.getElem_dropLast]
        rw [List.length_dropLast] at inside
        exact follows.bytes i (by omega)
      · rw [pending]
        exact fun char member =>
          follows.present char (List.dropLast_subset _ member)
    · rw [if_neg backspace] at count pending
      exact ⟨by rw [pending, count, follows.count],
        by rw [pending, pressed]; exact follows.bytes,
        by rw [pending]; exact follows.present⟩

/-- The condition is exact: a key that keeps the buffer the line of the
reference meets it. -/
theorem agrees_of_follows {scancode : Byte} {k next : Keyboard} {e : Editing}
    (follows : Follows k e) (followsNext : Follows next (e.key scancode))
    (handled : keyboardInterrupt scancode k = .ok ((), next)) :
    KeyAgrees scancode k e := by
  intro typed
  rw [keyboardInterrupt_eq, dispatchKey_of_typed typed, typeKey] at handled
  cases entry : (if k.terminal.shift ∨ k.terminal.control
      then keyboardUpperMap else keyboardMap)[scancode.toNat]? with
  | none =>
      simp only [entry] at handled
      cases handled
  | some status =>
      simp only [entry] at handled
      by_cases room : k.count < 200
      · rw [if_pos room] at handled
        cases handled
        have character : HasCharacter scancode := by
          by_contra none
          have same : (e.key scancode).pending = e.pending := by
            have apart := typed.2
            simp only [List.mem_cons, List.not_mem_nil, or_false,
              not_or] at apart
            unfold Editing.key
            rw [if_neg (by tauto), if_neg (by tauto)]
            split_ifs <;> first | rfl | tauto
          have longer := followsNext.count
          rw [same, ← follows.count] at longer
          exact absurd longer (Nat.succ_ne_self _)
        have pending := Editing.key_of_hasCharacter (e := e) character
        have stored := followsNext.bytes e.pending.length
          (by rw [pending, List.length_append]; exact Nat.lt_succ_self _)
        simp only [pending, List.getElem_concat_length] at stored
        have isStatus : status = e.character scancode := by
          rw [← stored]
          exact (if_pos follows.count.symm).symm
        subst isStatus
        by_cases flags : k.terminal.shift ∨ k.terminal.control
        · rw [if_pos flags] at entry
          have inside := (List.getElem?_eq_some_iff.mp entry).1
          rw [keyboardUpperMap_get inside, Option.some.injEq] at entry
          refine ⟨character, fun _ => inside, ?_⟩
          by_cases held : e.held
          · exact Or.inl (iff_of_true flags held)
          · rw [Editing.character, if_neg held] at entry
            exact Or.inr entry
        · rw [if_neg flags, keyboardMap_get typed,
            Option.some.injEq] at entry
          refine ⟨character, fun set => absurd set flags, ?_⟩
          by_cases held : e.held
          · rw [Editing.character, if_pos held] at entry
            exact Or.inr entry.symm
          · exact Or.inl (iff_of_false flags held)
      · rw [if_neg room] at handled
        cases handled

/-! ## A line -/

/-- Every key of a sequence meets the condition when it is handled. -/
def KeysAgree : List Byte → Keyboard → Editing → Prop
  | [], _, _ => True
  | scancode :: rest, k, e =>
      KeyAgrees scancode k e ∧
        ∀ next, keyboardInterrupt scancode k = .ok ((), next) →
          KeysAgree rest next (e.key scancode)

/-- The keys before `scanf` is called and while it waits. -/
structure LineAgrees (before during : List Byte) (k : Keyboard)
    (e : Editing) : Prop where
  early : KeysAgree before k e
  waiting : ∀ between,
    runAll keyboardInterrupt before k = .ok ((), between) →
    KeysAgree during { between with inputDone := true } (e.keys before)

/-- At most 199 characters are pending at any time. -/
def Bounded (scancodes : List Byte) (e : Editing) : Prop :=
  ∀ early, early <+: scancodes → (e.keys early).pending.length ≤ 199

/-- `scanf`, which is called behind some keys, delivers the line of the
reference at the Enter key and leaves nothing for the next line. -/
def DeliversLine (before during : List Byte) (k : Keyboard) (e : Editing) :
    Prop :=
  ∃ next, (runAll keyboardInterrupt before >>= fun _ =>
      scanf (during ++ [0x1C])) k =
        .ok ((e.keys (before ++ during)).pending, next) ∧
    EmptyBuffer next

theorem Bounded.now {scancodes : List Byte} {e : Editing}
    (bounded : Bounded scancodes e) : e.pending.length < 200 :=
  Nat.lt_succ_of_le (bounded [] (List.nil_prefix))

theorem Bounded.tail {scancode : Byte} {rest : List Byte} {e : Editing}
    (bounded : Bounded (scancode :: rest) e) :
    Bounded rest (e.key scancode) := by
  intro early initial
  exact bounded (scancode :: early)
    (List.cons_prefix_cons.mpr ⟨rfl, initial⟩)

theorem Editing.keys_append (e : Editing) (first second : List Byte) :
    e.keys (first ++ second) = (e.keys first).keys second :=
  List.foldl_append

theorem Bounded.right {first second : List Byte} {e : Editing}
    (bounded : Bounded (first ++ second) e) :
    Bounded second (e.keys first) := by
  intro early initial
  rw [← Editing.keys_append]
  exact bounded _ ((List.prefix_append_right_inj first).mpr initial)

theorem Bounded.left {first second : List Byte} {e : Editing}
    (bounded : Bounded (first ++ second) e) : Bounded first e :=
  fun early initial =>
    bounded early (initial.trans (List.prefix_append first second))

theorem Follows.keys :
    ∀ {scancodes : List Byte} {k : Keyboard} {e : Editing},
      Follows k e → KeysAgree scancodes k e → Bounded scancodes e →
        ∃ next, runAll keyboardInterrupt scancodes k = .ok ((), next) ∧
          Follows next (e.keys scancodes) := by
  intro scancodes
  induction scancodes with
  | nil => exact fun follows _ _ => ⟨_, rfl, follows⟩
  | cons scancode rest inductionHypothesis =>
      intro k e follows agree bounded
      obtain ⟨between, handled, followsBetween, -⟩ :=
        follows.key agree.1 bounded.now
      obtain ⟨next, ran, followsNext⟩ := inductionHypothesis followsBetween
        (agree.2 between handled) bounded.tail
      exact ⟨next, bind_eq_ok_iff.mpr ⟨(), between, handled, ran⟩,
        followsNext⟩

/-- The Enter key meets the condition in every state. -/
theorem agrees_enter (k : Keyboard) (e : Editing) : KeyAgrees 0x1C k e :=
  fun _ => ⟨by decide, fun _ => by decide, Or.inr (by decide)⟩

/-- `scanf` waits as long as no Enter key comes. -/
theorem Follows.waitInput :
    ∀ {during : List Byte} {k : Keyboard} {e : Editing},
      Follows k e → k.inputDone = true → 0x1C ∉ during →
        KeysAgree during k e → Bounded during e →
          ∃ next, waitInput (during ++ [0x1C]) k = .ok ((), next) ∧
            Follows next ((e.keys during).key 0x1C) := by
  intro during
  induction during with
  | nil =>
      intro k e follows waiting _ _ bounded
      obtain ⟨next, handled, followsNext, done⟩ :=
        follows.key (agrees_enter k e) bounded.now
      refine ⟨next, ?_, followsNext⟩
      refine bind_eq_ok_iff.mpr ⟨k, k, rfl, ?_⟩
      rw [if_pos waiting]
      refine bind_eq_ok_iff.mpr ⟨(), next, handled, ?_⟩
      rw [if_pos rfl] at done
      unfold SbuUnix.waitInput
      rw [done]
      rfl
  | cons scancode rest inductionHypothesis =>
      intro k e follows waiting noEnter agree bounded
      rw [List.mem_cons, not_or] at noEnter
      obtain ⟨between, handled, followsBetween, done⟩ :=
        follows.key agree.1 bounded.now
      rw [if_neg (Ne.symm noEnter.1)] at done
      obtain ⟨next, waited, followsNext⟩ :=
        inductionHypothesis followsBetween (done.trans waiting) noEnter.2
          (agree.2 between handled) bounded.tail
      refine ⟨next, ?_, followsNext⟩
      refine bind_eq_ok_iff.mpr ⟨k, k, rfl, ?_⟩
      rw [if_pos waiting]
      exact bind_eq_ok_iff.mpr ⟨(), between, handled, waited⟩

/-- A string of the buffer, behind which a NUL stands. -/
theorem stringFrom_eq {pressed : Nat → Byte} :
    ∀ {line : List Byte} {room index : Nat},
      (∀ i (inside : i < line.length), pressed (index + i) = (line)[i]) →
        (∀ char ∈ line, char ≠ 0) → pressed (index + line.length) = 0 →
          line.length < room → stringFrom pressed room index = .ok line := by
  intro line
  induction line with
  | nil =>
      intro room index _ _ nul inside
      obtain ⟨room, rfl⟩ := Nat.exists_eq_add_of_lt inside
      have here : pressed index = 0 := nul
      rw [stringFrom, if_pos here]
      rfl
  | cons char rest inductionHypothesis =>
      intro room index bytes present nul inside
      rw [List.length_cons] at inside
      obtain ⟨room, rfl⟩ : ∃ less, room = less + 1 :=
        ⟨room - 1, by omega⟩
      have first : pressed index = char := bytes 0 (by simp)
      have others : stringFrom pressed room (index + 1) = .ok rest := by
        apply inductionHypothesis
        · intro i within
          rw [Nat.add_assoc, Nat.add_comm 1 i]
          exact bytes (i + 1) (by rw [List.length_cons]; omega)
        · exact fun other member =>
            present other (List.mem_cons_of_mem _ member)
        · rw [Nat.add_assoc, Nat.add_comm 1]
          exact nul
        · omega
      rw [stringFrom, first, if_neg (present char (List.mem_cons_self ..)),
        others]
      rfl

/-- `clear_buffer` stops at the first NUL, and stores nothing else. -/
theorem clearFrom_eq :
    ∀ {room index : Nat} {pressed : Nat → Byte},
      (∃ i < room, pressed (index + i) = 0) →
        ∃ cleared, clearFrom room index pressed = .ok cleared ∧
          cleared index = 0 ∧
            ∀ other, pressed other = 0 → cleared other = 0 := by
  intro room
  induction room with
  | zero => exact fun ⟨_, inside, _⟩ => absurd inside (Nat.not_lt_zero _)
  | succ room inductionHypothesis =>
      intro index pressed found
      obtain ⟨i, inside, nul⟩ := found
      by_cases here : pressed index = 0
      · exact ⟨pressed, by rw [clearFrom, if_pos here]; rfl, here,
          fun _ => id⟩
      · have later : i ≠ 0 := by
          rintro rfl
          exact here nul
        obtain ⟨cleared, ran, -, zeros⟩ := @inductionHypothesis (index + 1)
          (fun other => if other = index then 0 else pressed other)
          ⟨i - 1, by omega, by
            rw [if_neg (by omega),
              show index + 1 + (i - 1) = index + i by omega]
            exact nul⟩
        refine ⟨cleared, by rw [clearFrom, if_neg here, ran],
          zeros index (if_pos rfl), ?_⟩
        intro other zero
        apply zeros
        rw [zero, ite_self]

/-- The end of `scanf` behind an Enter key. -/
theorem Follows.takeLine {k : Keyboard} {e : Editing}
    (follows : Follows k (e.key 0x1C)) (room : e.pending.length < 200) :
    ∃ next, takeLine k = .ok (e.pending, next) ∧ EmptyBuffer next := by
  have pending : (e.key 0x1C).pending =
      e.pending ++ [e.character 0x1C] :=
    Editing.key_of_hasCharacter (by decide)
  have count := follows.count
  rw [pending, List.length_append, List.length_singleton] at count
  have bytes : ∀ i (inside : i < e.pending.length),
      k.pressed i = e.pending[i] := by
    intro i inside
    have stored := follows.bytes i
      (by rw [pending, List.length_append]; omega)
    simp only [pending] at stored
    rw [stored, List.getElem_append_left inside]
  have nul : (k.store (k.count - 1) 0).pressed e.pending.length = 0 :=
    if_pos (by omega)
  have line : stringFrom (k.store (k.count - 1) 0).pressed 200 0 =
      .ok e.pending := by
    apply stringFrom_eq
    · intro i inside
      rw [Nat.zero_add, ← bytes i inside]
      exact if_neg (by omega)
    · intro char member
      apply follows.present
      rw [pending]
      exact List.mem_append_left _ member
    · rw [Nat.zero_add]
      exact nul
    · exact room
  obtain ⟨cleared, ran, empty, -⟩ :=
    @clearFrom_eq 200 0 (k.store (k.count - 1) 0).pressed
      ⟨e.pending.length, room, by rw [Nat.zero_add]; exact nul⟩
  refine ⟨{ k.store (k.count - 1) 0 with count := 0, pressed := cleared },
    ?_, rfl, empty⟩
  unfold SbuUnix.takeLine
  rw [if_neg (by omega)]
  simp only [line, ran]
  rfl

/-- From an empty buffer, keys that meet the condition are edited as the
reference says. -/
theorem deliversLine_of_lineAgrees {before during : List Byte}
    {k : Keyboard} {e : Editing} (empty : EmptyBuffer k)
    (nothing : e.pending = []) (noEnter : 0x1C ∉ before ++ during)
    (bounded : Bounded (before ++ during) e)
    (agrees : LineAgrees before during k e) :
    DeliversLine before during k e := by
  have follows : Follows k e := by
    constructor
    · rw [empty.count, nothing]
      rfl
    · rw [nothing]
      exact nofun
    · rw [nothing]
      exact nofun
  obtain ⟨between, ran, followsBetween⟩ :=
    follows.keys agrees.early bounded.left
  have waiting : Follows { between with inputDone := true } (e.keys before) :=
    ⟨followsBetween.count, followsBetween.bytes, followsBetween.present⟩
  obtain ⟨last, waited, followsLast⟩ := waiting.waitInput rfl
    (fun member => noEnter (List.mem_append_right _ member))
    (agrees.waiting between ran) bounded.right
  rw [← Editing.keys_append] at followsLast
  obtain ⟨next, taken, emptyNext⟩ := followsLast.takeLine
    (Nat.lt_succ_of_le (bounded _ (List.prefix_refl _)))
  refine ⟨next, ?_, emptyNext⟩
  refine bind_eq_ok_iff.mpr ⟨(), between, ran, ?_⟩
  refine bind_eq_ok_iff.mpr ⟨(), _, rfl, ?_⟩
  exact bind_eq_ok_iff.mpr ⟨(), last, waited, taken⟩

/-- The keyboard after the boot, of an empty screen. -/
def bootedKeyboard : Keyboard where
  terminal := { video := fun _ => 0x20 }
  pressed := fun _ => 0

theorem emptyBuffer_bootedKeyboard : EmptyBuffer bootedKeyboard :=
  ⟨rfl, rfl⟩

/-- Every key adds at most one character. -/
theorem Editing.key_length_le (e : Editing) (scancode : Byte) :
    (e.key scancode).pending.length ≤ e.pending.length + 1 := by
  have dropped : e.pending.dropLast.length = e.pending.length - 1 :=
    List.length_dropLast
  by_cases typed : Typed scancode
  · by_cases character : HasCharacter scancode
    · rw [key_of_hasCharacter character, List.length_append,
        List.length_singleton]
    · unfold key
      rw [if_neg character]
      split_ifs <;> grind
  · rw [key_of_not_typed typed]
    split_ifs <;> omega

theorem Editing.keys_length_le (scancodes : List Byte) :
    ∀ e : Editing,
      (e.keys scancodes).pending.length ≤
        e.pending.length + scancodes.length := by
  induction scancodes with
  | nil => exact fun _ => Nat.le_refl _
  | cons scancode rest inductionHypothesis =>
      intro e
      have later := inductionHypothesis (e.key scancode)
      have now := e.key_length_le scancode
      rw [List.length_cons]
      exact Nat.le_trans later (by omega)

theorem bounded_of_short {scancodes : List Byte} {e : Editing}
    (short : e.pending.length + scancodes.length ≤ 199) :
    Bounded scancodes e := by
  intro early initial
  have length := initial.length_le
  have pending := e.keys_length_le early
  omega

/-- The key of the letter A, and the Backspace key behind the call. -/
theorem deliversLine_letter :
    DeliversLine [0x1E] [0x0E] bootedKeyboard {} := by
  apply deliversLine_of_lineAgrees emptyBuffer_bootedKeyboard rfl
    (by decide) (bounded_of_short (by decide))
  constructor
  · refine ⟨fun _ => ⟨by decide, nofun, Or.inl (by decide)⟩, ?_⟩
    exact fun _ _ => trivial
  · intro between _
    exact ⟨fun typed => absurd typed (by decide), fun _ _ => trivial⟩

/-- Space with a shift key: the upper table has no entry for it. -/
theorem not_deliversLine_shiftSpace :
    ¬ ∀ (before during : List Byte) (k : Keyboard) (e : Editing),
      EmptyBuffer k → e.pending = [] → 0x1C ∉ before ++ during →
        Bounded (before ++ during) e → DeliversLine before during k e := by
  intro always
  obtain ⟨next, delivered, -⟩ := always [] [0x2A, 0x39] bootedKeyboard {}
    emptyBuffer_bootedKeyboard rfl (by decide)
    (bounded_of_short (by decide))
  have failed : shown (fun _ _ => ()) ((runAll keyboardInterrupt [] >>=
      fun _ => scanf ([0x2A, 0x39] ++ [0x1C])) bootedKeyboard) = none := by
    decide +kernel
  rw [delivered] at failed
  cases failed

end SbuUnix
