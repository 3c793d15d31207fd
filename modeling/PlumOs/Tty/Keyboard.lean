import PlumOs.Lib.Run
import PlumOs.Lib.Word
import PlumOs.Tty.Stdin

/-!
# The keyboard driver (`sys/kbd.c`, `include/sys/kbd.h`)

`kbdintr` remembers one normal key and one special key.  A press is only remembered; the character
is stored when a key is released.

* `Terminal` : the state of the driver, with a log of what it did to its data;
* `kbdintr`, `Terminal.readStdin` : the functions of the source, without the output to the screen;
* `keyEffect` : what a scancode does to the buffer;
* `kbdintr_spec` : **everything a scancode can do**, stated once.
-/

namespace PlumOs

/-! ### Tables -/

/-- `normalmap`, without the zeros at its end. -/
def normalmap : List ℕ :=
  [ 0,  27,  49,  50,  51,  52,  53,  54,  -- 0x00: NO ESC 1 2 3 4 5 6
   55,  56,  57,  48,  45,  61,   8,   9,  -- 0x08: 7 8 9 0 - = BS TAB
  113, 119, 101, 114, 116, 121, 117, 105,  -- 0x10: q w e r t y u i
  111, 112,  91,  93,  10,   0,  97, 115,  -- 0x18: o p [ ] LF NO a s
  100, 102, 103, 104, 106, 107, 108,  59,  -- 0x20: d f g h j k l ;
   39,  96,   0,  92, 122, 120,  99, 118,  -- 0x28: quote backquote NO backslash z x c v
   98, 110, 109,  44,  46,  47,   0,  42,  -- 0x30: b n m , . / NO *
    0,  32,   0,   0,   0,   0,   0,   0,  -- 0x38: NO SPACE NO NO NO NO NO NO
    0,   0,   0,   0,   0,   0,   0,  55,  -- 0x40: NO NO NO NO NO NO NO 7
   56,  57,  45,  52,  53,  54,  43,  49,  -- 0x48: 8 9 - 4 5 6 + 1
   50,  51,  48,  46,   0,   0,   0,   0]  -- 0x50: 2 3 0 . NO NO NO NO

/-- `shiftmap`, without the zeros at its end. -/
def shiftmap : List ℕ :=
  [ 0,  27,  33,  64,  35,  36,  37,  94,  -- 0x00: NO ESC ! @ # $ % ^
   38,  42,  40,  41,  95,  43,   8,   9,  -- 0x08: & * ( ) _ + BS TAB
   81,  87,  69,  82,  84,  89,  85,  73,  -- 0x10: Q W E R T Y U I
   79,  80, 123, 125,  10,   0,  65,  83,  -- 0x18: O P (curly brackets) LF NO A S
   68,  70,  71,  72,  74,  75,  76,  58,  -- 0x20: D F G H J K L :
   34, 126,   0, 124,  90,  88,  67,  86,  -- 0x28: double quote ~ NO | Z X C V
   66,  78,  77,  60,  62,  63,   0,  42,  -- 0x30: B N M < > ? NO *
    0,  32,   0,   0,   0,   0,   0,   0,  -- 0x38: NO SPACE NO NO NO NO NO NO
    0,   0,   0,   0,   0,   0,   0,  55,  -- 0x40: NO NO NO NO NO NO NO 7
   56,  57,  45,  52,  53,  54,  43,  49,  -- 0x48: 8 9 - 4 5 6 + 1
   50,  51,  48,  46,   0,   0,   0,   0]  -- 0x50: 2 3 0 . NO NO NO NO
  ++ List.replicate (0x9C - 0x58) 0 ++ [10]  -- KP_Enter
  ++ List.replicate (0xB5 - 0x9D) 0 ++ [47]  -- KP_Div

/-- An element of a table with 256 elements; `around` is what the memory holds before and behind
it. -/
def tableAt (table : List ℕ) (around : ℤ → ℕ) (i : ℤ) : ℕ :=
  if 0 ≤ i ∧ i < 256 then table.getD i.toNat 0 else around i

/-! ### State -/

/-- What the driver, and `read_stdin`, do to their data; only for stating results. -/
inductive TtyEvent where
  /-- A lookup in `normalmap`; where the source makes the same lookup twice, it is noted once. -/
  | normalmap (i : ℤ)
  | shiftmap (i : ℤ)
  /-- The character `c` is stored at `stdin_buf[i]`. -/
  | store (i : ℤ) (c : ℕ)
  /-- The last character is taken back. -/
  | erase
  /-- The loop of `read_stdin` stores at the indices below `k`. -/
  | move (k : ℕ)
  /-- These bytes were copied to the user. -/
  | copied (bytes : List ℕ)
  deriving DecidableEq, Repr

instance neZero_scancodes : NeZero 256 := ⟨by decide⟩

/-- The globals of `kbd.c`.  The events are latest first. -/
structure Terminal extends Stdin where
  /-- `stdin_buf_state`. -/
  ready : Bool
  normalKeyPressed : Fin 256
  specialKeyPressed : Fin 256
  events : List TtyEvent

/-- What `kbdintr` asks of the scheduler. -/
inductive KbdCall where
  | none
  /-- `wakeup(&wait_stdin_list, NULL, 0)`, where a task waits. -/
  | wakeup
  /-- Ctrl-C. -/
  | kill
  deriving DecidableEq, Repr

/-- The keyboard after `kbdinit`: the buffer is a page of zeros. -/
def Terminal.kbdinit : Terminal where
  buf := fun _ => 0
  size := 0
  ready := false
  normalKeyPressed := 0
  specialKeyPressed := 0
  events := []

/-! ### Functions of the source -/

def isNormalKeyPressed (data : Fin 256) : Bool := normalmap.getD data 0 != 0

def isNormalKeyReleased (around : ℤ → ℕ) (data : Fin 256) : Bool :=
  tableAt normalmap around ((data.val : ℤ) - 0x80) != 0

def isSpecialKeyReleased (data : Fin 256) : Bool := data = 0x9D || data = 0xAA || data = 0xB8

def isSpecialKeyPressed (data : Fin 256) : Bool := data = 0x1D || data = 0x2A || data = 0x38

/-- The status bit `KBD_DATA_INBF`: there is a scancode to be read. -/
def dataInBuffer (status : Fin 256) : Bool := status.val &&& 0x01 != 0

namespace Terminal

variable (t : Terminal)

def log (e : TtyEvent) : Terminal := { t with events := e :: t.events }

/-- `stdin_buf[stdin_buf_size++] = c`. -/
def store (c : ℕ) : Terminal :=
  { t with
    buf := Function.update t.buf t.size c
    size := wrap32 (t.size + 1)
    events := .store t.size c :: t.events }

/-- A normal key is released, and no special key is held. -/
def handleNormal : Terminal × KbdCall :=
  if t.normalKeyPressed ≠ 0x0e then
    let t := (t.log (.normalmap t.normalKeyPressed)).store (normalmap.getD t.normalKeyPressed 0)
    if t.normalKeyPressed = 0x1c then
      ({ t with ready := true, normalKeyPressed := 0 }, .wakeup)
    else ({ t with normalKeyPressed := 0 }, .none)
  else
    -- backspace
    ({ t with size := wrap32 (t.size - 1), normalKeyPressed := 0 }.log .erase, .none)

/-- The `switch` on the special key, which the source has twice: Shift, Alt and Ctrl. -/
def handleSpecial : Terminal × KbdCall :=
  if t.specialKeyPressed = 0x2A then
    ((t.log (.shiftmap t.normalKeyPressed)).store (shiftmap.getD t.normalKeyPressed 0), .none)
  else if t.specialKeyPressed = 0x38 then (t.log (.normalmap t.normalKeyPressed), .none)
  else if t.specialKeyPressed = 0x1D then
    (t.log (.shiftmap t.normalKeyPressed),
      if t.normalKeyPressed = 0x2e then .kill else .none)
  else (t, .none)

/-- The part of `kbdintr` behind the tests for a key that is pressed. -/
def handleRelease (around : ℤ → ℕ) (data : Fin 256) : Terminal × KbdCall :=
  if isNormalKeyReleased around data ∧ t.specialKeyPressed = 0 then t.handleNormal
  else if isNormalKeyReleased around data ∧ t.specialKeyPressed ≠ 0 then
    let (t, call) := t.handleSpecial
    ({ t with normalKeyPressed := 0, specialKeyPressed := 0 }, call)
  else if isSpecialKeyReleased data then
    if t.normalKeyPressed ≠ 0 then
      let (t, call) := t.handleSpecial
      ({ t with normalKeyPressed := 0, specialKeyPressed := 0 }, call)
    else ({ t with specialKeyPressed := 0 }, .none)
  else (t, .none)

/-- `kbdintr`, with the status and the scancode that the controller gives. -/
def kbdintr (around : ℤ → ℕ) (status data : Fin 256) : Terminal × KbdCall :=
  if !dataInBuffer status then (t, .none)
  else
    let t := t.log (.normalmap data)
    if isNormalKeyPressed data then ({ t with normalKeyPressed := data }, .none)
    else if isSpecialKeyPressed data then ({ t with specialKeyPressed := data }, .none)
    else (t.log (.normalmap (data.val - 0x80))).handleRelease around data

/-- `read_stdin(buf, n)`, where `copied` tells whether `copy_from_kernel` returns 0; with the result
of the call. -/
def readStdin (n : ℤ) (copied : Bool) : Terminal × ℤ :=
  if t.size ≤ n then
    if !copied then (t, -1)
    else
      -- `readsz` is taken from `stdin_buf_size` after that was set to 0
      ({ t with size := 0, ready := false, events := .copied t.content :: t.events }, 0)
  else
    if !copied then (t, -1)
    else
      ({ t with
        buf := (t.shift n).buf
        size := wrap32 (t.size - n)
        events := .move (t.size - n).toNat :: .copied (t.take n) :: t.events }, n)

@[simp] theorem readStdin_false (n : ℤ) : t.readStdin n false = (t, -1) := by
  simp [readStdin]

theorem readStdin_drain {t : Terminal} {n : ℤ} (h : t.size ≤ n) : t.readStdin n true =
    ({ t with size := 0, ready := false, events := .copied t.content :: t.events }, 0) := by
  simp [readStdin, h]

theorem readStdin_part {t : Terminal} {n : ℤ} (h : n < t.size) : t.readStdin n true =
    ({ t with
      buf := (t.shift n).buf
      size := wrap32 (t.size - n)
      events := .move (t.size - n).toNat :: .copied (t.take n) :: t.events }, n) := by
  simp [readStdin, not_le.2 h]

end Terminal

/-- What reaches the terminal: a scancode, or a call of `read_stdin`. -/
inductive TtyAct where
  | key (status data : Fin 256)
  | read (n : ℤ) (copied : Bool)
  deriving DecidableEq, Repr

/-- One step of the terminal; it never stops.  The size given to `read_stdin` is an `int`. -/
def Terminal.step (around : ℤ → ℕ) (t : Terminal) : TtyAct → Except Empty Terminal
  | .key status data => .ok (t.kbdintr around status data).1
  | .read n copied => .ok (t.readStdin (wrap32 n) copied).1

/-! ### What a scancode does -/

/-- What a scancode does to the buffer. -/
inductive KeyEffect where
  | none
  /-- A character is stored; `enter` tells whether it ends a line. -/
  | store (c : ℕ) (enter : Bool)
  | erase
  | kill
  deriving DecidableEq, Repr

namespace KeyEffect

/-- The buffer after the scancode. -/
def stdin (stdin : Stdin) : KeyEffect → Stdin
  | .store c _ => ⟨Function.update stdin.buf stdin.size c, wrap32 (stdin.size + 1)⟩
  | .erase => ⟨stdin.buf, wrap32 (stdin.size - 1)⟩
  | _ => stdin

/-- What is logged about the buffer of the size `size`. -/
def events (size : ℤ) : KeyEffect → List TtyEvent
  | .store c _ => [.store size c]
  | .erase => [.erase]
  | _ => []

def call : KeyEffect → KbdCall
  | .store _ true => .wakeup
  | .kill => .kill
  | _ => .none

/-- The scancode ends a line. -/
def enter : KeyEffect → Bool
  | .store _ enter => enter
  | _ => false

end KeyEffect

namespace Terminal

/-- A key is released while a special key is remembered. -/
def specialEffect (t : Terminal) : KeyEffect :=
  if t.specialKeyPressed = 0x2A then .store (shiftmap.getD t.normalKeyPressed 0) false
  else if t.specialKeyPressed = 0x1D ∧ t.normalKeyPressed = 0x2e then .kill
  else .none

/-- What a scancode does in this state. -/
def keyEffect (around : ℤ → ℕ) (t : Terminal) (status data : Fin 256) : KeyEffect :=
  if dataInBuffer status = false ∨ isNormalKeyPressed data ∨ isSpecialKeyPressed data then .none
  else if isNormalKeyReleased around data then
    if t.specialKeyPressed ≠ 0 then t.specialEffect
    else if t.normalKeyPressed = 0x0e then .erase
    else .store (normalmap.getD t.normalKeyPressed 0) (t.normalKeyPressed = 0x1c)
  else if isSpecialKeyReleased data ∧ t.normalKeyPressed ≠ 0 then t.specialEffect
  else .none

end Terminal

/-- The event is a lookup. -/
def TtyEvent.IsLook : TtyEvent → Prop
  | .normalmap _ => True
  | .shiftmap _ => True
  | _ => False

/-- The index of a lookup or of a store is inside the table or the buffer; `STDIN_BUF_SIZE` is
4096. -/
def TtyEvent.Inside : TtyEvent → Prop
  | .normalmap i => 0 ≤ i ∧ i ≤ 255
  | .shiftmap i => 0 ≤ i ∧ i ≤ 255
  | .store i _ => 0 ≤ i ∧ i < 4096
  | .move k => k ≤ 4096
  | _ => True

/-- If there is a scancode, then it is that of a release, or of a key that the driver knows. -/
def Proper (status data : Fin 256) : Prop :=
  dataInBuffer status → 0x80 ≤ data ∨ isNormalKeyPressed data ∨ isSpecialKeyPressed data

instance (status data : Fin 256) : Decidable (Proper status data) :=
  inferInstanceAs (Decidable (_ → _))

theorem lt_of_not_proper {status data : Fin 256} (h : ¬ Proper status data) : data.val < 0x80 := by
  by_contra hlt
  exact h fun _ => .inl (Fin.le_def.2 (not_lt.1 hlt))

namespace Terminal

variable {around : ℤ → ℕ} {t : Terminal} {status data : Fin 256}

/-- The driver goes from `t` to `u`, with this effect, after lookups inside the tables. -/
structure Does (t u : Terminal) (call : KbdCall) (e : KeyEffect) : Prop where
  stdin : u.toStdin = e.stdin t.toStdin
  ready : u.ready = (t.ready || e.enter)
  call : call = e.call
  events : ∃ looks, (∀ l ∈ looks, l.IsLook ∧ l.Inside) ∧
    u.events = e.events t.size ++ (looks ++ t.events)

theorem inside_normalmap (k : Fin 256) : (TtyEvent.normalmap k.val).Inside := by
  simp only [TtyEvent.Inside]
  omega

theorem inside_shiftmap (k : Fin 256) : (TtyEvent.shiftmap k.val).Inside := by
  simp only [TtyEvent.Inside]
  omega

theorem Does.refl (t : Terminal) : t.Does t .none .none where
  stdin := rfl
  ready := (Bool.or_false _).symm
  call := rfl
  events := ⟨[], by simp, rfl⟩

/-- The keys that are remembered do not matter. -/
theorem Does.press {u : Terminal} {call : KbdCall} {e : KeyEffect} (h : t.Does u call e)
    (normal special : Fin 256) :
    t.Does { u with normalKeyPressed := normal, specialKeyPressed := special } call e :=
  ⟨h.stdin, h.ready, h.call, h.events⟩

theorem handleSpecial_does (t : Terminal) :
    t.Does t.handleSpecial.1 t.handleSpecial.2 t.specialEffect := by
  rw [handleSpecial, specialEffect]
  by_cases hshift : t.specialKeyPressed = 0x2A
  · rw [if_pos hshift, if_pos hshift]
    exact ⟨rfl, (Bool.or_false _).symm, rfl, [.shiftmap t.normalKeyPressed],
      by simpa using ⟨trivial, inside_shiftmap _⟩, rfl⟩
  rw [if_neg hshift, if_neg hshift]
  by_cases halt : t.specialKeyPressed = 0x38
  · have hctrl : t.specialKeyPressed ≠ 0x1D := by rw [halt]; decide
    rw [if_pos halt, if_neg fun h => hctrl h.1]
    exact ⟨rfl, (Bool.or_false _).symm, rfl, [.normalmap t.normalKeyPressed],
      by simpa using ⟨trivial, inside_normalmap _⟩, rfl⟩
  rw [if_neg halt]
  by_cases hctrl : t.specialKeyPressed = 0x1D
  · rw [if_pos hctrl]
    by_cases hc : t.normalKeyPressed = 0x2e
    · rw [if_pos hc, if_pos ⟨hctrl, hc⟩]
      exact ⟨rfl, (Bool.or_false _).symm, rfl, [.shiftmap t.normalKeyPressed],
        by simpa using ⟨trivial, inside_shiftmap _⟩, rfl⟩
    · rw [if_neg hc, if_neg fun h => hc h.2]
      exact ⟨rfl, (Bool.or_false _).symm, rfl, [.shiftmap t.normalKeyPressed],
        by simpa using ⟨trivial, inside_shiftmap _⟩, rfl⟩
  · rw [if_neg hctrl, if_neg fun h => hctrl h.1]
    exact Does.refl t

theorem handleNormal_does (t : Terminal) :
    t.Does t.handleNormal.1 t.handleNormal.2
      (if t.normalKeyPressed = 0x0e then .erase
        else .store (normalmap.getD t.normalKeyPressed 0) (t.normalKeyPressed = 0x1c)) := by
  rw [handleNormal]
  by_cases hback : t.normalKeyPressed = 0x0e
  · rw [if_neg (not_not.2 hback), if_pos hback]
    exact ⟨rfl, (Bool.or_false _).symm, rfl, [], by simp, rfl⟩
  rw [if_pos hback, if_neg hback]
  have hlook : ∀ l ∈ [TtyEvent.normalmap t.normalKeyPressed.val], l.IsLook ∧ l.Inside := by
    simpa using ⟨trivial, inside_normalmap _⟩
  by_cases henter : t.normalKeyPressed = 0x1c
  · simp only [store, log, henter, if_true, decide_true] at hlook ⊢
    exact ⟨rfl, (Bool.or_true _).symm, rfl, _, hlook, rfl⟩
  · simp only [store, log, henter, if_false, decide_false] at hlook ⊢
    exact ⟨rfl, (Bool.or_false _).symm, rfl, _, hlook, rfl⟩

/-- What a scancode may change.  The lookups come first, and are inside the tables if the scancode is
proper. -/
structure KeySpec (around : ℤ → ℕ) (t : Terminal) (status data : Fin 256) : Prop where
  stdin : (t.kbdintr around status data).1.toStdin =
    (t.keyEffect around status data).stdin t.toStdin
  ready : (t.kbdintr around status data).1.ready =
    (t.ready || (t.keyEffect around status data).enter)
  call : (t.kbdintr around status data).2 = (t.keyEffect around status data).call
  events : ∃ looks, (t.kbdintr around status data).1.events =
      (t.keyEffect around status data).events t.size ++ (looks ++ t.events) ∧
    (∀ l ∈ looks, l.IsLook ∧ (Proper status data → l.Inside)) ∧
    (¬ Proper status data → .normalmap ((data.val : ℤ) - 0x80) ∈ looks)

/-- The spec of the part behind the first lookups. -/
theorem Does.keySpec (u : Terminal) (looks : List TtyEvent)
    (h : Does { t with events := looks ++ t.events } u (t.kbdintr around status data).2
      (t.keyEffect around status data))
    (hu : u = (t.kbdintr around status data).1)
    (hlooks : ∀ l ∈ looks, l.IsLook ∧ (Proper status data → l.Inside))
    (hbad : ¬ Proper status data → .normalmap ((data.val : ℤ) - 0x80) ∈ looks) :
    t.KeySpec around status data := by
  subst hu
  obtain ⟨more, hmore, hev⟩ := h.events
  refine ⟨h.stdin, h.ready, h.call, more ++ looks, ?_, ?_, fun hp =>
    List.mem_append_right _ (hbad hp)⟩
  · rw [hev, List.append_assoc]
  · intro l hl
    rcases List.mem_append.1 hl with hl | hl
    · exact (hmore l hl).imp_right fun hin _ => hin
    · exact hlooks l hl

/-- **Everything a scancode can do.** -/
theorem kbdintr_spec (around : ℤ → ℕ) (t : Terminal) (status data : Fin 256) :
    t.KeySpec around status data := by
  by_cases hst : dataInBuffer status = false
  · have heff : t.keyEffect around status data = .none := if_pos (.inl hst)
    have hkey : t.kbdintr around status data = (t, .none) := by simp [kbdintr, hst]
    refine Does.keySpec t [] ?_ ?_ (by simp) (by simp [Proper, hst])
    · rw [heff, hkey]
      exact Does.refl t
    · rw [hkey]
  by_cases hpress : isNormalKeyPressed data ∨ isSpecialKeyPressed data
  · have hproper : Proper status data := fun _ => .inr hpress
    have heff : t.keyEffect around status data = .none := if_pos (.inr hpress)
    obtain ⟨normal, special, hkey⟩ : ∃ normal special, t.kbdintr around status data =
        ({ t with
          normalKeyPressed := normal
          specialKeyPressed := special
          events := .normalmap data :: t.events }, .none) := by
      by_cases hnormal : isNormalKeyPressed data
      · exact ⟨data, t.specialKeyPressed, by simp [kbdintr, hst, hnormal, log]⟩
      · refine ⟨t.normalKeyPressed, data, ?_⟩
        simp [kbdintr, hst, hnormal, hpress.resolve_left hnormal, log]
    refine Does.keySpec _ [.normalmap data] ?_ rfl ?_ (absurd hproper)
    · rw [heff, hkey]
      exact (Does.refl { t with events := .normalmap data :: t.events }).press normal special
    · simpa using ⟨trivial, fun _ => inside_normalmap data⟩
  -- no key that the driver knows was pressed
  obtain ⟨looks, hlooks⟩ : ∃ looks : List TtyEvent,
    looks = [.normalmap (data.val - 0x80), .normalmap data] := ⟨_, rfl⟩
  obtain ⟨u, hu⟩ : ∃ u, u = { t with events := looks ++ t.events } := ⟨_, rfl⟩
  have hkey : t.kbdintr around status data = u.handleRelease around data := by
    simp [kbdintr, hst, not_or.1 hpress, log, hu, hlooks]
  have heff : t.keyEffect around status data =
      if isNormalKeyReleased around data then
        if u.specialKeyPressed ≠ 0 then u.specialEffect
        else if u.normalKeyPressed = 0x0e then .erase
        else .store (normalmap.getD u.normalKeyPressed 0) (u.normalKeyPressed = 0x1c)
      else if isSpecialKeyReleased data ∧ u.normalKeyPressed ≠ 0 then u.specialEffect
      else .none := by
    simp [keyEffect, hst, hpress, hu, specialEffect]
  refine Does.keySpec _ looks ?_ rfl ?_ ?_
  · rw [← hu, hkey, heff, handleRelease]
    by_cases hrel : isNormalKeyReleased around data
    · by_cases hspecial : u.specialKeyPressed = 0
      · simpa [hrel, hspecial] using handleNormal_does u
      · simpa [hrel, hspecial] using (handleSpecial_does u).press 0 0
    · by_cases hspecial : isSpecialKeyReleased data
      · by_cases hnormal : u.normalKeyPressed = 0
        · simpa [hrel, hspecial, hnormal] using (Does.refl u).press u.normalKeyPressed 0
        · simpa [hrel, hspecial, hnormal] using (handleSpecial_does u).press 0 0
      · simpa [hrel, hspecial] using Does.refl u
  · rw [hlooks]
    intro l hl
    rcases List.mem_pair.1 hl with rfl | rfl
    · refine ⟨trivial, fun hproper => ?_⟩
      have := Fin.le_def.1 ((hproper (by simpa using hst)).resolve_right hpress)
      simp only [TtyEvent.Inside]
      omega
    · exact ⟨trivial, fun _ => inside_normalmap data⟩
  · intro _
    rw [hlooks]
    exact List.mem_cons_self

end Terminal

end PlumOs
