import PlumOs.Tty.Keyboard

/-!
# Keys that overlap (`sys/kbd.c`)

A press only replaces the key that `kbdintr` remembers, and every release stores the character of the
key that is remembered and forgets it.  So where a key is pressed while another one is held down, the
first one is lost, and the second release stores the character 0.

* `Stroke`, `Strokes` : presses and releases of normal keys, in any order;
* `rollover_iff` : **every stroke stores its character once, and nothing else is stored, exactly if** no
  key is pressed while another one is held down;
* `rollover_fail` : two keys that overlap.
-/

namespace PlumOs

/-- A key with a character, other than Backspace. -/
structure NormalKey where
  /-- The scancode of the press. -/
  code : Fin 256
  /-- `normalmap` has a character. -/
  mapped : normalmap.getD code 0 ≠ 0
  /-- The key is not Backspace. -/
  notBackspace : code ≠ 0x0e
  deriving DecidableEq

/-- The character of a key. -/
def NormalKey.char (k : NormalKey) : ℕ := normalmap.getD k.code 0

/-- What happens to a key. -/
inductive Stroke where
  | press (k : NormalKey)
  | release (k : NormalKey)
  deriving DecidableEq

namespace Stroke

/-- The scancode of a release is that of the press with the bit 0x80. -/
def scancode : Stroke → Fin 256
  | .press k => k.code
  | .release k => k.code + 0x80

end Stroke

/-- The strokes may come in this order when the keys `held` are down: a key that is pressed is not
held down, one that is released is, and at the end none is. -/
def Strokes : List NormalKey → List Stroke → Prop
  | held, [] => held = []
  | held, .press k :: es => k ∉ held ∧ Strokes (k :: held) es
  | held, .release k :: es => k ∈ held ∧ Strokes (held.erase k) es

instance decidableStrokes : ∀ held es, Decidable (Strokes held es)
  | held, [] => inferInstanceAs (Decidable (held = []))
  | held, .press k :: es =>
    have := decidableStrokes (k :: held) es
    inferInstanceAs (Decidable (k ∉ held ∧ _))
  | held, .release k :: es =>
    have := decidableStrokes (held.erase k) es
    inferInstanceAs (Decidable (k ∈ held ∧ _))

/-- No key is pressed while another one is held down. -/
def OneAtATime : List NormalKey → List Stroke → Prop
  | _, [] => True
  | held, .press k :: es => held = [] ∧ OneAtATime (k :: held) es
  | held, .release k :: es => OneAtATime (held.erase k) es

/-- The characters of the keys that are pressed. -/
def pressedChars : List Stroke → List ℕ
  | [] => []
  | .press k :: es => k.char :: pressedChars es
  | .release _ :: es => pressedChars es

/-- The characters stored so far. -/
def stored : List TtyEvent → List ℕ
  | [] => []
  | .store _ c :: es => stored es ++ [c]
  | _ :: es => stored es

/-- What the strokes store when the key with the code `normal` is remembered. -/
def output : Fin 256 → List Stroke → List ℕ
  | _, [] => []
  | _, .press k :: es => output k.code es
  | normal, .release _ :: es => normalmap.getD normal 0 :: output 0 es

/-! ### The output of the driver -/

theorem NormalKey.pressed (k : NormalKey) : isNormalKeyPressed k.code = true :=
  bne_iff_ne.2 k.mapped

/-- The scancode of a release is not that of a press. -/
theorem release_not_press : ∀ code : Fin 256, normalmap.getD code 0 ≠ 0 →
    isNormalKeyPressed (code + 0x80) = false ∧ isSpecialKeyPressed (code + 0x80) = false ∧
      (code + 0x80).val = code.val + 0x80 := by
  decide +kernel

theorem NormalKey.released (k : NormalKey) (around : ℤ → ℕ) :
    isNormalKeyReleased around (k.code + 0x80) = true := by
  have hval := (release_not_press k.code k.mapped).2.2
  have hindex : (((k.code + 0x80).val : ℕ) : ℤ) - 0x80 = k.code.val := by omega
  rw [isNormalKeyReleased, hindex, tableAt, if_pos ⟨by omega, by omega⟩, Int.toNat_natCast]
  exact bne_iff_ne.2 k.mapped

namespace Terminal

variable {around : ℤ → ℕ} {status : Fin 256}

theorem kbdintr_press (hstatus : dataInBuffer status) (t : Terminal) (k : NormalKey) :
    t.kbdintr around status k.code =
      ({ t.log (.normalmap k.code) with normalKeyPressed := k.code }, .none) := by
  simp [kbdintr, hstatus, k.pressed, log]

/-- A release stores the character of the key that is remembered. -/
theorem kbdintr_release (around : ℤ → ℕ) (hstatus : dataInBuffer status) {t : Terminal}
    (hspecial : t.specialKeyPressed = 0) (hnormal : t.normalKeyPressed ≠ 0x0e) (k : NormalKey) :
    let u := (t.kbdintr around status (k.code + 0x80)).1
    u.normalKeyPressed = 0 ∧ u.specialKeyPressed = 0 ∧
      stored u.events = stored t.events ++ [normalmap.getD t.normalKeyPressed 0] := by
  obtain ⟨hn, hs, -⟩ := release_not_press k.code k.mapped
  by_cases henter : t.normalKeyPressed = 0x1c
  · simp [kbdintr, hstatus, hn, hs, handleRelease, k.released, hspecial, handleNormal, henter, log,
      store, stored]
  · simp [kbdintr, hstatus, hn, hs, handleRelease, k.released, hspecial, handleNormal, hnormal,
      henter, log, store, stored]

/-- The strokes store what `output` says. -/
theorem run_strokes (around : ℤ → ℕ) (hstatus : dataInBuffer status) (es : List Stroke) {t : Terminal}
    (hspecial : t.specialKeyPressed = 0) (hnormal : t.normalKeyPressed ≠ 0x0e) :
    ∃ u, run (step around) t (es.map fun e => .key status e.scancode) = .ok u ∧
      stored u.events = stored t.events ++ output t.normalKeyPressed es := by
  induction es generalizing t with
  | nil => exact ⟨t, rfl, (List.append_nil _).symm⟩
  | cons e es ih =>
    rw [List.map_cons, run_cons_ok rfl]
    cases e with
    | press k =>
      obtain ⟨u, hu, hout⟩ := @ih (t.kbdintr around status k.code).1
        (by rw [kbdintr_press hstatus]; exact hspecial)
        (by rw [kbdintr_press hstatus]; exact k.notBackspace)
      refine ⟨u, hu, ?_⟩
      rw [hout, kbdintr_press hstatus]
      rfl
    | release k =>
      obtain ⟨hn, hs, hst⟩ := kbdintr_release around hstatus hspecial hnormal k
      obtain ⟨u, hu, hout⟩ := @ih (t.kbdintr around status (k.code + 0x80)).1 hs
        (by rw [hn]; decide)
      refine ⟨u, hu, ?_⟩
      rw [hout, hst, hn, List.append_assoc]
      rfl

end Terminal

/-! ### Overlaps -/

theorem zero_notMem_pressedChars (es : List Stroke) : 0 ∉ pressedChars es := by
  induction es with
  | nil => exact List.not_mem_nil
  | cons e es ih =>
    cases e with
    | press k => exact List.not_mem_cons_of_ne_of_not_mem k.mapped.symm ih
    | release k => exact ih

theorem NormalKey.code_ne_zero (k : NormalKey) : k.code ≠ 0 := by
  intro h
  have := k.mapped
  rw [h] at this
  exact this rfl

/-- Every release that stores a character has a press of its own in front of it, so at most the key that
is remembered is held down. -/
theorem held_le_one {es : List Stroke} {held : List NormalKey} {normal : Fin 256}
    (h : Strokes held es) (hout : 0 ∉ output normal es) :
    held.length ≤ if normal = 0 then 0 else 1 := by
  induction es generalizing held normal with
  | nil =>
    obtain rfl : held = [] := h
    exact Nat.zero_le _
  | cons e es ih =>
    cases e with
    | press k =>
      have := ih h.2 hout
      rw [if_neg k.code_ne_zero, List.length_cons] at this
      exact (by omega : held.length ≤ 0).trans (Nat.zero_le _)
    | release k =>
      have hnormal : normal ≠ 0 := by
        rintro rfl
        exact List.ne_of_not_mem_cons hout rfl
      have := ih h.2 (List.not_mem_of_not_mem_cons hout)
      rw [if_pos rfl, List.length_erase_of_mem h.1] at this
      rw [if_neg hnormal]
      omega

theorem oneAtATime_of_output {es : List Stroke} {held : List NormalKey} {normal : Fin 256}
    (h : Strokes held es) (hout : 0 ∉ output normal es) : OneAtATime held es := by
  induction es generalizing held normal with
  | nil => trivial
  | cons e es ih =>
    cases e with
    | press k =>
      have hlen := held_le_one h.2 hout
      rw [if_neg k.code_ne_zero, List.length_cons] at hlen
      exact ⟨List.length_eq_zero_iff.1 (by omega), ih h.2 hout⟩
    | release k => exact ih h.2 (List.not_mem_of_not_mem_cons hout)

/-- Without overlaps every release comes right behind its press. -/
theorem output_of_oneAtATime {es : List Stroke} :
    (∀ normal, Strokes [] es → OneAtATime [] es → output normal es = pressedChars es) ∧
    ∀ k, Strokes [k] es → OneAtATime [k] es → output k.code es = k.char :: pressedChars es := by
  induction es with
  | nil => exact ⟨fun _ _ _ => rfl, fun k h => nomatch h⟩
  | cons e es ih =>
    cases e with
    | press k =>
      refine ⟨fun normal h hone => ih.2 k h.2 hone.2, fun k' _ hone => nomatch hone.1⟩
    | release k =>
      refine ⟨fun normal h => absurd h.1 List.not_mem_nil, fun k' h hone => ?_⟩
      obtain rfl := List.mem_singleton.1 h.1
      have hnil : [k].erase k = [] := List.erase_cons_head k []
      rw [Strokes, hnil] at h
      rw [OneAtATime, hnil] at hone
      rw [output, pressedChars, ih.1 0 h.2 hone]
      rfl

namespace Terminal

/-- **Rollover.**  From a state without a remembered key, every stroke stores its character once and
nothing else is stored exactly if no key is pressed while another one is held down. -/
theorem rollover_iff {around : ℤ → ℕ} {status : Fin 256} (hstatus : dataInBuffer status)
    {t : Terminal} (hspecial : t.specialKeyPressed = 0) (hnormal : t.normalKeyPressed = 0)
    {es : List Stroke} (h : Strokes [] es) :
    ∃ u, run (step around) t (es.map fun e => .key status e.scancode) = .ok u ∧
      ((stored u.events).Perm (stored t.events ++ pressedChars es) ↔ OneAtATime [] es) := by
  obtain ⟨u, hu, hout⟩ := run_strokes around hstatus es hspecial (by
    rw [hnormal]; decide)
  refine ⟨u, hu, ?_⟩
  rw [hout, hnormal, List.perm_append_left_iff]
  constructor
  · intro hperm
    exact oneAtATime_of_output h fun hmem => zero_notMem_pressedChars es (hperm.subset hmem)
  · intro hone
    rw [output_of_oneAtATime.1 0 h hone]

/-- The keys a and b. -/
def keyA : NormalKey := ⟨0x1e, by decide, by decide⟩

def keyB : NormalKey := ⟨0x30, by decide, by decide⟩

/-- The key b is pressed when the key a is up again. -/
def inTurn : List Stroke := [.press keyA, .release keyA, .press keyB, .release keyB]

theorem rollover_iff_inTurn :
    ∃ u, run (step fun _ => 0) kbdinit (inTurn.map fun e => .key 1 e.scancode) = .ok u ∧
      (stored u.events).Perm (stored kbdinit.events ++ pressedChars inTurn) := by
  obtain ⟨u, hu, hiff⟩ := @rollover_iff (fun _ => 0) 1 (by decide) kbdinit rfl rfl inTurn (by decide)
  exact ⟨u, hu, hiff.2 ⟨rfl, rfl, trivial⟩⟩

/-- The key b is pressed before the key a is released. -/
def overlap : List Stroke := [.press keyA, .press keyB, .release keyA, .release keyB]

/-- The characters b and 0 are stored. -/
theorem rollover_fail :
    ¬ ∀ es, Strokes [] es →
      ∃ u, run (step fun _ => 0) kbdinit (es.map fun e => .key 1 e.scancode) = .ok u ∧
        (stored u.events).Perm (pressedChars es) := by
  intro h
  have hrun : reaches (run (step fun _ => 0) kbdinit (overlap.map fun e => .key 1 e.scancode))
      (fun t => stored t.events = [98, 0]) = true := by decide
  obtain ⟨t, ht, hst⟩ := exists_of_reaches hrun
  obtain ⟨u, hu, hperm⟩ := h overlap (by decide)
  obtain rfl := Except.ok.inj (ht.symm.trans hu)
  rw [of_decide_eq_true hst] at hperm
  have hmem : 0 ∈ pressedChars overlap := hperm.subset (by decide)
  exact absurd hmem (by decide)

end Terminal

end PlumOs
