import PlumOs.Tty.Keyboard

/-!
# The bounds and the content of `stdin_buf` (`sys/kbd.c`, `sys/syscall.c`)

* `bounds_iff` : **`stdin_buf` and the two tables are used inside their bounds exactly if** the keys
  are known to the driver, the buffer is neither full nor empty where a character is stored or taken
  back, and no call of `read_stdin` has a negative size that makes the buffer too large;
* `bounds_fail` : Backspace on an empty buffer;
* `bytes_conserved` : **no byte is lost, duplicated or reordered** between the keyboard and the
  users' buffers.
-/

namespace PlumOs

/-- There is room for a character that is stored, and there is one to take back. -/
def KeyEffect.Fits (size : ℤ) : KeyEffect → Prop
  | .store _ _ => size < 4096
  | .erase => 0 < size
  | _ => True

instance (size : ℤ) (e : KeyEffect) : Decidable (e.Fits size) := by
  cases e <;> simp only [KeyEffect.Fits] <;> infer_instance

/-- Where the effect fits, `stdin_buf_size` counts on without overflow. -/
theorem KeyEffect.Fits.size {e : KeyEffect} {stdin : Stdin} (h : e.Fits stdin.size)
    (h₀ : 0 ≤ stdin.size) (h₁ : stdin.size ≤ 4096) :
    0 ≤ (e.stdin stdin).size ∧ (e.stdin stdin).size ≤ 4096 := by
  cases e with
  | store c enter =>
    simp only [Fits] at h
    simp only [KeyEffect.stdin, wrap32]
    omega
  | erase =>
    simp only [Fits] at h
    simp only [KeyEffect.stdin, wrap32]
    omega
  | _ => exact ⟨h₀, h₁⟩

namespace Terminal

variable {around : ℤ → ℕ} {t t' : Terminal}

/-! ### Bounds -/

/-- The size is within its bounds, and so were all indices so far. -/
structure InBounds (t : Terminal) : Prop where
  /-- The size is not negative. -/
  nonneg : 0 ≤ t.size
  /-- The size is not more than the buffer has. -/
  le : t.size ≤ 4096
  /-- No store or lookup was outside its array. -/
  events : ∀ e ∈ t.events, e.Inside

/-- The scancode is known and what it does fits, or the call of `read_stdin` does not make the
buffer too large. -/
def Fits (around : ℤ → ℕ) (t : Terminal) : TtyAct → Prop
  | .key status data => Proper status data ∧ (t.keyEffect around status data).Fits t.size
  | .read n copied => copied → t.size - wrap32 n ≤ 4096

theorem inBounds_kbdinit : kbdinit.InBounds := ⟨le_refl _, by decide, by simp [kbdinit]⟩

theorem InBounds.key {status data : Fin 256} (h : t.InBounds)
    (hfit : t.Fits around (.key status data)) : (t.kbdintr around status data).1.InBounds := by
  obtain ⟨hproper, heff⟩ := hfit
  have hspec := kbdintr_spec around t status data
  have hsize := heff.size h.nonneg h.le
  rw [← hspec.stdin] at hsize
  refine ⟨hsize.1, hsize.2, ?_⟩
  obtain ⟨looks, hev, hlooks, -⟩ := hspec.events
  rw [hev]
  intro e he
  rcases List.mem_append.1 he with he | he
  · cases hk : t.keyEffect around status data with
    | store c enter =>
      rw [hk] at he heff
      rw [List.mem_singleton.1 he]
      exact ⟨h.nonneg, heff⟩
    | erase => rw [hk] at he; rw [List.mem_singleton.1 he]; trivial
    | none => rw [hk] at he; cases he
    | kill => rw [hk] at he; cases he
  rcases List.mem_append.1 he with he | he
  · exact (hlooks e he).2 hproper
  · exact h.events e he

theorem InBounds.not_key {status data : Fin 256} (h : t.InBounds)
    (hfit : ¬ t.Fits around (.key status data)) :
    ¬ (t.kbdintr around status data).1.InBounds := by
  intro h'
  have hspec := kbdintr_spec around t status data
  obtain ⟨looks, hev, -, hbad⟩ := hspec.events
  by_cases hproper : Proper status data
  · have hsize : 0 ≤ ((t.keyEffect around status data).stdin t.toStdin).size ∧
        ((t.keyEffect around status data).stdin t.toStdin).size ≤ 4096 := by
      rw [← hspec.stdin]
      exact ⟨h'.nonneg, h'.le⟩
    have heff : ¬ (t.keyEffect around status data).Fits t.size := fun he => hfit ⟨hproper, he⟩
    have h₀ := h.nonneg
    have h₁ := h.le
    cases hk : t.keyEffect around status data with
    | store c enter =>
      rw [hk] at hsize heff
      simp only [KeyEffect.Fits] at heff
      simp only [KeyEffect.stdin, wrap32] at hsize
      omega
    | erase =>
      rw [hk] at hsize heff
      simp only [KeyEffect.Fits] at heff
      simp only [KeyEffect.stdin, wrap32] at hsize
      omega
    | none => rw [hk] at heff; exact heff trivial
    | kill => rw [hk] at heff; exact heff trivial
  · have hmem := List.mem_append_right ((t.keyEffect around status data).events t.size)
      (List.mem_append_left t.events (hbad hproper))
    rw [← hev] at hmem
    have hin := h'.events _ hmem
    have := lt_of_not_proper hproper
    simp only [TtyEvent.Inside] at hin
    omega

theorem InBounds.read {n : ℤ} {copied : Bool} (h : t.InBounds)
    (hfit : copied → t.size - n ≤ 4096) : (t.readStdin n copied).1.InBounds := by
  have h₀ := h.nonneg
  have h₁ := h.le
  cases copied with
  | false =>
    rw [readStdin_false]
    exact h
  | true =>
    rcases le_or_gt t.size n with hle | hlt
    · rw [readStdin_drain hle]
      exact ⟨le_refl _, Int.ofNat_le.2 (Nat.zero_le _),
        List.forall_mem_cons.2 ⟨trivial, h.events⟩⟩
    · have hn := hfit rfl
      have hwrap : wrap32 (t.size - n) = t.size - n := wrap32_of_mem (by omega) (by omega)
      rw [readStdin_part hlt, hwrap]
      have hmove : (TtyEvent.move (t.size - n).toNat).Inside := by
        simp only [TtyEvent.Inside]
        omega
      refine ⟨?_, ?_, List.forall_mem_cons.2 ⟨hmove, List.forall_mem_cons.2 ⟨trivial, h.events⟩⟩⟩
      · change 0 ≤ t.size - n
        omega
      · change t.size - n ≤ 4096
        omega

/-- A call of `read_stdin` that makes the buffer too large moves too many bytes. -/
theorem not_inBounds_read {n : ℤ} (hsize : 4096 < t.size - n) :
    ¬ (t.readStdin n true).1.InBounds := by
  intro h'
  rw [readStdin_part (by omega)] at h'
  have hin := h'.events _ List.mem_cons_self
  simp only [TtyEvent.Inside] at hin
  omega

/-- **`stdin_buf` and the two tables are used inside their bounds exactly as long as the keys are
known and everything fits.** -/
theorem bounds_iff (around : ℤ → ℕ) (acts : List TtyAct) :
    Always (step around) InBounds kbdinit acts ↔ Along (step around) (Fits around) kbdinit acts := by
  have hall : Along (step around) (fun _ _ => True) kbdinit acts :=
    along_of_forall (fun _ _ => trivial) _ _
  refine always_iff_along inBounds_kbdinit (fun _ => id) ?_ ?_ hall
  · rintro t a t' h - hfit hstep
    cases a with
    | key status data =>
      obtain rfl := Except.ok.inj hstep
      exact h.key hfit
    | read n copied =>
      obtain rfl := Except.ok.inj hstep
      exact h.read hfit
  · rintro t a h - hfit
    cases a with
    | key status data => exact ⟨_, rfl, h.not_key hfit⟩
    | read n copied =>
      simp only [Fits, Classical.not_imp, not_le] at hfit
      obtain ⟨rfl, hsize⟩ := hfit
      exact ⟨_, rfl, not_inBounds_read hsize⟩

/-- Backspace, before anything was typed. -/
theorem bounds_fail :
    ¬ ∀ around acts, Always (step around) InBounds kbdinit acts := by
  intro h
  have hrun : reaches (run (step fun _ => 0) kbdinit [.key 1 0x0e, .key 1 0x8e])
      (fun t => t.size < 0) = true := by decide
  obtain ⟨t, ht, hsize⟩ := exists_of_reaches hrun
  exact absurd ((h _ _).of_run ht).nonneg (not_le.2 (of_decide_eq_true hsize))

end Terminal

/-! ### Content -/

/-- The bytes copied to the users so far. -/
def copied : List TtyEvent → List ℕ
  | [] => []
  | .copied bytes :: es => copied es ++ bytes
  | _ :: es => copied es

/-- The characters stored so far.  To take back a character deletes the last one that was not yet
copied. -/
def typed : List TtyEvent → List ℕ
  | [] => []
  | .store _ c :: es => typed es ++ [c]
  | .erase :: es =>
    if (copied es).length < (typed es).length then (typed es).dropLast else typed es
  | _ :: es => typed es

/-- Lookups neither copy nor store. -/
theorem copied_typed_of_looks {looks : List TtyEvent} (h : ∀ e ∈ looks, e.IsLook)
    (es : List TtyEvent) :
    copied (looks ++ es) = copied es ∧ typed (looks ++ es) = typed es := by
  induction looks with
  | nil => exact ⟨rfl, rfl⟩
  | cons e looks ih =>
    have htail := ih fun e' he' => h e' (List.mem_cons_of_mem _ he')
    have he := h e List.mem_cons_self
    cases e with
    | normalmap i => exact htail
    | shiftmap i => exact htail
    | _ => exact he.elim

namespace Terminal

variable {around : ℤ → ℕ} {t : Terminal}

/-- What was copied, and what is in the buffer, is what was typed; the size is within its bounds. -/
structure Conserved (t : Terminal) : Prop where
  nonneg : 0 ≤ t.size
  le : t.size ≤ 4096
  /-- What was read, and what is in the buffer, is what was typed. -/
  eq : copied t.events ++ t.content = typed t.events

/-- What a key does fits, and a read is one of a positive size. -/
def Orderly (around : ℤ → ℕ) (t : Terminal) : TtyAct → Prop
  | .key status data => (t.keyEffect around status data).Fits t.size
  | .read n _ => 0 < wrap32 n

instance (around : ℤ → ℕ) (t : Terminal) (a : TtyAct) : Decidable (t.Orderly around a) := by
  cases a <;> simp only [Orderly] <;> infer_instance

theorem conserved_kbdinit : kbdinit.Conserved := ⟨le_refl _, by decide, rfl⟩

/-- What a scancode does to the texts. -/
theorem kbdintr_texts (around : ℤ → ℕ) (t : Terminal) (status data : Fin 256) :
    let e := t.keyEffect around status data
    copied (t.kbdintr around status data).1.events = copied t.events ∧
    typed (t.kbdintr around status data).1.events = typed (e.events t.size ++ t.events) := by
  obtain ⟨looks, hev, hlooks, -⟩ := (kbdintr_spec around t status data).events
  obtain ⟨hcopied, htyped⟩ := copied_typed_of_looks (fun e he => (hlooks e he).1) t.events
  rw [hev]
  cases t.keyEffect around status data with
  | store c enter =>
    simp only [KeyEffect.events, List.singleton_append, copied, typed, hcopied, htyped, and_self]
  | erase =>
    simp only [KeyEffect.events, List.singleton_append, copied, typed, hcopied, htyped, and_self]
  | none => exact ⟨hcopied, htyped⟩
  | kill => exact ⟨hcopied, htyped⟩

theorem Conserved.key {status data : Fin 256} (h : t.Conserved)
    (hfit : (t.keyEffect around status data).Fits t.size) :
    (t.kbdintr around status data).1.Conserved := by
  have h₀ := h.nonneg
  have h₁ := h.le
  have hstdin := (kbdintr_spec around t status data).stdin
  have hsize := hfit.size h₀ h₁
  rw [← hstdin] at hsize
  obtain ⟨hcopied, htyped⟩ := kbdintr_texts around t status data
  refine ⟨hsize.1, hsize.2, ?_⟩
  rw [hstdin, hcopied, htyped]
  cases hk : t.keyEffect around status data with
  | store c enter =>
    rw [hk] at hfit
    have hwrap : wrap32 (t.size + 1) = t.size + 1 := by
      simp only [KeyEffect.Fits] at hfit
      exact wrap32_of_mem (by omega) (by omega)
    simp only [KeyEffect.stdin, hwrap, KeyEffect.events, List.singleton_append, typed]
    rw [Stdin.content_push h₀, ← List.append_assoc, h.eq]
  | erase =>
    rw [hk] at hfit
    simp only [KeyEffect.Fits] at hfit
    have hwrap : wrap32 (t.size - 1) = t.size - 1 := wrap32_of_mem (by omega) (by omega)
    have hne : t.content ≠ [] := by
      rw [← List.length_pos_iff, Stdin.content, Stdin.length_take]
      omega
    -- the last character is in the buffer
    have hlt : (copied t.events).length < (typed t.events).length := by
      rw [← h.eq, List.length_append]
      exact Nat.lt_add_of_pos_right (List.length_pos_iff.2 hne)
    simp only [KeyEffect.stdin, hwrap, KeyEffect.events, List.singleton_append, typed, if_pos hlt]
    rw [Stdin.content_pop hfit, ← List.dropLast_append_of_ne_nil hne, h.eq]
  | none => exact h.eq
  | kill => exact h.eq

theorem Conserved.read {n : ℤ} {copied : Bool} (h : t.Conserved) (hn : 0 < n) :
    (t.readStdin n copied).1.Conserved := by
  have h₀ := h.nonneg
  have h₁ := h.le
  cases copied with
  | false =>
    rw [readStdin_false]
    exact h
  | true =>
    rcases le_or_gt t.size n with hle | hlt
    · rw [readStdin_drain hle]
      refine ⟨le_refl _, Int.ofNat_le.2 (Nat.zero_le _), ?_⟩
      have hnil : Stdin.content ⟨t.buf, 0⟩ = [] := Stdin.content_eq_nil (le_refl (0 : ℤ))
      change (PlumOs.copied t.events ++ t.content) ++ Stdin.content ⟨t.buf, 0⟩ = typed t.events
      rw [hnil, List.append_nil]
      exact h.eq
    · have hwrap : wrap32 (t.size - n) = t.size - n := wrap32_of_mem (by omega) (by omega)
      rw [readStdin_part hlt, hwrap]
      refine ⟨?_, ?_, ?_⟩
      · change 0 ≤ t.size - n
        omega
      · change t.size - n ≤ 4096
        omega
      · change (PlumOs.copied t.events ++ t.take n) ++ (t.shift n).content = typed t.events
        rw [List.append_assoc, Stdin.take_append_shift hn hlt.le]
        exact h.eq

/-- **The bytes of the terminal are conserved**: in every state of a run with orderly keys and reads,
what was copied to the users and what is in the buffer is what was typed, in this order. -/
theorem bytes_conserved (around : ℤ → ℕ) (acts : List TtyAct)
    (h : Along (step around) (Orderly around) kbdinit acts) :
    Always (step around) (fun t => copied t.events ++ t.content = typed t.events) kbdinit acts := by
  refine always_of_along conserved_kbdinit (fun _ => Conserved.eq) ?_ h
  intro t a t' hc hfit hstep
  cases a with
  | key status data =>
    obtain rfl := Except.ok.inj hstep
    exact hc.key hfit
  | read n copied =>
    obtain rfl := Except.ok.inj hstep
    exact hc.read hfit

/-- The line `ab` is typed, one character is taken back, and two are read. -/
theorem bytes_conserved_ab :
    Always (step fun _ => 0) (fun t => copied t.events ++ t.content = typed t.events) kbdinit
      [.key 1 0x1e, .key 1 0x9e, .key 1 0x30, .key 1 0xb0, .key 1 0x0e, .key 1 0x8e,
        .key 1 0x1c, .key 1 0x9c, .read 1 true, .read 5 true] :=
  bytes_conserved _ _ (along_of_decide (by decide))

end Terminal

end PlumOs
