import PlumOs.Tty.Buffer

/-!
# Reading lines (`libc/shlib.c`)

`myfgets` reads its line one byte at a time.  `read_stdin` returns 0 for the read that empties the
buffer, so the loop of `myfgets` ends there, whatever the byte is.

* `LineReader` : the terminal, and the process that calls `myfgets` again and again;
* `lines_iff` : **the lines arrive as they were typed exactly if** no byte is read while it is the only
  one in the buffer, unless it ends a line;
* `lines_fail` : the next line is begun before the first one is read.
-/

namespace PlumOs

/-- The complete lines of a text. -/
def completeLines (text : List ℕ) : List (List ℕ) := (text.splitOn 10).dropLast

/-- The text of complete lines. -/
def unlines (lines : List (List ℕ)) : List ℕ := (lines.map (· ++ [10])).flatten

@[simp] theorem unlines_nil : unlines [] = [] := rfl

theorem unlines_append (lines more : List (List ℕ)) :
    unlines (lines ++ more) = unlines lines ++ unlines more := by
  rw [unlines, List.map_append, List.flatten_append]
  rfl

theorem unlines_singleton (line : List ℕ) : unlines [line] = line ++ [10] := List.append_nil _

theorem splitOn_unlines {lines : List (List ℕ)} (h : ∀ l ∈ lines, 10 ∉ l) (rest : List ℕ) :
    (unlines lines ++ rest).splitOn 10 = lines ++ rest.splitOn 10 := by
  induction lines with
  | nil => rfl
  | cons l lines ih =>
    obtain ⟨hl, hlines⟩ := List.forall_mem_cons.1 h
    have htext : unlines (l :: lines) ++ rest = l ++ 10 :: (unlines lines ++ rest) := by
      simp [unlines]
    rw [htext, List.splitOn_append_cons_self_of_not_mem hl, ih hlines, List.cons_append]

/-- Lines in front of a text are among its complete lines. -/
theorem prefix_completeLines {lines : List (List ℕ)} (h : ∀ l ∈ lines, 10 ∉ l) (rest : List ℕ) :
    lines <+: completeLines (unlines lines ++ rest) := by
  rw [completeLines, splitOn_unlines h, List.dropLast_append_of_ne_nil (List.splitOn_ne_nil _ _)]
  exact List.prefix_append _ _

/-- A piece without the end of a line is not longer than the line that it is in. -/
theorem length_lt_of_splitOn {xs : List ℕ} (rest : List ℕ) {n : ℕ}
    (h : ∀ l ∈ (xs ++ rest).splitOn 10, l.length < n) (hxs : 10 ∉ xs) : xs.length < n := by
  by_cases hmem : 10 ∈ rest
  · obtain ⟨front, back, rfl, hfront⟩ := List.eq_append_cons_of_mem hmem
    have hnot : 10 ∉ xs ++ front := by
      rw [List.mem_append]
      exact not_or.2 ⟨hxs, hfront⟩
    rw [← List.append_assoc, List.splitOn_append_cons_self_of_not_mem hnot] at h
    have := h _ List.mem_cons_self
    rw [List.length_append] at this
    omega
  · have hnot : 10 ∉ xs ++ rest := by
      rw [List.mem_append]
      exact not_or.2 ⟨hxs, hmem⟩
    rw [List.splitOn_eq_singleton hnot] at h
    have := h _ (List.mem_singleton.2 rfl)
    rw [List.length_append] at this
    omega

/-! ### The reader -/

/-- The terminal and the one process that reads it: the buffer of its call of `myfgets`, and the
strings that its calls have returned. -/
structure LineReader where
  /-- The terminal. -/
  term : Terminal
  /-- The characters of the line so far. -/
  line : List ℕ
  /-- The strings that were returned. -/
  lines : List (List ℕ)

namespace LineReader

variable {around : ℤ → ℕ} {r : LineReader}

/-- The process after boot. -/
def start : LineReader where
  term := Terminal.kbdinit
  line := []
  lines := []

/-- One turn of the loop of `myfgets`, where `size` is `MAX_CMD_SIZE`, 256.  The copy to its buffer on
the stack succeeds. -/
def myfgets (r : LineReader) : LineReader :=
  let (term, ret) := r.term.readStdin 1 true
  let c := r.term.buf 0
  if 0 < ret ∧ c ≠ 10 ∧ c ≠ 0 ∧ r.line.length < 256 then
    { r with term := term, line := r.line ++ [c] }
  else { term := term, line := [], lines := r.lines ++ [r.line] }

/-- A scancode, or a turn of the process. -/
inductive Act where
  | key (status data : Fin 256)
  | turn
  deriving DecidableEq, Repr

/-- One step; while the buffer is not ready, the process sleeps in `read`. -/
def step (around : ℤ → ℕ) (r : LineReader) : Act → Except Empty LineReader
  | .key status data => .ok { r with term := (r.term.kbdintr around status data).1 }
  | .turn => .ok (if r.term.ready then r.myfgets else r)

/-- Lines of printable characters are typed, shorter than `MAX_CMD_SIZE`, and the buffer has room. -/
def Typing (around : ℤ → ℕ) (r : LineReader) : Act → Prop
  | .key status data =>
    match r.term.keyEffect around status data with
    | .store c _ => r.term.size < 4096 ∧ (c = 10 ∨ 32 ≤ c ∧ c < 127) ∧
      ∀ l ∈ (typed r.term.events ++ [c]).splitOn 10, l.length < 256
    | .none => True
    | _ => False
  | .turn => True

instance (around : ℤ → ℕ) (r : LineReader) (a : Act) : Decidable (r.Typing around a) := by
  cases a with
  | key status data =>
    simp only [Typing]
    cases r.term.keyEffect around status data <;> infer_instance
  | turn => exact .isTrue trivial

/-- A byte that is alone in the buffer is read only if it ends a line. -/
def Spaced (r : LineReader) : Act → Prop
  | .key _ _ => True
  | .turn => r.term.ready → ∀ c, r.term.content = [c] → c = 10

/-- Only the bytes that are in the buffer have to be looked at. -/
theorem spaced_turn_iff :
    (r.term.ready → ∀ c ∈ r.term.content, r.term.content = [c] → c = 10) ↔ r.Spaced .turn :=
  ⟨fun h hready c hc => h hready c (by rw [hc]; exact List.mem_singleton.2 rfl) hc,
    fun h hready c _ hc => h hready c hc⟩

instance (r : LineReader) (a : Act) : Decidable (r.Spaced a) :=
  match a with
  | .key _ _ => .isTrue trivial
  | .turn => decidable_of_iff _ spaced_turn_iff

/-- The strings returned are the first of the lines typed, and what was typed is what was returned,
what is in the buffers of the process and of the terminal. -/
structure InOrder (r : LineReader) : Prop where
  lines : r.lines <+: completeLines (typed r.term.events)
  all : unlines r.lines ++ r.line ++ r.term.content = typed r.term.events

/-- What holds as long as the turns are spaced. -/
structure Sound (r : LineReader) : Prop where
  nonneg : 0 ≤ r.term.size
  le : r.term.size ≤ 4096
  clean : ∀ l ∈ r.lines, 10 ∉ l
  cleanLine : 10 ∉ r.line
  all : unlines r.lines ++ r.line ++ r.term.content = typed r.term.events
  chars : ∀ c ∈ typed r.term.events, c = 10 ∨ 32 ≤ c ∧ c < 127
  short : ∀ l ∈ (typed r.term.events).splitOn 10, l.length < 256
  /-- The buffer is ready only while there is something in it. -/
  ready : r.term.ready → 0 < r.term.size

theorem sound_start : start.Sound where
  nonneg := le_refl _
  le := by decide
  clean := fun _ h => nomatch h
  cleanLine := List.not_mem_nil
  all := rfl
  chars := fun _ h => nomatch h
  short := by
    intro l hl
    rw [List.mem_singleton.1 hl]
    decide
  ready := fun h => nomatch h

theorem Sound.inOrder (h : r.Sound) : r.InOrder where
  lines := by
    rw [← h.all, List.append_assoc]
    exact prefix_completeLines h.clean _
  all := h.all

/-! ### Keys -/

/-- The terminal may change what nobody looks at. -/
theorem Sound.of_quiet {term : Terminal} (h : r.Sound) (hstdin : term.toStdin = r.term.toStdin)
    (hready : term.ready = r.term.ready) (htyped : typed term.events = typed r.term.events) :
    Sound { r with term := term } := by
  have hsize : term.size = r.term.size := congrArg Stdin.size hstdin
  refine ⟨?_, ?_, h.clean, h.cleanLine, ?_, ?_, ?_, ?_⟩
  · exact hsize ▸ h.nonneg
  · exact hsize ▸ h.le
  · simp only [hstdin, htyped]
    exact h.all
  · simp only [htyped]
    exact h.chars
  · simp only [htyped]
    exact h.short
  · simp only [hready, hsize]
    exact h.ready

theorem Sound.key {status data : Fin 256} (h : r.Sound)
    (hty : r.Typing around (.key status data)) :
    Sound { r with term := (r.term.kbdintr around status data).1 } := by
  have h₀ := h.nonneg
  have h₁ := h.le
  have hspec := Terminal.kbdintr_spec around r.term status data
  have htyped := (Terminal.kbdintr_texts around r.term status data).2
  have hstdin := hspec.stdin
  have hready := hspec.ready
  simp only [Typing] at hty
  cases hk : r.term.keyEffect around status data with
  | store c enter =>
    rw [hk] at hty hready hstdin htyped
    obtain ⟨hroom, hchar, hshort⟩ := hty
    have hwrap : wrap32 (r.term.size + 1) = r.term.size + 1 := wrap32_of_mem (by omega) (by omega)
    simp only [KeyEffect.stdin, hwrap] at hstdin
    simp only [KeyEffect.events, List.singleton_append, typed] at htyped
    have hsize : (r.term.kbdintr around status data).1.size = r.term.size + 1 := by rw [hstdin]
    refine ⟨?_, ?_, h.clean, h.cleanLine, ?_, ?_, ?_, ?_⟩
    · simp only [hsize]
      omega
    · simp only [hsize]
      omega
    · simp only [hstdin, htyped]
      rw [Stdin.content_push h₀, ← List.append_assoc, h.all]
    · intro d hd
      rw [htyped] at hd
      rcases List.mem_append.1 hd with hd | hd
      · exact h.chars d hd
      · rw [List.mem_singleton.1 hd]
        exact hchar
    · rw [htyped]
      exact hshort
    · simp only [hsize]
      intro _
      omega
  | none =>
    rw [hk] at hready hstdin htyped
    exact h.of_quiet hstdin (hready.trans (Bool.or_false _)) htyped
  | erase => rw [hk] at hty; exact hty.elim
  | kill => rw [hk] at hty; exact hty.elim

/-! ### Turns of the process -/

theorem myfgets_term (r : LineReader) : r.myfgets.term = (r.term.readStdin 1 true).1 := by
  simp only [myfgets]
  split_ifs <;> rfl

/-- A byte that ends the loop of `myfgets`: the end of a line, or what is alone in the buffer. -/
theorem myfgets_return (hend : r.term.size = 1 ∨ r.term.buf 0 = 10) :
    r.myfgets.lines = r.lines ++ [r.line] ∧ r.myfgets.line = [] := by
  have hcond : ¬ (0 < (r.term.readStdin 1 true).2 ∧ r.term.buf 0 ≠ 10 ∧ r.term.buf 0 ≠ 0 ∧
      r.line.length < 256) := by
    rintro ⟨hret, hne, -⟩
    rcases hend with hone | hten
    · rw [Terminal.readStdin_drain hone.le] at hret
      exact lt_irrefl _ hret
    · exact hne hten
  rw [myfgets]
  simp only [if_neg hcond, and_self]

/-- Any other byte is added to the line. -/
theorem myfgets_more (hsize : 1 < r.term.size) (hten : r.term.buf 0 ≠ 10)
    (hzero : r.term.buf 0 ≠ 0) (hshort : r.line.length < 256) :
    r.myfgets.lines = r.lines ∧ r.myfgets.line = r.line ++ [r.term.buf 0] := by
  have hcond : 0 < (r.term.readStdin 1 true).2 ∧ r.term.buf 0 ≠ 10 ∧ r.term.buf 0 ≠ 0 ∧
      r.line.length < 256 := by
    rw [Terminal.readStdin_part hsize]
    exact ⟨Int.zero_lt_one, hten, hzero, hshort⟩
  rw [myfgets]
  simp only [if_pos hcond, and_self]

/-- The terminal without its first byte. -/
theorem readStdin_one {t : Terminal} (hpos : 0 < t.size) (hle : t.size ≤ 4096) :
    let u := (t.readStdin 1 true).1
    u.size = t.size - 1 ∧ u.content = (t.shift 1).content ∧ typed u.events = typed t.events ∧
      (u.ready → t.ready ∧ 1 < t.size) := by
  rcases le_or_gt t.size 1 with hone | hmore
  · have hsize : t.size = 1 := by omega
    have hnil : (t.shift 1).content = [] := Stdin.content_eq_nil (by
      simp only [Stdin.shift, hsize]
      decide)
    rw [Terminal.readStdin_drain hone, hnil]
    refine ⟨?_, Stdin.content_eq_nil (le_refl (0 : ℤ)), rfl, fun h => absurd h Bool.false_ne_true⟩
    simp only [hsize]
    decide
  · have hwrap : wrap32 (t.size - 1) = t.size - 1 := wrap32_of_mem (by omega) (by omega)
    rw [Terminal.readStdin_part hmore, hwrap]
    exact ⟨rfl, rfl, rfl, fun h => ⟨h, hmore⟩⟩

/-- The state after a turn, if the process has taken over the byte in the right way. -/
theorem Sound.of_turn (h : r.Sound) (hpos : 0 < r.term.size)
    (hclean : ∀ l ∈ r.myfgets.lines, 10 ∉ l) (hline : 10 ∉ r.myfgets.line)
    (hall : unlines r.myfgets.lines ++ r.myfgets.line =
      unlines r.lines ++ r.line ++ [r.term.buf 0]) : Sound r.myfgets := by
  obtain ⟨hsize, hcontent, htyped, hready⟩ := readStdin_one hpos h.le
  rw [← myfgets_term] at hsize hcontent htyped hready
  have hle := h.le
  refine ⟨by omega, by omega, hclean, hline, ?_, ?_, ?_, fun hr => ?_⟩
  · rw [hcontent, htyped, hall, ← h.all, Stdin.content_cons hpos, List.append_assoc,
      List.singleton_append]
  · rw [htyped]
    exact h.chars
  · rw [htyped]
    exact h.short
  · have := (hready hr).2
    omega

theorem Sound.turn (h : r.Sound) (hpos : 0 < r.term.size)
    (hspaced : ∀ c, r.term.content = [c] → c = 10) : Sound r.myfgets := by
  have hcons := Stdin.content_cons hpos
  have hmem : r.term.buf 0 ∈ typed r.term.events := by
    rw [← h.all, hcons]
    exact List.mem_append_right _ List.mem_cons_self
  by_cases hten : r.term.buf 0 = 10
  · obtain ⟨hlines, hline⟩ := myfgets_return (.inr hten)
    refine h.of_turn hpos ?_ ?_ ?_
    · rw [hlines]
      exact List.forall_mem_append.2 ⟨h.clean, List.forall_mem_singleton.2 h.cleanLine⟩
    · rw [hline]
      exact List.not_mem_nil
    · rw [hlines, hline, unlines_append, unlines_singleton, hten, List.append_nil,
        List.append_assoc]
  · have hsize : 1 < r.term.size := by
      by_contra hle
      have hnil : (r.term.shift 1).content = [] := Stdin.content_eq_nil (by
        simp only [Stdin.shift]
        omega)
      rw [hnil] at hcons
      exact hten (hspaced _ hcons)
    have hzero : r.term.buf 0 ≠ 0 := by
      have := h.chars _ hmem
      omega
    have hclean : 10 ∉ r.line ++ [r.term.buf 0] := by
      rw [List.mem_append, List.mem_singleton]
      exact not_or.2 ⟨h.cleanLine, Ne.symm hten⟩
    -- the line goes on in the text that was typed
    have hshort : (r.line ++ [r.term.buf 0]).length < 256 := by
      refine length_lt_of_splitOn (r.term.shift 1).content (fun l hl => ?_) hclean
      refine h.short l ?_
      rw [← h.all, List.append_assoc, splitOn_unlines h.clean, hcons]
      refine List.mem_append_right _ ?_
      rwa [List.append_assoc, List.singleton_append] at hl
    rw [List.length_append] at hshort
    obtain ⟨hlines, hline⟩ := myfgets_more hsize hten hzero (by omega)
    refine h.of_turn hpos ?_ ?_ ?_
    · rw [hlines]
      exact h.clean
    · rw [hline]
      exact hclean
    · rw [hlines, hline, List.append_assoc]

/-- A character that is read while it is alone in the buffer is lost. -/
theorem Sound.not_turn {c : ℕ} (h : r.Sound) (hcontent : r.term.content = [c]) (hc : c ≠ 10) :
    ¬ InOrder r.myfgets := by
  intro hin
  have hlen := congrArg List.length hcontent
  rw [Stdin.content, Stdin.length_take, List.length_singleton] at hlen
  have hone : r.term.size = 1 := by omega
  obtain ⟨hsize, -, htyped, -⟩ := readStdin_one (t := r.term) (by omega) h.le
  rw [← myfgets_term] at hsize htyped
  obtain ⟨hlines, hline⟩ := myfgets_return (.inl hone)
  have hnil : r.myfgets.term.content = [] := Stdin.content_eq_nil (by omega)
  have hall := hin.all
  rw [hlines, hline, htyped, ← h.all, hcontent, hnil, unlines_append, unlines_singleton,
    List.append_nil, List.append_nil, ← List.append_assoc] at hall
  have := List.append_cancel_left hall
  exact hc (List.singleton_inj.1 this).symm

/-! ### Runs -/

/-- **The lines arrive as they were typed exactly as long as no byte is read while it is the only one in
the buffer, unless it ends a line.** -/
theorem lines_iff (around : ℤ → ℕ) {acts : List Act}
    (h : Along (step around) (Typing around) start acts) :
    Always (step around) InOrder start acts ↔ Along (step around) Spaced start acts := by
  refine always_iff_along sound_start (fun _ => Sound.inOrder) ?_ ?_ h
  · intro r a r' hr hty hspaced hstep
    cases a with
    | key status data =>
      obtain rfl := Except.ok.inj hstep
      exact hr.key hty
    | turn =>
      obtain rfl := Except.ok.inj hstep
      by_cases hready : r.term.ready
      · rw [if_pos hready]
        exact hr.turn (hr.ready hready) (hspaced hready)
      · rw [if_neg hready]
        exact hr
  · intro r a hr _ hspaced
    cases a with
    | key status data => exact absurd trivial hspaced
    | turn =>
      simp only [Spaced, Classical.not_imp, not_forall] at hspaced
      obtain ⟨hready, c, hcontent, hc⟩ := hspaced
      refine ⟨_, rfl, ?_⟩
      rw [if_pos hready]
      exact hr.not_turn hcontent hc

/-- The line `a` is typed, and the process reads it. -/
def oneLine : List Act :=
  [.key 1 0x1e, .key 1 0x9e, .key 1 0x1c, .key 1 0x9c, .turn, .turn]

theorem lines_iff_oneLine : Always (step fun _ => 0) InOrder start oneLine :=
  (lines_iff _ (along_of_decide (by decide +kernel))).2 (along_of_decide (by decide +kernel))

/-- The line `a` and the beginning of the next one are typed before the process reads. -/
def typeAhead : List Act :=
  [.key 1 0x1e, .key 1 0x9e, .key 1 0x1c, .key 1 0x9c, .key 1 0x30, .key 1 0xb0,
    .turn, .turn, .turn]

/-- The second call returns the empty string, and the b is lost. -/
theorem lines_fail :
    ¬ ∀ around acts, Along (step around) (Typing around) start acts →
      Always (step around) InOrder start acts := by
  intro h
  have hty : Along (step fun _ => 0) (Typing fun _ => 0) start typeAhead :=
    along_of_decide (by decide +kernel)
  have hrun : reaches (run (step fun _ => 0) start typeAhead) (fun r =>
      unlines r.lines ++ r.line ++ r.term.content ≠ typed r.term.events) = true := by
    decide +kernel
  obtain ⟨r, hr, hne⟩ := exists_of_reaches hrun
  exact of_decide_eq_true hne ((h _ _ hty).of_run hr).all

end LineReader

end PlumOs
