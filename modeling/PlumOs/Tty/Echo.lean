import PlumOs.Tty.Buffer
import PlumOs.Tty.Display

/-!
# What is typed is what is shown (`sys/kbd.c`, `sys/printf.c`)

`kbdintr` writes each character that it stores in `stdin_buf` to the screen, among the output of the
processes.  A character that is taken back is wiped out, and Ctrl-L leaves the row of the cursor only.

* `textAfter` : the text after a call, and `Recorded`, the display with the text so far;
* `Written.erase`, `Written.clear` : wiping out a character, and clearing the screen;
* `keyCalls_cases` : what a scancode does to the buffer and what it writes belong together;
* `Recorded.screen_shows_text` : **the screen shows the tail of the layout of the text** in every run;
* `Recorded.typed_is_shown` : **what is in the buffer is what is behind the prompt**.
-/

namespace PlumOs

/-! ### The text -/

/-- The row that the text ends in. -/
def lastRow (text : List ℕ) : List ℕ := (layout text).getLastD []

/-- The text after a call. -/
def textAfter (stdinBufSize : ℤ) (text : List ℕ) : ScreenCall → List ℕ
  | .print c =>
    if c = 8 ∨ c = 13 then text
    else if c = 14 then if stdinBufSize > 0 then text.dropLast else text
    else text ++ [c]
  | .put _ _ _ _ => text
  | .clear => lastRow text

/-- The call is no tab, wipes nothing out at the start of a row, and puts characters to the last row of the
screen only. -/
def Legible (stdinBufSize : ℤ) (text : List ℕ) : ScreenCall → Prop
  | .print c => c ≠ 9 ∧ (c = 14 → stdinBufSize > 0 → lastRow text ≠ [])
  | .put _ col row _ => row = 24 ∧ 0 ≤ col ∧ col < 80
  | .clear => True

instance (stdinBufSize : ℤ) (text : List ℕ) : DecidablePred (Legible stdinBufSize text)
  | .print c =>
    inferInstanceAs (Decidable (c ≠ 9 ∧ (c = 14 → stdinBufSize > 0 → lastRow text ≠ [])))
  | .put _ col row _ => inferInstanceAs (Decidable (row = 24 ∧ 0 ≤ col ∧ col < 80))
  | .clear => inferInstanceAs (Decidable True)

/-- The text after some calls. -/
def textAfterAll (stdinBufSize : ℤ) (text : List ℕ) (calls : List ScreenCall) : List ℕ :=
  calls.foldl (textAfter stdinBufSize) text

/-- All the calls are legible. -/
def AllLegible (stdinBufSize : ℤ) : List ℕ → List ScreenCall → Prop
  | _, [] => True
  | text, c :: calls =>
    Legible stdinBufSize text c ∧ AllLegible stdinBufSize (textAfter stdinBufSize text c) calls

instance decidableAllLegible (stdinBufSize : ℤ) :
    ∀ (text : List ℕ) (calls : List ScreenCall), Decidable (AllLegible stdinBufSize text calls)
  | _, [] => inferInstanceAs (Decidable True)
  | text, c :: calls =>
    have := decidableAllLegible stdinBufSize (textAfter stdinBufSize text c) calls
    inferInstanceAs (Decidable (Legible stdinBufSize text c ∧ _))

/-- The display, with the text that was written so far. -/
structure Recorded where
  display : Display
  text : List ℕ

namespace Recorded

/-- One step. -/
def step (around : ℤ → ℕ) (r : Recorded) (a : DisplayAct) : Except Empty Recorded := do
  let display ← r.display.step around a
  return ⟨display, textAfterAll r.display.term.size r.text (r.display.screenCalls around a)⟩

/-- The calls of a step are legible. -/
def Legible (around : ℤ → ℕ) (r : Recorded) (a : DisplayAct) : Prop :=
  AllLegible r.display.term.size r.text (r.display.screenCalls around a)

instance (around : ℤ → ℕ) (r : Recorded) (a : DisplayAct) : Decidable (r.Legible around a) :=
  inferInstanceAs (Decidable (AllLegible _ _ _))

/-- At boot nothing was written. -/
def boot (buffer : ℤ → ℕ) : Recorded := ⟨Display.boot buffer, []⟩

end Recorded

/-! ### The last row -/

theorem Splits.lastRow {text : List ℕ} {done : List (List ℕ)} {cur : List ℕ}
    (h : Splits (layout text) done cur) : lastRow text = cur := by
  rw [PlumOs.lastRow, h.eq, List.getLastD_concat]

theorem splits_layout (text : List ℕ) : ∃ done, Splits (layout text) done (lastRow text) := by
  obtain ⟨done, cur, hsplit, -⟩ := layout_char text
  exact ⟨done, hsplit.lastRow.symm ▸ hsplit⟩

/-- The last row after another character. -/
theorem lastRow_char (text : List ℕ) {c : ℕ} (hc : c ≠ 10) :
    lastRow (text ++ [c]) = if (lastRow text).length + 1 = 80 then [] else lastRow text ++ [c] := by
  obtain ⟨done, cur, hsplit, hchar⟩ := layout_char text
  rw [hsplit.lastRow, lastRow, hchar c hc]
  split_ifs
  · have hnew : done ++ [cur ++ [c], []] = (done ++ [cur ++ [c]]) ++ [[]] := by simp
    rw [hnew, List.getLastD_concat]
  · rw [List.getLastD_concat]

theorem lastRow_newline (text : List ℕ) : lastRow (text ++ [10]) = [] := by
  rw [lastRow, layout_newline, List.getLastD_concat]

/-- There is no newline in the last row. -/
theorem newline_notMem_lastRow (text : List ℕ) : 10 ∉ lastRow text := by
  induction text using List.reverseRecOn with
  | nil =>
    rw [lastRow, layout_nil]
    exact List.not_mem_nil
  | append_singleton text c ih =>
    obtain rfl | hc := eq_or_ne c 10
    · rw [lastRow_newline]
      exact List.not_mem_nil
    · rw [lastRow_char text hc]
      split_ifs
      · exact List.not_mem_nil
      · simpa using ⟨ih, hc.symm⟩

/-- **The last row is laid out as a row of its own.** -/
theorem layout_lastRow (text : List ℕ) : layout (lastRow text) = [lastRow text] := by
  obtain ⟨done, hsplit⟩ := splits_layout text
  have hshort := hsplit.short
  have hline : (lastRow text).splitOn 10 = [lastRow text] :=
    List.splitOn_eq_singleton (by simpa using newline_notMem_lastRow text)
  have hzero : (lastRow text).length / 80 = 0 := by omega
  rw [layout, hline, List.flatMap_singleton, wrapLine_eq, hzero]
  rfl

namespace Screen

variable {s : Screen} {text : List ℕ} {i j : ℕ} {size : ℤ} {done rows : List (List ℕ)} {cur : List ℕ}

/-! ### What a call does to the text -/

theorem length_tail_le (rows : List (List ℕ)) : (tail rows).length ≤ 24 := by
  rw [tail, List.length_drop]
  show rows.length - (rows.length - 24) ≤ 24
  omega

/-- What is below the text does not matter. -/
theorem Written.congr {s' : Screen} (h : Written s text) (hrow : s'.row = s.row) (hcol : s'.col = s.col)
    (hshown : ∀ i < 24, ∀ j < 80, s'.shown i j = s.shown i j) : Written s' text := by
  obtain ⟨⟨htop, htext, hblank⟩, hcursor⟩ := h
  have hlt : ∀ {i row}, (tail (layout text))[i]? = some row → i < 24 := fun hi =>
    (List.getElem?_eq_some_iff.1 hi).1.trans_le (length_tail_le _)
  refine ⟨⟨?_, fun i row hi j c hj => ?_, fun i row hi hscroll j hj hj' => ?_⟩,
    fun done cur hsplit => hcol.trans (hcursor done cur hsplit)⟩
  · rw [hrow]
    exact htop
  · have hwidth := length_le_of_mem_layout (List.mem_of_mem_drop (List.mem_of_getElem? hi))
    have hj' := (List.getElem?_eq_some_iff.1 hj).1
    rw [hshown i (hlt hi) j (by omega)]
    exact htext i row hi j c hj
  · rw [hshown i (hlt hi) j hj']
    exact hblank i row hi hscroll j hj hj'

/-- The last character of a row is wiped out. -/
theorem Shows.unput {c : ℕ} (h : Shows s (done ++ [cur ++ [c]])) (hwidth : ∀ row ∈ done, row.length ≤ 80)
    (hcol : s.col = cur.length + 1) (hshort : cur.length + 1 < 80) :
    Shows { s.put s.row (s.col - 1) 32 with col := s.col - 1 } (done ++ [cur]) := by
  obtain ⟨hrow, htext, hblank⟩ := h
  have hlen : (done ++ [cur]).length = (done ++ [cur ++ [c]]).length := by
    rw [List.length_append, List.length_append]
    rfl
  rw [tail_snoc] at hrow htext hblank
  obtain ⟨d, hd⟩ : ∃ d, d = done.drop (done.length + 1 - 24) := ⟨_, rfl⟩
  rw [← hd] at hrow htext hblank
  have hrow' : s.row = d.length := by
    rw [List.length_append, List.length_singleton] at hrow
    omega
  have hcol' : s.col - 1 = cur.length := by omega
  have hother : ∀ i row, d[i]? = some row → i ≠ d.length ∧ row.length ≤ 80 := fun i row hi => by
    have hmem : row ∈ done := List.mem_of_mem_drop (hd ▸ List.mem_of_getElem? hi)
    exact ⟨(List.getElem?_eq_some_iff.1 hi).1.ne, hwidth row hmem⟩
  refine ⟨?_, ?_, ?_⟩ <;> rw [tail_snoc, ← hd]
  · show s.row + 1 = _
    rw [hrow', List.length_append]
    rfl
  · intro i row hi j ch hj
    rw [shown_moveTo, hrow', hcol']
    have hj' := (List.getElem?_eq_some_iff.1 hj).1
    obtain hi | ⟨rfl, rfl⟩ := getElem?_snoc_iff.1 hi
    · obtain ⟨hne, hle⟩ := hother i row hi
      rw [shown_put_of_ne (by omega) (by omega) (.inl hne)]
      exact htext i row (getElem?_snoc_iff.2 (.inl hi)) j ch hj
    · rw [shown_put_of_ne (by omega) (by omega) (.inr hj'.ne)]
      exact htext _ _ List.getElem?_concat_length j ch (getElem?_snoc_iff.2 (.inl hj))
  · intro i row hi hscroll j hj hj'
    rw [hlen] at hscroll
    rw [shown_moveTo, hrow', hcol']
    obtain hi | ⟨rfl, rfl⟩ := getElem?_snoc_iff.1 hi
    · rw [shown_put_of_ne (by omega) hj' (.inl (hother i row hi).1)]
      exact hblank i row (getElem?_snoc_iff.2 (.inl hi)) hscroll j hj hj'
    · obtain rfl | hne := eq_or_ne j cur.length
      · exact shown_put s _ _ _
      · have hlonger : (cur ++ [c]).length ≤ j := by
          rw [List.length_append, List.length_singleton]
          omega
        rw [shown_put_of_ne (by omega) hj' (.inr hne)]
        exact hblank _ _ List.getElem?_concat_length hscroll j hlonger hj'

/-- **The last character is wiped out.** -/
theorem Written.erase (h : Written s text) (hlast : lastRow text ≠ []) :
    Written { s.put s.row (s.col - 1) 32 with col := s.col - 1 } text.dropLast := by
  obtain rfl | ⟨t, c, rfl⟩ := List.eq_nil_or_concat' text
  · exact absurd (by rw [lastRow, layout_nil]; rfl) hlast
  have hc : c ≠ 10 := by
    rintro rfl
    exact hlast (lastRow_newline t)
  obtain ⟨done, cur, hsplit, hchar⟩ := layout_char t
  have hrow := lastRow_char t hc
  rw [hsplit.lastRow] at hrow
  have hroom : ¬cur.length + 1 = 80 := fun hfull => hlast (by rw [hrow, if_pos hfull])
  have hlayout : layout (t ++ [c]) = done ++ [cur ++ [c]] := by rw [hchar c hc, if_neg hroom]
  have hshort := hsplit.short
  have hlen : (cur ++ [c]).length = cur.length + 1 := List.length_append
  have hcol : s.col = cur.length + 1 := by
    rw [h.col done (cur ++ [c]) ⟨hlayout, by omega⟩, hlen]
    rfl
  have hwidth : ∀ row ∈ done, row.length ≤ 80 := fun row hrow => by
    have hmem : row ∈ layout t := hsplit.eq ▸ List.mem_append_left _ hrow
    exact length_le_of_mem_layout hmem
  have hshows : Shows s (done ++ [cur ++ [c]]) := hlayout ▸ h.shows
  rw [List.dropLast_concat]
  refine ⟨hsplit.eq.symm ▸ hshows.unput hwidth hcol (by omega), fun done' cur' hsplit' => ?_⟩
  obtain ⟨-, rfl⟩ := hsplit.unique hsplit'
  show s.col - 1 = cur.length
  omega

/-- Some scrolls move the rows up. -/
theorem shown_scolls (s : Screen) (n : ℕ) (hi : i < 24) (hj : j < 80) :
    (scollScreenUp^[n] s).shown i j = if i + n < 24 then s.shown (i + n) j else 32 := by
  induction n generalizing i with
  | zero => rw [Nat.add_zero, if_pos hi, Function.iterate_zero_apply]
  | succ n ih =>
    rw [Function.iterate_succ_apply', shown_scollScreenUp hi hj]
    by_cases hlast : i < 23
    · have hstep : i + 1 + n = i + (n + 1) := by omega
      rw [if_pos hlast, ih (by omega), hstep]
    · rw [if_neg hlast, if_neg (by omega)]

/-- **Ctrl-L** leaves the row of the cursor. -/
theorem Written.clear (h : Written s text) : Written s.clearScreen (lastRow text) := by
  obtain ⟨done, hsplit⟩ := splits_layout text
  have hshort := hsplit.short
  obtain ⟨htop, htext, -⟩ := h.shows
  have hle := length_tail_le (layout text)
  -- the row of the cursor is the last one of the tail
  obtain ⟨r, hr⟩ : ∃ r : ℕ, s.row = r ∧ (tail (layout text))[r]? = some (lastRow text) := by
    rw [hsplit.eq, tail_snoc] at htop ⊢
    rw [List.length_append, List.length_singleton] at htop
    refine ⟨(done.drop (done.length + 1 - 24)).length, ?_, List.getElem?_concat_length⟩
    omega
  obtain ⟨hrow, hat⟩ := hr
  have hrlt := (List.getElem?_eq_some_iff.1 hat).1
  have hdrawn : Drawn s (scollScreenUp^[r] s) :=
    Function.Iterate.rec (Drawn s) (Drawn.refl s) (fun s₁ hs₁ => hs₁.trans (drawn_scollScreenUp s₁)) _
  rw [clearScreen, hrow, Int.toNat_natCast]
  refine ⟨?_, fun done' cur' hsplit' => ?_⟩
  · rw [layout_lastRow]
    refine ⟨rfl, fun i row hi j c hj => ?_, fun i row hi hscroll => ?_⟩
    · obtain ⟨rfl, rfl⟩ : i = 0 ∧ lastRow text = row := by
        have hi' : ([] ++ [lastRow text])[i]? = some row := hi
        simpa using getElem?_snoc_iff.1 hi'
      have hj' := (List.getElem?_eq_some_iff.1 hj).1
      rw [shown_moveTo, shown_scolls s r (by decide) (by omega), if_pos (by omega), Nat.zero_add]
      exact htext r _ hat j c hj
    · have hlt : i < 1 := (List.getElem?_eq_some_iff.1 hi).1
      have hscroll : 24 ≤ 1 - 24 + i := hscroll
      omega
  · rw [layout_lastRow] at hsplit'
    obtain ⟨-, rfl⟩ := hsplit'.unique ⟨(List.nil_append _).symm, hshort⟩
    exact hdrawn.col.trans (h.col done _ hsplit)

/-- A call in the last row of the screen. -/
theorem Written.putToScreen (h : Written s text) (c : ℕ) {col : ℤ} (hcol : 0 ≤ col ∧ col < 80) (color : ℕ) :
    Written (s.putToScreen c col 24 color) text := by
  obtain ⟨k, rfl⟩ := Int.eq_ofNat_of_zero_le hcol.1
  refine h.congr rfl rfl fun i hi j hj => ?_
  exact (shown_putToScreen s c k 24 color (by omega) hj).trans (if_neg (by omega))

/-- **A call** writes what it adds to the text. -/
theorem Written.call (h : Written s text) {c : ScreenCall} (hleg : Legible size text c) :
    Written (s.call size c) (textAfter size text c) := by
  cases c with
  | print c =>
    obtain ⟨h9, hlast⟩ := hleg
    rw [textAfter]
    split_ifs with hignored h14 hsize
    · have hsame : s.printToScreen size c = s := by
        rcases hignored with rfl | rfl <;> rfl
      rw [Screen.call, hsame]
      exact h
    · have hback : s.printToScreen size c = { s.put s.row (s.col - 1) 32 with col := s.col - 1 } := by
        rw [h14, printToScreen]
        simp [hsize]
      rw [Screen.call, hback]
      exact h.erase (hlast h14 hsize)
    · have hsame : s.printToScreen size c = s := by
        rw [h14, printToScreen]
        simp [hsize]
      rw [Screen.call, hsame]
      exact h
    · obtain ⟨h8, h13⟩ := not_or.1 hignored
      exact h.print ⟨h9, h8, h13, h14⟩ size
  | put c col row color =>
    obtain ⟨rfl, hcol⟩ := hleg
    exact h.putToScreen c hcol color
  | clear => exact h.clear

theorem Written.calls (h : Written s text) {cs : List ScreenCall} (hleg : AllLegible size text cs) :
    Written (s.calls size cs) (textAfterAll size text cs) := by
  induction cs generalizing s text with
  | nil => exact h
  | cons c cs ih => exact ih (h.call hleg.1) hleg.2

end Screen

/-! ### Runs -/

namespace Recorded

variable {around : ℤ → ℕ} {r : Recorded} {a : DisplayAct} {acts : List DisplayAct}

theorem step_eq (around : ℤ → ℕ) (r : Recorded) (a : DisplayAct) : ∃ d, r.display.step around a = .ok d ∧
    r.step around a =
      .ok ⟨d, textAfterAll r.display.term.size r.text (r.display.screenCalls around a)⟩ := by
  obtain ⟨d, hd, -⟩ := Display.step_eq around r.display a
  exact ⟨d, hd, by rw [step, hd]; rfl⟩

/-- The text is on the screen. -/
def OnScreen (r : Recorded) : Prop := r.display.screen.Written r.text

/-- **One step** shows what it adds to the text. -/
theorem OnScreen.step (h : r.OnScreen) (hleg : r.Legible around a) :
    ∃ r', r.step around a = .ok r' ∧ r'.OnScreen := by
  obtain ⟨d, hd, hstep⟩ := step_eq around r a
  obtain ⟨d', hd', hscreen, -⟩ := Display.step_eq around r.display a
  obtain rfl := Except.ok.inj (hd'.symm.trans hd)
  refine ⟨_, hstep, ?_⟩
  rw [OnScreen, hscreen]
  exact Screen.Written.calls h hleg

/-- **The screen shows the tail of the layout of the text**, with the keys, the output of the processes and
the ticks in any order. -/
theorem screen_shows_text (around buffer : ℤ → ℕ) (acts : List DisplayAct)
    (hleg : Along (step around) (Legible around) (boot buffer) acts) :
    ∃ r, run (step around) (boot buffer) acts = .ok r ∧
      r.display.screen.Shows (layout r.text) := by
  have hboot : (boot buffer).OnScreen := Screen.written_start buffer
  obtain ⟨r, hr, h⟩ := run_progress hboot (fun r a h hleg => OnScreen.step h hleg) hleg
  exact ⟨r, hr, h.shows⟩

/-- A key is typed between two outputs, and Ctrl-L leaves the row of the cursor. -/
theorem screen_shows_text_sample : ∃ r, run (step fun _ => 0) (boot fun _ => 0)
    [.out 36, .key 1 0x1e, .tick, .key 1 0x9e, .out 10, .out 37, .key 1 0x1d, .key 1 0x26, .key 1 0xa6] =
      .ok r ∧ r.display.screen.Shows (layout r.text) :=
  screen_shows_text (fun _ => 0) (fun _ => 0) _ (along_of_decide (by decide +kernel))

end Recorded

/-! ### The keyboard -/

/-- The call stores to the last row of the screen. -/
def ScreenCall.IsMark : ScreenCall → Prop
  | .put _ col row _ => row = 24 ∧ 0 ≤ col ∧ col < 80
  | _ => False

/-- What is written for an effect on the buffer. -/
def KeyEffect.Writes (calls : List ScreenCall) : KeyEffect → Prop
  | .store c _ => calls = [.print c]
  | .erase => calls = [.print 14]
  | _ => ∀ c ∈ calls, c.IsMark ∨ c = .clear

/-- A character that is stored is one that the screen shows. -/
def KeyEffect.Visible : KeyEffect → Prop
  | .store c _ => c ≠ 8 ∧ c ≠ 13 ∧ c ≠ 14
  | _ => True

instance : DecidablePred KeyEffect.Visible
  | .none => inferInstanceAs (Decidable True)
  | .store c _ => inferInstanceAs (Decidable (c ≠ 8 ∧ c ≠ 13 ∧ c ≠ 14))
  | .erase => inferInstanceAs (Decidable True)
  | .kill => inferInstanceAs (Decidable True)

theorem textAfterAll_marks (size : ℤ) (text : List ℕ) {cs : List ScreenCall} (h : ∀ c ∈ cs, c.IsMark) :
    AllLegible size text cs ∧ textAfterAll size text cs = text := by
  induction cs with
  | nil => exact ⟨trivial, rfl⟩
  | cons c cs ih =>
    obtain ⟨hc, hcs⟩ := List.forall_mem_cons.1 h
    cases c with
    | print c => exact hc.elim
    | put x col row color =>
      obtain ⟨hleg, htext⟩ := ih hcs
      exact ⟨⟨hc, hleg⟩, htext⟩
    | clear => exact hc.elim

namespace Terminal

variable {status : Fin 256}

/-- Alt and Ctrl write no text. -/
theorem specialCalls_marks {t : Terminal} (h : t.specialKeyPressed ≠ 0x2A) :
    ∀ c ∈ t.specialCalls, c.IsMark ∨ c = .clear := by
  have hmark : ∀ x : ℕ, ∀ col : ℤ, col = 64 ∨ col = 65 → (ScreenCall.put x col 24 0).IsMark :=
    fun x col hcol => ⟨rfl, by omega, by omega⟩
  intro c hc
  rw [specialCalls, if_neg h] at hc
  split_ifs at hc <;> simp only [List.mem_cons, List.mem_append, List.not_mem_nil, or_false] at hc
  · rcases hc with rfl | rfl <;> exact .inl (hmark _ _ (by omega))
  · rcases hc with (rfl | rfl) | rfl
    · exact .inl (hmark _ _ (.inl rfl))
    · exact .inl (hmark _ _ (.inr rfl))
    · exact .inr rfl
  · rcases hc with rfl | rfl <;> exact .inl (hmark _ _ (by omega))

theorem specialCalls_writes (t : Terminal) : t.specialEffect.Writes t.specialCalls := by
  by_cases hshift : t.specialKeyPressed = 0x2A
  · rw [specialEffect, specialCalls, if_pos hshift, if_pos hshift]
    rfl
  · rw [specialEffect, if_neg hshift]
    split_ifs <;> exact specialCalls_marks hshift

/-- **What a scancode does to the buffer, and what it writes**, belong together. -/
theorem keyCalls_writes (around : ℤ → ℕ) (t : Terminal) (data : Fin 256) (h : dataInBuffer status = true) :
    (t.keyEffect around status data).Writes (t.keyCalls around status data) := by
  have hnone : KeyEffect.none.Writes [] := fun c hc => absurd hc List.not_mem_nil
  have hst : ¬(!dataInBuffer status) = true := by simp [h]
  rw [keyEffect, keyCalls, if_neg hst]
  by_cases hpress : isNormalKeyPressed data ∨ isSpecialKeyPressed data
  · rw [if_pos hpress, if_pos (.inr hpress)]
    exact hnone
  rw [if_neg hpress, if_neg (not_or.2 ⟨by simp [h], hpress⟩)]
  by_cases hrel : isNormalKeyReleased around data
  · rw [if_pos hrel, if_pos hrel]
    by_cases hspecial : t.specialKeyPressed = 0
    · rw [if_pos hspecial, if_neg (not_not.2 hspecial)]
      by_cases hback : t.normalKeyPressed = 0x0e
      · rw [if_neg (not_not.2 hback), if_pos hback]
        rfl
      · rw [if_pos hback, if_neg hback]
        rfl
    · rw [if_neg hspecial, if_pos hspecial]
      exact specialCalls_writes t
  · rw [if_neg hrel, if_neg hrel]
    split_ifs
    · exact specialCalls_writes t
    · exact hnone

end Terminal

theorem Clock.tick_marks (c : Clock) : ∀ call ∈ c.tick.2, call.IsMark := by
  intro call hcall
  rw [Clock.tick] at hcall
  simp only at hcall
  split_ifs at hcall
  · simp only [writeTimeToScreen, List.mem_cons, List.not_mem_nil, or_false] at hcall
    rcases hcall with rfl | rfl | rfl | rfl | rfl | rfl | rfl | rfl <;> exact ⟨rfl, by decide, by decide⟩
  · exact absurd hcall List.not_mem_nil

namespace Recorded

variable {around : ℤ → ℕ} {r : Recorded} {a : DisplayAct} {acts : List DisplayAct} {prompt : List ℕ}

/-- A scancode without Ctrl-L that fits in the buffer and in the row, or a tick. -/
def Echoed (around : ℤ → ℕ) (r : Recorded) : DisplayAct → Prop
  | .key status data =>
    dataInBuffer status = true ∧ .clear ∉ r.display.term.keyCalls around status data ∧
      (r.display.term.keyEffect around status data).Fits r.display.term.size ∧
        (r.display.term.keyEffect around status data).Visible ∧ r.Legible around (.key status data)
  | .tick => True
  | _ => False

instance (around : ℤ → ℕ) (r : Recorded) : DecidablePred (r.Echoed around)
  | .key _ _ => inferInstanceAs (Decidable (_ ∧ _ ∧ _ ∧ _ ∧ _))
  | .tick => inferInstanceAs (Decidable True)
  | .read _ _ => inferInstanceAs (Decidable False)
  | .out _ => inferInstanceAs (Decidable False)

/-- What is in the buffer is behind the prompt, and on the screen. -/
structure Mirrors (prompt : List ℕ) (r : Recorded) : Prop where
  onScreen : r.OnScreen
  text : r.text = prompt ++ r.display.term.content
  nonneg : 0 ≤ r.display.term.size
  le : r.display.term.size ≤ 4096

/-- What a scancode does to the text, it does to the buffer. -/
theorem textAfterAll_key {status data : Fin 256} (h : r.Mirrors prompt)
    (hst : dataInBuffer status = true) (hclear : .clear ∉ r.display.term.keyCalls around status data)
    (hfits : (r.display.term.keyEffect around status data).Fits r.display.term.size)
    (hvisible : (r.display.term.keyEffect around status data).Visible) :
    textAfterAll r.display.term.size r.text (r.display.term.keyCalls around status data) =
      prompt ++ (r.display.term.kbdintr around status data).1.content := by
  have hwrites := Terminal.keyCalls_writes around r.display.term data hst
  have hnonneg := h.nonneg
  have hle := h.le
  rw [Stdin.content, (Terminal.kbdintr_spec around r.display.term status data).stdin, ← Stdin.content]
  have hmarks : (∀ c ∈ r.display.term.keyCalls around status data, c.IsMark ∨ c = .clear) →
      textAfterAll r.display.term.size r.text (r.display.term.keyCalls around status data) =
        prompt ++ r.display.term.content := fun hall => by
    rw [(textAfterAll_marks _ _ fun c hc => (hall c hc).resolve_right fun heq => hclear (heq ▸ hc)).2]
    exact h.text
  cases heff : r.display.term.keyEffect around status data with
  | none =>
    rw [heff] at hwrites
    exact hmarks hwrites
  | kill =>
    rw [heff] at hwrites
    exact hmarks hwrites
  | store c enter =>
    rw [heff] at hwrites hfits hvisible
    obtain ⟨h8, h13, h14⟩ := hvisible
    have hcalls : r.display.term.keyCalls around status data = [.print c] := hwrites
    have hsize : wrap32 (r.display.term.size + 1) = r.display.term.size + 1 :=
      wrap32_of_mem (by omega) (by omega)
    have hpush := @Stdin.content_push r.display.term.buf _ hnonneg c
    rw [hcalls, KeyEffect.stdin, hsize, hpush]
    show textAfter _ _ (.print c) = _
    rw [textAfter, if_neg (by omega), if_neg h14, h.text, List.append_assoc]
  | erase =>
    rw [heff] at hwrites hfits
    have hpos : 0 < r.display.term.size := hfits
    have hcalls : r.display.term.keyCalls around status data = [.print 14] := hwrites
    have hsize : wrap32 (r.display.term.size - 1) = r.display.term.size - 1 :=
      wrap32_of_mem (by omega) (by omega)
    have hpop := @Stdin.content_pop r.display.term.buf _ hpos
    have hne : r.display.term.content ≠ [] := by
      rw [Stdin.content_cons hpos]
      exact List.cons_ne_nil _ _
    rw [hcalls, KeyEffect.stdin, hsize, hpop]
    show textAfter _ _ (.print 14) = _
    rw [textAfter, if_neg (by decide), if_pos rfl, if_pos hpos, h.text]
    exact List.dropLast_append_of_ne_nil hne

/-- **One step** keeps what is in the buffer behind the prompt. -/
theorem Mirrors.step (h : r.Mirrors prompt) (he : r.Echoed around a) :
    ∃ r', r.step around a = .ok r' ∧ r'.Mirrors prompt := by
  cases a with
  | read n copied => exact he.elim
  | out c => exact he.elim
  | tick =>
    obtain ⟨hleg, htext⟩ := textAfterAll_marks r.display.term.size r.text
      r.display.clock.tick_marks
    obtain ⟨r', hr', hon⟩ := @OnScreen.step around r .tick h.onScreen hleg
    refine ⟨r', hr', hon, ?_, ?_, ?_⟩
    all_goals obtain rfl := Except.ok.inj hr'
    · exact htext.trans h.text
    · exact h.nonneg
    · exact h.le
  | key status data =>
    obtain ⟨hst, hclear, hfits, hvisible, hleg⟩ := he
    obtain ⟨r', hr', hon⟩ := OnScreen.step h.onScreen hleg
    have htext := textAfterAll_key h hst hclear hfits hvisible
    obtain ⟨hnonneg, hle⟩ := hfits.size h.nonneg h.le
    rw [← (Terminal.kbdintr_spec around r.display.term status data).stdin] at hnonneg hle
    refine ⟨r', hr', hon, ?_, ?_, ?_⟩
    all_goals obtain rfl := Except.ok.inj hr'
    · exact htext
    · exact hnonneg
    · exact hle

/-- **What is in the buffer is what is behind the prompt.**  From a state with an empty buffer on, as long as
nothing is read or written but what is typed, the screen shows the text so far and the content of the
buffer. -/
theorem typed_is_shown (around buffer : ℤ → ℕ) (before acts : List DisplayAct) (r : Recorded)
    (hbefore : Along (step around) (Legible around) (boot buffer) before)
    (hr : run (step around) (boot buffer) before = .ok r) (hempty : r.display.term.size = 0)
    (hecho : Along (step around) (Echoed around) r acts) :
    ∃ r', run (step around) r acts = .ok r' ∧ r'.text = r.text ++ r'.display.term.content ∧
      r'.display.screen.Shows (layout (r.text ++ r'.display.term.content)) := by
  have hboot : (boot buffer).OnScreen := Screen.written_start buffer
  have hon : r.OnScreen := run_invariant hboot (fun s a s' hs hleg hs' => by
    obtain ⟨t, ht, hton⟩ := OnScreen.step hs hleg
    exact Except.ok.inj (ht.symm.trans hs') ▸ hton) hbefore hr
  have hmirrors : r.Mirrors r.text := by
    refine ⟨hon, ?_, hempty.ge, ?_⟩
    · rw [Stdin.content_eq_nil hempty.le, List.append_nil]
    · rw [hempty]
      decide
  obtain ⟨r', hr', h⟩ := run_progress hmirrors (fun s a hs he => hs.step he) hecho
  exact ⟨r', hr', h.text, h.text ▸ h.onScreen.shows⟩

/-- Two keys behind a prompt, and Backspace. -/
theorem typed_is_shown_sample : ∃ r, run (step fun _ => 0) (boot fun _ => 0) [.out 36] = .ok r ∧
    ∃ r', run (step fun _ => 0) r
        [.key 1 0x1e, .key 1 0x9e, .key 1 0x30, .key 1 0xb0, .tick, .key 1 0x0e, .key 1 0x8e] = .ok r' ∧
      r'.text = r.text ++ r'.display.term.content ∧
        r'.display.screen.Shows (layout (r.text ++ r'.display.term.content)) := by
  obtain ⟨d, hd, hstep⟩ := step_eq (fun _ => 0) (boot fun _ => 0) (.out 36)
  refine ⟨_, (run_cons_ok hstep []).trans rfl, ?_⟩
  obtain rfl := Except.ok.inj hd
  exact typed_is_shown (fun _ => 0) (fun _ => 0) [.out 36] _ _ (along_of_decide (by decide +kernel))
    ((run_cons_ok hstep []).trans rfl) rfl (along_of_decide (by decide +kernel))

end Recorded

end PlumOs
