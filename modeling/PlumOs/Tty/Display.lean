import PlumOs.Lib.Numeral
import PlumOs.Tty.Keyboard
import PlumOs.Tty.Layout

/-!
# The status row (`sys/timer.c`, `sys/kbd.c`, `sys/printf.c`)

The screen has 25 rows, and `print_to_screen` uses 24 of them.  In the last one `interrupt_handler_timer`
shows how long the machine has been running, and `kbdintr` what was typed with Alt and Ctrl.

* `ScreenCall` : what the drivers call to write to the screen, and `keyCalls`, what `kbdintr` calls;
* `Clock` : the variables of `timer.c`, with `Clock.tick`;
* `Display` : the keyboard, the clock and the screen, and `Display.step` for scancodes, reads, output of
  processes and ticks, in any order;
* `Clock.Counts` : **the variables are the number of the ticks in mixed radix**;
* `shown_call` : a call leaves the cells of the last row that it does not store to;
* `Display.clock_shows` : **the time is on the screen**, whatever else is written.
-/

namespace PlumOs

/-! ### Calls -/

namespace Screen

/-- `put_to_screen(c, col, row, color)`.  The log of the stores is that of the text. -/
def putToScreen (s : Screen) (c : ℕ) (col row : ℤ) (color : ℕ) : Screen :=
  { s with
    buffer := Function.update (Function.update s.buffer (cell row col) c) (cell row col + 1) color }

end Screen

/-- A call that writes to the screen. -/
inductive ScreenCall where
  | print (c : ℕ)
  | put (c : ℕ) (col row : ℤ) (color : ℕ)
  | clear
  deriving DecidableEq, Repr

/-- A call, for a value of `stdin_buf_size`. -/
def Screen.call (stdinBufSize : ℤ) (s : Screen) : ScreenCall → Screen
  | .print c => s.printToScreen stdinBufSize c
  | .put c col row color => s.putToScreen c col row color
  | .clear => s.clearScreen

/-- Some calls, one after the other. -/
def Screen.calls (stdinBufSize : ℤ) (s : Screen) (calls : List ScreenCall) : Screen :=
  calls.foldl (Screen.call stdinBufSize) s

/-! ### The keyboard -/

namespace Terminal

/-- The text of `printf("in kbdintr: st wrong\n")`. -/
def stWrong : List ℕ :=
  [105, 110, 32, 107, 98, 100, 105, 110, 116, 114, 58, 32, 115, 116, 32, 119, 114, 111, 110, 103, 10]

/-- What the `switch` on the special key writes. -/
def specialCalls (t : Terminal) : List ScreenCall :=
  if t.specialKeyPressed = 0x2A then [.print (shiftmap.getD t.normalKeyPressed 0)]
  else if t.specialKeyPressed = 0x38 then
    [.put 64 64 24 0, .put (normalmap.getD t.normalKeyPressed 0) 65 24 0]
  else if t.specialKeyPressed = 0x1D then
    [.put 94 64 24 0, .put (shiftmap.getD t.normalKeyPressed 0) 65 24 0] ++
      -- Ctrl-L
      if t.normalKeyPressed = 0x26 then [.clear] else []
  else []

/-- What `kbdintr` writes to the screen.  The task that is killed on Ctrl-C is there and is a process, so
that `kill_by_pid` writes nothing. -/
def keyCalls (around : ℤ → ℕ) (t : Terminal) (status data : Fin 256) : List ScreenCall :=
  if !dataInBuffer status then stWrong.map .print
  else if isNormalKeyPressed data ∨ isSpecialKeyPressed data then []
  else if isNormalKeyReleased around data then
    if t.specialKeyPressed = 0 then
      if t.normalKeyPressed ≠ 0x0e then [.print (normalmap.getD t.normalKeyPressed 0)] else [.print 14]
    else t.specialCalls
  else if isSpecialKeyReleased data ∧ t.normalKeyPressed ≠ 0 then t.specialCalls
  else []

end Terminal

/-! ### The clock -/

/-- `ticks`, and the static variables of `timer.c`. -/
structure Clock where
  ticks : ℕ
  sec : ℤ
  min : ℤ
  hour : ℤ

namespace Clock

/-- A clock at boot. -/
def boot : Clock := ⟨0, 0, 0, 0⟩

/-- `n + '0'`, as a `char`. -/
def digitChar (n : ℤ) : ℕ := ((n + 48) % 256).toNat

/-- `write_time_to_screen(h, m, s)`. -/
def writeTimeToScreen (h m s : ℤ) : List ScreenCall :=
  [.put (if h ≥ 10 then digitChar (h.tdiv 10) else 48) 70 24 9, .put (digitChar (h.tmod 10)) 71 24 9,
    .put 58 72 24 9,
    .put (if m ≥ 10 then digitChar (m.tdiv 10) else 48) 73 24 9, .put (digitChar (m.tmod 10)) 74 24 9,
    .put 58 75 24 9,
    .put (if s ≥ 10 then digitChar (s.tdiv 10) else 48) 76 24 9, .put (digitChar (s.tmod 10)) 77 24 9]

/-- A second is over. -/
def second (c : Clock) : Clock :=
  let sec := wrap32 (c.sec + 1)
  if sec.tmod 60 = 0 then
    let min := wrap32 (c.min + 1)
    if min.tmod 60 = 0 then { c with sec := 0, min := 0, hour := wrap32 (c.hour + 1) }
    else { c with sec := 0, min := min }
  else { c with sec := sec }

/-- `interrupt_handler_timer` up to the test of the timeslice. -/
def tick (c : Clock) : Clock × List ScreenCall :=
  let c := { c with ticks := (c.ticks + 1) % 2 ^ 64 }
  if c.ticks % 100 = 0 then
    let c := c.second
    (c, writeTimeToScreen c.hour c.min c.sec)
  else (c, [])

/-- After `n` ticks. -/
structure Counts (c : Clock) (n : ℕ) : Prop where
  ticks : c.ticks = n
  sec : c.sec = (n / 100 % 60 : ℕ)
  min : c.min = (n / 6000 % 60 : ℕ)
  hour : c.hour = (n / 360000 : ℕ)

end Clock

/-! ### The machine -/

/-- The keyboard, the clock and the screen. -/
structure Display where
  term : Terminal
  clock : Clock
  screen : Screen

/-- What happens at the terminal. -/
inductive DisplayAct where
  | key (status data : Fin 256)
  /-- A process reads from standard input. -/
  | read (n : ℤ) (copied : Bool)
  /-- A process, or the kernel, writes a character. -/
  | out (c : ℕ)
  | tick
  deriving DecidableEq, Repr

namespace Display

/-- What is called to write to the screen. -/
def screenCalls (around : ℤ → ℕ) (d : Display) : DisplayAct → List ScreenCall
  | .key status data => d.term.keyCalls around status data
  | .read _ _ => []
  | .out c => [.print c]
  | .tick => d.clock.tick.2

/-- One step.  `kbdintr` writes to the screen before it changes `stdin_buf_size`. -/
def step (around : ℤ → ℕ) (d : Display) (a : DisplayAct) : Except Empty Display :=
  let screen := d.screen.calls d.term.size (d.screenCalls around a)
  match a with
  | .key status data => .ok { d with term := (d.term.kbdintr around status data).1, screen := screen }
  | .read n copied => .ok { d with term := (d.term.readStdin (wrap32 n) copied).1, screen := screen }
  | .out _ => .ok { d with screen := screen }
  | .tick => .ok { d with clock := d.clock.tick.1, screen := screen }

/-- The display at boot; the boot loader leaves something on the screen. -/
def boot (buffer : ℤ → ℕ) : Display := ⟨Terminal.kbdinit, Clock.boot, Screen.start buffer⟩

end Display

/-! ### Room -/

/-- A tab, or a backspace, has room. -/
def ScreenCall.Room (stdinBufSize : ℤ) (s : Screen) : ScreenCall → Prop
  | .print c => s.HasRoom (.print c stdinBufSize)
  | .put _ _ _ _ => True
  | .clear => True

instance (stdinBufSize : ℤ) (s : Screen) : DecidablePred (ScreenCall.Room stdinBufSize s)
  | .print c => inferInstanceAs (Decidable ((c = 9 → s.col < 72) ∧ (c = 14 → stdinBufSize > 0 → 0 < s.col)))
  | .put _ _ _ _ => inferInstanceAs (Decidable True)
  | .clear => inferInstanceAs (Decidable True)

/-- All the calls have room. -/
def CallsRoom (stdinBufSize : ℤ) : Screen → List ScreenCall → Prop
  | _, [] => True
  | s, c :: calls => c.Room stdinBufSize s ∧ CallsRoom stdinBufSize (s.call stdinBufSize c) calls

instance decidableCallsRoom (stdinBufSize : ℤ) :
    ∀ (s : Screen) (calls : List ScreenCall), Decidable (CallsRoom stdinBufSize s calls)
  | _, [] => inferInstanceAs (Decidable True)
  | s, c :: calls =>
    have := decidableCallsRoom stdinBufSize (s.call stdinBufSize c) calls
    inferInstanceAs (Decidable (c.Room stdinBufSize s ∧ _))

/-- The calls of a step have room. -/
def Display.HasRoom (around : ℤ → ℕ) (d : Display) (a : DisplayAct) : Prop :=
  CallsRoom d.term.size d.screen (d.screenCalls around a)

instance (around : ℤ → ℕ) (d : Display) (a : DisplayAct) : Decidable (d.HasRoom around a) :=
  inferInstanceAs (Decidable (CallsRoom _ _ _))

/-! ### The last row -/

namespace Screen

variable {s : Screen} {j n : ℕ} {size : ℤ}

theorem call_nil (size : ℤ) (s : Screen) : s.calls size [] = s := rfl

theorem calls_cons (size : ℤ) (s : Screen) (c : ScreenCall) (calls : List ScreenCall) :
    s.calls size (c :: calls) = (s.call size c).calls size calls := rfl

theorem calls_append (size : ℤ) (s : Screen) (calls calls' : List ScreenCall) :
    s.calls size (calls ++ calls') = (s.calls size calls).calls size calls' := List.foldl_append

theorem shown_putToScreen (s : Screen) (c col row : ℕ) {i j : ℕ} (color : ℕ) (hcol : col < 80)
    (hj : j < 80) : (s.putToScreen c col row color).shown i j = if i = row ∧ j = col then c else s.shown i j := by
  have hattr : cell i j ≠ cell row col + 1 := by
    rw [cell_eq, cell_eq]
    omega
  show Function.update (Function.update s.buffer (cell row col) c) (cell row col + 1) color (cell i j) = _
  rw [Function.update_of_ne hattr]
  split_ifs with h
  · rw [h.1, h.2, Function.update_self]
  · have hchar : cell i j ≠ cell row col := by
      rw [cell_eq, cell_eq]
      omega
    rw [Function.update_of_ne hchar]
    rfl

theorem good_start (buffer : ℤ → ℕ) : Good (start buffer) :=
  ⟨onScreen_iff.2 (by simp [start]), fun p hp => absurd hp List.not_mem_nil⟩

theorem Good.putToScreen (h : Good s) (c : ℕ) (col row : ℤ) (color : ℕ) :
    Good (s.putToScreen c col row color) := ⟨h.cursor, h.stores⟩

/-- A store to the text. -/
theorem shown_put_text (s : Screen) {row col : ℤ} (hon : OnScreen (row, col)) (hj : j < 80) (c : ℕ) :
    (s.put row col c).shown 24 j = s.shown 24 j := by
  obtain ⟨hlo, hhi, hlo', hhi'⟩ := onScreen_iff.1 hon
  obtain ⟨r, rfl⟩ := Int.eq_ofNat_of_zero_le hlo
  obtain ⟨k, rfl⟩ := Int.eq_ofNat_of_zero_le hlo'
  exact shown_put_of_ne (by omega) hj (.inl (by omega)) c

/-- A scroll leaves the last row. -/
theorem shown_scollScreenUp_last (s : Screen) (hj : j < 80) : s.scollScreenUp.shown 24 j = s.shown 24 j := by
  have hscroll : s.scollScreenUp = rowLoop (23 : ℕ) (fun _ _ => 32) 80 (copyRows 23 s) := rfl
  rw [hscroll, shown_rowLoop_of_ne _ (by decide) hj le_rfl, shown_copyRows hj, if_neg (by decide)]

theorem shown_nextRow_last (s : Screen) (hj : j < 80) : s.nextRow.shown 24 j = s.shown 24 j := by
  rw [nextRow]
  simp only
  split_ifs
  · rw [shown_moveTo, shown_scollScreenUp_last s hj]
  · rfl

theorem shown_nextCol_last (s : Screen) (hj : j < 80) : s.nextCol.shown 24 j = s.shown 24 j := by
  rw [nextCol]
  split_ifs
  · rfl
  · exact shown_nextRow_last s hj

theorem shown_tabLoop_last (h : Good s) (hj : j < 80) (hn : s.col + n < 80) :
    (tabLoop n s).shown 24 j = s.shown 24 j := by
  induction n generalizing s with
  | zero => rfl
  | succ n ih =>
    obtain ⟨hrow, hrow', hlo, hhi⟩ := onScreen_iff.1 h.cursor
    have hnext : Good { s.put s.row s.col 32 with col := s.col + 1 } :=
      (h.put ⟨hlo, hhi⟩ 32).moveTo (onScreen_iff.2 ⟨hrow, hrow', by omega, by omega⟩)
    have hroom : s.col + 1 + (n : ℤ) < 80 := by omega
    rw [tabLoop, ih hnext hroom]
    exact shown_put_text s h.cursor hj 32

theorem shown_clearScreen_last (s : Screen) (hj : j < 80) : s.clearScreen.shown 24 j = s.shown 24 j := by
  rw [clearScreen]
  show (scollScreenUp^[s.row.toNat] s).shown 24 j = s.shown 24 j
  exact Function.Iterate.rec (fun s₁ => s₁.shown 24 j = s.shown 24 j) rfl
    (fun s₁ hs₁ => (shown_scollScreenUp_last s₁ hj).trans hs₁) _

/-- **Text leaves the last row**, if tabs and backspaces have room. -/
theorem shown_printToScreen_last (h : Good s) {c : ℕ} (hroom : HasRoom s (.print c size)) (hj : j < 80) :
    (s.printToScreen size c).shown 24 j = s.shown 24 j := by
  obtain ⟨hrow, hrow', hlo, hhi⟩ := onScreen_iff.1 h.cursor
  obtain ⟨htab, hback⟩ := hroom
  rw [printToScreen]
  split_ifs with hplain hten hnine hfourteen hsize
  · rw [shown_nextCol_last _ hj, shown_put_text s h.cursor hj]
  · exact shown_nextRow_last s hj
  · have hcol := htab hnine
    have hend : s.col + ((8 - s.col.tmod 8).toNat : ℤ) < 80 := by
      rw [Int.tmod_eq_emod_of_nonneg hlo]
      omega
    rw [shown_nextCol_last _ hj, shown_tabLoop_last h hj hend]
  · have hcol := hback hfourteen hsize
    exact shown_put_text s (onScreen_iff.2 ⟨hrow, hrow', by omega, by omega⟩) hj 32
  · rfl
  · rfl

end Screen

namespace ScreenCall

/-- The call stores to no cell of the last row in this column, or to none of this row at all. -/
def StaysOff (j : ℕ) : ScreenCall → Prop
  | .put _ col row _ => row = 24 ∧ 0 ≤ col ∧ col < 80 ∧ col ≠ j
  | _ => True

end ScreenCall

namespace Screen

variable {s : Screen} {j n : ℕ} {size : ℤ} {c : ScreenCall} {cs : List ScreenCall}

theorem Good.call (h : Good s) (hroom : c.Room size s) : Good (s.call size c) := by
  cases c with
  | print c =>
    obtain ⟨s', hs', hiff⟩ := good_step_iff h (.print c size)
    obtain rfl := Except.ok.inj hs'
    exact hiff.2 hroom
  | put c col row color => exact h.putToScreen c col row color
  | clear => exact h.clearScreen

theorem Good.calls (h : Good s) (hroom : CallsRoom size s cs) : Good (s.calls size cs) := by
  induction cs generalizing s with
  | nil => exact h
  | cons c cs ih => exact ih (h.call hroom.1) hroom.2

/-- **A call leaves the cells of the last row** that it does not store to. -/
theorem shown_call (h : Good s) (hroom : c.Room size s) (hoff : c.StaysOff j) (hj : j < 80) :
    (s.call size c).shown 24 j = s.shown 24 j := by
  cases c with
  | print c => exact shown_printToScreen_last h hroom hj
  | put c col row color =>
    obtain ⟨rfl, hlo, hhi, hne⟩ := hoff
    obtain ⟨k, rfl⟩ := Int.eq_ofNat_of_zero_le hlo
    exact (shown_putToScreen s c k 24 color (by omega) hj).trans (if_neg (by omega))
  | clear => exact shown_clearScreen_last s hj

theorem shown_calls (h : Good s) (hroom : CallsRoom size s cs) (hoff : ∀ c ∈ cs, c.StaysOff j)
    (hj : j < 80) : (s.calls size cs).shown 24 j = s.shown 24 j := by
  induction cs generalizing s with
  | nil => rfl
  | cons c cs ih =>
    rw [calls_cons, ih (h.call hroom.1) hroom.2 (fun c' hc' => hoff c' (List.mem_cons_of_mem c hc'))]
    exact shown_call h hroom.1 (hoff c List.mem_cons_self) hj

/-- A row of characters in the last row of the screen. -/
theorem shown_puts (f : ℕ → ℕ) {col : ℕ} (color : ℕ) {n : ℕ} (hn : col + n ≤ 80) {k : ℕ} (hk : k < n) :
    (s.calls size ((List.range n).map fun k : ℕ => .put (f k) ((col : ℤ) + k) 24 color)).shown 24 (col + k) =
      f k := by
  induction n with
  | zero => exact absurd hk (Nat.not_lt_zero k)
  | succ n ih =>
    rw [List.range_succ, List.map_append, calls_append]
    refine (shown_putToScreen _ (f n) (col + n) 24 color (by omega) (by omega)).trans ?_
    obtain rfl | hlt := Nat.eq_or_lt_of_le (Nat.le_of_lt_succ hk)
    · rw [if_pos ⟨rfl, rfl⟩]
    · rw [if_neg (by omega)]
      exact ih (by omega) hlt

end Screen

/-! ### The time -/

/-- A number in decimal, with zeros in front for two digits. -/
def twoDigits (n : ℕ) : List ℕ :=
  (List.replicate (2 - (numeral 10 n).length) 0 ++ numeral 10 n).map (· + 48)

/-- A time in hours, minutes and seconds. -/
def timeText (seconds : ℕ) : List ℕ :=
  twoDigits (seconds / 3600) ++ [58] ++ twoDigits (seconds / 60 % 60) ++ [58] ++ twoDigits (seconds % 60)

theorem twoDigits_eq {n : ℕ} (h : n < 100) : twoDigits n = [n / 10 + 48, n % 10 + 48] := by
  unfold twoDigits
  by_cases hn : n < 10
  · have hdiv : n / 10 = 0 := by omega
    have hmod : n % 10 = n := by omega
    rw [numeral_of_lt hn, hdiv, hmod]
    rfl
  · rw [numeral_of_le (by decide) (by omega), numeral_of_lt (by omega)]
    rfl

namespace Clock

variable {c : Clock} {n : ℕ}

theorem counts_boot : Counts boot 0 := ⟨rfl, rfl, rfl, rfl⟩

/-- The two digits of `n` as `write_time_to_screen` computes them. -/
theorem digitChar_eq {n : ℕ} (h : n < 100) :
    (if (n : ℤ) ≥ 10 then digitChar ((n : ℤ).tdiv 10) else 48) = n / 10 + 48 ∧
      digitChar ((n : ℤ).tmod 10) = n % 10 + 48 := by
  have hnonneg : (0 : ℤ) ≤ n := Int.natCast_nonneg n
  rw [Int.tmod_eq_emod_of_nonneg hnonneg, Int.tdiv_eq_ediv_of_nonneg hnonneg]
  unfold digitChar
  constructor
  · split_ifs <;> omega
  · omega

/-- **The text of the clock**, for fewer than a hundred hours. -/
theorem writeTimeToScreen_eq (h : n < 360000) :
    writeTimeToScreen (n / 3600 : ℕ) (n / 60 % 60 : ℕ) (n % 60 : ℕ) =
      (List.range 8).map fun k : ℕ => .put ((timeText n).getD k 0) ((70 : ℕ) + k) 24 9 := by
  obtain ⟨hhour, hhour'⟩ := digitChar_eq (n := n / 3600) (by omega)
  obtain ⟨hmin, hmin'⟩ := digitChar_eq (n := n / 60 % 60) (by omega)
  obtain ⟨hsec, hsec'⟩ := digitChar_eq (n := n % 60) (by omega)
  rw [writeTimeToScreen, hhour, hhour', hmin, hmin', hsec, hsec', timeText, twoDigits_eq (by omega),
    twoDigits_eq (by omega), twoDigits_eq (by omega)]
  rfl

/-- A second more, as long as the hours are an `int`. -/
theorem second_eq {t : ℕ} (hsec : c.sec = (t % 60 : ℕ)) (hmin : c.min = (t / 60 % 60 : ℕ))
    (hhour : c.hour = (t / 3600 : ℕ)) (ht : t + 1 < 3600 * 2 ^ 31) :
    c.second = ⟨c.ticks, ((t + 1) % 60 : ℕ), ((t + 1) / 60 % 60 : ℕ), ((t + 1) / 3600 : ℕ)⟩ := by
  have hwrap : ∀ m : ℕ, m < 2 ^ 31 → wrap32 m = m := fun m hm => wrap32_of_mem (by omega) (by omega)
  have hmod : ∀ m : ℕ, (m : ℤ).tmod 60 = (m % 60 : ℕ) := fun m => rfl
  have hsec' : wrap32 (c.sec + 1) = (t % 60 + 1 : ℕ) := by
    rw [hsec, ← Nat.cast_succ]
    exact hwrap _ (by omega)
  have hmin' : wrap32 (c.min + 1) = (t / 60 % 60 + 1 : ℕ) := by
    rw [hmin, ← Nat.cast_succ]
    exact hwrap _ (by omega)
  rw [second]
  simp only [hsec', hmin', hmod]
  split_ifs with hminute hhourly
  · have hhour' : wrap32 (c.hour + 1) = (t / 3600 + 1 : ℕ) := by
      rw [hhour, ← Nat.cast_succ]
      exact hwrap _ (by omega)
    rw [hhour', Clock.mk.injEq]
    exact ⟨rfl, by omega, by omega, by omega⟩
  · rw [hhour, Clock.mk.injEq]
    exact ⟨rfl, by omega, by omega, by omega⟩
  · rw [hmin, hhour, Clock.mk.injEq]
    exact ⟨rfl, by omega, by omega, by omega⟩

/-- **A tick**: the variables are the time, and each second it is written. -/
theorem Counts.tick (h : Counts c n) (hn : n + 1 < 360000 * 2 ^ 31) : Counts c.tick.1 (n + 1) ∧
    c.tick.2 = if (n + 1) % 100 = 0 then
      writeTimeToScreen ((n + 1) / 360000 : ℕ) ((n + 1) / 6000 % 60 : ℕ) ((n + 1) / 100 % 60 : ℕ) else [] := by
  obtain ⟨hticks, hsec, hmin, hhour⟩ := h
  have hnext : (c.ticks + 1) % 2 ^ 64 = n + 1 := by omega
  rw [Clock.tick]
  simp only [hnext]
  split_ifs with hsecond
  · have hmin' : c.min = (n / 100 / 60 % 60 : ℕ) := by
      rw [hmin]
      omega
    have hhour' : c.hour = (n / 100 / 3600 : ℕ) := by
      rw [hhour]
      omega
    rw [second_eq (t := n / 100) (c := { c with ticks := n + 1 }) hsec hmin' hhour' (by omega)]
    have h₁ : (n / 100 + 1) % 60 = (n + 1) / 100 % 60 := by omega
    have h₂ : (n / 100 + 1) / 60 % 60 = (n + 1) / 6000 % 60 := by omega
    have h₃ : (n / 100 + 1) / 3600 = (n + 1) / 360000 := by omega
    rw [h₁, h₂, h₃]
    exact ⟨⟨rfl, rfl, rfl, rfl⟩, rfl⟩
  · refine ⟨⟨rfl, ?_, ?_, ?_⟩, rfl⟩
    · show c.sec = _
      rw [hsec]
      omega
    · show c.min = _
      rw [hmin]
      omega
    · show c.hour = _
      rw [hhour]
      omega

end Clock

/-! ### Runs -/

namespace Display

variable {around : ℤ → ℕ} {d d' : Display} {a : DisplayAct} {acts : List DisplayAct} {n : ℕ}

/-- Only the ticks store to the cells of the clock. -/
theorem screenCalls_staysOff (h : a ≠ .tick) {c : ScreenCall} (hc : c ∈ d.screenCalls around a) {k : ℕ}
    (hk : 70 ≤ k) : c.StaysOff k := by
  have hspecial : ∀ c ∈ d.term.specialCalls, c.StaysOff k := by
    intro c hc
    have hmark : ∀ x : ℕ, ∀ col : ℤ, col = 64 ∨ col = 65 → (ScreenCall.put x col 24 0).StaysOff k :=
      fun x col hcol => ⟨rfl, by omega, by omega, by omega⟩
    rw [Terminal.specialCalls] at hc
    split_ifs at hc <;> simp only [List.mem_cons, List.mem_append, List.not_mem_nil, or_false] at hc
    · rw [hc]
      trivial
    · rcases hc with rfl | rfl <;> exact hmark _ _ (by omega)
    · rcases hc with (rfl | rfl) | rfl
      · exact hmark _ _ (.inl rfl)
      · exact hmark _ _ (.inr rfl)
      · trivial
    · rcases hc with rfl | rfl <;> exact hmark _ _ (by omega)
  cases a with
  | tick => exact absurd rfl h
  | read m copied => exact absurd hc List.not_mem_nil
  | out x =>
    rw [List.mem_singleton.1 hc]
    trivial
  | key status data =>
    rw [screenCalls, Terminal.keyCalls] at hc
    split_ifs at hc
    · obtain ⟨x, -, rfl⟩ := List.mem_map.1 hc
      trivial
    · exact absurd hc List.not_mem_nil
    · rw [List.mem_singleton.1 hc]
      trivial
    · rw [List.mem_singleton.1 hc]
      trivial
    · exact hspecial c hc
    · exact hspecial c hc
    · exact absurd hc List.not_mem_nil

/-- What the calls of a step do to the screen is all that the step does to it. -/
theorem step_eq (around : ℤ → ℕ) (d : Display) (a : DisplayAct) : ∃ d', d.step around a = .ok d' ∧
    d'.screen = d.screen.calls d.term.size (d.screenCalls around a) ∧
      d'.clock = if a = .tick then d.clock.tick.1 else d.clock := by
  cases a <;> exact ⟨_, rfl, rfl, rfl⟩

/-- After `n` ticks the clock has counted them, and the time is on the screen. -/
structure OnTime (d : Display) (n : ℕ) : Prop where
  /-- The clock is as many interrupts old. -/
  counts : Clock.Counts d.clock n
  /-- The cursor is on the screen. -/
  good : d.screen.Good
  /-- The corner of the screen has the time. -/
  shows : 100 ≤ n → ∀ k < 8, d.screen.shown 24 (70 + k) = (timeText (n / 100)).getD k 0

theorem onTime_boot (buffer : ℤ → ℕ) : OnTime (boot buffer) 0 where
  counts := Clock.counts_boot
  good := Screen.good_start buffer
  shows h := absurd h (by decide)

/-- **One step** keeps the clock on time. -/
theorem OnTime.step (h : OnTime d n) (hroom : d.HasRoom around a)
    (hn : n + (if a = .tick then 1 else 0) < 36000000) :
    ∃ d', d.step around a = .ok d' ∧ OnTime d' (n + if a = .tick then 1 else 0) := by
  obtain ⟨d', hd', hscreen, hclock⟩ := step_eq around d a
  have hgood : d'.screen.Good := hscreen ▸ h.good.calls hroom
  refine ⟨d', hd', ?_⟩
  split_ifs at hclock hn ⊢ with htick
  · obtain ⟨hcounts, hcalls⟩ := h.counts.tick (by omega)
    refine ⟨hclock ▸ hcounts, hgood, fun hshow k hk => ?_⟩
    have hrun : d.screenCalls around a = d.clock.tick.2 := by
      rw [htick]
      rfl
    rw [hscreen, hrun, hcalls]
    split_ifs with hsecond
    · have h₁ : (n + 1) / 360000 = (n + 1) / 100 / 3600 := by omega
      have h₂ : (n + 1) / 6000 % 60 = (n + 1) / 100 / 60 % 60 := by omega
      rw [h₁, h₂, Clock.writeTimeToScreen_eq (by omega)]
      exact Screen.shown_puts _ 9 (by decide) hk
    · -- the second is the same
      have hsame : (n + 1) / 100 = n / 100 := by omega
      rw [Screen.call_nil, hsame]
      exact h.shows (by omega) k hk
  · refine ⟨hclock ▸ h.counts, hgood, fun hshow k hk => ?_⟩
    rw [hscreen, Screen.shown_calls h.good hroom
      (fun c hc => screenCalls_staysOff htick hc (Nat.le_add_right 70 k)) (by omega)]
    exact h.shows hshow k hk

theorem OnTime.run (h : OnTime d n) (hroom : Along (Display.step around) (HasRoom around) d acts)
    (hn : n + acts.count .tick < 36000000) :
    ∃ d', PlumOs.run (Display.step around) d acts = .ok d' ∧ OnTime d' (n + acts.count .tick) := by
  induction acts generalizing d n with
  | nil => exact ⟨d, rfl, h⟩
  | cons a acts ih =>
    have hcount : n + (a :: acts).count .tick = n + (if a = .tick then 1 else 0) + acts.count .tick := by
      rw [List.count_cons]
      simp only [beq_iff_eq]
      omega
    rw [hcount] at hn ⊢
    obtain ⟨d₁, hd₁, h₁⟩ := h.step hroom.1 (by omega)
    obtain ⟨d', hd', h'⟩ := ih h₁ (hroom.2 d₁ hd₁) hn
    exact ⟨d', (run_cons_ok hd₁ acts).trans hd', h'⟩

/-- **The time is on the screen**, for the first hundred hours, whatever else is written: in every run in
which tabs and backspaces have room, from the first second on. -/
theorem clock_shows (around buffer : ℤ → ℕ) (acts : List DisplayAct)
    (hroom : Along (step around) (HasRoom around) (boot buffer) acts)
    (hfirst : 100 ≤ acts.count .tick) (hlast : acts.count .tick < 36000000) :
    ∃ d, PlumOs.run (step around) (boot buffer) acts = .ok d ∧ d.clock.Counts (acts.count .tick) ∧
      ∀ k < 8, d.screen.shown 24 (70 + k) = (timeText (acts.count .tick / 100)).getD k 0 := by
  obtain ⟨d, hd, h⟩ := (onTime_boot buffer).run hroom (by omega)
  rw [Nat.zero_add] at h
  exact ⟨d, hd, h.counts, h.shows hfirst⟩

/-- A hundred ticks and a character. -/
theorem clock_shows_second : ∃ d, PlumOs.run (step fun _ => 0) (boot fun _ => 0)
    (List.replicate 100 .tick ++ [.out 97]) = .ok d ∧ d.clock.Counts 100 ∧
      ∀ k < 8, d.screen.shown 24 (70 + k) = (timeText 1).getD k 0 := by
  have hcount : (List.replicate 100 DisplayAct.tick ++ [DisplayAct.out 97]).count DisplayAct.tick = 100 := by
    rw [List.count_append, List.count_replicate_self]
    rfl
  have hroom : Along (step fun _ => 0) (HasRoom fun _ => 0) (boot fun _ => 0)
      (List.replicate 100 .tick ++ [.out 97]) := along_of_decide (by decide +kernel)
  have hshow := clock_shows (fun _ => 0) (fun _ => 0) _ hroom (by rw [hcount]) (by rw [hcount]; decide)
  rw [hcount] at hshow
  exact hshow

end Display

end PlumOs
