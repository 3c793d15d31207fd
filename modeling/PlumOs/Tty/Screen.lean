import Mathlib.Algebra.Order.Ring.Int
import Mathlib.Data.List.Range
import Mathlib.Logic.Function.Basic
import PlumOs.Lib.Run

/-!
# The screen (`sys/printf.c`)

`print_to_screen` stores a character at the cursor and moves the cursor on.  The cursor goes to the next
row where its column has become 80: a tab goes from the last columns to column 81, and the backspace goes
from column 0 to column -1.

* `Screen` : the cursor and the buffer, with `printToScreen`, `scollScreenUp` and `clearScreen`;
* `OnScreen` : the cells of the screen;
* `Screen.good_step_iff` : the cursor and the stores of one call stay on the screen if the tab, or the
  backspace, has room;
* `Screen.onScreen_iff_room` : **they stay there in a run exactly if** it is so for all the calls;
* `Screen.onScreen_fails` : a tab in column 72.
-/

namespace PlumOs

/-- `MAX_COLUMN`. -/
abbrev maxColumn : ℕ := 80

/-- `MAX_ROW`. -/
abbrev maxRow : ℕ := 24

/-- `cursor`, and the bytes of `screen_buffer`, with what is before and behind it. -/
structure Screen where
  row : ℤ
  col : ℤ
  buffer : ℤ → ℕ
  /-- The cells that were stored to, latest first; only for stating results. -/
  stores : List (ℤ × ℤ)

namespace Screen

/-- The place of a cell in `screen_buffer`. -/
def cell (row col : ℤ) : ℤ := row * maxColumn * 2 + col * 2

/-- A character is stored to a cell, and the attribute 0 behind it. -/
def put (s : Screen) (row col : ℤ) (c : ℕ) : Screen :=
  { s with
    buffer := Function.update (Function.update s.buffer (cell row col) c) (cell row col + 1) 0
    stores := (row, col) :: s.stores }

/-- A loop over the cells of the row `i`. -/
def rowLoop (i : ℤ) (char : Screen → ℤ → ℕ) (n : ℕ) (s : Screen) : Screen :=
  (List.range n).foldl (fun s (j : ℕ) => s.put i j (char s j)) s

/-- The rows of `scoll_screen_up` that take over the row below. -/
def copyRows (n : ℕ) (s : Screen) : Screen :=
  (List.range n).foldl
    (fun s (i : ℕ) => rowLoop i (fun s j => s.buffer (cell (i + 1) j)) maxColumn s) s

/-- `scoll_screen_up`. -/
def scollScreenUp (s : Screen) : Screen :=
  rowLoop (maxRow - 1 : ℕ) (fun _ _ => 32) maxColumn (copyRows (maxRow - 1) s)

/-- The branches that go to the next row. -/
def nextRow (s : Screen) : Screen :=
  let nrow := s.row + 1
  if nrow = maxRow then { s.scollScreenUp with row := maxRow - 1, col := 0 }
  else { s with row := nrow, col := 0 }

/-- The branches that go to the next column, and from the last one to the next row. -/
def nextCol (s : Screen) : Screen :=
  let ncol := s.col + 1
  if ncol ≠ maxColumn then { s with col := ncol } else s.nextRow

/-- `n` turns of the loop of a tab. -/
def tabLoop : ℕ → Screen → Screen
  | 0, s => s
  | n + 1, s => tabLoop n { s.put s.row s.col 32 with col := s.col + 1 }

/-- `print_to_screen`. -/
def printToScreen (s : Screen) (stdinBufSize : ℤ) (c : ℕ) : Screen :=
  if c ≠ 9 ∧ c ≠ 10 ∧ c ≠ 8 ∧ c ≠ 13 ∧ c ≠ 14 then (s.put s.row s.col c).nextCol
  else if c = 10 then s.nextRow
  else if c = 9 then
    -- `t_sp` goes from `cursor.col % TAB` to `TAB`
    (tabLoop (8 - s.col.tmod 8).toNat s).nextCol
  else if c = 14 then
    if stdinBufSize > 0 then { s.put s.row (s.col - 1) 32 with col := s.col - 1 } else s
  else s

/-- `clear_screen`. -/
def clearScreen (s : Screen) : Screen :=
  { scollScreenUp^[s.row.toNat] s with row := 0 }

/-- A call; `stdin_buf_size` may be anything. -/
inductive Act where
  | print (c : ℕ) (stdinBufSize : ℤ)
  | clear
  deriving DecidableEq, Repr

/-- One call. -/
def step (s : Screen) : Act → Except Empty Screen
  | .print c stdinBufSize => .ok (s.printToScreen stdinBufSize c)
  | .clear => .ok s.clearScreen

/-- The screen at first. -/
def start (buffer : ℤ → ℕ) : Screen where
  row := 0
  col := 0
  buffer := buffer
  stores := []

end Screen

/-- A cell of the screen. -/
def OnScreen (p : ℤ × ℤ) : Prop := 0 ≤ p.1 ∧ p.1 < maxRow ∧ 0 ≤ p.2 ∧ p.2 < maxColumn

instance : DecidablePred OnScreen := fun p =>
  inferInstanceAs (Decidable (0 ≤ p.1 ∧ p.1 < maxRow ∧ 0 ≤ p.2 ∧ p.2 < maxColumn))

namespace Screen

/-- The cursor is on the screen, and so were all the cells that were stored to. -/
structure Good (s : Screen) : Prop where
  cursor : OnScreen (s.row, s.col)
  stores : ∀ p ∈ s.stores, OnScreen p

/-- There is room for a tab, or for a backspace. -/
def HasRoom (s : Screen) : Act → Prop
  | .print c stdinBufSize =>
    (c = 9 → s.col < 72) ∧ (c = 14 → stdinBufSize > 0 → 0 < s.col)
  | .clear => True

variable {s s' : Screen} {a : Act}

/-! ### Stores -/

/-- The cursor stays, and the stores from `s` to `s'` go to cells of the screen. -/
structure Drawn (s s' : Screen) : Prop where
  row : s'.row = s.row
  col : s'.col = s.col
  stores : (∀ p ∈ s.stores, OnScreen p) → ∀ p ∈ s'.stores, OnScreen p

theorem Drawn.refl (s : Screen) : Drawn s s := ⟨rfl, rfl, id⟩

theorem Drawn.trans {s₁ : Screen} (h : Drawn s s₁) (h' : Drawn s₁ s') : Drawn s s' :=
  ⟨h'.row.trans h.row, h'.col.trans h.col, fun hs => h'.stores (h.stores hs)⟩

theorem drawn_put {i j : ℤ} (h : OnScreen (i, j)) (c : ℕ) : Drawn s (s.put i j c) where
  row := rfl
  col := rfl
  stores hs p hp := by
    obtain rfl | hp := List.mem_cons.1 hp
    · exact h
    · exact hs p hp

theorem onScreen_iff {i j : ℤ} : OnScreen (i, j) ↔ 0 ≤ i ∧ i < 24 ∧ 0 ≤ j ∧ j < 80 := Iff.rfl

theorem onScreen_cast {i j : ℕ} (hi : i < maxRow) (hj : j < maxColumn) : OnScreen (i, j) :=
  ⟨Int.natCast_nonneg i, Int.ofNat_lt.2 hi, Int.natCast_nonneg j, Int.ofNat_lt.2 hj⟩

theorem drawn_rowLoop {i : ℕ} (hi : i < maxRow) (char : Screen → ℤ → ℕ) :
    Drawn s (rowLoop i char maxColumn s) := by
  rw [rowLoop]
  refine List.foldlRecOn (motive := Drawn s) _ _ (Drawn.refl s) fun s₁ hs₁ j hj => hs₁.trans ?_
  exact drawn_put (onScreen_cast hi (List.mem_range.1 hj)) _

theorem drawn_scollScreenUp (s : Screen) : Drawn s s.scollScreenUp := by
  have hcopy : Drawn s (copyRows (maxRow - 1) s) := by
    rw [copyRows]
    refine List.foldlRecOn (motive := Drawn s) _ _ (Drawn.refl s) fun s₁ hs₁ i hi => hs₁.trans ?_
    exact drawn_rowLoop (Nat.lt_of_lt_pred (List.mem_range.1 hi)) _
  exact hcopy.trans (drawn_rowLoop (by decide) _)

/-! ### The cursor -/

theorem Good.drawn (h : Good s) (hd : Drawn s s') : Good s' where
  cursor := by
    rw [hd.row, hd.col]
    exact h.cursor
  stores := hd.stores h.stores

theorem Good.moveTo (h : Good s) {row col : ℤ} (hc : OnScreen (row, col)) :
    Good { s with row := row, col := col } := ⟨hc, h.stores⟩

theorem Good.nextRow (h : Good s) : Good s.nextRow := by
  obtain ⟨hlo, hhi, -⟩ := onScreen_iff.1 h.cursor
  rw [Screen.nextRow]
  simp only
  split_ifs with hlast
  · exact (h.drawn (drawn_scollScreenUp s)).moveTo (by decide)
  · have hne : s.row + 1 ≠ 24 := hlast
    exact h.moveTo (onScreen_iff.2 ⟨by omega, by omega, by omega, by omega⟩)

theorem Good.nextCol (h : Good s) : Good s.nextCol := by
  obtain ⟨hrow, hrow', hlo, hhi⟩ := onScreen_iff.1 h.cursor
  rw [Screen.nextCol]
  split_ifs with hlast
  · have hne : s.col + 1 ≠ 80 := hlast
    exact h.moveTo (onScreen_iff.2 ⟨hrow, hrow', by omega, by omega⟩)
  · exact h.nextRow

/-- A store to the row of the cursor. -/
theorem Good.put (h : Good s) {col : ℤ} (hcol : 0 ≤ col ∧ col < 80) (c : ℕ) :
    Good (s.put s.row col c) := by
  obtain ⟨hrow, hrow', -⟩ := onScreen_iff.1 h.cursor
  exact h.drawn (drawn_put (onScreen_iff.2 ⟨hrow, hrow', hcol⟩) c)

/-- The loop of a tab, as far as it does not leave the row. -/
theorem tabLoop_spec {n : ℕ} (h : Good s) (hn : s.col + n ≤ 80) :
    (tabLoop n s).row = s.row ∧ (tabLoop n s).col = s.col + n ∧
      ∀ p ∈ (tabLoop n s).stores, OnScreen p := by
  induction n generalizing s with
  | zero => exact ⟨rfl, by simp [tabLoop], h.stores⟩
  | succ n ih =>
    obtain ⟨hrow, hrow', hlo, hhi⟩ := onScreen_iff.1 h.cursor
    rw [tabLoop]
    cases n with
    | zero =>
      -- the cursor may leave the row in the last turn
      exact ⟨rfl, by simp [tabLoop, Screen.put], (h.put ⟨hlo, hhi⟩ 32).stores⟩
    | succ n =>
      have h₁ : Good { s.put s.row s.col 32 with col := s.col + 1 } :=
        (h.put ⟨hlo, hhi⟩ 32).moveTo (onScreen_iff.2 ⟨hrow, hrow', by omega, by omega⟩)
      have hn₁ : s.col + 1 + ((n + 1 : ℕ) : ℤ) ≤ 80 := by omega
      obtain ⟨hrows, hcols, hstores⟩ := ih h₁ hn₁
      exact ⟨hrows, hcols.trans (by push_cast; omega), hstores⟩

theorem Good.clearScreen (h : Good s) : Good s.clearScreen := by
  have hdrawn : Drawn s (scollScreenUp^[s.row.toNat] s) :=
    Function.Iterate.rec (Drawn s) (Drawn.refl s)
      (fun s₁ hs₁ => hs₁.trans (drawn_scollScreenUp s₁)) _
  obtain ⟨-, -, hlo, hhi⟩ := onScreen_iff.1 (h.drawn hdrawn).cursor
  exact (h.drawn hdrawn).moveTo (onScreen_iff.2 ⟨by omega, by omega, hlo, hhi⟩)

/-! ### One call -/

/-- A tab keeps to the screen exactly if there is room for it. -/
theorem good_tab_iff (h : Good s) :
    Good (tabLoop (8 - s.col.tmod 8).toNat s).nextCol ↔ s.col < 72 := by
  obtain ⟨hrow, hrow', hlo, hhi⟩ := onScreen_iff.1 h.cursor
  -- the loop goes to the next multiple of 8
  obtain ⟨n, hturns⟩ : ∃ n, n = (8 - s.col.tmod 8).toNat := ⟨_, rfl⟩
  have hend : s.col + n = (s.col / 8 + 1) * 8 := by
    rw [hturns, Int.tmod_eq_emod_of_nonneg hlo]
    omega
  obtain ⟨hrows, hcols, hstores⟩ := tabLoop_spec (n := n) h (by omega)
  rw [← hturns]
  constructor
  · intro hgood
    by_contra hroom
    have hlast : (tabLoop n s).col + 1 ≠ maxColumn := by
      rw [hcols]
      show s.col + n + 1 ≠ 80
      omega
    rw [Screen.nextCol, if_pos hlast] at hgood
    have hcol : (tabLoop n s).col + 1 < 80 := (onScreen_iff.1 hgood.cursor).2.2.2
    omega
  · intro hroom
    have hgood : Good (tabLoop n s) := by
      refine ⟨onScreen_iff.2 ?_, hstores⟩
      rw [hrows, hcols]
      exact ⟨hrow, hrow', by omega, by omega⟩
    exact hgood.nextCol

/-- **A call** keeps the cursor and the stores on the screen exactly if it has room. -/
theorem good_step_iff (h : Good s) (a : Act) : ∃ s', s.step a = .ok s' ∧ (Good s' ↔ HasRoom s a) := by
  cases a with
  | clear => exact ⟨_, rfl, iff_of_true h.clearScreen trivial⟩
  | print c stdinBufSize =>
    refine ⟨_, rfl, ?_⟩
    obtain ⟨hrow, hrow', hlo, hhi⟩ := onScreen_iff.1 h.cursor
    rw [printToScreen, HasRoom]
    by_cases hplain : c ≠ 9 ∧ c ≠ 10 ∧ c ≠ 8 ∧ c ≠ 13 ∧ c ≠ 14
    · rw [if_pos hplain]
      obtain ⟨h9, -, -, -, h14⟩ := hplain
      exact iff_of_true (h.put ⟨hlo, hhi⟩ c).nextCol ⟨fun hc => absurd hc h9, fun hc => absurd hc h14⟩
    rw [if_neg hplain]
    by_cases hten : c = 10
    · rw [if_pos hten]
      exact iff_of_true h.nextRow ⟨by omega, by omega⟩
    rw [if_neg hten]
    by_cases htab : c = 9
    · rw [if_pos htab, good_tab_iff h]
      exact ⟨fun hroom => ⟨fun _ => hroom, by omega⟩, fun hroom => hroom.1 htab⟩
    rw [if_neg htab]
    by_cases hback : c = 14
    · rw [if_pos hback]
      by_cases hsize : stdinBufSize > 0
      · rw [if_pos hsize]
        constructor
        · intro hgood
          have hcol : 0 ≤ s.col - 1 := (onScreen_iff.1 hgood.cursor).2.2.1
          exact ⟨by omega, fun _ _ => by omega⟩
        · rintro ⟨-, hroom⟩
          have hpos := hroom hback hsize
          exact (h.put ⟨by omega, by omega⟩ 32).moveTo (onScreen_iff.2 ⟨hrow, hrow', by omega, by omega⟩)
      · rw [if_neg hsize]
        exact iff_of_true h ⟨by omega, fun _ hpos => absurd hpos hsize⟩
    · rw [if_neg hback]
      exact iff_of_true h ⟨fun hc => absurd hc htab, fun hc => absurd hc hback⟩

/-! ### Runs -/

/-- **The cursor and all the stores are on the screen in a run exactly if** there is room for each tab and
each backspace. -/
theorem onScreen_iff_room (buffer : ℤ → ℕ) (acts : List Act) :
    Always step Good (start buffer) acts ↔ Along step HasRoom (start buffer) acts := by
  have hcursor : OnScreen (0, 0) := by decide
  have hstart : Good (start buffer) := ⟨hcursor, fun p hp => absurd hp List.not_mem_nil⟩
  refine always_iff_along (H := fun _ _ => True) hstart (fun s hs => hs) ?_ ?_
    (along_of_forall (fun _ _ => trivial) _ _)
  · intro s a s' hs _ hroom hstep
    obtain ⟨t, ht, hiff⟩ := good_step_iff hs a
    obtain rfl := Except.ok.inj (ht.symm.trans hstep)
    exact hiff.2 hroom
  · intro s a hs _ hroom
    obtain ⟨t, ht, hiff⟩ := good_step_iff hs a
    exact ⟨t, ht, mt hiff.1 hroom⟩

/-- A tab in column 72 moves the cursor to column 81. -/
theorem onScreen_fails : ¬∀ (buffer : ℤ → ℕ) (acts : List Act), Always step Good (start buffer) acts := by
  intro hall
  obtain ⟨acts, hacts⟩ : ∃ acts, acts = List.replicate 72 (Act.print 97 0) ++ [.print 9 0] := ⟨_, rfl⟩
  have hrun : reaches (run step (start fun _ => 0) acts) (fun s => decide (¬OnScreen (s.row, s.col))) =
      true := by
    rw [hacts]
    decide +kernel
  obtain ⟨s, hs, hout⟩ := exists_of_reaches hrun
  exact of_decide_eq_true hout ((hall _ acts).of_run hs).cursor

end Screen

end PlumOs
