import PlumOs.Tty.Screen

/-!
# What the screen shows (`sys/printf.c`)

`print_to_screen` knows only the cursor, while the text is unbounded.  `layout` breaks a whole text into
rows; the screen shows the last ones.

* `layout` : the rows of a text, broken after each newline and after every 80 columns;
* `layout_newline`, `layout_char` : what one more character does to the rows;
* `Screen.Shows` : the screen shows the tail of the rows;
* `Shows.nextRow`, `Shows.nextCol` : the branches of `print_to_screen` append to the rows;
* `Screen.shows_layout` : **after a text is printed the screen shows the tail of its layout**.
-/

namespace PlumOs

/-! ### The layout of a text -/

/-- The rows of a line: a new row begins after every 80 columns. -/
def wrapLine (line : List ℕ) : List (List ℕ) :=
  (List.range (line.length / maxColumn + 1)).map fun k => (line.drop (maxColumn * k)).take maxColumn

/-- The rows of a text. -/
def layout (text : List ℕ) : List (List ℕ) := (text.splitOn 10).flatMap wrapLine

/-- The last row of a line is not full. -/
theorem wrapLine_eq (line : List ℕ) :
    wrapLine line =
      ((List.range (line.length / 80)).map fun k => (line.drop (80 * k)).take 80) ++
        [line.drop (80 * (line.length / 80))] := by
  have hlast : (line.drop (80 * (line.length / 80))).take 80 = line.drop (80 * (line.length / 80)) :=
    List.take_of_length_le (by rw [List.length_drop]; omega)
  show (List.range (line.length / 80 + 1)).map (fun k => (line.drop (80 * k)).take 80) = _
  rw [List.range_succ, List.map_append, List.map_singleton, hlast]

theorem wrapLine_nil : wrapLine [] = [[]] := wrapLine_eq []

theorem length_le_of_mem_layout {text row : List ℕ} (h : row ∈ layout text) : row.length ≤ 80 := by
  obtain ⟨line, -, hrow⟩ := List.mem_flatMap.1 h
  obtain ⟨k, -, rfl⟩ := List.mem_map.1 hrow
  exact List.length_take_le _ _

/-- The rows before the last one, and the last one. -/
structure Splits (rows : List (List ℕ)) (done : List (List ℕ)) (cur : List ℕ) : Prop where
  eq : rows = done ++ [cur]
  short : cur.length < 80

theorem Splits.unique {rows done done' : List (List ℕ)} {cur cur' : List ℕ} (h : Splits rows done cur)
    (h' : Splits rows done' cur') : done = done' ∧ cur = cur' := by
  obtain ⟨hdone, hcur⟩ := List.append_inj' (h.eq.symm.trans h'.eq) rfl
  exact ⟨hdone, List.singleton_injective hcur⟩

/-- A line has got another character. -/
theorem wrapLine_char (line : List ℕ) : ∃ done cur, Splits (wrapLine line) done cur ∧
    ∀ c, wrapLine (line ++ [c]) =
      if cur.length + 1 = 80 then done ++ [cur ++ [c], []] else done ++ [cur ++ [c]] := by
  obtain ⟨q, hq⟩ : ∃ q, q = line.length / 80 := ⟨_, rfl⟩
  have hcur : (line.drop (80 * q)).length = line.length - 80 * q := List.length_drop
  refine ⟨_, line.drop (80 * q), ⟨hq ▸ wrapLine_eq line, by omega⟩, fun c => ?_⟩
  have hlen : (line ++ [c]).length = line.length + 1 := List.length_append
  -- the full rows are the same
  have hfull : ((List.range q).map fun k => ((line ++ [c]).drop (80 * k)).take 80) =
      (List.range q).map fun k => (line.drop (80 * k)).take 80 := by
    refine List.map_congr_left fun k hk => ?_
    have hk : k < q := List.mem_range.1 hk
    have hrow : (line.drop (80 * k)).length = line.length - 80 * k := List.length_drop
    rw [List.drop_append_of_le_length (by omega), List.take_append_of_le_length (by omega)]
  have hrow : (line ++ [c]).drop (80 * q) = line.drop (80 * q) ++ [c] :=
    List.drop_append_of_le_length (by omega)
  rw [wrapLine_eq, hlen, hcur]
  split_ifs with hwrap
  · have hdiv : (line.length + 1) / 80 = q + 1 := by omega
    have htake : (line.drop (80 * q) ++ [c]).take 80 = line.drop (80 * q) ++ [c] :=
      List.take_of_length_le (by rw [List.length_append, hcur]; exact hwrap.le)
    have hnil : (line ++ [c]).drop (80 * (q + 1)) = [] := List.drop_of_length_le (by omega)
    rw [hdiv, List.range_succ, List.map_append, List.map_singleton, hfull, hrow, htake, hnil,
      List.append_assoc]
    rfl
  · have hdiv : (line.length + 1) / 80 = q := by omega
    rw [hdiv, hfull, hrow]

/-- The last line of a text gets the character, if it is not a newline. -/
theorem splitOn_char (text : List ℕ) : ∃ lines line, text.splitOn 10 = lines ++ [line] ∧
    ∀ c ≠ 10, (text ++ [c]).splitOn 10 = lines ++ [line ++ [c]] := by
  induction text with
  | nil =>
    refine ⟨[], [], List.splitOn_nil 10, fun c hc => ?_⟩
    exact List.splitOn_eq_singleton (by simpa using hc.symm)
  | cons x text ih =>
    obtain ⟨lines, line, htext, hchar⟩ := ih
    by_cases hx : x = 10
    · refine ⟨[] :: lines, line, ?_, fun c hc => ?_⟩
      · rw [List.splitOn_cons_eq_if_modifyHead, if_pos (beq_iff_eq.2 hx), htext, List.cons_append]
      · rw [List.cons_append, List.splitOn_cons_eq_if_modifyHead, if_pos (beq_iff_eq.2 hx), hchar c hc,
          List.cons_append]
    · have hx : ¬(x == 10) = true := mt beq_iff_eq.1 hx
      -- the character goes to the first line, which may be the last one
      cases lines with
      | nil =>
        refine ⟨[], x :: line, ?_, fun c hc => ?_⟩
        · rw [List.splitOn_cons_eq_if_modifyHead, if_neg hx, htext]
          rfl
        · rw [List.cons_append, List.splitOn_cons_eq_if_modifyHead, if_neg hx, hchar c hc]
          rfl
      | cons first lines =>
        refine ⟨(x :: first) :: lines, line, ?_, fun c hc => ?_⟩
        · rw [List.splitOn_cons_eq_if_modifyHead, if_neg hx, htext]
          rfl
        · rw [List.cons_append, List.splitOn_cons_eq_if_modifyHead, if_neg hx, hchar c hc]
          rfl

theorem layout_nil : layout [] = [[]] := by
  rw [layout, List.splitOn_nil, List.flatMap_singleton, wrapLine_nil]

/-- **A newline** begins a row, also if one has just begun. -/
theorem layout_newline (text : List ℕ) : layout (text ++ [10]) = layout text ++ [[]] := by
  rw [layout, List.splitOn_append_cons_self, List.flatMap_append, List.splitOn_nil,
    List.flatMap_singleton, wrapLine_nil]
  rfl

example : layout (List.replicate 80 97 ++ [10, 98]) = [List.replicate 80 97, [], [98]] := by
  decide +kernel

/-- **Any other character** goes to the last row, and begins a row if this one is full. -/
theorem layout_char (text : List ℕ) : ∃ done cur, Splits (layout text) done cur ∧
    ∀ c ≠ 10, layout (text ++ [c]) =
      if cur.length + 1 = 80 then done ++ [cur ++ [c], []] else done ++ [cur ++ [c]] := by
  obtain ⟨lines, line, htext, hchar⟩ := splitOn_char text
  obtain ⟨done, cur, hsplit, hwrap⟩ := wrapLine_char line
  refine ⟨lines.flatMap wrapLine ++ done, cur, ⟨?_, hsplit.short⟩, fun c hc => ?_⟩
  · rw [layout, htext, List.flatMap_append, List.flatMap_singleton, hsplit.eq, List.append_assoc]
  · rw [layout, hchar c hc, List.flatMap_append, List.flatMap_singleton, hwrap c]
    split_ifs <;> rw [List.append_assoc]

/-! ### The cells of the screen -/

namespace Screen

variable {s : Screen} {i i' j j' : ℕ}

/-- The character in a cell. -/
def shown (s : Screen) (i j : ℕ) : ℕ := s.buffer (cell i j)

theorem cell_eq (row col : ℤ) : cell row col = row * 160 + col * 2 := by
  show row * (80 : ℕ) * 2 + col * 2 = _
  omega

theorem shown_put (s : Screen) (i j c : ℕ) : (s.put i j c).shown i j = c := by
  have hne : cell i j ≠ cell i j + 1 := by omega
  show Function.update (Function.update s.buffer (cell i j) c) (cell i j + 1) 0 (cell i j) = c
  rw [Function.update_of_ne hne, Function.update_self]

theorem shown_put_of_ne (hj : j < 80) (hj' : j' < 80) (h : i' ≠ i ∨ j' ≠ j) (c : ℕ) :
    (s.put i j c).shown i' j' = s.shown i' j' := by
  have hchar : cell i' j' ≠ cell i j := by
    rw [cell_eq, cell_eq]
    omega
  have hattr : cell i' j' ≠ cell i j + 1 := by
    rw [cell_eq, cell_eq]
    omega
  show Function.update (Function.update s.buffer (cell i j) c) (cell i j + 1) 0 (cell i' j') = _
  rw [Function.update_of_ne hattr, Function.update_of_ne hchar, shown]

theorem rowLoop_succ (i : ℤ) (char : Screen → ℤ → ℕ) (n : ℕ) (s : Screen) :
    rowLoop i char (n + 1) s = (rowLoop i char n s).put i n (char (rowLoop i char n s) n) := by
  rw [rowLoop, List.range_succ, List.foldl_append]
  rfl

/-- A loop over a row leaves the other rows. -/
theorem shown_rowLoop_of_ne (char : Screen → ℤ → ℕ) (hi : i' ≠ i) (hj : j < 80) {n : ℕ} (hn : n ≤ 80) :
    (rowLoop i char n s).shown i' j = s.shown i' j := by
  induction n with
  | zero => rfl
  | succ n ih => rw [rowLoop_succ, shown_put_of_ne (by omega) hj (.inl hi), ih (by omega)]

/-- A loop over a row stores the characters as they are found. -/
theorem shown_rowLoop {char : Screen → ℤ → ℕ} (found : ℕ → ℕ) {n : ℕ} (hn : n ≤ 80)
    (hchar : ∀ m < n, char (rowLoop i char m s) m = found m) (hj : j < n) :
    (rowLoop i char n s).shown i j = found j := by
  induction n with
  | zero => exact absurd hj (Nat.not_lt_zero j)
  | succ n ih =>
    rw [rowLoop_succ]
    obtain rfl | hlt := Nat.eq_or_lt_of_le (Nat.le_of_lt_succ hj)
    · rw [shown_put, hchar j (Nat.lt_succ_self j)]
    · rw [shown_put_of_ne (by omega) (by omega) (.inr (by omega))]
      exact ih (by omega) (fun m hm => hchar m (by omega)) hlt

theorem copyRows_succ (n : ℕ) (s : Screen) :
    copyRows (n + 1) s =
      rowLoop n (fun s j => s.buffer (cell ((n : ℤ) + 1) j)) maxColumn (copyRows n s) := by
  rw [copyRows, List.range_succ, List.foldl_append, List.foldl_cons, List.foldl_nil, ← copyRows]

theorem shown_copyRows (hj : j < 80) (n : ℕ) :
    (copyRows n s).shown i j = if i < n then s.shown (i + 1) j else s.shown i j := by
  induction n generalizing i j with
  | zero => rfl
  | succ n ih =>
    rw [copyRows_succ]
    obtain rfl | hne := eq_or_ne i n
    · -- the row below has not been stored to
      have hfound : ∀ m < 80, (rowLoop i (fun s j => s.buffer (cell ((i : ℤ) + 1) j)) m
          (copyRows i s)).buffer (cell ((i : ℤ) + 1) m) = s.shown (i + 1) m := fun m hm => by
        have hrow : (rowLoop i (fun s j => s.buffer (cell ((i : ℤ) + 1) j)) m
            (copyRows i s)).shown (i + 1) m = (copyRows i s).shown (i + 1) m :=
          shown_rowLoop_of_ne _ (Nat.succ_ne_self i) hm hm.le
        rw [ih hm, if_neg (by omega)] at hrow
        exact hrow
      rw [shown_rowLoop (s.shown (i + 1)) le_rfl hfound hj, if_pos (Nat.lt_succ_self i)]
    · have hiff : i < n + 1 ↔ i < n := by omega
      rw [shown_rowLoop_of_ne _ hne hj le_rfl, ih hj]
      simp only [hiff]

/-- **A scroll** moves the rows up, and the last row is blank. -/
theorem shown_scollScreenUp (hi : i < 24) (hj : j < 80) :
    s.scollScreenUp.shown i j = if i < 23 then s.shown (i + 1) j else 32 := by
  have hscroll : s.scollScreenUp = rowLoop (23 : ℕ) (fun _ _ => 32) 80 (copyRows 23 s) := rfl
  rw [hscroll]
  split_ifs with hlast
  · rw [shown_rowLoop_of_ne _ hlast.ne hj le_rfl, shown_copyRows hj, if_pos hlast]
  · obtain rfl : i = 23 := by omega
    exact shown_rowLoop (fun _ => 32) le_rfl (fun _ _ => rfl) hj

/-! ### The tail of the rows -/

/-- The rows that the screen has room for: the last ones. -/
def tail (rows : List (List ℕ)) : List (List ℕ) := rows.drop (rows.length - maxRow)

/-- The screen shows the tail of the rows, from its row 0 to the row of the cursor.  All but the first
`maxRow` rows came in by a scroll, which left them blank behind their text. -/
structure Shows (s : Screen) (rows : List (List ℕ)) : Prop where
  /-- The cursor is in the last row. -/
  row : s.row + 1 = (tail rows).length
  /-- The characters of the last rows. -/
  text : ∀ i row, (tail rows)[i]? = some row → ∀ j c, row[j]? = some c → s.shown i j = c
  /-- Spaces are behind them. -/
  blank : ∀ i row, (tail rows)[i]? = some row → maxRow ≤ rows.length - maxRow + i →
    ∀ j, row.length ≤ j → j < maxColumn → s.shown i j = 32

theorem getElem?_snoc_iff {α : Type} {l : List α} {a b : α} :
    (l ++ [a])[i]? = some b ↔ l[i]? = some b ∨ i = l.length ∧ a = b := by
  obtain hlt | rfl | hgt := lt_trichotomy i l.length
  · rw [List.getElem?_append_left hlt]
    exact ⟨.inl, fun h => h.resolve_right fun hlast => hlt.ne hlast.1⟩
  · rw [List.getElem?_concat_length, List.getElem?_eq_none le_rfl, Option.some_inj]
    simp
  · have hlen : (l ++ [a]).length ≤ i := by
      rw [List.length_append, List.length_singleton]
      exact hgt
    rw [List.getElem?_eq_none hlen, List.getElem?_eq_none hgt.le]
    simp [hgt.ne']

theorem tail_snoc (done : List (List ℕ)) (cur : List ℕ) :
    tail (done ++ [cur]) = done.drop (done.length + 1 - 24) ++ [cur] := by
  rw [tail, List.length_append, List.length_singleton, List.drop_append_of_le_length]
  show done.length + 1 - 24 ≤ _
  omega

variable {done rows : List (List ℕ)} {cur : List ℕ}

/-- A character at the cursor. -/
theorem Shows.put (h : Shows s (done ++ [cur])) (hwidth : ∀ row ∈ done, row.length ≤ 80)
    (hcol : s.col = cur.length) (hshort : cur.length < 80) (c : ℕ) :
    Shows (s.put s.row s.col c) (done ++ [cur ++ [c]]) := by
  obtain ⟨hrow, htext, hblank⟩ := h
  have hlen : (done ++ [cur ++ [c]]).length = (done ++ [cur]).length := by
    rw [List.length_append, List.length_append]
    rfl
  rw [tail_snoc] at hrow htext hblank
  obtain ⟨d, hd⟩ : ∃ d, d = done.drop (done.length + 1 - 24) := ⟨_, rfl⟩
  rw [← hd] at hrow htext hblank
  have hrow : s.row = d.length := by
    rw [List.length_append, List.length_singleton] at hrow
    omega
  have hother : ∀ i row, d[i]? = some row → i ≠ d.length ∧ row.length ≤ 80 := fun i row hi => by
    have hmem : row ∈ done := List.mem_of_mem_drop (hd ▸ List.mem_of_getElem? hi)
    exact ⟨(List.getElem?_eq_some_iff.1 hi).1.ne, hwidth row hmem⟩
  refine ⟨?_, ?_, ?_⟩ <;> rw [tail_snoc, ← hd]
  · show s.row + 1 = _
    rw [hrow, List.length_append]
    rfl
  · intro i row hi j ch hj
    rw [hrow, hcol]
    obtain hi | ⟨rfl, rfl⟩ := getElem?_snoc_iff.1 hi
    · obtain ⟨hne, hle⟩ := hother i row hi
      have hlt := (List.getElem?_eq_some_iff.1 hj).1
      rw [shown_put_of_ne hshort (by omega) (.inl hne)]
      exact htext i row (getElem?_snoc_iff.2 (.inl hi)) j ch hj
    · obtain hj | ⟨rfl, rfl⟩ := getElem?_snoc_iff.1 hj
      · have hlt := (List.getElem?_eq_some_iff.1 hj).1
        rw [shown_put_of_ne hshort (by omega) (.inr hlt.ne)]
        exact htext _ cur List.getElem?_concat_length j ch hj
      · exact shown_put s _ _ _
  · intro i row hi hscroll j hj hj'
    rw [hlen] at hscroll
    rw [hrow, hcol]
    obtain hi | ⟨rfl, rfl⟩ := getElem?_snoc_iff.1 hi
    · rw [shown_put_of_ne hshort hj' (.inl (hother i row hi).1)]
      exact hblank i row (getElem?_snoc_iff.2 (.inl hi)) hscroll j hj hj'
    · have hj : cur.length + 1 ≤ j := by simpa using hj
      rw [shown_put_of_ne hshort hj' (.inr (by omega))]
      exact hblank _ cur List.getElem?_concat_length hscroll j (by omega) hj'

theorem shown_moveTo (s : Screen) (row col : ℤ) (i j : ℕ) :
    { s with row := row, col := col }.shown i j = s.shown i j := rfl

/-- A row begins. -/
theorem Shows.nextRow (h : Shows s rows) (hwidth : ∀ row ∈ rows, row.length ≤ 80) :
    Shows s.nextRow (rows ++ [[]]) := by
  obtain ⟨hrow, htext, hblank⟩ := h
  have hlen : (tail rows).length = rows.length - (rows.length - 24) := List.length_drop
  have hdrop : (rows.drop (rows.length + 1 - 24)).length = rows.length - (rows.length + 1 - 24) :=
    List.length_drop
  have hnew : (rows ++ [[]]).length = rows.length + 1 := List.length_append
  have hnewtail : (tail (rows ++ [[]])).length = (rows.drop (rows.length + 1 - 24)).length + 1 := by
    rw [tail_snoc, List.length_append]
    rfl
  rw [Screen.nextRow]
  simp only
  split_ifs with hlast
  · have hlast : s.row + 1 = 24 := hlast
    -- a row of the new tail was one row below, or is the new one
    have hrows : ∀ i row, (tail (rows ++ [[]]))[i]? = some row →
        i < 23 ∧ (tail rows)[i + 1]? = some row ∨ i = 23 ∧ row = [] := fun i row hi => by
      rw [tail_snoc] at hi
      obtain hi | ⟨rfl, rfl⟩ := getElem?_snoc_iff.1 hi
      · have hlt := (List.getElem?_eq_some_iff.1 hi).1
        have hsame : rows.length + 1 - 24 + i = rows.length - 24 + (i + 1) := by omega
        rw [List.getElem?_drop, hsame, ← List.getElem?_drop] at hi
        exact .inl ⟨by omega, hi⟩
      · exact .inr ⟨by omega, rfl⟩
    refine ⟨?_, fun i row hi j c hj => ?_, fun i row hi hscroll j hj hj' => ?_⟩
    · show ((24 - 1 : ℕ) : ℤ) + 1 = _
      omega
    · obtain ⟨hi', hi⟩ | ⟨rfl, rfl⟩ := hrows i row hi
      · have hlt := (List.getElem?_eq_some_iff.1 hj).1
        have hle := hwidth row (List.mem_of_mem_drop (List.mem_of_getElem? hi))
        rw [shown_moveTo, shown_scollScreenUp (by omega) (by omega), if_pos hi']
        exact htext _ row hi j c hj
      · exact absurd hj (by simp)
    · obtain ⟨hi', hi⟩ | ⟨rfl, rfl⟩ := hrows i row hi
      · have hscroll : 24 ≤ rows.length - 24 + (i + 1) := by omega
        rw [shown_moveTo, shown_scollScreenUp (by omega) hj', if_pos hi']
        exact hblank _ row hi hscroll j hj hj'
      · rw [shown_moveTo]
        exact shown_scollScreenUp (by omega) hj'
  · have hlast : s.row + 1 ≠ 24 := hlast
    -- all the rows have room, the new one too
    have hall : rows.length < 24 := by omega
    have hrows : ∀ i row, (tail (rows ++ [[]]))[i]? = some row →
        (tail rows)[i]? = some row ∨ row = [] := fun i row hi => by
      rw [tail_snoc] at hi
      obtain hi | ⟨-, rfl⟩ := getElem?_snoc_iff.1 hi
      · have hsame : rows.length + 1 - 24 + i = rows.length - 24 + i := by omega
        rw [List.getElem?_drop, hsame, ← List.getElem?_drop] at hi
        exact .inl hi
      · exact .inr rfl
    refine ⟨?_, fun i row hi j c hj => ?_, fun i row hi hscroll j hj hj' => ?_⟩
    · show s.row + 1 + 1 = _
      omega
    · obtain hi | rfl := hrows i row hi
      · exact htext i row hi j c hj
      · exact absurd hj (by simp)
    · have hlt := (List.getElem?_eq_some_iff.1 hi).1
      have hscroll : 24 ≤ (rows ++ [[]]).length - 24 + i := hscroll
      omega

/-! ### Texts -/

/-- The characters of a text are printed; `stdin_buf_size` may be another one at each call. -/
def printText (s : Screen) (calls : List (ℕ × ℤ)) : Screen :=
  calls.foldl (fun s call => s.printToScreen call.2 call.1) s

/-- After a text the cursor is behind the last row. -/
structure Written (s : Screen) (text : List ℕ) : Prop where
  shows : Shows s (layout text)
  col : ∀ done cur, Splits (layout text) done cur → s.col = cur.length

theorem written_start (buffer : ℤ → ℕ) : Written (start buffer) [] where
  shows := by
    rw [layout_nil]
    refine ⟨rfl, fun i row hi j c hj => ?_, fun i row hi hscroll => ?_⟩
    · obtain rfl : row = [] := List.mem_singleton.1 (List.mem_of_getElem? hi)
      exact absurd hj (by simp)
    · have hlt : i < 1 := (List.getElem?_eq_some_iff.1 hi).1
      have hscroll : 24 ≤ 1 - 24 + i := hscroll
      omega
  col done cur h := by
    rw [layout_nil] at h
    have hempty : Splits [[]] [] [] := ⟨rfl, by decide⟩
    obtain ⟨-, rfl⟩ := hempty.unique h
    rfl

theorem nextRow_col (s : Screen) : s.nextRow.col = 0 := by
  rw [Screen.nextRow]
  simp only
  split_ifs <;> rfl

theorem Shows.setCol (h : Shows s rows) (col : ℤ) : Shows { s with col := col } rows :=
  ⟨h.row, h.text, h.blank⟩

/-- The cursor goes on in a row that is not full, and to the next row behind a full one. -/
theorem Shows.nextCol (h : Shows s (done ++ [cur])) (hwidth : ∀ row ∈ done ++ [cur], row.length ≤ 80)
    (hcol : s.col + 1 = cur.length) :
    Shows s.nextCol (if cur.length = 80 then done ++ [cur, []] else done ++ [cur]) ∧
      s.nextCol.col = if cur.length = 80 then 0 else (cur.length : ℤ) := by
  rw [Screen.nextCol]
  by_cases hfull : cur.length = 80
  · have hlast : ¬s.col + 1 ≠ maxColumn := by
      rw [hcol, hfull]
      exact not_not_intro rfl
    rw [if_neg hlast, if_pos hfull, if_pos hfull]
    have hsnoc : done ++ [cur] ++ [[]] = done ++ [cur, []] := List.append_assoc _ _ _
    rw [← hsnoc]
    exact ⟨h.nextRow hwidth, nextRow_col s⟩
  · have hroom : s.col + 1 ≠ maxColumn := by
      rw [hcol]
      exact fun heq => hfull (Int.ofNat.inj heq)
    rw [if_pos hroom, if_neg hfull, if_neg hfull]
    exact ⟨h.setCol _, hcol⟩

/-- **A character** is printed as the layout has it. -/
theorem Written.print {text : List ℕ} (h : Written s text) {c : ℕ}
    (hc : c ≠ 9 ∧ c ≠ 8 ∧ c ≠ 13 ∧ c ≠ 14) (stdinBufSize : ℤ) :
    Written (s.printToScreen stdinBufSize c) (text ++ [c]) := by
  obtain ⟨h9, h8, h13, h14⟩ := hc
  rw [printToScreen]
  obtain rfl | h10 := eq_or_ne c 10
  · have hnot : ¬(10 ≠ 9 ∧ 10 ≠ 10 ∧ 10 ≠ 8 ∧ 10 ≠ 13 ∧ 10 ≠ 14) := by decide
    rw [if_neg hnot, if_pos rfl]
    refine ⟨?_, fun done cur hsplit => ?_⟩
    · rw [layout_newline]
      exact h.shows.nextRow fun row hrow => length_le_of_mem_layout hrow
    · obtain ⟨-, rfl⟩ := hsplit.unique ⟨layout_newline text, by decide⟩
      exact nextRow_col s
  · rw [if_pos ⟨h9, h10, h8, h13, h14⟩]
    obtain ⟨done, cur, hsplit, hchar⟩ := layout_char text
    have hcol := h.col done cur hsplit
    have hshows : Shows s (done ++ [cur]) := hsplit.eq ▸ h.shows
    have hwidth : ∀ row ∈ done, row.length ≤ 80 := fun row hrow => by
      have hmem : row ∈ layout text := hsplit.eq ▸ List.mem_append_left _ hrow
      exact length_le_of_mem_layout hmem
    have hlen : (cur ++ [c]).length = cur.length + 1 := List.length_append
    have hwidth' : ∀ row ∈ done ++ [cur ++ [c]], row.length ≤ 80 := fun row hrow => by
      obtain hrow | hrow := List.mem_append.1 hrow
      · exact hwidth row hrow
      · rw [List.mem_singleton.1 hrow, hlen]
        exact hsplit.short
    have hcol' : (s.put s.row s.col c).col + 1 = ((cur ++ [c]).length : ℤ) := by
      rw [hlen, Nat.cast_succ, ← hcol]
      rfl
    obtain ⟨hnext, hnextCol⟩ := (hshows.put hwidth hcol hsplit.short c).nextCol hwidth' hcol'
    rw [hlen] at hnext hnextCol
    refine ⟨?_, fun done' cur' hsplit' => ?_⟩
    · rw [hchar c h10]
      exact hnext
    · rw [hchar c h10] at hsplit'
      rw [hnextCol]
      split_ifs at hsplit' ⊢ with hfull
      · have hnew : Splits (done ++ [cur ++ [c], []]) (done ++ [cur ++ [c]]) [] :=
          ⟨by simp, by decide⟩
        obtain ⟨-, rfl⟩ := hsplit'.unique hnew
        rfl
      · have hroom := hsplit.short
        obtain ⟨-, rfl⟩ := hsplit'.unique ⟨rfl, by omega⟩
        rw [hlen]

/-- **After a text is printed the screen shows the tail of its layout.** -/
theorem shows_layout (buffer : ℤ → ℕ) (calls : List (ℕ × ℤ))
    (hcalls : ∀ call ∈ calls, call.1 ≠ 9 ∧ call.1 ≠ 8 ∧ call.1 ≠ 13 ∧ call.1 ≠ 14) :
    Shows ((start buffer).printText calls) (layout (calls.map Prod.fst)) := by
  refine Written.shows ?_
  induction calls using List.reverseRecOn with
  | nil => exact written_start buffer
  | append_singleton calls call ih =>
    have hprinted := ih fun call' hcall' => hcalls call' (List.mem_append_left _ hcall')
    have hcall := hcalls call (List.mem_append_right _ (List.mem_singleton_self call))
    rw [printText, List.foldl_append, List.map_append]
    exact hprinted.print hcall call.2

/-- Two rows. -/
theorem shows_layout_short : layout [97, 10, 98] = [[97], [98]] ∧
    Shows ((start fun _ => 0).printText [(97, 0), (10, 0), (98, 0)]) (layout [97, 10, 98]) :=
  ⟨by decide, shows_layout (fun _ => 0) [(97, 0), (10, 0), (98, 0)] (by decide)⟩

end Screen

end PlumOs
