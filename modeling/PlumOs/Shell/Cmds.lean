import PlumOs.Lib.Loop
import PlumOs.Lib.Quoted

/-!
# Command lines (`parse_cmds` of `libc/shlib.c`)

A command line is cut at its spaces, except between quotes.  It ends at a newline or a `#`, also between
quotes.

* `scanArg`, `parseTurn`, `parseCmds` : the inner loop of the source, a turn of the outer one, and the
  function, with `parseTurn_ends` for the turns it takes;
* `parseCmds_eq` : **a line is cut into pieces of 255 bytes**, if there are less than 8 of them and no
  quote is followed by something else than a space or the end of the line;
* `parseCmds_written` : **words that are written with spaces between them** are read back;
* `arguments_iff` : **arguments are rejected and not split exactly if** they are not too long, or the
  line is rejected anyway.
-/

namespace PlumOs

/-- `MAX_CMD_SIZE`. -/
abbrev maxCmdSize : ℕ := 256

/-- `MAX_ARG_NUM`. -/
abbrev maxArgNum : ℕ := 8

/-- `!*p || *p == '\n' || *p == '#'`, with the rest of the line from `p` on. -/
def atEnd (p : List ℕ) : Prop := p.headD 0 = 0 ∨ p.headD 0 = 10 ∨ p.headD 0 = 35

instance (p : List ℕ) : Decidable (atEnd p) := inferInstanceAs (Decidable (_ ∨ _))

/-- The inner loop of `parse_cmds`, with `i` bytes in `tmp`: the bytes that it appends to them, and the
rest of the line.  There is no result if the input is ugly. -/
def scanArg (i : ℕ) (quoteFlag : Bool) : List ℕ → Option (List ℕ × List ℕ)
  | [] => some ([], [])
  | c :: p =>
    if atEnd (c :: p) ∨ ¬ i < maxCmdSize - 1 then some ([], c :: p)
    else if c = 34 ∧ quoteFlag = true then
      if p.headD 0 ≠ 32 ∧ p.headD 0 ≠ 10 ∧ p.headD 0 ≠ 0 then none else some ([c], p)
    else
      let quoteFlag := quoteFlag || c = 34
      if c = 32 ∧ quoteFlag = false then some ([], c :: p)
      else (scanArg (i + 1) quoteFlag p).map fun r => (c :: r.1, r.2)

/-- What `parse_cmds` returns: the slots of `arg_list` that it has written, and `arg_size`. -/
structure Cmds where
  /-- The slots of `arg_list` that were written. -/
  argList : List (Option (List ℕ))
  /-- `arg_size`. -/
  argSize : ℕ
  deriving DecidableEq, Repr

/-- The arguments with a null pointer behind them. -/
def cmdsOf (args : List (List ℕ)) : Cmds := ⟨args.map some ++ [none], args.length⟩

/-- The outer loop of `parse_cmds` before a turn: the rest of the line, and the arguments so far. -/
structure ParseState where
  p : List ℕ
  args : List (List ℕ)

/-- The end of `parse_cmds`. -/
def finishCmds (args : List (List ℕ)) : Option Cmds :=
  if maxArgNum ≤ args.length then none else some (cmdsOf args)

/-- A turn of the outer loop of `parse_cmds`. -/
def parseTurn (s : ParseState) : Turn ParseState (Option Cmds) :=
  if atEnd s.p ∨ ¬ s.args.length < maxArgNum then .done (finishCmds s.args)
  else
    match scanArg 0 false (s.p.dropWhile (· = 32)) with
    | none => .done none
    | some (tmp, p) =>
      if 0 < tmp.length ∧ tmp.length < maxCmdSize then .next ⟨p, s.args ++ [tmp]⟩
      else if maxCmdSize ≤ tmp.length then .done none
      else if atEnd p then .done (finishCmds s.args)
      else .next ⟨p, s.args⟩

/-! ### The pieces of a line -/

/-- The special bytes of a command line. -/
def lineQuoting : Quoting ℕ where
  sep c := decide (c = 32)
  quote c := decide (c = 34)
  stop c := decide (c = 0 ∨ c = 10 ∨ c = 35)

/-- What may stand behind a quote that closes. -/
def endsArg (p : List ℕ) : Bool := decide (p.headD 0 = 32 ∨ p.headD 0 = 10 ∨ p.headD 0 = 0)

/-- The arguments of a line: the runs up to an unquoted space or to the end of the line. -/
def arguments (line : List ℕ) : List (List ℕ) := lineQuoting.pieces (line.length + 1) line

/-- A quote closes in the middle of a piece. -/
def Ugly (p : List ℕ) : Prop := lineQuoting.misquoted endsArg (maxCmdSize - 1) false p = true

instance (p : List ℕ) : Decidable (Ugly p) := inferInstanceAs (Decidable (_ = true))

/-- The rests of a line that its pieces of no more than 255 bytes begin. -/
def pieceStarts (line : List ℕ) : List (List ℕ) := lineQuoting.starts (maxCmdSize - 1) line

/-- A line with an ugly piece or with too many of them, where a piece has no more than 255 bytes. -/
def Rejected (line : List ℕ) : Prop :=
  (∃ p ∈ pieceStarts line, Ugly p) ∨ maxArgNum ≤ (pieceStarts line).length

instance (line : List ℕ) : Decidable (Rejected line) := inferInstanceAs (Decidable (_ ∨ _))

theorem stop_iff_atEnd {c : ℕ} {p : List ℕ} : lineQuoting.stop c = true ↔ atEnd (c :: p) := by
  rw [lineQuoting, decide_eq_true_iff]
  rfl

/-- Behind a quote that closes as it should there is no more of the piece. -/
theorem front_of_endsArg {p : List ℕ} (h : endsArg p = true) (lim : ℕ) :
    lineQuoting.front lim false p = ([], p) ∧ lineQuoting.misquoted endsArg lim false p = false := by
  cases lim with
  | zero => exact ⟨rfl, rfl⟩
  | succ lim =>
    cases p with
    | nil => exact ⟨rfl, rfl⟩
    | cons c p =>
      have hends : (lineQuoting.stop c || (lineQuoting.sep c && !false)) = true := by
        rw [endsArg, decide_eq_true_iff, List.headD_cons] at h
        rcases h with rfl | rfl | rfl <;> rfl
      exact ⟨Quoting.front_of_ends hends, Quoting.misquoted_of_ends hends⟩

/-- **The inner loop** takes the front piece, if it is not ugly. -/
theorem scanArg_eq (i : ℕ) (quoteFlag : Bool) (p : List ℕ) :
    scanArg i quoteFlag p =
      if lineQuoting.misquoted endsArg (maxCmdSize - 1 - i) quoteFlag p = true then none
      else some (lineQuoting.front (maxCmdSize - 1 - i) quoteFlag p) := by
  induction p generalizing i quoteFlag with
  | nil => cases maxCmdSize - 1 - i <;> rfl
  | cons c p ih =>
    rw [scanArg]
    by_cases hi : i < maxCmdSize - 1
    swap
    · rw [if_pos (.inr hi), Nat.sub_eq_zero_of_le (Nat.le_of_not_lt hi)]
      rfl
    obtain ⟨lim, hlim⟩ : ∃ lim, maxCmdSize - 1 - i = lim + 1 := ⟨maxCmdSize - 1 - (i + 1), by omega⟩
    have hlim' : maxCmdSize - 1 - (i + 1) = lim := by omega
    rw [hlim]
    by_cases hend : atEnd (c :: p)
    · have hends : (lineQuoting.stop c || (lineQuoting.sep c && !quoteFlag)) = true := by
        rw [stop_iff_atEnd.2 hend, Bool.true_or]
      rw [if_pos (.inl hend), Quoting.misquoted_of_ends hends, Quoting.front_of_ends hends]
      rfl
    have hstop : lineQuoting.stop c = false := Bool.eq_false_iff.2 fun h => hend (stop_iff_atEnd.1 h)
    rw [if_neg (not_or.2 ⟨hend, not_not.2 hi⟩)]
    by_cases hclose : c = 34 ∧ quoteFlag = true
    · obtain ⟨rfl, rfl⟩ := hclose
      have hgoes : (lineQuoting.stop 34 || (lineQuoting.sep 34 && !true)) = false := rfl
      rw [if_pos ⟨rfl, rfl⟩, Quoting.misquoted_of_goes hgoes, Quoting.front_of_goes hgoes,
        show (true ^^ lineQuoting.quote 34) = false from rfl]
      cases hfollows : endsArg p with
      | true =>
        obtain ⟨hfront, hmis⟩ := front_of_endsArg hfollows lim
        rw [hfront, hmis]
        rw [endsArg, decide_eq_true_iff] at hfollows
        rw [if_neg (by tauto), if_neg (by simp)]
      | false =>
        rw [endsArg, decide_eq_false_iff_not] at hfollows
        rw [if_pos (by tauto), if_pos (by simp [lineQuoting])]
    rw [if_neg hclose]
    -- the flag changes at a quote that opens
    have hflag : (quoteFlag ^^ lineQuoting.quote c) = (quoteFlag || decide (c = 34)) := by
      cases quoteFlag with
      | false => exact Bool.false_xor _
      | true =>
        have hc : ¬ c = 34 := fun hc => hclose ⟨hc, rfl⟩
        simp [lineQuoting, hc]
    by_cases hspace : c = 32 ∧ (quoteFlag || decide (c = 34)) = false
    · obtain ⟨rfl, hq⟩ := hspace
      have hends : (lineQuoting.stop 32 || (lineQuoting.sep 32 && !quoteFlag)) = true := by
        rw [(Bool.or_eq_false_iff.1 hq).1]
        rfl
      rw [if_pos ⟨rfl, hq⟩, Quoting.misquoted_of_ends hends, Quoting.front_of_ends hends]
      rfl
    · have hgoes : (lineQuoting.stop c || (lineQuoting.sep c && !quoteFlag)) = false := by
        rw [hstop, Bool.false_or, Bool.and_eq_false_iff, Bool.not_eq_false']
        cases quoteFlag with
        | true => exact .inr rfl
        | false =>
          refine .inl (decide_eq_false fun hc => hspace ⟨hc, ?_⟩)
          rw [hc]
          rfl
      have hopen : (lineQuoting.quote c && quoteFlag) = false := by
        rw [Bool.and_eq_false_iff, ← Bool.not_eq_true, ← Bool.not_eq_true, ← not_and_or, lineQuoting,
          decide_eq_true_iff]
        exact hclose
      rw [if_neg hspace, ih, hlim', Quoting.misquoted_of_goes hgoes, Quoting.front_of_goes hgoes, hflag,
        hopen, Bool.false_and, Bool.false_or]
      cases lineQuoting.misquoted endsArg lim (quoteFlag || decide (c = 34)) p <;> rfl

theorem scanArg_zero (p : List ℕ) :
    scanArg 0 false p = if Ugly p then none else some (lineQuoting.front (maxCmdSize - 1) false p) :=
  scanArg_eq 0 false p

/-! ### The outer loop -/

/-- What comes of the rest of a line, with some arguments in front of it. -/
def outcome (args : List (List ℕ)) (p : List ℕ) : Option Cmds :=
  if (∃ q ∈ pieceStarts p, Ugly q) ∨ maxArgNum ≤ args.length + (pieceStarts p).length then none
  else some (cmdsOf (args ++ lineQuoting.pieces (maxCmdSize - 1) p))

variable {args : List (List ℕ)} {line : List ℕ}

theorem pieceStarts_of_atEnd {p : List ℕ} (h : atEnd (p.dropWhile (· = 32))) : pieceStarts p = [] := by
  cases hdrop : p.dropWhile (· = 32) with
  | nil => exact Quoting.starts_of_nil hdrop
  | cons c l =>
    rw [hdrop] at h
    exact Quoting.starts_of_stop hdrop (stop_iff_atEnd.2 h)

theorem outcome_of_nil {p : List ℕ} (h : pieceStarts p = []) : outcome args p = finishCmds args := by
  have hpieces : lineQuoting.pieces (maxCmdSize - 1) p = [] := by
    rw [Quoting.pieces, ← pieceStarts, h]
    rfl
  rw [outcome, finishCmds, h, hpieces, List.append_nil]
  simp

theorem outcome_of_full (p : List ℕ) (h : maxArgNum ≤ args.length) : outcome args p = none :=
  if_pos (.inr (Nat.le_trans h (Nat.le_add_right _ _)))

/-- A line with a piece in front. -/
theorem outcome_of_piece {p l : List ℕ} {c : ℕ} (hdrop : p.dropWhile (· = 32) = c :: l)
    (hstop : lineQuoting.stop c = false) (hugly : ¬ Ugly (c :: l)) :
    outcome args p = outcome (args ++ [(lineQuoting.front (maxCmdSize - 1) false (c :: l)).1])
      (lineQuoting.front (maxCmdSize - 1) false (c :: l)).2 := by
  have hstarts : pieceStarts p =
      (c :: l) :: pieceStarts (lineQuoting.front (maxCmdSize - 1) false (c :: l)).2 :=
    Quoting.starts_of_piece hdrop hstop
  have hpieces : lineQuoting.pieces (maxCmdSize - 1) p =
      (lineQuoting.front (maxCmdSize - 1) false (c :: l)).1 ::
        lineQuoting.pieces (maxCmdSize - 1) (lineQuoting.front (maxCmdSize - 1) false (c :: l)).2 :=
    congrArg (List.map _) hstarts
  rw [outcome, outcome, hpieces, List.append_cons]
  refine if_congr ?_ rfl rfl
  rw [hstarts, List.exists_mem_cons_iff, or_iff_right hugly, List.length_cons, List.length_append,
    List.length_singleton, Nat.add_assoc, Nat.add_comm 1]

/-- A turn of the outer loop. -/
theorem parseTurn_spec (p : List ℕ) :
    parseTurn ⟨p, args⟩ = .done (outcome args p) ∨
      ∃ q tmp, args.length < maxArgNum ∧ parseTurn ⟨p, args⟩ = .next ⟨q, args ++ [tmp]⟩ ∧
        outcome args p = outcome (args ++ [tmp]) q := by
  rw [parseTurn]
  by_cases hlen : args.length < maxArgNum
  swap
  · have hfull := Nat.le_of_not_lt hlen
    rw [if_pos (.inr hlen), outcome_of_full p hfull, finishCmds, if_pos hfull]
    exact .inl rfl
  by_cases hend : atEnd p
  · have hdrop : p.dropWhile (· = 32) = p := by
      cases p with
      | nil => rfl
      | cons c l =>
        have hc : ¬ c = 32 := by
          rintro rfl
          exact absurd hend (by simp [atEnd])
        rw [List.dropWhile_cons_of_neg (by simpa using hc)]
    rw [if_pos (.inl hend), outcome_of_nil (pieceStarts_of_atEnd (by rwa [hdrop]))]
    exact .inl rfl
  rw [if_neg (not_or.2 ⟨hend, not_not.2 hlen⟩), scanArg_zero]
  by_cases hend' : atEnd (p.dropWhile (· = 32))
  · -- only spaces are in front of the end of the line
    have hnil : lineQuoting.front (maxCmdSize - 1) false (p.dropWhile (· = 32)) =
        ([], p.dropWhile (· = 32)) ∧ ¬ Ugly (p.dropWhile (· = 32)) := by
      cases hdrop : p.dropWhile (· = 32) with
      | nil => exact ⟨rfl, Bool.false_ne_true⟩
      | cons c l =>
        rw [hdrop] at hend'
        have hends : (lineQuoting.stop c || (lineQuoting.sep c && !false)) = true := by
          rw [stop_iff_atEnd.2 hend', Bool.true_or]
        exact ⟨Quoting.front_of_ends hends, Bool.eq_false_iff.1 (Quoting.misquoted_of_ends hends)⟩
    rw [if_neg hnil.2, hnil.1, outcome_of_nil (pieceStarts_of_atEnd hend')]
    refine .inl ?_
    simp only [List.length_nil, Nat.lt_irrefl, false_and, if_false, if_pos hend']
    rfl
  obtain ⟨c, l, hdrop⟩ : ∃ c l, p.dropWhile (· = 32) = c :: l :=
    List.exists_cons_of_ne_nil fun h => hend' (by rw [h]; exact .inl rfl)
  rw [hdrop] at hend' ⊢
  have hstop : lineQuoting.stop c = false := Bool.eq_false_iff.2 fun h => hend' (stop_iff_atEnd.1 h)
  have hstarts : pieceStarts p =
      (c :: l) :: pieceStarts (lineQuoting.front (maxCmdSize - 1) false (c :: l)).2 :=
    Quoting.starts_of_piece hdrop hstop
  by_cases hugly : Ugly (c :: l)
  · rw [if_pos hugly, outcome, if_pos (.inl ⟨_, by rw [hstarts]; exact List.mem_cons_self .., hugly⟩)]
    exact .inl rfl
  · have hle := lineQuoting.length_front_fst_le (maxCmdSize - 1) false (c :: l)
    have hpos : 0 < (lineQuoting.front (maxCmdSize - 1) false (c :: l)).1.length := by
      rw [show maxCmdSize - 1 = 254 + 1 from rfl, Quoting.front_of_goes (Quoting.goes_of_piece hdrop hstop)]
      exact Nat.succ_pos _
    rw [if_neg hugly]
    refine .inr ⟨_, _, hlen, ?_, outcome_of_piece hdrop hstop hugly⟩
    exact if_pos ⟨hpos, Nat.lt_succ_of_le hle⟩

/-- **The outer loop** ends, at the latest with the last slot of `arg_list`. -/
theorem loop_parseTurn (fuel : ℕ) (p : List ℕ) (hfuel : maxArgNum < fuel + args.length) (h : 0 < fuel) :
    loop parseTurn fuel ⟨p, args⟩ = some (outcome args p) := by
  induction fuel generalizing p args with
  | zero => cases h
  | succ fuel ih =>
    rw [loop]
    rcases @parseTurn_spec args p with hdone | ⟨q, tmp, hlen, hnext, heq⟩
    · rw [hdone]
    · rw [hnext, heq]
      have hlen' : (args ++ [tmp]).length = args.length + 1 := List.length_append
      exact ih q (by omega) (by omega)

theorem parseTurn_ends (cmd : List ℕ) : (loop parseTurn (maxArgNum + 1) ⟨cmd, []⟩).isSome := by
  rw [loop_parseTurn _ _ (Nat.lt_succ_self _) (Nat.succ_pos _)]
  rfl

/-- `parse_cmds`, with `none` for `NULL`.  The outer loop takes a turn for each argument and one more. -/
def parseCmds (cmd : List ℕ) : Option Cmds :=
  (loop parseTurn (maxArgNum + 1) ⟨cmd, []⟩).get (parseTurn_ends cmd)

/-- **A line is cut into pieces** of no more than 255 bytes. -/
theorem parseCmds_eq (cmd : List ℕ) :
    parseCmds cmd =
      if Rejected cmd then none else some (cmdsOf (lineQuoting.pieces (maxCmdSize - 1) cmd)) := by
  have hloop := @loop_parseTurn [] (maxArgNum + 1) cmd (Nat.lt_succ_self _) (Nat.succ_pos _)
  rw [parseCmds, Option.get_of_eq_some _ hloop, outcome, List.nil_append, List.length_nil, Nat.zero_add]
  rfl

theorem parseCmds_eq_none_iff {cmd : List ℕ} : parseCmds cmd = none ↔ Rejected cmd := by
  rw [parseCmds_eq]
  by_cases h : Rejected cmd
  · rw [if_pos h]
    exact ⟨fun _ => h, fun _ => rfl⟩
  · rw [if_neg h]
    exact ⟨fun hnone => absurd hnone (Option.some_ne_none _), fun hrej => absurd hrej h⟩

/-! ### Lines of words -/

/-- Bytes that are nothing special. -/
def Plain (w : List ℕ) : Prop := ∀ c ∈ w, c ≠ 32 ∧ c ≠ 34 ∧ c ≠ 35 ∧ c ≠ 10 ∧ c ≠ 0

/-- Bytes that are nothing special between quotes. -/
def PlainQuoted (w : List ℕ) : Prop := ∀ c ∈ w, c ≠ 34 ∧ c ≠ 35 ∧ c ≠ 10 ∧ c ≠ 0

/-- A word is plain, or it ends with a part between quotes. -/
structure IsWord (w : List ℕ) : Prop where
  /-- A word is not empty. -/
  pos : 0 < w.length
  /-- A word fits the buffer of a command. -/
  short : w.length ≤ maxCmdSize - 1
  /-- A word has no quotes, or one pair at its end. -/
  bytes : Plain w ∨ ∃ pre body, w = pre ++ 34 :: (body ++ [34]) ∧ Plain pre ∧ PlainQuoted body

/-- A line is written with some words: spaces separate them, and more spaces, a newline, or a comment
behind a space may stand at the end. -/
inductive Written : List (List ℕ) → List ℕ → Prop
  | stop (n : ℕ) (tail : List ℕ)
      (htail : tail = [] ∨ tail = [10] ∨ 0 < n ∧ ∃ comment, tail = 35 :: comment) :
      Written [] (List.replicate n 32 ++ tail)
  | word (n : ℕ) (w : List ℕ) (words : List (List ℕ)) (line : List ℕ) (hw : IsWord w)
      (hsep : words ≠ [] → ∃ rest, line = 32 :: rest) (hline : Written words line) :
      Written (w :: words) (List.replicate n 32 ++ (w ++ line))

variable {w : List ℕ} {words : List (List ℕ)}

theorem Plain.ordinary (h : Plain w) : ∀ c ∈ w, lineQuoting.Ordinary false c := by
  intro c hc
  obtain ⟨h32, h34, h35, h10, h0⟩ := h c hc
  exact ⟨decide_eq_false (by tauto), decide_eq_false h34, fun _ => decide_eq_false h32⟩

theorem PlainQuoted.ordinary (h : PlainQuoted w) : ∀ c ∈ w, lineQuoting.Ordinary true c := by
  intro c hc
  obtain ⟨h34, h35, h10, h0⟩ := h c hc
  exact ⟨decide_eq_false (by tauto), decide_eq_false h34, fun h => by cases h⟩

/-- Behind a word of a line that is written the word ends. -/
theorem Written.endsArg (h : Written words line) (hsep : words ≠ [] → ∃ rest, line = 32 :: rest) :
    PlumOs.endsArg line = true := by
  cases h with
  | stop n tail htail =>
    cases n with
    | zero =>
      rcases htail with rfl | rfl | ⟨h0, -⟩
      · rfl
      · rfl
      · cases h0
    | succ n => rfl
  | word n w words line hw _ hline =>
    obtain ⟨rest, hrest⟩ := hsep (List.cons_ne_nil _ _)
    rw [hrest]
    rfl

/-- **A word in front of a line** is its front piece. -/
theorem IsWord.front (hw : IsWord w) (h : endsArg line = true) :
    lineQuoting.front (maxCmdSize - 1) false (w ++ line) = (w, line) ∧ ¬ Ugly (w ++ line) := by
  obtain ⟨lim, hlim⟩ := Nat.exists_eq_add_of_le hw.short
  rw [Ugly, hlim, Bool.not_eq_true]
  obtain ⟨hfront, hmis⟩ := front_of_endsArg h lim
  rcases hw.bytes with hplain | ⟨pre, body, rfl, hpre, hbody⟩
  · rw [Quoting.front_append hplain.ordinary, Quoting.misquoted_append hplain.ordinary, hfront,
      List.append_nil]
    exact ⟨rfl, hmis⟩
  · have hlen : (pre ++ 34 :: (body ++ [34])).length + lim =
        pre.length + (body.length + (lim + 1) + 1) := by
      rw [List.length_append, List.length_cons, List.length_append, List.length_singleton]
      omega
    have happ : pre ++ 34 :: (body ++ [34]) ++ line = pre ++ 34 :: (body ++ 34 :: line) := by
      rw [List.append_assoc, List.cons_append, List.append_assoc, List.singleton_append]
    -- the quote that opens, and the one that closes
    have hopen : (lineQuoting.stop 34 || (lineQuoting.sep 34 && !false)) = false := rfl
    have hclose : (lineQuoting.stop 34 || (lineQuoting.sep 34 && !true)) = false := rfl
    rw [hlen, happ]
    constructor
    · rw [Quoting.front_append hpre.ordinary, Quoting.front_of_goes hopen,
        show (false ^^ lineQuoting.quote 34) = true from rfl, Quoting.front_append hbody.ordinary,
        Quoting.front_of_goes hclose, show (true ^^ lineQuoting.quote 34) = false from rfl, hfront]
    · rw [Quoting.misquoted_append hpre.ordinary, Quoting.misquoted_of_goes hopen,
        show (false ^^ lineQuoting.quote 34) = true from rfl, Quoting.misquoted_append hbody.ordinary,
        Quoting.misquoted_of_goes hclose, show (true ^^ lineQuoting.quote 34) = false from rfl, h, hmis]
      rfl

theorem IsWord.exists_cons (hw : IsWord w) :
    ∃ c l, w = c :: l ∧ lineQuoting.sep c = false ∧ lineQuoting.stop c = false := by
  rcases hw.bytes with hplain | ⟨pre, body, rfl, hpre, -⟩
  · obtain ⟨c, l, rfl⟩ := List.exists_cons_of_length_pos hw.pos
    have hc := hplain.ordinary c (List.mem_cons_self ..)
    exact ⟨c, l, rfl, hc.2.2 rfl, hc.1⟩
  · cases pre with
    | nil => exact ⟨34, _, rfl, rfl, rfl⟩
    | cons c pre =>
      have hc := hpre.ordinary c (List.mem_cons_self ..)
      exact ⟨c, _, rfl, hc.2.2 rfl, hc.1⟩

theorem spaces_sep (n : ℕ) : ∀ c ∈ List.replicate n 32, lineQuoting.sep c = true :=
  fun _ hc => decide_eq_true (List.eq_of_mem_replicate hc)

/-- Where the pieces begin in a line with a word in front. -/
theorem IsWord.pieceStarts (hw : IsWord w) (h : endsArg line = true) (n : ℕ) :
    pieceStarts (List.replicate n 32 ++ (w ++ line)) = (w ++ line) :: PlumOs.pieceStarts line := by
  obtain ⟨c, l, hcons, hsep, hstop⟩ := hw.exists_cons
  have hline : w ++ line = c :: (l ++ line) := by rw [hcons, List.cons_append]
  have hdrop : (w ++ line).dropWhile lineQuoting.sep = c :: (l ++ line) := by
    rw [hline, List.dropWhile_cons_of_neg (by rw [hsep]; exact Bool.false_ne_true)]
  refine (Quoting.starts_append_sep (spaces_sep n)).trans ?_
  rw [Quoting.starts_of_piece hdrop hstop, ← hline]
  exact congrArg (fun r => (w ++ line) :: PlumOs.pieceStarts r) (congrArg Prod.snd (hw.front h).1)

/-- The pieces of a line that is written with some words. -/
theorem Written.pieces (h : Written words line) :
    lineQuoting.pieces (maxCmdSize - 1) line = words ∧ ∀ p ∈ pieceStarts line, ¬ Ugly p := by
  induction h with
  | stop n tail htail =>
    have hdrop : (List.replicate n 32 ++ tail).dropWhile (· = 32) = tail.dropWhile (· = 32) :=
      List.dropWhile_append_of_pos (spaces_sep n)
    have hend : atEnd ((List.replicate n 32 ++ tail).dropWhile (· = 32)) := by
      rw [hdrop]
      rcases htail with rfl | rfl | ⟨-, comment, rfl⟩
      · exact .inl rfl
      · exact .inr (.inl rfl)
      · exact .inr (.inr rfl)
    have hnil := pieceStarts_of_atEnd hend
    refine ⟨congrArg (List.map _) hnil, fun p hp => ?_⟩
    rw [hnil] at hp
    cases hp
  | word n w words line hw hsep hline ih =>
    have hends := hline.endsArg hsep
    have hstarts := hw.pieceStarts hends n
    obtain ⟨hfront, hugly⟩ := hw.front hends
    constructor
    · refine (congrArg (List.map _) hstarts).trans ?_
      rw [List.map_cons, hfront]
      exact congrArg (w :: ·) ih.1
    · rw [hstarts, List.forall_mem_cons]
      exact ⟨hugly, ih.2⟩

/-- **Command lines round-trip**: from a line that is written with less than 8 words `parse_cmds` returns
these words. -/
theorem parseCmds_written (hwords : words.length ≤ maxArgNum - 1) (h : Written words line) :
    parseCmds line = some ⟨words.map some ++ [none], words.length⟩ := by
  obtain ⟨hpieces, hugly⟩ := h.pieces
  have hlen : (pieceStarts line).length = words.length := by
    rw [← hpieces, Quoting.pieces, List.length_map]
    rfl
  have hrej : ¬ Rejected line := by
    rintro (⟨p, hp, hp'⟩ | hmany)
    · exact hugly p hp hp'
    · rw [hlen] at hmany
      exact absurd hwords (Nat.not_le_of_lt hmany)
  rw [parseCmds_eq, if_neg hrej, hpieces]
  rfl

/-- `ls  "a b" # c`. -/
theorem parseCmds_written_quoted :
    parseCmds [108, 115, 32, 32, 34, 97, 32, 98, 34, 32, 35, 32, 99] =
      some ⟨[some [108, 115], some [34, 97, 32, 98, 34], none], 2⟩ := by
  have hls : IsWord [108, 115] := ⟨by decide, by decide, .inl (by unfold Plain; decide)⟩
  have hquoted : IsWord [34, 97, 32, 98, 34] :=
    ⟨by decide, by decide, .inr ⟨[], [97, 32, 98], rfl, by unfold Plain; decide,
      by unfold PlainQuoted; decide⟩⟩
  refine @parseCmds_written _ [[108, 115], [34, 97, 32, 98, 34]] (by decide)
    (.word 0 _ _ _ hls (fun _ => ⟨_, rfl⟩) (.word 2 _ _ _ hquoted (fun h => absurd rfl h)
      (.stop 1 [35, 32, 99] (.inr (.inr ⟨by decide, _, rfl⟩)))))

/-! ### Long arguments -/

/-- Arguments are rejected if one of them is too long, and not split. -/
def RejectedOrWhole (line : List ℕ) : Prop :=
  ((∃ a ∈ arguments line, maxCmdSize - 1 < a.length) → parseCmds line = none) ∧
    ((∀ a ∈ arguments line, a.length ≤ maxCmdSize - 1) → ∀ cmds, parseCmds line = some cmds →
      cmds.argList = (arguments line).map some ++ [none])

/-- The pieces of a line without a long argument are its arguments. -/
theorem pieces_of_short (h : ∀ a ∈ arguments line, a.length ≤ maxCmdSize - 1) :
    lineQuoting.pieces (maxCmdSize - 1) line = arguments line := by
  have hargs : arguments line = lineQuoting.pieces (max line.length 254 + 1) line :=
    Quoting.pieces_of_length_le (Nat.le_succ _) (Nat.le_max_left _ _)
  rw [hargs] at h ⊢
  exact Quoting.pieces_congr h (Nat.le_max_right _ _)

/-- **Arguments are rejected and not split exactly if** none of them has more than 255 bytes, or the line
is rejected anyway for an ugly piece of 255 bytes or for too many of them. -/
theorem rejectedOrWhole_iff (line : List ℕ) :
    RejectedOrWhole line ↔ ((∃ a ∈ arguments line, maxCmdSize - 1 < a.length) → Rejected line) := by
  rw [RejectedOrWhole, parseCmds_eq_none_iff]
  refine and_iff_left fun hshort cmds hcmds => ?_
  rw [parseCmds_eq] at hcmds
  by_cases hrej : Rejected line
  · rw [if_pos hrej] at hcmds
    cases hcmds
  · rw [if_neg hrej, pieces_of_short hshort] at hcmds
    cases hcmds
    rfl

/-- An argument of 256 bytes is split. -/
theorem rejectedOrWhole_fails : ¬ ∀ line, RejectedOrWhole line := by
  intro h
  have hlong : ∃ a ∈ arguments (List.replicate 256 97), maxCmdSize - 1 < a.length := by decide +kernel
  have hnone := (h (List.replicate 256 97)).1 hlong
  have hsplit : parseCmds (List.replicate 256 97) =
      some ⟨[some (List.replicate 255 97), some [97], none], 2⟩ := by decide +kernel
  rw [hsplit] at hnone
  cases hnone

end PlumOs
