import PlumOs.Lib.Traced
import PlumOs.Shell.Cmds
import PlumOs.Shell.Search

/-!
# Scripts (`main` of `bin/sbush/sbush.c`)

The shell takes its commands from a script or from the terminal.  Both loops of `main` are functions of
`execute`, which may end the shell; they leave a trace of the calls of it.

* `scriptLine`, `scriptLoop` : the loop over the lines of a script;
* `promptLine`, `promptLoop` : the loop at the prompt;
* `scriptLoop_eq` : a script is run line by line;
* `NoneRejected` : `parse_cmds` rejects no line that is reached;
* `runsAsPrompt_iff` : **a script runs as its lines would at the prompt exactly if** that is so, whatever
  `execute` does;
* `runsAsPrompt_fails` : a line with a quote that closes in front of a letter.
-/

namespace PlumOs

/-- Why the shell ends before its input does: a line is longer than the buffer for it, the first slot of
a null pointer is read, or `execute` does not return. -/
inductive ScriptStop where
  | overrun
  | nullArgList
  | exit
  deriving DecidableEq, Repr

/-- `strchr`, for a character other than 0. -/
def strchr (s : List ℕ) (c : ℕ) : Option (List ℕ) :=
  match s.dropWhile (· ≠ c) with
  | [] => none
  | p => some p

theorem strchr_eq_none {s : List ℕ} {c : ℕ} (h : c ∉ s) : strchr s c = none := by
  have hdrop : s.dropWhile (· ≠ c) = [] :=
    List.dropWhile_eq_nil_iff.2 fun x hx => decide_eq_true fun hxc : x = c => h (hxc ▸ hx)
  rw [strchr, hdrop]

theorem strchr_append {s : List ℕ} {c : ℕ} (h : c ∉ s) (r : List ℕ) :
    strchr (s ++ c :: r) c = some (c :: r) := by
  have hs : ∀ x ∈ s, decide (x ≠ c) = true := fun x hx => decide_eq_true fun hxc => h (hxc ▸ hx)
  have hdrop : (s ++ c :: r).dropWhile (· ≠ c) = c :: r := by
    rw [List.dropWhile_append_of_pos hs, List.dropWhile_cons_of_neg (by simp)]
  rw [strchr, hdrop]

/-- What `strchr` finds is in the string. -/
theorem length_drop_strchr {s p : List ℕ} {c : ℕ} (h : strchr s c = some p) :
    (p.drop 1).length < s.length := by
  have hle := (List.dropWhile_suffix (l := s) (· ≠ c)).length_le
  rw [strchr] at h
  split at h
  · cases h
  · rename_i hne
    cases h
    have hpos := List.length_pos_iff.2 hne
    rw [List.length_drop]
    omega

section Loops

variable {σ : Type} (execute : Cmds → σ → Option σ)

/-- A call of `execute`. -/
def callExecute (cmds : Cmds) (s : σ) : Traced ScriptStop Cmds σ :=
  ⟨[cmds], match execute cmds s with
    | some s => .ok s
    | none => .error .exit⟩

/-- A line of a script, in the buffer `line`. -/
def scriptLine (line : List ℕ) (s : σ) : Traced ScriptStop Cmds σ :=
  if maxBufferSize ≤ line.length then .lift (.error .overrun)
  else
    match parseCmds line with
    -- the slot `arg_list[0]` is read without a look at `arg_list`
    | none => .lift (.error .nullArgList)
    | some cmds => if cmds.argList.headD none = none then pure s else callExecute execute cmds s

/-- The loop over the lines of a script, from `buf` on.  The test of the last line compares a pointer with
0 and lets every line pass. -/
def scriptLoop (buf : List ℕ) (s : σ) : Traced ScriptStop Cmds σ :=
  match h : strchr buf 10 with
  | some p => do
    let s ← scriptLine execute (buf.take (buf.length - p.length + 1)) s
    scriptLoop (p.drop 1) s
  | none => scriptLine execute buf s
termination_by buf.length
decreasing_by exact length_drop_strchr h

/-- A line at the prompt, without its newline. -/
def promptLine (cmd : List ℕ) (s : σ) : Traced ScriptStop Cmds σ :=
  match parseCmds cmd with
  | none => pure s
  | some cmds => callExecute execute cmds s

/-- Lines that are run one after the other. -/
def runLines (f : List ℕ → σ → Traced ScriptStop Cmds σ) : List (List ℕ) → σ → Traced ScriptStop Cmds σ
  | [], s => pure s
  | line :: lines, s => do
    let s ← f line s
    runLines f lines s

/-- The loop at the prompt, over the lines that `myfgets` reads. -/
def promptLoop : List (List ℕ) → σ → Traced ScriptStop Cmds σ := runLines (promptLine execute)

end Loops

section Prompt

variable {σ : Type} (execute : Cmds → σ → Option σ)

/-- A script runs as its lines would at the prompt, but for calls of `execute` without arguments, which
return at once. -/
def RunsAsPrompt (text : List ℕ) (s : σ) : Prop :=
  (scriptLoop execute text s).result ≠ .error .nullArgList ∧
    (scriptLoop execute text s).result = (promptLoop execute (text.splitOn 10) s).result ∧
    (scriptLoop execute text s).uses =
      (promptLoop execute (text.splitOn 10) s).uses.filter fun cmds => cmds.argSize ≠ 0

/-- No line is rejected before `execute` ends the shell: each line that is reached passes. -/
def NoneRejected : List (List ℕ) → σ → Prop
  | [], _ => True
  | line :: lines, s => ¬ Rejected line ∧
      ∀ t, (promptLine execute line s).result = .ok t → NoneRejected lines t

end Prompt

/-! ### Line by line -/

variable {σ : Type} {execute : Cmds → σ → Option σ} {line text : List ℕ} {lines : List (List ℕ)} {s : σ}

theorem rejected_append_newline : Rejected (line ++ [10]) ↔ Rejected line := by
  have hstarts : pieceStarts (line ++ [10]) = (pieceStarts line).map (· ++ [10]) :=
    Quoting.starts_append_stop rfl rfl line []
  have hugly : ∀ p, Ugly (p ++ [10]) ↔ Ugly p := by
    intro p
    rw [Ugly, Quoting.misquoted_append_stop rfl fun l => ?_, Ugly]
    cases l <;> rfl
  rw [Rejected, hstarts, List.length_map, Rejected]
  refine or_congr_left ⟨?_, ?_⟩
  · rintro ⟨p', hp', hp⟩
    obtain ⟨p, hmem, rfl⟩ := List.mem_map.1 hp'
    exact ⟨p, hmem, (hugly p).1 hp⟩
  · rintro ⟨p, hmem, hp⟩
    exact ⟨p ++ [10], List.mem_map_of_mem hmem, (hugly p).2 hp⟩

/-- **The newline of a line** does not matter. -/
theorem parseCmds_append_newline : parseCmds (line ++ [10]) = parseCmds line := by
  rw [parseCmds_eq, parseCmds_eq]
  exact if_congr rejected_append_newline rfl
    (congrArg (fun args => some (cmdsOf args)) (Quoting.pieces_append_stop rfl rfl line []))

theorem scriptLine_append_newline (h : line.length + 1 < maxBufferSize) :
    scriptLine execute (line ++ [10]) s = scriptLine execute line s := by
  have hlen : (line ++ [10]).length = line.length + 1 := List.length_append
  rw [scriptLine, scriptLine, parseCmds_append_newline, if_neg (by omega), if_neg (by omega)]

theorem scriptLoop_of_none (h : strchr text 10 = none) :
    scriptLoop execute text s = scriptLine execute text s := by
  rw [scriptLoop]
  split
  · rename_i h'
    rw [h] at h'
    cases h'
  · rfl

theorem scriptLoop_of_some {p : List ℕ} (h : strchr text 10 = some p) :
    scriptLoop execute text s =
      scriptLine execute (text.take (text.length - p.length + 1)) s >>= scriptLoop execute (p.drop 1) := by
  rw [scriptLoop]
  split
  · rename_i h'
    rw [h] at h'
    cases h'
    rfl
  · rename_i h'
    rw [h] at h'
    cases h'

/-- **A script is run line by line**, with its newlines left out. -/
theorem scriptLoop_eq (h : ∀ line ∈ text.splitOn 10, line.length + 1 < maxBufferSize) :
    scriptLoop execute text s = runLines (scriptLine execute) (text.splitOn 10) s := by
  induction hn : text.length using Nat.strongRecOn generalizing text s with
  | _ n ih =>
    by_cases hmem : 10 ∈ text
    · obtain ⟨line, rest, rfl, hline⟩ := List.eq_append_cons_of_mem hmem
      rw [List.splitOn_append_cons_self_of_not_mem hline] at h ⊢
      obtain ⟨hlen, hrest⟩ := List.forall_mem_cons.1 h
      have htake : (line ++ 10 :: rest).take ((line ++ 10 :: rest).length - (10 :: rest).length + 1) =
          line ++ [10] := by
        rw [List.length_append, Nat.add_sub_cancel, List.take_append, List.take_of_length_le (by omega),
          Nat.add_sub_cancel_left]
        rfl
      rw [scriptLoop_of_some (strchr_append hline rest), htake, scriptLine_append_newline hlen, runLines]
      congr 1
      funext t
      refine ih rest.length ?_ hrest rfl
      rw [← hn, List.length_append, List.length_cons]
      omega
    · rw [List.splitOn_eq_singleton hmem, scriptLoop_of_none (strchr_eq_none hmem)]
      exact (Traced.bind_pure _).symm

/-! ### Scripts and the prompt -/

/-- The same result, and the same uses but for calls without arguments. -/
structure Alike (x y : Traced ScriptStop Cmds σ) : Prop where
  result : x.result = y.result
  uses : x.uses = y.uses.filter fun cmds => cmds.argSize ≠ 0
  noNull : x.result ≠ .error .nullArgList

theorem Alike.bind {x y : Traced ScriptStop Cmds σ} {f g : σ → Traced ScriptStop Cmds σ} (h : Alike x y)
    (hfg : ∀ s, y.result = .ok s → Alike (f s) (g s)) : Alike (x >>= f) (y >>= g) := by
  cases hx : x.result with
  | ok s =>
    have hy : y.result = .ok s := h.result ▸ hx
    refine ⟨?_, ?_, ?_⟩
    · rw [Traced.result_bind, Traced.result_bind, hx, hy]
      exact (hfg s hy).result
    · rw [Traced.uses_bind_ok hx, Traced.uses_bind_ok hy, List.filter_append, h.uses, (hfg s hy).uses]
    · rw [Traced.result_bind, hx]
      exact (hfg s hy).noNull
  | error e =>
    have hy : y.result = .error e := h.result ▸ hx
    refine ⟨?_, ?_, ?_⟩
    · rw [Traced.result_bind, Traced.result_bind, hx, hy]
      rfl
    · rw [Traced.uses_bind_error hx, Traced.uses_bind_error hy, h.uses]
    · rw [Traced.result_bind, hx]
      exact fun hnull => h.noNull (hx.trans hnull)

/-- The slots of a list of arguments. -/
theorem headD_cmdsOf (args : List (List ℕ)) : (cmdsOf args).argList.headD none = none ↔ args = [] := by
  cases args with
  | nil => exact iff_of_true rfl rfl
  | cons a args => exact iff_of_false (Option.some_ne_none a) (List.cons_ne_nil a args)

/-- A line that is not rejected. -/
theorem alike_line (hexec : ∀ s, execute (cmdsOf []) s = some s) (hlen : line.length < maxBufferSize)
    (hrej : ¬ Rejected line) (s : σ) : Alike (scriptLine execute line s) (promptLine execute line s) := by
  rw [scriptLine, if_neg (Nat.not_le_of_lt hlen), promptLine, parseCmds_eq, if_neg hrej]
  generalize lineQuoting.pieces (maxCmdSize - 1) line = args
  by_cases hargs : args = []
  · subst hargs
    have hcall : callExecute execute (cmdsOf []) s = ⟨[cmdsOf []], .ok s⟩ := by
      rw [callExecute, hexec]
    simp only [if_pos ((headD_cmdsOf []).2 rfl), hcall]
    exact ⟨rfl, rfl, fun h => by cases h⟩
  · simp only [if_neg (mt (headD_cmdsOf args).1 hargs)]
    refine ⟨rfl, ?_, ?_⟩
    · have hsize : (cmdsOf args).argSize ≠ 0 := List.length_eq_zero_iff.not.2 hargs
      change [cmdsOf args] = [cmdsOf args].filter fun cmds => cmds.argSize ≠ 0
      rw [List.filter_cons_of_pos (by simpa using hsize), List.filter_nil]
    · rw [callExecute]
      cases execute (cmdsOf args) s <;> exact fun h => by cases h

/-- Lines of which none is rejected before the shell ends. -/
theorem alike_lines (hexec : ∀ s, execute (cmdsOf []) s = some s)
    (hlen : ∀ line ∈ lines, line.length < maxBufferSize) (h : NoneRejected execute lines s) :
    Alike (runLines (scriptLine execute) lines s) (promptLoop execute lines s) := by
  induction lines generalizing s with
  | nil => exact ⟨rfl, rfl, fun h => by cases h⟩
  | cons line lines ih =>
    obtain ⟨hline, hlen⟩ := List.forall_mem_cons.1 hlen
    obtain ⟨hrej, hrest⟩ := h
    exact (alike_line hexec hline hrej s).bind fun t ht => ih hlen (hrest t ht)

/-- **A line that is rejected ends the script**, if it is reached. -/
theorem noneRejected_of_result (hexec : ∀ s, execute (cmdsOf []) s = some s)
    (hlen : ∀ line ∈ lines, line.length < maxBufferSize)
    (h : (runLines (scriptLine execute) lines s).result ≠ .error .nullArgList) :
    NoneRejected execute lines s := by
  induction lines generalizing s with
  | nil => trivial
  | cons line lines ih =>
    obtain ⟨hline, hlen⟩ := List.forall_mem_cons.1 hlen
    rw [runLines, Traced.result_bind] at h
    have hrej : ¬ Rejected line := by
      intro hrej
      rw [scriptLine, if_neg (Nat.not_le_of_lt hline), parseCmds_eq_none_iff.2 hrej] at h
      exact h rfl
    refine ⟨hrej, fun t ht => ih hlen ?_⟩
    rw [(alike_line hexec hline hrej s).result, ht] at h
    exact h

/-- **A script runs as its lines would at the prompt exactly if** `parse_cmds` rejects no line that is
reached. -/
theorem runsAsPrompt_iff (hexec : ∀ s, execute (cmdsOf []) s = some s)
    (hlines : ∀ line ∈ text.splitOn 10, line.length < maxCmdSize) (s : σ) :
    RunsAsPrompt execute text s ↔ NoneRejected execute (text.splitOn 10) s := by
  have hsmall : ∀ line ∈ text.splitOn 10, line.length + 1 < maxBufferSize := fun line hline =>
    Nat.lt_of_lt_of_le (Nat.succ_lt_succ (hlines line hline)) (by decide)
  have hfits : ∀ line ∈ text.splitOn 10, line.length < maxBufferSize := fun line hline =>
    Nat.lt_of_succ_lt (hsmall line hline)
  rw [RunsAsPrompt, scriptLoop_eq hsmall]
  constructor
  · rintro ⟨hnoNull, -⟩
    exact noneRejected_of_result hexec hfits hnoNull
  · intro h
    have halike := alike_lines hexec hfits h
    exact ⟨halike.noNull, halike.result, halike.uses⟩

/-- A shell in which only `exit` does something: it ends the shell. -/
def exitOnly (cmds : Cmds) (s : Unit) : Option Unit :=
  if cmds = cmdsOf [[101, 120, 105, 116]] then none else some s

/-- `ls`, an empty line, `exit` and, behind it, `"a"b`. -/
theorem runsAsPrompt_exit :
    RunsAsPrompt exitOnly [108, 115, 10, 10, 101, 120, 105, 116, 10, 34, 97, 34, 98] () := by
  have hlines : [108, 115, 10, 10, 101, 120, 105, 116, 10, 34, 97, 34, 98].splitOn 10 =
      [[108, 115], [], [101, 120, 105, 116], [34, 97, 34, 98]] := by
    decide
  have hnoArgs : ∀ s, exitOnly (cmdsOf []) s = some s := fun s => if_neg (by decide)
  refine (runsAsPrompt_iff hnoArgs ?_ ()).2 ?_
  · rw [hlines]
    decide
  · rw [hlines]
    refine ⟨by decide +kernel, fun _ _ => ⟨by decide +kernel, fun _ _ => ⟨by decide +kernel, ?_⟩⟩⟩
    intro t ht
    have hexit : ∀ s t : Unit, (promptLine exitOnly [101, 120, 105, 116] s).result ≠ .ok t := by
      decide +kernel
    exact absurd ht (hexit _ t)

/-- `"a"b`. -/
theorem runsAsPrompt_fails : ¬ ∀ (text : List ℕ) (σ : Type) (execute : Cmds → σ → Option σ) (s : σ),
    text.length < 4096 → (∀ line ∈ text.splitOn 10, line.length < maxCmdSize) →
      (∀ s, execute (cmdsOf []) s = some s) → RunsAsPrompt execute text s := by
  intro h
  have hshort : ∀ line ∈ [34, 97, 34, 98].splitOn 10, line.length < maxCmdSize := by decide
  have hstop := (h [34, 97, 34, 98] Unit (fun _ s => some s) () (by decide) hshort fun _ => rfl).1
  rw [scriptLoop_of_none (by decide), scriptLine, if_neg (by decide),
    parseCmds_eq_none_iff.2 (by decide +kernel)] at hstop
  exact hstop rfl

end PlumOs
