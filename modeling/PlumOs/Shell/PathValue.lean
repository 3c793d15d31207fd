import PlumOs.Lib.Traced
import PlumOs.Shell.Vars

/-!
# A new value for `PATH` (`set_path` of `libc/shlib.c`)

The new value may refer to the old one as `$PATH`.  It is built in a buffer of `MAX_VAR_SIZE` bytes.

* `expandLoop`, `setPath` : the loop of the source and the function, with the places of the buffer that
  they store to;
* `expand` : the value that is meant;
* `expandLoop_uses`, `expandLoop_result` : what the loop stores to and what it comes to;
* `expandsOrRefuses_iff` : **`set_path` expands the value or refuses it, exactly if** no old value that it
  copies runs over the end of the buffer, and a value that fits in the buffer also fits in an entry of the
  list;
* `setPath_overruns` : `$PATH$PATH` for an old value of 1024 bytes.
-/

namespace PlumOs

/-- `PATH=`. -/
abbrev pathName : List ℕ := [80, 65, 84, 72, 61]

/-- Why `set_path` refuses a value. -/
inductive PathRefusal where
  | format
  | tooLong
  deriving DecidableEq, Repr

/-- What is behind the loop of `set_path`, up to the call of `set_var`. -/
def endOfPath (i : ℕ) (entry : List ℕ) : Traced PathRefusal ℕ (List ℕ) :=
  if entry.length < maxVarSize ∧ i < maxVarSize then .use entry.length entry else .lift (.error .tooLong)

/-- The old value behind the bytes of `new_path_entry`.  `strncpy` stores a 0 behind it. -/
def copyOldPath (oldPath : Option (List ℕ)) (entry : List ℕ) : Traced PathRefusal ℕ (List ℕ) :=
  match oldPath with
  | some old => ⟨List.range' entry.length (old.length + 1), .ok (entry ++ old)⟩
  | none => pure entry

/-- The loop of `set_path` and what is behind it, with the rest of `new_path` from `i` on and the bytes in
`new_path_entry` up to `j`.  The uses are the places in `new_path_entry` that are stored to. -/
def expandLoop (oldPath : Option (List ℕ)) (i : ℕ) (entry : List ℕ) :
    List ℕ → Traced PathRefusal ℕ (List ℕ)
  | [] => endOfPath i entry
  | c :: rest =>
    if i < maxVarSize ∧ entry.length < maxVarSize then
      if c ≠ 36 then do
        let entry ← Traced.use entry.length (entry ++ [c])
        expandLoop oldPath (i + 1) entry rest
      else if rest.take 4 = [80, 65, 84, 72] then do
        let entry ← copyOldPath oldPath entry
        expandLoop oldPath (i + 5) entry (rest.drop 4)
      else .lift (.error .format)
    else endOfPath i entry
termination_by rest => rest.length
decreasing_by
  all_goals simp only [List.length_cons, List.length_drop]; omega

/-- `set_path`: the places that it stores to, and the list. -/
def setPath (varList : VarSlots) (newPath : List ℕ) : List ℕ × VarSlots :=
  let t := expandLoop (getVarAt varList pathName) 0 [] newPath
  (t.uses, match t.result with
    | .ok entry => setVar varList pathName entry
    | .error _ => varList)

/-! ### The value that is meant -/

/-- A value with the old one for each `$PATH`, if there is no other `$` in it. -/
def expand (old : List ℕ) : List ℕ → Option (List ℕ)
  | [] => some []
  | c :: rest =>
    if c ≠ 36 then (expand old rest).map (c :: ·)
    else if rest.take 4 = [80, 65, 84, 72] then (expand old (rest.drop 4)).map (old ++ ·)
    else none
termination_by s => s.length
decreasing_by
  all_goals simp only [List.length_cons, List.length_drop]; omega

/-- `$PATH`. -/
abbrev dollarPath : List ℕ := [36, 80, 65, 84, 72]

variable {old rest s entry value : List ℕ} {c i j : ℕ} {oldPath : Option (List ℕ)}

theorem expand_char (hc : c ≠ 36) : expand old (c :: s) = (expand old s).map (c :: ·) := by
  rw [expand, if_pos hc]

theorem expand_path : expand old (dollarPath ++ s) = (expand old s).map (old ++ ·) := by
  change expand old (36 :: ([80, 65, 84, 72] ++ s)) = _
  have htake : ([80, 65, 84, 72] ++ s).take 4 = [80, 65, 84, 72] := rfl
  rw [expand, if_neg (not_not.2 rfl), if_pos htake]
  rfl

theorem expand_other (h : s.take 4 ≠ [80, 65, 84, 72]) : expand old (36 :: s) = none := by
  rw [expand, if_neg (not_not.2 rfl), if_neg h]

/-- What a value begins with. -/
theorem value_cases (s : List ℕ) : s = [] ∨ (∃ c rest, c ≠ 36 ∧ s = c :: rest) ∨
    (∃ rest, s = dollarPath ++ rest) ∨ ∃ rest, rest.take 4 ≠ [80, 65, 84, 72] ∧ s = 36 :: rest := by
  cases s with
  | nil => exact .inl rfl
  | cons c s =>
    by_cases hc : c = 36
    · subst hc
      by_cases hs : s.take 4 = [80, 65, 84, 72]
      · refine .inr (.inr (.inl ⟨s.drop 4, ?_⟩))
        rw [← List.take_append_drop 4 s, hs]
        rfl
      · exact .inr (.inr (.inr ⟨s, hs, rfl⟩))
    · exact .inr (.inl ⟨c, s, hc, rfl⟩)

/-! ### The loop -/

theorem expandLoop_limit (h : ¬ (i < maxVarSize ∧ entry.length < maxVarSize)) :
    expandLoop oldPath i entry s = endOfPath i entry := by
  cases s with
  | nil => rw [expandLoop]
  | cons c s => rw [expandLoop, if_neg h]

theorem expandLoop_char (h : i < maxVarSize ∧ entry.length < maxVarSize) (hc : c ≠ 36) :
    expandLoop oldPath i entry (c :: s) =
      Traced.use entry.length (entry ++ [c]) >>= fun entry => expandLoop oldPath (i + 1) entry s := by
  rw [expandLoop, if_pos h, if_pos hc]

theorem expandLoop_path (h : i < maxVarSize ∧ entry.length < maxVarSize) :
    expandLoop oldPath i entry (dollarPath ++ s) =
      copyOldPath oldPath entry >>= fun entry => expandLoop oldPath (i + 5) entry s := by
  change expandLoop oldPath i entry (36 :: ([80, 65, 84, 72] ++ s)) = _
  have htake : ([80, 65, 84, 72] ++ s).take 4 = [80, 65, 84, 72] := rfl
  rw [expandLoop, if_pos h, if_neg (not_not.2 rfl), if_pos htake]
  rfl

theorem expandLoop_other (h : i < maxVarSize ∧ entry.length < maxVarSize)
    (hs : s.take 4 ≠ [80, 65, 84, 72]) :
    expandLoop oldPath i entry (36 :: s) = .lift (.error .format) := by
  rw [expandLoop, if_pos h, if_neg (not_not.2 rfl), if_neg hs]

/-- Induction over the turns of the loop: it is at a limit or at the end, takes a byte or a `$PATH`, or comes
to another `$`. -/
theorem expandLoop_induction (oldPath : Option (List ℕ)) {motive : ℕ → List ℕ → List ℕ → Prop}
    (limit : ∀ i entry s, ¬ (i < maxVarSize ∧ entry.length < maxVarSize) → motive i entry s)
    (nil : ∀ i entry, i < maxVarSize ∧ entry.length < maxVarSize → motive i entry [])
    (char : ∀ i entry c rest, i < maxVarSize ∧ entry.length < maxVarSize → c ≠ 36 →
      motive (i + 1) (entry ++ [c]) rest → motive i entry (c :: rest))
    (path : ∀ i entry rest, i < maxVarSize ∧ entry.length < maxVarSize →
      motive (i + 5) (entry ++ oldPath.getD []) rest → motive i entry (dollarPath ++ rest))
    (other : ∀ i entry rest, i < maxVarSize ∧ entry.length < maxVarSize →
      rest.take 4 ≠ [80, 65, 84, 72] → motive i entry (36 :: rest))
    (i : ℕ) (entry s : List ℕ) : motive i entry s := by
  induction hn : s.length using Nat.strongRecOn generalizing i entry s with
  | _ n ih =>
    subst hn
    by_cases hlim : i < maxVarSize ∧ entry.length < maxVarSize
    swap
    · exact limit i entry s hlim
    rcases value_cases s with rfl | ⟨c, rest, hc, rfl⟩ | ⟨rest, rfl⟩ | ⟨rest, hrest, rfl⟩
    · exact nil i entry hlim
    · exact char i entry c rest hlim hc (ih rest.length (Nat.lt_succ_self _) _ _ rest rfl)
    · have hlen : rest.length < (dollarPath ++ rest).length := by
        rw [List.length_append]
        exact Nat.lt_add_of_pos_left (by decide)
      exact path i entry rest hlim (ih rest.length hlen _ _ rest rfl)
    · exact other i entry rest hlim hrest

theorem copyOldPath_result : (copyOldPath oldPath entry).result = .ok (entry ++ oldPath.getD []) := by
  cases oldPath with
  | none => exact congrArg Except.ok (List.append_nil entry).symm
  | some old => rfl

theorem exists_map_eq_some {x : Option (List ℕ)} {f : List ℕ → List ℕ} {P : List ℕ → Prop} :
    (∃ e, x.map f = some e ∧ P e) ↔ ∃ e, x = some e ∧ P (f e) := by
  cases x with
  | none => exact iff_of_false (by rintro ⟨e, he, -⟩; cases he) (by rintro ⟨e, he, -⟩; cases he)
  | some a => exact ⟨fun ⟨e, he, hP⟩ => ⟨a, rfl, by cases he; exact hP⟩, fun ⟨e, he, hP⟩ => by
      cases he
      exact ⟨f a, rfl, hP⟩⟩

/-- **What the loop comes to**: the expansion behind the bytes that are there, if it fits in the
buffer. -/
theorem expandLoop_result (i : ℕ) (entry s : List ℕ) :
    (expandLoop oldPath i entry s).result = .ok value ↔
      ∃ e, expand (oldPath.getD []) s = some e ∧ i + s.length < maxVarSize ∧
        entry.length + e.length < maxVarSize ∧ value = entry ++ e := by
  induction i, entry, s using expandLoop_induction oldPath with
  | limit i entry s hlim =>
    rw [expandLoop_limit hlim, endOfPath, if_neg fun h => hlim ⟨h.2, h.1⟩]
    refine iff_of_false (fun h => by cases h) ?_
    rintro ⟨e, -, hi, hj, -⟩
    exact hlim ⟨by omega, by omega⟩
  | nil i entry hlim =>
    rw [expandLoop, endOfPath, if_pos ⟨hlim.2, hlim.1⟩, expand, Traced.result_use, Except.ok.injEq]
    constructor
    · rintro rfl
      exact ⟨[], rfl, hlim.1, hlim.2, (List.append_nil _).symm⟩
    · rintro ⟨e, he, -, -, rfl⟩
      cases he
      exact (List.append_nil _).symm
  | char i entry c rest hlim hc ih =>
    rw [expandLoop_char hlim hc, Traced.result_bind, Traced.result_use, ok_bind, ih, expand_char hc,
      exists_map_eq_some]
    refine exists_congr fun e => and_congr_right fun _ => ?_
    rw [List.length_append, List.length_singleton, List.length_cons, List.length_cons,
      List.append_assoc, List.singleton_append, Nat.add_right_comm i, Nat.add_assoc i,
      Nat.add_right_comm entry.length, Nat.add_assoc entry.length]
  | path i entry rest hlim ih =>
    rw [expandLoop_path hlim, Traced.result_bind, copyOldPath_result, ok_bind, ih, expand_path,
      exists_map_eq_some]
    refine exists_congr fun e => and_congr_right fun _ => ?_
    rw [List.length_append, List.length_append, List.length_append, List.append_assoc,
      Nat.add_assoc, Nat.add_assoc]
    rfl
  | other i entry rest hlim hrest =>
    rw [expandLoop_other hlim hrest, expand_other hrest]
    exact iff_of_false (fun h => by cases h) (by rintro ⟨e, he, -⟩; cases he)

/-! ### The end of the buffer -/

/-- An old value that is copied runs over the end of the buffer: at some `$PATH` that the loop comes to,
the bytes so far and the old value have no room for a 0 behind them.  There are `i` and `j` bytes in front
of the value and of its expansion. -/
def OverrunsFrom (i j : ℕ) (old s : List ℕ) : Prop :=
  ∃ pre post e, s = pre ++ (dollarPath ++ post) ∧ expand old pre = some e ∧ i + pre.length < maxVarSize ∧
    j + e.length < maxVarSize ∧ maxVarSize ≤ j + e.length + old.length

theorem not_overruns_limit (h : ¬ (i < maxVarSize ∧ j < maxVarSize)) : ¬ OverrunsFrom i j old s := by
  rintro ⟨pre, post, e, -, -, hi, hj, -⟩
  exact h ⟨by omega, by omega⟩

/-- Without a `$` nothing is copied. -/
theorem not_overruns_plain (h : 36 ∉ s) : ¬ OverrunsFrom i j old s := by
  rintro ⟨pre, post, e, rfl, -⟩
  exact h (List.mem_append_right _ (List.mem_append_left _ (List.mem_cons_self ..)))

theorem not_overruns_nil : ¬ OverrunsFrom i j old [] := not_overruns_plain List.not_mem_nil

theorem overruns_char (hc : c ≠ 36) : OverrunsFrom i j old (c :: s) ↔ OverrunsFrom (i + 1) (j + 1) old s := by
  constructor
  · rintro ⟨pre, post, e, hs, he, hi, hj, hlen⟩
    cases pre with
    | nil => exact absurd (List.cons.inj hs).1 hc
    | cons d pre =>
      obtain ⟨rfl, rfl⟩ := List.cons.inj hs
      rw [expand_char hc, Option.map_eq_some_iff] at he
      obtain ⟨e, he, rfl⟩ := he
      rw [List.length_cons] at hi hj hlen
      exact ⟨pre, post, e, rfl, he, by omega, by omega, by omega⟩
  · rintro ⟨pre, post, e, rfl, he, hi, hj, hlen⟩
    refine ⟨c :: pre, post, c :: e, rfl, by rw [expand_char hc, he]; rfl, ?_, ?_, ?_⟩
    all_goals rw [List.length_cons]; omega

theorem overruns_path (h : i < maxVarSize ∧ j < maxVarSize) :
    OverrunsFrom i j old (dollarPath ++ s) ↔
      maxVarSize ≤ j + old.length ∨ OverrunsFrom (i + 5) (j + old.length) old s := by
  constructor
  · rintro ⟨pre, post, e, hs, he, hi, hj, hlen⟩
    rcases value_cases pre with rfl | ⟨c, pre, hc, rfl⟩ | ⟨pre, rfl⟩ | ⟨pre, hpre, rfl⟩
    · rw [expand, Option.some.injEq] at he
      subst he
      exact .inl hlen
    · exact absurd (List.cons.inj hs).1.symm hc
    · rw [List.append_assoc] at hs
      rw [expand_path, Option.map_eq_some_iff] at he
      obtain ⟨e, he, rfl⟩ := he
      have hpre5 : (dollarPath ++ pre).length = pre.length + 5 := by
        rw [List.length_append, Nat.add_comm]
        rfl
      rw [hpre5] at hi
      rw [List.length_append] at hj hlen
      exact .inr ⟨pre, post, e, List.append_cancel_left hs, he, by omega, by omega, by omega⟩
    · rw [expand_other hpre] at he
      cases he
  · rintro (hlen | ⟨pre, post, e, rfl, he, hi, hj, hlen⟩)
    · exact ⟨[], s, [], rfl, by rw [expand], h.1, h.2, hlen⟩
    · refine ⟨dollarPath ++ pre, post, old ++ e, by rw [List.append_assoc], ?_, ?_, ?_, ?_⟩
      · rw [expand_path, he]
        rfl
      · rw [List.length_append, show dollarPath.length = 5 from rfl]
        omega
      · rw [List.length_append]
        omega
      · rw [List.length_append]
        omega

theorem not_overruns_other (h : s.take 4 ≠ [80, 65, 84, 72]) : ¬ OverrunsFrom i j old (36 :: s) := by
  rintro ⟨pre, post, e, hs, he, -⟩
  cases pre with
  | nil =>
    rw [(List.cons.inj hs).2] at h
    exact h rfl
  | cons d pre =>
    obtain ⟨rfl, rfl⟩ := List.cons.inj hs
    by_cases hpre : pre.take 4 = [80, 65, 84, 72]
    · have hlen : 4 ≤ pre.length := by
        have htake : min 4 pre.length = 4 := List.length_take.symm.trans (congrArg List.length hpre)
        omega
      change (pre ++ (dollarPath ++ post)).take 4 ≠ _ at h
      rw [List.take_append_of_le_length hlen] at h
      exact h hpre
    · rw [expand_other hpre] at he
      cases he

theorem endOfPath_uses : ∀ k ∈ (endOfPath i entry).uses, k < maxVarSize := by
  rw [endOfPath]
  split
  · rename_i h
    exact List.forall_mem_singleton.2 h.1
  · exact List.forall_mem_nil _

theorem copyOldPath_uses :
    (∀ k ∈ (copyOldPath oldPath entry).uses, k < maxVarSize) ↔
      ∀ old, oldPath = some old → entry.length + old.length < maxVarSize := by
  cases oldPath with
  | none => exact iff_of_true (List.forall_mem_nil _) (fun old hnone => by cases hnone)
  | some old =>
    change (∀ k ∈ List.range' entry.length (old.length + 1), k < maxVarSize) ↔ _
    constructor
    · rintro hk old' ⟨⟩
      exact hk _ (List.mem_range'_1.2 ⟨Nat.le_add_right _ _, Nat.lt_succ_self _⟩)
    · intro hlen k hk
      exact Nat.lt_of_le_of_lt (Nat.le_of_lt_succ (List.mem_range'_1.1 hk).2) (hlen old rfl)

/-- **The loop stores to the buffer only, exactly if** no old value that it copies runs over its end. -/
theorem expandLoop_uses (i : ℕ) (entry s : List ℕ) :
    (∀ k ∈ (expandLoop oldPath i entry s).uses, k < maxVarSize) ↔
      ∀ old, oldPath = some old → ¬ OverrunsFrom i entry.length old s := by
  induction i, entry, s using expandLoop_induction oldPath with
  | limit i entry s hlim =>
    rw [expandLoop_limit hlim]
    exact iff_of_true endOfPath_uses fun old _ => not_overruns_limit hlim
  | nil i entry hlim =>
    rw [expandLoop]
    exact iff_of_true endOfPath_uses fun old _ => not_overruns_nil
  | char i entry c rest hlim hc ih =>
    rw [expandLoop_char hlim hc, Traced.uses_bind_ok (Traced.result_use _ _), Traced.uses_use,
      List.singleton_append, List.forall_mem_cons, and_iff_right hlim.2, ih, List.length_append,
      List.length_singleton]
    exact forall_congr' fun old => imp_congr_right fun _ => not_congr (overruns_char hc).symm
  | path i entry rest hlim ih =>
    rw [expandLoop_path hlim, Traced.uses_bind_ok copyOldPath_result, List.forall_mem_append,
      copyOldPath_uses, ih, ← forall₂_and]
    refine forall_congr' fun old => imp_congr_right fun hold => ?_
    rw [overruns_path hlim, not_or, Nat.not_le, hold, Option.getD_some, List.length_append]
  | other i entry rest hlim hrest =>
    rw [expandLoop_other hlim hrest]
    exact iff_of_true (List.forall_mem_nil _) fun old _ => not_overruns_other hrest

/-! ### The list -/

variable {varList : VarSlots} {newPath : List ℕ}

/-- The value of `PATH` in the slots of the list. -/
def pathOf (varList : VarSlots) : Option (List ℕ) := getVar (Slots.filled varList maxShVarNum) pathName

/-- `PATH` is in the list, or a slot is empty. -/
def PathRoom (varList : VarSlots) : Prop := pathOf varList ≠ none ∨ ∃ i < maxShVarNum, varList i = none

/-- The new value with the old one for each `$PATH`; it fits in the buffer. -/
def FittingPath (varList : VarSlots) (newPath value : List ℕ) : Prop :=
  expand ((pathOf varList).getD []) newPath = some value ∧ value.length < maxVarSize

/-- `PATH` has a new value, and no other variable has changed. -/
def SetsPath (varList varList' : VarSlots) (value : List ℕ) : Prop :=
  pathOf varList' = some value ∧
    ∃ i < maxShVarNum, (varList i = none ∨ ∃ old, varList i = some (pathName ++ old)) ∧
      ∀ j ≠ i, varList' j = varList j

/-- `set_path` stores to its buffer only, and sets `PATH` to the expansion of the value, or leaves the list
as it is if there is none that fits. -/
def ExpandsOrRefuses (varList : VarSlots) (newPath : List ℕ) : Prop :=
  (∀ k ∈ (setPath varList newPath).1, k < maxVarSize) ∧
    (∀ value, FittingPath varList newPath value → SetsPath varList (setPath varList newPath).2 value) ∧
    ((∀ value, ¬ FittingPath varList newPath value) → (setPath varList newPath).2 = varList)

/-- The test for `PATH` of `get_var` and `set_var`. -/
abbrev isPathEntry (entry : List ℕ) : Bool := decide (strncmp pathName entry 5 = 0)

theorem getVar_pathName (entries : List (List ℕ)) (hlen : entries.length ≤ maxEnvVarNum + 1) :
    getVar entries pathName =
      (entries.find? isPathEntry).map fun entry => (entry.drop 5).take (maxVarSize - 1) := by
  rw [getVar, List.take_of_length_le hlen]
  rfl

theorem length_filled_vars (varList : VarSlots) :
    (Slots.filled varList maxShVarNum).length ≤ maxEnvVarNum + 1 :=
  Nat.le_trans (Slots.length_filled_le _ _) (by decide)

/-- `get_var` finds the value in the list, if `PATH` is there or a slot is empty. -/
theorem getVarAt_of_room (h : PathRoom varList) : getVarAt varList pathName = pathOf varList := by
  have hfirst := Slots.filled_prefix varList (by decide : maxShVarNum ≤ maxEnvVarNum + 1)
  rw [getVarAt, getVar_pathName _ (Slots.length_filled_le _ _), pathOf,
    getVar_pathName _ (length_filled_vars varList)]
  rcases h with hsome | hnone
  · obtain ⟨rest, hrest⟩ := hfirst
    rw [pathOf, getVar_pathName _ (length_filled_vars varList), Ne, Option.map_eq_none_iff] at hsome
    obtain ⟨entry, hentry⟩ := Option.ne_none_iff_exists'.1 hsome
    rw [← hrest, List.find?_append, hentry, Option.some_or]
  · rw [Slots.filled_of_lt (Slots.length_filled_lt_iff.2 hnone) (by decide)]

/-- What `set_var` does with a new value of `PATH`. -/
theorem setVar_path (value : List ℕ) :
    setVar varList pathName value =
      Slots.put varList maxShVarNum isPathEntry (pathName ++ value.take (maxVarSize - 6)) := by
  have htake : value.take (min value.length (maxVarSize - 6)) = value.take (maxVarSize - 6) := by
    rw [List.take_eq_take_iff, Nat.min_comm value.length, Nat.min_assoc, Nat.min_self]
  rw [← htake]
  rfl

theorem isPathEntry_append (value : List ℕ) : isPathEntry (pathName ++ value) = true := by
  simp [strncmp]

theorem pathOf_ne_none_iff :
    pathOf varList ≠ none ↔ ∃ entry ∈ Slots.filled varList maxShVarNum, isPathEntry entry = true := by
  rw [pathOf, getVar_pathName _ (length_filled_vars varList), Ne, Option.map_eq_none_iff,
    List.find?_eq_none]
  push Not
  rfl

theorem findIdx_path_iff : (Slots.filled varList maxShVarNum).findIdx isPathEntry = maxShVarNum ↔
    ¬ PathRoom varList := by
  have hle := Slots.length_filled_le varList maxShVarNum
  have hidx : (Slots.filled varList maxShVarNum).findIdx isPathEntry ≤ _ := List.findIdx_le_length
  rw [PathRoom, not_or, pathOf_ne_none_iff, ← Slots.length_filled_lt_iff, ← List.findIdx_lt_length,
    Nat.not_lt, Nat.not_lt]
  constructor
  · exact fun h => ⟨Nat.le_trans hle (Nat.le_of_eq h.symm), Nat.le_trans (Nat.le_of_eq h.symm) hidx⟩
  · exact fun h => Nat.le_antisymm (Nat.le_trans hidx hle) (Nat.le_trans h.2 h.1)

/-- Without room there is no value, and none can be set. -/
theorem no_room (h : ¬ PathRoom varList) (value : List ℕ) :
    pathOf varList = none ∧ setVar varList pathName value = varList := by
  refine ⟨not_not.1 (not_or.1 h).1, ?_⟩
  rw [setVar_path, Slots.put, if_pos (findIdx_path_iff.2 h)]

/-- With room, the value is set as far as it fits in an entry. -/
theorem pathOf_setVar (h : PathRoom varList) (value : List ℕ) :
    pathOf (setVar varList pathName value) = some (value.take (maxVarSize - 6)) := by
  rw [pathOf, getVar_pathName _ (length_filled_vars _), setVar_path,
    Slots.find?_put (fun hidx => findIdx_path_iff.1 hidx h) (isPathEntry_append _) (Nat.le_refl _),
    Option.map_some, show (pathName ++ value.take (maxVarSize - 6)).drop 5 = value.take (maxVarSize - 6) from rfl,
    List.take_take]
  rfl

/-- The slot that `find?` or `set_var` comes to. -/
theorem path_slot (hvars : ∀ i entry, varList i = some entry → IsPath entry) (h : PathRoom varList) :
    (Slots.filled varList maxShVarNum).findIdx isPathEntry < maxShVarNum ∧
      (varList ((Slots.filled varList maxShVarNum).findIdx isPathEntry) = none ∨
        ∃ old, varList ((Slots.filled varList maxShVarNum).findIdx isPathEntry) =
          some (pathName ++ old)) := by
  have hlt : (Slots.filled varList maxShVarNum).findIdx isPathEntry < maxShVarNum :=
    Nat.lt_of_le_of_ne (Nat.le_trans List.findIdx_le_length (Slots.length_filled_le _ _))
      fun hidx => findIdx_path_iff.1 hidx h
  refine ⟨hlt, ?_⟩
  have hslot := Slots.slot_eq List.findIdx_le_length hlt
  rcases Nat.lt_or_ge ((Slots.filled varList maxShVarNum).findIdx isPathEntry)
    (Slots.filled varList maxShVarNum).length with hfound | hend
  · right
    rw [List.getElem?_eq_getElem hfound] at hslot
    have htest := List.findIdx_getElem (w := hfound)
    rw [decide_eq_true_iff] at htest
    have hbytes := fun c hc => (hvars _ _ hslot c hc).2
    obtain ⟨old, hold⟩ := (strncmp_prefix_iff (by unfold IsPath; decide) hbytes).1 htest
    exact ⟨old, by rw [hslot, hold]⟩
  · left
    rw [hslot, List.getElem?_eq_none hend]

theorem setsPath_self (hvars : ∀ i entry, varList i = some entry → IsPath entry) {value : List ℕ} :
    SetsPath varList varList value ↔ pathOf varList = some value := by
  refine ⟨fun h => h.1, fun h => ⟨h, ?_⟩⟩
  have hroom : PathRoom varList := .inl (by rw [h]; exact Option.some_ne_none value)
  obtain ⟨hlt, hslot⟩ := path_slot hvars hroom
  exact ⟨_, hlt, hslot, fun _ _ => rfl⟩

theorem setsPath_setVar (hvars : ∀ i entry, varList i = some entry → IsPath entry)
    (h : PathRoom varList) {value : List ℕ} :
    SetsPath varList (setVar varList pathName value) value ↔ value.length + 5 < maxVarSize := by
  rw [SetsPath, pathOf_setVar h, Option.some.injEq, List.take_eq_self_iff]
  obtain ⟨hlt, hslot⟩ := path_slot hvars h
  refine ⟨fun hsets => ?_, fun hlen => ⟨?_, _, hlt, hslot, fun j hj => ?_⟩⟩
  · have hlen := hsets.1
    simp only [maxVarSize] at hlen ⊢
    omega
  · simp only [maxVarSize] at hlen ⊢
    omega
  · rw [setVar_path, (Slots.put_eq_update fun hidx => findIdx_path_iff.1 hidx h).1,
      Function.update_of_ne hj]

/-- The list after `set_path`. -/
theorem setPath_snd (varList : VarSlots) (newPath : List ℕ) :
    (∃ e, expand ((getVarAt varList pathName).getD []) newPath = some e ∧ newPath.length < maxVarSize ∧
        e.length < maxVarSize ∧ (setPath varList newPath).2 = setVar varList pathName e) ∨
      ((∀ e, expand ((getVarAt varList pathName).getD []) newPath = some e →
        ¬ (newPath.length < maxVarSize ∧ e.length < maxVarSize)) ∧
          (setPath varList newPath).2 = varList) := by
  rw [setPath]
  cases hres : (expandLoop (getVarAt varList pathName) 0 [] newPath).result with
  | ok value =>
    obtain ⟨e, he, hi, hj, hvalue⟩ := (expandLoop_result 0 [] newPath).1 hres
    rw [Nat.zero_add] at hi
    rw [List.length_nil, Nat.zero_add] at hj
    rw [List.nil_append] at hvalue
    exact .inl ⟨e, he, hi, hj, by rw [hvalue]⟩
  | error r =>
    refine .inr ⟨fun e he hlen => ?_, rfl⟩
    have hok := (@expandLoop_result ([] ++ e) _ 0 [] newPath).2
      ⟨e, he, by rw [Nat.zero_add]; exact hlen.1, by rw [List.length_nil, Nat.zero_add]; exact hlen.2, rfl⟩
    rw [hres] at hok
    cases hok

/-- **`set_path` expands the value or refuses it, exactly if** no old value that it copies runs over the
end of the buffer, and an expansion that fits in the buffer is that of a value of less than 2048 bytes,
fits in an entry, and there is room for `PATH` in the list; or it is the value of `PATH` anyway. -/
theorem expandsOrRefuses_iff (hvars : ∀ i entry, varList i = some entry → IsPath entry) :
    ExpandsOrRefuses varList newPath ↔
      (∀ old, getVarAt varList pathName = some old → ¬ OverrunsFrom 0 0 old newPath) ∧
        ∀ value, FittingPath varList newPath value →
          (newPath.length < maxVarSize ∧ value.length + 5 < maxVarSize ∧ PathRoom varList) ∨
            (maxVarSize ≤ newPath.length ∧ pathOf varList = some value) := by
  refine and_congr (expandLoop_uses 0 [] newPath) ?_
  by_cases hroom : PathRoom varList
  · have hlist := setPath_snd varList newPath
    rw [getVarAt_of_room hroom] at hlist
    rcases hlist with ⟨e, he, hi, hj, hlist⟩ | ⟨hnot, hlist⟩
    · -- the value is set
      have hfit : ∀ value, FittingPath varList newPath value ↔ value = e := by
        intro value
        rw [FittingPath, he, Option.some.injEq]
        exact ⟨fun h => h.1.symm, fun h => ⟨h.symm, h ▸ hj⟩⟩
      simp only [hfit, forall_eq, hlist, setsPath_setVar hvars hroom]
      rw [and_iff_left False.elim]
      exact ⟨fun h => .inl ⟨hi, h, hroom⟩, fun h => h.elim (fun h => h.2.1) fun h => absurd hi (Nat.not_lt.2 h.1)⟩
    · -- the value is refused
      rw [hlist, and_iff_left fun _ => rfl]
      refine forall_congr' fun value => imp_congr_right fun hfit => ?_
      have hlong : ¬ newPath.length < maxVarSize := fun hi => hnot value hfit.1 ⟨hi, hfit.2⟩
      rw [setsPath_self hvars]
      exact ⟨fun h => .inr ⟨Nat.not_lt.1 hlong, h⟩, fun h => h.elim (fun h => absurd h.1 hlong) fun h => h.2⟩
  · have hlist : (setPath varList newPath).2 = varList := by
      rcases setPath_snd varList newPath with ⟨e, -, -, -, hlist⟩ | ⟨-, hlist⟩
      · rw [hlist, (no_room hroom e).2]
      · exact hlist
    rw [hlist, and_iff_left fun _ => rfl]
    refine forall_congr' fun value => imp_congr_right fun _ => ?_
    rw [setsPath_self hvars]
    exact ⟨fun h => absurd (.inl (by rw [h]; exact Option.some_ne_none value)) hroom,
      fun h => h.elim (fun h => absurd h.2.2 hroom) fun h => h.2⟩

/-- A list in which `PATH` is `/bin`. -/
def binVars (i : ℕ) : Option (List ℕ) := if i = 0 then some (pathName ++ [47, 98, 105, 110]) else none

theorem binVars_bytes (i : ℕ) (entry : List ℕ) (h : binVars i = some entry) : IsPath entry := by
  unfold binVars at h
  split at h
  · cases h
    unfold IsPath
    decide
  · cases h

/-- `$PATH:/usr` there. -/
theorem expandsOrRefuses_bin :
    ExpandsOrRefuses binVars (dollarPath ++ [58, 47, 117, 115, 114]) := by
  refine (expandsOrRefuses_iff binVars_bytes).2 ⟨fun old hold => ?_, ?_⟩
  · have hbin : getVarAt binVars pathName = some [47, 98, 105, 110] := by decide +kernel
    obtain rfl := Option.some.inj (hbin.symm.trans hold)
    rw [overruns_path ⟨by decide, by decide⟩, not_or]
    exact ⟨by decide, not_overruns_plain (by decide)⟩
  · rintro value ⟨hvalue, -⟩
    have hexpand : expand ((pathOf binVars).getD []) (dollarPath ++ [58, 47, 117, 115, 114]) =
        some [47, 98, 105, 110, 58, 47, 117, 115, 114] := by
      decide +kernel
    rw [hexpand, Option.some.injEq] at hvalue
    subst hvalue
    exact .inl ⟨by decide, by decide, .inr ⟨1, by decide, rfl⟩⟩

/-- The old value has 1024 bytes, and the new one is `$PATH$PATH`. -/
theorem setPath_overruns : ¬ ∀ (varList : VarSlots) (newPath : List ℕ),
    (∀ i entry, varList i = some entry → IsPath entry) → IsPath newPath →
      ExpandsOrRefuses varList newPath := by
  intro h
  have hbytes : IsPath (pathName ++ List.replicate 1024 97) := by unfold IsPath; decide +kernel
  have hvars : ∀ i entry, (if i = 0 then some (pathName ++ List.replicate 1024 97) else none) = some entry →
      IsPath entry := by
    intro i entry hentry
    split at hentry
    · cases hentry
      exact hbytes
    · cases hentry
  have hstores := (h (fun i => if i = 0 then some (pathName ++ List.replicate 1024 97) else none)
    (dollarPath ++ dollarPath) hvars (by unfold IsPath; decide)).1
  exact absurd (hstores 2048 (by decide +kernel)) (Nat.lt_irrefl 2048)

end PlumOs
