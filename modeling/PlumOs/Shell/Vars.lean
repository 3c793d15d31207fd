import PlumOs.Fs.Directory
import PlumOs.Lib.Slots
import PlumOs.Shell.Search

/-!
# Shell variables (`get_var` and `set_var` of `libc/shlib.c`)

The variables of the shell are in a list of `MAX_SH_VAR_NUM` slots for pointers to strings `NAME=value`.
`set_var` looks for a name in this list, and `get_var` in up to `MAX_ENV_VAR_NUM` slots.

* `getVarAt`, `getVarReads`, `setVar` : the functions of the source, and the slots that `get_var` looks
  at;
* `IsVar.keyed` : a name that ends with its only `=` is found in no entry but its own;
* `setVars_map` : **the list is a map** for such names;
* `getVar_inside_iff` : **`get_var` looks at the slots of the list only, exactly if** one of them is
  empty or the name is in the list;
* `getVar_outside` : eight variables and the name of a ninth.
-/

namespace PlumOs

/-- `MAX_SH_VAR_NUM`. -/
abbrev maxShVarNum : ℕ := 8

/-- The slots of a list of variables, and what is in memory behind them. -/
abbrev VarSlots := ℕ → Option (List ℕ)

/-- `get_var`, up to the first null pointer. -/
def getVarAt (varList : VarSlots) (varName : List ℕ) : Option (List ℕ) :=
  getVar (Slots.filled varList (maxEnvVarNum + 1)) varName

/-- The slots that `get_var` looks at: those up to the one that its loop ends at. -/
def getVarReads (varList : VarSlots) (varName : List ℕ) : List ℕ :=
  let nlen := min varName.length maxVarSize
  let i := (Slots.filled varList maxEnvVarNum).findIdx fun entry => strncmp varName entry nlen = 0
  List.range (i + 1)

/-- `set_var`. -/
def setVar (varList : VarSlots) (varName varValue : List ℕ) : VarSlots :=
  let len := min varName.length (maxVarSize - 1)
  let vlen := min varValue.length (maxVarSize - len - 1)
  Slots.put varList maxShVarNum (fun entry => strncmp varName entry len = 0)
    (varName.take len ++ varValue.take vlen)

/-- Calls of `set_var`, one after the other. -/
def setVars (varList : VarSlots) (calls : List (List ℕ × List ℕ)) : VarSlots :=
  calls.foldl (fun varList call => setVar varList call.1 call.2) varList

/-- A list whose slots are all null pointers. -/
def BlankVars (varList : VarSlots) : Prop := ∀ i < maxShVarNum, varList i = none

/-! ### Names -/

variable {varList : VarSlots} {name name' value value' : List ℕ} {calls : List (List ℕ × List ℕ)}

/-- A name that ends with its only `=`, and a value that fits in an entry with it. -/
structure IsVar (name value : List ℕ) : Prop where
  /-- The name ends with its only `=`. -/
  onlyEq : ∃ base, name = base ++ [61] ∧ 61 ∉ base
  /-- The name is a string. -/
  isPath_name : IsPath name
  /-- The value is a string. -/
  isPath_value : IsPath value
  /-- Both of them fit an entry. -/
  short : name.length + value.length < maxVarSize

theorem base_unique {base base' : List ℕ} (h : 61 ∉ base) (h' : 61 ∉ base')
    (hpre : base ++ [61] <+: base' ++ [61] ++ value) : base = base' := by
  induction base generalizing base' with
  | nil =>
    cases base' with
    | nil => rfl
    | cons c base' =>
      have hc : 61 = c := (List.cons_prefix_cons.1 hpre).1
      exact absurd (hc ▸ List.mem_cons_self ..) h'
  | cons c base ih =>
    cases base' with
    | nil =>
      have hc : c = 61 := (List.cons_prefix_cons.1 hpre).1
      exact absurd (hc ▸ List.mem_cons_self ..) h
    | cons c' base' =>
      obtain ⟨rfl, hrest⟩ := List.cons_prefix_cons.1 hpre
      rw [ih (fun hm => h (List.mem_cons_of_mem _ hm)) (fun hm => h' (List.mem_cons_of_mem _ hm)) hrest]

/-- **A name is found in no entry but its own.** -/
theorem IsVar.keyed : Slots.Keyed (· ++ ·) (fun name entry => strncmp name entry name.length = 0) IsVar := by
  intro name value name' value' h h'
  have hentry : ∀ c ∈ name' ++ value', c < 256 := fun c hc =>
    (isPath_append h'.isPath_name h'.isPath_value c hc).2
  change decide (strncmp name (name' ++ value') name.length = 0) = true ↔ name = name'
  rw [decide_eq_true_iff, strncmp_prefix_iff h.isPath_name hentry]
  constructor
  · intro hpre
    obtain ⟨base, rfl, hbase⟩ := h.onlyEq
    obtain ⟨base', rfl, hbase'⟩ := h'.onlyEq
    rw [base_unique hbase hbase' hpre]
  · rintro rfl
    exact List.prefix_append name value'

theorem IsVar.setVar (h : IsVar name value) (varList : VarSlots) :
    setVar varList name value =
      Slots.put varList maxShVarNum (fun entry => strncmp name entry name.length = 0) (name ++ value) := by
  have hlen := h.short
  have hname : min name.length (maxVarSize - 1) = name.length := by omega
  have hvalue : min value.length (maxVarSize - name.length - 1) = value.length := by omega
  rw [PlumOs.setVar, hname, hvalue, List.take_length, List.take_length]

/-! ### The map -/

/-- The variables after some calls, as a map with room for `MAX_SH_VAR_NUM` names. -/
def varMap (calls : List (List ℕ × List ℕ)) : Slots.KeyMap (List ℕ) (List ℕ) :=
  calls.foldl (fun vars call => vars.put maxShVarNum call.1 call.2) ⟨∅, fun _ => []⟩

theorem setVars_concat (call : List ℕ × List ℕ) :
    setVars varList (calls ++ [call]) = setVar (setVars varList calls) call.1 call.2 := by
  rw [setVars, List.foldl_append]
  rfl

theorem varMap_concat (call : List ℕ × List ℕ) :
    varMap (calls ++ [call]) = (varMap calls).put maxShVarNum call.1 call.2 := by
  rw [varMap, List.foldl_append]
  rfl

/-- Some calls on a blank list make it hold the map. -/
theorem repr_setVars (hblank : BlankVars varList) (hcalls : ∀ call ∈ calls, IsVar call.1 call.2) :
    Slots.Repr (· ++ ·) IsVar (setVars varList calls) maxShVarNum (varMap calls) := by
  induction calls using List.reverseRecOn with
  | nil => exact ⟨[], List.nodup_nil, rfl, List.forall_mem_nil _, Nat.zero_le _, hblank⟩
  | append_singleton calls call ih =>
    rw [List.forall_mem_append, List.forall_mem_singleton] at hcalls
    rw [setVars_concat, varMap_concat, hcalls.2.setVar]
    exact (ih hcalls.1).put IsVar.keyed hcalls.2

/-- What `get_var` makes of an entry that it finds. -/
theorem IsVar.getVar (h : IsVar name value) {entries : List (List ℕ)}
    (hlen : entries.length ≤ maxEnvVarNum + 1)
    (hfind : entries.find? (fun entry => strncmp name entry name.length = 0) = some (name ++ value)) :
    getVar entries name = some value := by
  have hshort := h.short
  have hname : min name.length maxVarSize = name.length := by omega
  rw [PlumOs.getVar, List.take_of_length_le hlen, hname]
  simp only [hfind, Option.map_some, List.drop_left]
  rw [List.take_of_length_le (by omega)]

/-- The value of a name of the map. -/
theorem getVarAt_of_mem {vars : Slots.KeyMap (List ℕ) (List ℕ)}
    (h : Slots.Repr (· ++ ·) IsVar varList maxShVarNum vars) (hname : name ∈ vars.keys) :
    getVarAt varList name = some (vars.value name) := by
  have hfind := h.find? IsVar.keyed hname (by decide : maxShVarNum ≤ maxEnvVarNum + 1)
  obtain ⟨names, -, hkeys, hgood, -⟩ := h
  rw [← hkeys, List.mem_toFinset] at hname
  exact (hgood name hname).getVar (Slots.length_filled_le _ _) hfind

/-- **Shell variables behave as a map**: from a blank list and calls of `set_var` with names that end with
their only `=`, `get_var` returns the value of the last call that was accepted for a name, a call changes
the value of no other name, and a new name changes nothing if there are eight. -/
theorem setVars_map (hblank : BlankVars varList) (hcalls : ∀ call ∈ calls, IsVar call.1 call.2) :
    (∀ name ∈ (varMap calls).keys,
      getVarAt (setVars varList calls) name = some ((varMap calls).value name)) ∧
    (∀ name value name', IsVar name value → name' ∈ (varMap calls).keys → name' ≠ name →
      getVarAt (setVar (setVars varList calls) name value) name' =
        getVarAt (setVars varList calls) name') ∧
    ∀ name value, IsVar name value → name ∉ (varMap calls).keys →
      (varMap calls).keys.card = maxShVarNum →
        setVar (setVars varList calls) name value = setVars varList calls := by
  have hrepr := repr_setVars hblank hcalls
  refine ⟨fun name => getVarAt_of_mem hrepr, fun name value name' hvar hmem hne => ?_,
    fun name value hvar hnot hcard => ?_⟩
  · have hput := hrepr.put IsVar.keyed hvar
    rw [hvar.setVar, getVarAt_of_mem hrepr hmem,
      getVarAt_of_mem hput (Slots.KeyMap.mem_keys_put hmem _ _ _), Slots.KeyMap.value_put_of_ne hne]
  · rw [hvar.setVar]
    exact hrepr.put_of_full IsVar.keyed hvar fun hacc => hacc.elim hnot fun hlt =>
      absurd hcard (Nat.ne_of_lt hlt)

/-- `A=x` and `AB=y`. -/
theorem setVars_map_two :
    getVarAt (setVars (fun _ => none) [([65, 61], [120]), ([65, 66, 61], [121])]) [65, 61] = some [120] := by
  have ha : IsVar [65, 61] [120] :=
    ⟨⟨[65], rfl, by decide⟩, by unfold IsPath; decide, by unfold IsPath; decide, by decide⟩
  have hab : IsVar [65, 66, 61] [121] :=
    ⟨⟨[65, 66], rfl, by decide⟩, by unfold IsPath; decide, by unfold IsPath; decide, by decide⟩
  exact (@setVars_map (fun _ => none) [([65, 61], [120]), ([65, 66, 61], [121])]
    (fun _ _ => rfl) (by simp [ha, hab])).1 [65, 61] (by decide)

/-! ### The slots that are read -/

/-- An entry as `set_var` makes it. -/
def IsEntry (entry : List ℕ) : Prop := IsPath entry ∧ entry.length < maxVarSize

/-- A name is in the list: an entry begins with it, as the `strncmp` of `get_var` has it.  The callers pass
the name with its `=`; a name without it is also present where it begins the name of another entry. -/
def Present (varList : VarSlots) (name : List ℕ) : Prop :=
  ∃ i < maxShVarNum, ∃ value, varList i = some (name ++ value)

theorem strncmp_take (dest src : List ℕ) (size : ℕ) :
    strncmp (dest.take size) src size = strncmp dest src size := by
  induction size generalizing dest src with
  | zero => rw [strncmp, strncmp]
  | succ size ih =>
    cases dest with
    | nil => rfl
    | cons c dest =>
      cases src with
      | nil => rfl
      | cons d src =>
        rw [List.take_succ_cons, strncmp, strncmp, ih]

/-- The test of `get_var` and `set_var`, for a string in the place of the name. -/
theorem strncmp_iff_prefix (hname : IsPath name) {entry : List ℕ} (hentry : IsEntry entry) :
    strncmp name entry (min name.length maxVarSize) = 0 ↔ name <+: entry := by
  have hbytes : ∀ c ∈ entry, c < 256 := fun c hc => (hentry.1 c hc).2
  rcases Nat.lt_or_ge maxVarSize name.length with hlt | hle
  swap
  · rw [Nat.min_eq_left hle, strncmp_prefix_iff hname hbytes]
  · -- the first `MAX_VAR_SIZE` characters are more than the entry has
    have htake : IsPath (name.take maxVarSize) := fun c hc => hname c (List.mem_of_mem_take hc)
    have hlen : (name.take maxVarSize).length = maxVarSize := List.length_take_of_le hlt.le
    have hfirst := strncmp_prefix_iff htake hbytes
    rw [hlen, strncmp_take] at hfirst
    rw [Nat.min_eq_right hlt.le, hfirst]
    have hshort := hentry.2
    refine iff_of_false (fun hpre => ?_) fun hpre => ?_
    · exact absurd hpre.length_le (Nat.not_le_of_lt (hlen.symm ▸ hshort))
    · exact absurd hpre.length_le (Nat.not_le_of_lt (hshort.trans hlt))

theorem isEntry_setVar (hname : IsPath name) (hvalue : IsPath value) :
    IsEntry (name.take (min name.length (maxVarSize - 1)) ++
      value.take (min value.length (maxVarSize - min name.length (maxVarSize - 1) - 1))) := by
  refine ⟨isPath_append (fun c hc => hname c (List.mem_of_mem_take hc))
    fun c hc => hvalue c (List.mem_of_mem_take hc), ?_⟩
  rw [List.length_append, List.length_take, List.length_take, show maxVarSize = 2048 from rfl]
  omega

/-- What calls of `set_var` keep. -/
theorem holds_setVars (hblank : BlankVars varList)
    (hcalls : ∀ call ∈ calls, IsPath call.1 ∧ IsPath call.2) :
    ∃ entries, Slots.Holds (setVars varList calls) maxShVarNum entries ∧
      ∀ entry ∈ entries, IsEntry entry := by
  induction calls using List.reverseRecOn with
  | nil => exact ⟨[], ⟨Nat.zero_le _, hblank⟩, List.forall_mem_nil _⟩
  | append_singleton calls call ih =>
    rw [List.forall_mem_append, List.forall_mem_singleton] at hcalls
    obtain ⟨entries, hholds, hentries⟩ := ih hcalls.1
    rw [setVars_concat]
    have hnew := isEntry_setVar hcalls.2.1 hcalls.2.2
    refine ⟨_, hholds.put _ _, ?_⟩
    split
    · exact hentries
    · split
      · intro entry hentry
        rcases List.mem_or_eq_of_mem_set hentry with hmem | rfl
        · exact hentries entry hmem
        · exact hnew
      · rw [List.forall_mem_append, List.forall_mem_singleton]
        exact ⟨hentries, hnew⟩

/-- `get_var` looks at the slots of the list, and finds no name that is not there. -/
def InsideVars (varList : VarSlots) (name : List ℕ) : Prop :=
  (∀ i ∈ getVarReads varList name, i < maxShVarNum) ∧
    (¬ Present varList name → getVarAt varList name = none)

theorem present_iff {entries : List (List ℕ)} (h : Slots.Holds varList maxShVarNum entries) :
    Present varList name ↔ ∃ entry ∈ entries, name <+: entry := by
  constructor
  · rintro ⟨i, hi, value, hvalue⟩
    rw [h.2 i hi] at hvalue
    exact ⟨_, List.mem_of_getElem? hvalue, List.prefix_append ..⟩
  · rintro ⟨entry, hentry, value, rfl⟩
    obtain ⟨i, hi, hget⟩ := List.mem_iff_getElem.1 hentry
    have hi' := Nat.lt_of_lt_of_le hi h.1
    exact ⟨i, hi', value, by rw [h.2 i hi', List.getElem?_eq_getElem hi, hget]⟩

/-- The slots that `get_var` looks at, if the first ones are these entries. -/
theorem getVarReads_lt_iff {entries rest : List (List ℕ)} {k : ℕ} (hname : IsPath name)
    (hentries : ∀ entry ∈ entries, IsEntry entry)
    (hfilled : entries ++ rest = Slots.filled varList maxEnvVarNum) (hk : entries.length ≤ k) :
    (∀ i ∈ getVarReads varList name, i < k) ↔
      (∃ entry ∈ entries, name <+: entry) ∨
        rest.findIdx (fun entry => strncmp name entry (min name.length maxVarSize) = 0) + entries.length < k := by
  have hrange : ∀ j, (∀ i ∈ List.range (j + 1), i < k) ↔ j < k := fun j =>
    ⟨fun h => h j (List.mem_range.2 (Nat.lt_succ_self j)),
      fun h i hi => Nat.lt_of_le_of_lt (Nat.le_of_lt_succ (List.mem_range.1 hi)) h⟩
  have hfound : entries.findIdx (fun entry => strncmp name entry (min name.length maxVarSize) = 0) <
      entries.length ↔ ∃ entry ∈ entries, name <+: entry := by
    rw [List.findIdx_lt_length]
    refine exists_congr fun entry => and_congr_right fun hentry => ?_
    rw [decide_eq_true_iff, strncmp_iff_prefix hname (hentries entry hentry)]
  rw [getVarReads, hrange, ← hfilled, List.findIdx_append]
  by_cases hpresent : ∃ entry ∈ entries, name <+: entry
  · rw [if_pos (hfound.2 hpresent)]
    exact iff_of_true (Nat.lt_of_lt_of_le (hfound.2 hpresent) hk) (.inl hpresent)
  · rw [if_neg (mt hfound.1 hpresent), or_iff_right hpresent]

/-- **`get_var` looks at the slots of the list only, exactly if** one of them is empty or the name is in
the list. -/
theorem getVar_inside_iff (hblank : BlankVars varList)
    (hcalls : ∀ call ∈ calls, IsPath call.1 ∧ IsPath call.2) (hname : IsPath name) :
    InsideVars (setVars varList calls) name ↔
      (∃ i < maxShVarNum, setVars varList calls i = none) ∨ Present (setVars varList calls) name := by
  obtain ⟨entries, hholds, hentries⟩ := holds_setVars hblank hcalls
  generalize setVars varList calls = vars at hholds ⊢
  obtain ⟨rest, hrest⟩ := hholds.prefix_filled (by decide : maxShVarNum ≤ maxEnvVarNum)
  have hreads := getVarReads_lt_iff hname hentries hrest hholds.1
  have hempty : (∃ i < maxShVarNum, vars i = none) ↔ entries.length < maxShVarNum := by
    constructor
    · rintro ⟨i, hi, hnone⟩
      rw [hholds.2 i hi, List.getElem?_eq_none_iff] at hnone
      exact Nat.lt_of_le_of_lt hnone hi
    · exact fun hlt => ⟨_, hlt, by rw [hholds.2 _ hlt, List.getElem?_eq_none (Nat.le_refl _)]⟩
  rw [InsideVars, hreads, hempty, present_iff hholds]
  constructor
  · rintro ⟨hpresent | hlt, -⟩
    · exact .inr hpresent
    · exact .inl (Nat.lt_of_le_of_lt (Nat.le_add_left _ _) hlt)
  · rintro (hlt | hpresent)
    · -- the search ends at the empty slot
      have hnil : rest = [] := by
        rw [hholds.filled_of_lt hlt (by decide : maxShVarNum ≤ maxEnvVarNum)] at hrest
        exact List.append_right_eq_self.1 hrest
      refine ⟨.inr (by rw [hnil, List.findIdx_nil, Nat.zero_add]; exact hlt), fun habsent => ?_⟩
      rw [getVarAt, hholds.filled_of_lt hlt (by decide : maxShVarNum ≤ maxEnvVarNum + 1), getVar,
        List.find?_eq_none.2, Option.map_none]
      intro entry hmem htest
      have hmem := List.mem_of_mem_take hmem
      rw [decide_eq_true_iff, strncmp_iff_prefix hname (hentries entry hmem)] at htest
      exact habsent ⟨entry, hmem, htest⟩
    · exact ⟨.inl hpresent, fun habsent => absurd hpresent habsent⟩

/-- Calls of `set_var` for the variables `A` to `H`, which fill the list. -/
def eightVars : List (List ℕ × List ℕ) := (List.range 8).map fun i => ([65 + i, 61], [120])

theorem eightVars_bytes : ∀ call ∈ eightVars, IsPath call.1 ∧ IsPath call.2 := by
  unfold IsPath
  decide

/-- The name `H`, in the last slot. -/
theorem getVar_inside_full : InsideVars (setVars (fun _ => none) eightVars) [72, 61] :=
  (getVar_inside_iff (fun _ _ => rfl : BlankVars fun _ => none) eightVars_bytes
    (by unfold IsPath; decide)).2 (.inr ⟨7, by decide, [120], by decide +kernel⟩)

/-- The name `I`. -/
theorem getVar_outside : ¬ ∀ (varList : VarSlots) (calls : List (List ℕ × List ℕ)) (name : List ℕ),
    BlankVars varList → (∀ call ∈ calls, IsPath call.1 ∧ IsPath call.2) → IsPath name →
      InsideVars (setVars varList calls) name := by
  intro h
  have hreads := (h (fun _ => none) _ [73, 61] (fun _ _ => rfl) eightVars_bytes
    (by unfold IsPath; decide)).1
  exact absurd (hreads 8 (by decide +kernel)) (Nat.lt_irrefl 8)

end PlumOs
