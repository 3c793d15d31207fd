import PlumOs.Fs.PathBuffers

/-!
# Scripts (`sys/process.c`)

`exec` takes a file that begins with `#!` for a script: the rest of the first line names an interpreter,
which gets its own name in front of the arguments, and for which `exec` calls itself.

* `getInterpArgv` : the new arguments, with the places of the array that are stored to;
* `Shifted`, `shifted_iff` : **they are all there and inside of the array exactly if** there are fewer than
  nine;
* `execChain` : the calls of `exec` for a file and its interpreters;
* `execChain_ends` : **the chain ends**, since each of its calls keeps a slot of the file table.
-/

namespace PlumOs

/-! ### Arguments -/

/-- `ARG_LIST_SIZE`. -/
abbrev argListSize : ℕ := 10

/-- The slots of an array of pointers. -/
abbrev PtrArray : Type := ℕ → ℕ

/-- `interp_argv[i] = p`. -/
def storeArg (interpArgv : PtrArray) (i p : ℕ) : Traced FsStop ℕ PtrArray :=
  .use i (Function.update interpArgv i p)

/-- The loop of `get_interp_argv` from `i` on, where `n` is what is left of `ARG_LIST_SIZE`. -/
def interpArgvLoop (argv : PtrArray) : ℕ → ℕ → PtrArray → Traced FsStop ℕ (ℕ × PtrArray)
  | 0, i, interpArgv => pure (i, interpArgv)
  | n + 1, i, interpArgv =>
    if argv i ≠ 0 then do
      let interpArgv ← storeArg interpArgv (i + 1) (argv i)
      interpArgvLoop argv n (i + 1) interpArgv
    else pure (i, interpArgv)

/-- `get_interp_argv`. -/
def getInterpArgv (interpArgv argv : PtrArray) (interpName : ℕ) : Traced FsStop ℕ PtrArray := do
  let interpArgv ← storeArg interpArgv 0 interpName
  let (i, interpArgv) ← interpArgvLoop argv argListSize 0 interpArgv
  if i < argListSize then storeArg interpArgv (i + 1) 0
  else .lift (.error (.assertFail "get_interp_argv"))

/-- The arguments are in an array, with a null pointer behind them. -/
structure ArgsAt (argv : PtrArray) (args : List ℕ) : Prop where
  slots : ∀ i (h : i < args.length), argv i = args[i]
  nonzero : ∀ p ∈ args, p ≠ 0
  stop : argv args.length = 0

/-- The call stores inside of the array only, and leaves the name and the arguments there. -/
structure Shifted (interpArgv argv : PtrArray) (args : List ℕ) (interpName : ℕ) : Prop where
  inside : ∀ i ∈ (getInterpArgv interpArgv argv interpName).uses, i < argListSize
  shifted : ∃ res, (getInterpArgv interpArgv argv interpName).result = .ok res ∧ res 0 = interpName ∧
    (∀ i (h : i < args.length), res (i + 1) = args[i]) ∧ res (args.length + 1) = 0

section Arguments

variable {interpArgv argv : PtrArray} {args : List ℕ} {interpName i n : ℕ}

/-- The array after the loop has gone through the arguments from `i` to `k`. -/
def shiftedArgs (interpArgv : PtrArray) (args : List ℕ) (i k : ℕ) : PtrArray :=
  fun j => if i < j ∧ j ≤ k then args.getD (j - 1) 0 else interpArgv j

theorem shiftedArgs_self : shiftedArgs interpArgv args i i = interpArgv := by
  funext j
  exact if_neg (by omega)

theorem shiftedArgs_succ {k : ℕ} (hk : i + 1 ≤ k) (hi : i < args.length) :
    shiftedArgs (Function.update interpArgv (i + 1) args[i]) args (i + 1) k =
      shiftedArgs interpArgv args i k := by
  funext j
  rw [shiftedArgs, shiftedArgs]
  by_cases hj : j = i + 1
  · rw [if_neg (by omega), if_pos (by omega), hj, Function.update_self, Nat.add_sub_cancel,
      List.getD_eq_getElem _ _ hi]
  · rw [Function.update_of_ne hj]
    exact if_congr (by omega) rfl rfl

/-- **The loop** stores the arguments that are left, as many as it has turns for. -/
theorem interpArgvLoop_spec (h : ArgsAt argv args) (hi : i ≤ args.length) :
    (interpArgvLoop argv n i interpArgv).result =
        .ok (min args.length (i + n), shiftedArgs interpArgv args i (min args.length (i + n))) ∧
      (interpArgvLoop argv n i interpArgv).uses =
        List.range' (i + 1) (min args.length (i + n) - i) := by
  induction n generalizing i interpArgv with
  | zero =>
    rw [Nat.add_zero, Nat.min_eq_right hi, shiftedArgs_self, Nat.sub_self]
    exact ⟨rfl, rfl⟩
  | succ n ih =>
    rw [interpArgvLoop]
    obtain hlt | rfl := Nat.lt_or_eq_of_le hi
    · have harg : argv i = args[i] := h.slots i hlt
      have hstop : min args.length (i + (n + 1)) = min args.length (i + 1 + n) := by omega
      obtain ⟨hres, huses⟩ := @ih (Function.update interpArgv (i + 1) args[i]) (i + 1) hlt
      rw [harg, if_pos (h.nonzero _ (List.getElem_mem hlt)), Traced.result_bind, storeArg,
        Traced.result_use, ok_bind, Traced.uses_bind_ok (Traced.result_use ..), Traced.uses_use, hres,
        huses, hstop, shiftedArgs_succ (by omega) hlt]
      refine ⟨rfl, ?_⟩
      rw [show min args.length (i + 1 + n) - i = min args.length (i + 1 + n) - (i + 1) + 1 by omega,
        List.range'_succ]
      rfl
    · rw [h.stop, if_neg (not_not.2 rfl), Nat.min_eq_left (Nat.le_add_right ..), shiftedArgs_self,
        Nat.sub_self]
      exact ⟨rfl, rfl⟩

/-- The call ends, whatever the arguments are. -/
theorem getInterpArgv_ne_loop (interpArgv argv : PtrArray) (interpName : ℕ) :
    (getInterpArgv interpArgv argv interpName).result ≠ .error .loop := by
  have hloop : ∀ n i interpArgv, ∃ res, (interpArgvLoop argv n i interpArgv).result = .ok res := by
    intro n
    induction n with
    | zero => exact fun i interpArgv => ⟨_, rfl⟩
    | succ n ih =>
      intro i interpArgv
      rw [interpArgvLoop]
      split_ifs
      · rw [Traced.result_bind]
        exact ih (i + 1) _
      · exact ⟨_, rfl⟩
  obtain ⟨⟨i, res⟩, hres⟩ := hloop argListSize 0 (Function.update interpArgv 0 interpName)
  have hfirst : (storeArg interpArgv 0 interpName).result =
      .ok (Function.update interpArgv 0 interpName) := rfl
  rw [getInterpArgv, Traced.result_bind, hfirst, ok_bind, Traced.result_bind, hres, ok_bind]
  simp only
  split_ifs <;> exact nofun

/-- Where the assertion passes, and what is stored then. -/
theorem getInterpArgv_spec (h : ArgsAt argv args) :
    (args.length < argListSize → (getInterpArgv interpArgv argv interpName).result =
        .ok (Function.update (shiftedArgs (Function.update interpArgv 0 interpName) args 0 args.length)
          (args.length + 1) 0) ∧
        (getInterpArgv interpArgv argv interpName).uses =
          0 :: (List.range' 1 args.length ++ [args.length + 1])) ∧
      (argListSize ≤ args.length → (getInterpArgv interpArgv argv interpName).result =
        .error (.assertFail "get_interp_argv")) := by
  obtain ⟨hres, huses⟩ := @interpArgvLoop_spec (Function.update interpArgv 0 interpName) argv args 0
    argListSize h (Nat.zero_le _)
  simp only [Nat.zero_add, Nat.sub_zero] at hres huses
  have hfirst : (storeArg interpArgv 0 interpName).result =
      .ok (Function.update interpArgv 0 interpName) := rfl
  rw [getInterpArgv]
  constructor
  · intro hlt
    have hmin : min args.length argListSize = args.length := Nat.min_eq_left (Nat.le_of_lt hlt)
    rw [hmin] at hres huses
    rw [Traced.result_bind, hfirst, ok_bind, Traced.result_bind, hres, ok_bind,
      Traced.uses_bind_ok hfirst, Traced.uses_bind_ok hres, huses]
    simp only [if_pos hlt]
    exact ⟨rfl, rfl⟩
  · intro hge
    have hmin : min args.length argListSize = argListSize := Nat.min_eq_right hge
    rw [hmin] at hres
    rw [Traced.result_bind, hfirst, ok_bind, Traced.result_bind, hres, ok_bind]
    simp only [if_neg (Nat.lt_irrefl _)]
    rfl

/-- **The arguments are shifted inside of the array exactly if** there are fewer than nine, of those
fewer than ten for which the assertion passes. -/
theorem shifted_iff (h : ArgsAt argv args)
    (hpass : ∃ res, (getInterpArgv interpArgv argv interpName).result = .ok res) :
    Shifted interpArgv argv args interpName ↔ args.length + 1 < argListSize := by
  have hspec := @getInterpArgv_spec interpArgv argv args interpName h
  have hlt : args.length < argListSize := by
    by_contra hge
    obtain ⟨res, hres⟩ := hpass
    rw [hspec.2 (Nat.not_lt.1 hge)] at hres
    cases hres
  obtain ⟨hres, huses⟩ := hspec.1 hlt
  constructor
  · intro hshift
    refine hshift.inside (args.length + 1) ?_
    rw [huses]
    simp
  · intro hroom
    refine ⟨fun i hi => ?_, _, hres, ?_, fun i hi => ?_, Function.update_self ..⟩
    · rw [huses, List.mem_cons, List.mem_append, List.mem_range'_1, List.mem_singleton] at hi
      omega
    · rw [Function.update_of_ne (by omega), shiftedArgs, if_neg (by omega), Function.update_self]
    · rw [Function.update_of_ne (by omega), shiftedArgs, if_pos (by omega), Nat.add_sub_cancel,
        List.getD_eq_getElem _ _ hi]

/-- The array with these arguments. -/
theorem argsAt_getD {args : List ℕ} (h : ∀ p ∈ args, p ≠ 0) : ArgsAt (fun i => args.getD i 0) args where
  slots _ hi := List.getD_eq_getElem _ _ hi
  nonzero := h
  stop := List.getD_eq_default _ _ (Nat.le_refl _)

end Arguments

/-- Two arguments. -/
theorem shifted_two : Shifted (fun _ => 0) (fun i => [0x1000, 0x2000].getD i 0) [0x1000, 0x2000] 0x3000 ↔
    [0x1000, 0x2000].length + 1 < argListSize :=
  shifted_iff (argsAt_getD (by decide)) ⟨_, ((getInterpArgv_spec (argsAt_getD (by decide))).1 (by decide)).1⟩

/-- With nine arguments the null pointer is stored behind the array. -/
theorem shifted_fails : ¬∀ (interpArgv argv : PtrArray) (args : List ℕ) (interpName : ℕ),
    ArgsAt argv args → (∃ res, (getInterpArgv interpArgv argv interpName).result = .ok res) →
      Shifted interpArgv argv args interpName := by
  intro h
  have hargs : ArgsAt (fun i => (List.replicate 9 0x1000).getD i 0) (List.replicate 9 0x1000) :=
    argsAt_getD (by decide)
  obtain ⟨hres, huses⟩ := (@getInterpArgv_spec (fun _ => 0) _ _ 0x3000 hargs).1 (by decide)
  have hin := (h (fun _ => 0) _ _ 0x3000 hargs ⟨_, hres⟩).inside 10
  rw [huses] at hin
  exact absurd (hin (by decide)) (by decide)

/-! ### Interpreters -/

/-- `tarfs_read`: the address, and the table afterwards. -/
def tarfsRead (files : FileTable) (fd : ℤ) (size : ℕ) : Except FsStop (ℕ × FileTable) :=
  let entry := files fd.toNat
  if ((startFd : ℤ) ≤ fd ∧ fd < maxFileNum) ∧ 0 < entry.free ∧ (entry.pos + size) % 2 ^ 64 ≤ entry.size then
    .ok ((entry.startAddr + entry.pos) % 2 ^ 64,
      Function.update files fd.toNat { entry with pos := (entry.pos + size) % 2 ^ 64 })
  else .error (.assertFail "tarfs_read")

/-- `strncmp(fp,"#!", 2) == 0`. -/
def IsScript (mem : ℕ → ℕ) (fp : ℕ) : Prop := mem fp = 35 ∧ mem (fp + 1) = 33

instance (mem : ℕ → ℕ) (fp : ℕ) : Decidable (IsScript mem fp) := inferInstanceAs (Decidable (_ ∧ _))

/-- `get_interp`: the string in `interp_name`, which is the rest of the first line up to a 0. -/
def getInterp (mem : ℕ → ℕ) (fp : ℕ) : Except FsStop (List ℕ) :=
  let line := ((List.range nameSize).map fun i => mem (fp + i + 2)).takeWhile (· ≠ 10)
  if line.length < nameSize then .ok (line.takeWhile (· ≠ 0)) else .error (.assertFail "get_interp")

/-- What the calls of `exec` in a row have in common: the archive, the byte in front of `newfname`, the
number of headers that `traverse_tarfs` may need, and what is in `interp_argv` and where `interp_name` is. -/
structure ExecContext where
  img : Tarfs
  before : ℕ
  headers : ℕ
  interpArgv : PtrArray
  interpName : ℕ

/-- The part of `exec` in front of the call for the interpreter: the address of the file, and the name and
the arguments of its interpreter if it is a script.  The allocation of the kernel buffer and the mapping
of the arguments are left out, both of which can only stop the kernel. -/
def execFile (c : ExecContext) (files : FileTable) (filename : List ℕ) (argv : PtrArray) :
    Except FsStop (FileTable × ℕ × Option (List ℕ × PtrArray)) := do
  let (fd, files) ← (tarfsOpenStores c.img c.before c.headers files filename [114]).result
  if fd < startFd then .error .exitSt
  else do
    let (fp, files) ← tarfsRead files fd 0
    if IsScript c.img.mem fp then do
      let name ← getInterp c.img.mem fp
      let interpArgv ← (getInterpArgv c.interpArgv argv c.interpName).result
      .ok (files, fp, some (name, interpArgv))
    else .ok (files, fp, none)

/-- The calls of `exec` for a file, its interpreter, the interpreter of that, and so on, at most `fuel`
of them: why they stop, or the address of the file that is loaded. -/
def execChain (c : ExecContext) : ℕ → FileTable → List ℕ → PtrArray → Option (Except FsStop ℕ)
  | 0, _, _, _ => none
  | fuel + 1, files, filename, argv =>
    match execFile c files filename argv with
    | .error e => some (.error e)
    | .ok (_, fp, none) => some (.ok fp)
    | .ok (files, _, some (name, argv)) => execChain c fuel files name argv

/-- The number of slots that are not used. -/
def FileTable.freeSlots (files : FileTable) : ℕ := (slots.filter fun i => (files i).free = 0).length

section Chain

variable {c : ExecContext} {files files' : FileTable} {filename : List ℕ} {argv : PtrArray} {fp fd : ℕ}

theorem freeSlots_congr (h : ∀ i, (files' i).free = (files i).free) :
    files'.freeSlots = files.freeSlots := by
  simp only [FileTable.freeSlots, h]

/-- A slot that is taken is not there any more. -/
theorem freeSlots_update {i : ℕ} {entry : FileEntry} (hslot : files.freeSlot = some i)
    (hentry : entry.free ≠ 0) :
    FileTable.freeSlots (Function.update files i entry) < files.freeSlots := by
  obtain ⟨hi, hfree⟩ := mem_slots_of_freeSlot hslot
  have hsub : (slots.filter fun j => (Function.update files i entry j).free = 0).Sublist
      (slots.filter fun j => (files j).free = 0) := by
    refine List.monotone_filter_right slots fun j hj => ?_
    by_cases hji : j = i
    · rw [hji, Function.update_self] at hj
      exact absurd (of_decide_eq_true hj) hentry
    · rwa [Function.update_of_ne hji] at hj
  refine Nat.lt_of_le_of_ne hsub.length_le fun heq => ?_
  have hmem : i ∈ slots.filter fun j => (Function.update files i entry j).free = 0 := by
    rw [hsub.eq_of_length heq]
    exact List.mem_filter.2 ⟨hi, decide_eq_true hfree⟩
  have hzero := of_decide_eq_true (List.mem_filter.1 hmem).2
  rw [Function.update_self] at hzero
  exact hentry hzero

/-- **Each call keeps a slot.** -/
theorem execFile_freeSlots {rest : Option (List ℕ × PtrArray)}
    (h : execFile c files filename argv = .ok (files', fp, rest)) : files'.freeSlots < files.freeSlots := by
  rw [execFile] at h
  obtain ⟨⟨fd, files₁⟩, hopen, h⟩ := bind_eq_ok.1 h
  simp only at h
  by_cases hfd : fd < startFd
  · rw [if_pos hfd] at h
    cases h
  rw [if_neg hfd] at h
  obtain ⟨⟨fp', files₂⟩, hread, h⟩ := bind_eq_ok.1 h
  have hfiles : files' = files₂ := by
    simp only at h
    split_ifs at h
    · obtain ⟨name, -, h⟩ := bind_eq_ok.1 h
      obtain ⟨args, -, h⟩ := bind_eq_ok.1 h
      cases h
      rfl
    · cases h
      rfl
  have hsame : files₂.freeSlots = files₁.freeSlots := by
    rw [tarfsRead] at hread
    split_ifs at hread
    cases hread
    refine freeSlots_congr fun i => ?_
    by_cases hi : i = fd.toNat
    · rw [hi, Function.update_self]
    · rw [Function.update_of_ne hi]
  obtain ⟨rfl, -⟩ | ⟨type, q, i, entry, -, hfree, -, rfl, rfl, hused, -⟩ := openStores_cases hopen
  · exact absurd (by decide) hfd
  · rw [hfiles, hsame]
    exact freeSlots_update hfree (by rw [hused]; decide)

/-- A file that is loaded is not a script. -/
theorem execFile_not_script (h : execFile c files filename argv = .ok (files', fp, none)) :
    ¬IsScript c.img.mem fp := by
  rw [execFile] at h
  obtain ⟨⟨fd, files₁⟩, -, h⟩ := bind_eq_ok.1 h
  simp only at h
  split_ifs at h
  obtain ⟨⟨fp', files₂⟩, -, h⟩ := bind_eq_ok.1 h
  simp only at h
  split_ifs at h with hscript
  · obtain ⟨name, -, h⟩ := bind_eq_ok.1 h
    obtain ⟨args, -, h⟩ := bind_eq_ok.1 h
    cases h
  · cases h
    exact hscript

/-- The call itself does not go on for ever, if `tarfs_open` does not. -/
theorem execFile_ne_loop
    (hopen : (tarfsOpenStores c.img c.before c.headers files filename [114]).result ≠ .error .loop) :
    execFile c files filename argv ≠ .error .loop := by
  have hyields : ∀ {α : Type} {x : Except FsStop α}, x ≠ .error .loop →
      Yields x (fun _ => True) (· ≠ .loop) := by
    intro α x hx
    cases x with
    | ok a => trivial
    | error e => exact fun he => hx (congrArg Except.error he)
  have hread : ∀ (files : FileTable) (fd : ℤ) (size : ℕ), tarfsRead files fd size ≠ .error .loop := by
    intro files fd size
    rw [tarfsRead]
    split_ifs <;> exact nofun
  have hinterp : ∀ fp, getInterp c.img.mem fp ≠ .error .loop := by
    intro fp
    rw [getInterp]
    split_ifs <;> exact nofun
  have hcall : Yields (execFile c files filename argv) (fun _ => True) (· ≠ .loop) := by
    rw [execFile]
    refine yields_bind (hyields hopen) fun _ _ => ?_
    simp only
    split_ifs
    · exact hyields nofun
    refine yields_bind (hyields (hread _ _ _)) fun _ _ => ?_
    split_ifs
    · refine yields_bind (hyields (hinterp _)) fun _ _ => ?_
      exact yields_bind (hyields (getInterpArgv_ne_loop _ _ _)) fun _ _ => trivial
    · trivial
  exact fun hloop => hcall.of_eq_error hloop rfl

/-- **The chain of interpreters ends**: after no more calls than there are free slots, and one, there is a
file that is not a script, or an error.  In an archive of members that is none of `traverse_tarfs`. -/
theorem execChain_ends (c : ExecContext) (files : FileTable) (filename : List ℕ) (argv : PtrArray) :
    ∃ res, execChain c (files.freeSlots + 1) files filename argv = some res ∧
      (∀ fp, res = .ok fp → ¬IsScript c.img.mem fp) ∧
        ∀ members, Laid c.img c.img.start members → (∀ m ∈ members, m.name.length < 2 ^ 64) →
          c.img.stop < 2 ^ 64 → c.img.stop < c.img.start + 512 * c.headers → res ≠ .error .loop := by
  suffices hfuel : ∀ fuel, files.freeSlots < fuel → ∃ res, execChain c fuel files filename argv = some res ∧
      (∀ fp, res = .ok fp → ¬IsScript c.img.mem fp) ∧
        ∀ members, Laid c.img c.img.start members → (∀ m ∈ members, m.name.length < 2 ^ 64) →
          c.img.stop < 2 ^ 64 → c.img.stop < c.img.start + 512 * c.headers → res ≠ .error .loop from
    hfuel _ (Nat.lt_succ_self _)
  intro fuel hfuel
  induction fuel generalizing files filename argv with
  | zero => exact absurd hfuel (Nat.not_lt_zero _)
  | succ fuel ih =>
    rw [execChain]
    cases hcall : execFile c files filename argv with
    | error e =>
      refine ⟨.error e, rfl, nofun, fun members hlaid hlen hstop hheaders heq => ?_⟩
      rw [Except.error.inj heq] at hcall
      exact execFile_ne_loop (openStores_ne_loop hlaid hlen hstop hheaders) hcall
    | ok res =>
      obtain ⟨files', fp, _ | ⟨name, args⟩⟩ := res
      · refine ⟨.ok fp, rfl, fun fp' hfp => ?_, fun _ _ _ _ _ => nofun⟩
        cases hfp
        exact execFile_not_script hcall
      · exact ih files' name args (Nat.lt_of_lt_of_le (execFile_freeSlots hcall) (Nat.le_of_lt_succ hfuel))

end Chain

end PlumOs
