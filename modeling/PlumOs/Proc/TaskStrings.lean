import PlumOs.Fs.PathBuffers
import PlumOs.Proc.ExecArgs

/-!
# The strings in a `task_struct` (`sys/process.c`, `sys/syscall.c`)

`exec` copies its first argument to the field `name`, and `chdir` the name of the file that it has opened
to `cwd`.  Both have 64 bytes and are followed by other fields of the packed structure; the copies are as
long as their source.

* `copyName` (`ExecArgs`), `copyCwd` : the copies;
* `StaysIn` : a copy leaves the fields behind its own alone, and ends in its own;
* `put_staysIn_iff` : **a string stays in its field exactly if** it has fewer than 64 characters;
* `strings_stay_iff` : so for the first argument of `exec`, and for the name of a file that `chdir` opens.
-/

namespace PlumOs.Args

/-! ### The fields -/

/-- The offset of `cwd`, behind `name`. -/
abbrev cwdOff : ℕ := nameOff + nameSize

/-- The end of `sigterm`, behind `cwd`, `waited`, `orphan` and `exit_status`. -/
abbrev sigtermEnd : ℕ := cwdOff + nameSize + 4 * 4

/-- The offset of `file_array[fd].name`. -/
def fileNameOff (fd : ℕ) : ℕ := 5 * 8 + 176 * fd + 16

/-- The copy of `chdir`; `len` is an `int`. -/
def copyCwd (fuel : ℕ) (r : Ram) (task fd : ℕ) : Option Ram := do
  let len ← strlen r.bytes fuel (task + fileNameOff fd)
  strncpy fuel r (task + cwdOff) (task + fileNameOff fd) (sizeT (wrap32 len))

/-- Between these memories a string was copied to the field of 64 bytes at `field`: the fields behind it,
up to `stop`, are as they were, and there is a 0 in the field. -/
structure StaysIn (mem mem' : ℕ → ℕ) (field stop : ℕ) : Prop where
  kept : ∀ a, field + nameSize ≤ a → a < stop → mem' a = mem a
  ends : ∃ k < nameSize, mem' (field + k) = 0

/-- `argv[0]`, which is not where it is copied to. -/
def FirstArg (mem : ℕ → ℕ) (task argv : ℕ) : Option (List ℕ) → Prop
  | none => load mem 8 argv = 0
  | some s => load mem 8 argv ≠ 0 ∧ StrAt mem (load mem 8 argv) s ∧
      ∀ k ≤ s.length, ¬(task + nameOff ≤ load mem 8 argv + k ∧
        load mem 8 argv + k ≤ task + nameOff + s.length)

section Copies

variable {r : Ram} {task argv fd fuel field stop : ℕ} {s path : List ℕ}

/-- **A string stays in its field exactly if** it has fewer than 64 characters. -/
theorem put_staysIn_iff (hs : ∀ c ∈ s, c ≠ 0) :
    StaysIn r.bytes (r.put field (s ++ [0])).bytes field stop ↔ s.length < nameSize := by
  have hlen : (s ++ [0]).length = s.length + 1 := List.length_append
  constructor
  · rintro ⟨-, k, hk, hzero⟩
    by_contra hlong
    have hget : k < s.length := Nat.lt_of_lt_of_le hk (Nat.not_lt.1 hlong)
    rw [Ram.put_bytes (by rw [hlen]; exact Nat.lt_succ_of_lt hget), List.getElem_append_left hget] at hzero
    exact hs _ (List.getElem_mem hget) hzero
  · intro hshort
    refine ⟨fun a ha _ => Ram.put_bytes_of_notMem ?_, s.length, hshort, ?_⟩
    · rw [hlen, List.mem_range'_1]
      omega
    · rw [Ram.put_bytes (by rw [hlen]; exact Nat.lt_succ_self _), List.getElem_concat_length rfl]

/-- The copy of the first argument. -/
theorem copyName_staysIn_iff {arg : Option (List ℕ)} (harg : FirstArg r.bytes task argv arg)
    (hname : ∃ k < nameSize, r.bytes (task + nameOff + k) = 0) (hfuel : ∀ s ∈ arg, s.length < fuel) :
    ∃ r', copyName fuel r task argv = some r' ∧
      (StaysIn r.bytes r'.bytes (task + nameOff) (task + sigtermEnd) ↔ ∀ s ∈ arg, s.length < nameSize) := by
  cases arg with
  | none =>
    refine ⟨r, ?_, iff_of_true ⟨fun _ _ _ => rfl, hname⟩ (fun s hs => by cases hs)⟩
    have hnull : load r.bytes 8 argv = 0 := harg
    rw [copyName, hnull, strlen, if_pos rfl, Option.bind_eq_bind, Option.bind_some, strncpy,
      if_pos (.inr rfl)]
  | some s =>
    obtain ⟨hptr, hstr, hout⟩ := harg
    have hs : s.length < fuel := hfuel s rfl
    have hcopy := strncpy_length hstr hptr (show task + nameOff ≠ 0 by unfold nameOff; omega) hs hout
    refine ⟨_, ?_, (put_staysIn_iff hstr.nonzero).trans (by simp)⟩
    rw [copyName, strlen, if_neg hptr, hstr.strlen_eq hs, Option.bind_eq_bind, Option.bind_some, hcopy]

/-- The copy of a name in `file_array`. -/
theorem copyCwd_staysIn_iff (hstr : StrAt r.bytes (task + fileNameOff fd) s) (hfd : fd < maxFileNum)
    (hlen : s.length ≤ 128) (hfuel : s.length < fuel) :
    ∃ r', copyCwd fuel r task fd = some r' ∧
      (StaysIn r.bytes r'.bytes (task + cwdOff) (task + sigtermEnd) ↔ s.length < nameSize) := by
  have hoff : fileNameOff fd + 128 < cwdOff := by
    unfold fileNameOff cwdOff nameOff nameSize maxFileNum at *
    omega
  have hptr : task + fileNameOff fd ≠ 0 := by
    unfold fileNameOff
    omega
  have hsize : sizeT (wrap32 s.length) = s.length := by
    rw [wrap32_of_mem (by omega) (by omega), sizeT]
    omega
  have hcopy := strncpy_length hstr hptr (show task + cwdOff ≠ 0 by unfold cwdOff nameOff; omega) hfuel
    fun k hk => by omega
  refine ⟨_, ?_, put_staysIn_iff hstr.nonzero⟩
  rw [copyCwd, strlen, if_neg hptr, hstr.strlen_eq hfuel, Option.bind_eq_bind, Option.bind_some, hsize,
    hcopy]

end Copies

/-- **The strings of a process stay in their fields exactly if** they have fewer than 64 characters: the
first argument of `exec`, if there is one, and the name of the file that `chdir` has opened for a path. -/
theorem strings_stay_iff (r : Ram) (task fuel : ℕ) :
    (∀ (argv : ℕ) (arg : Option (List ℕ)), FirstArg r.bytes task argv arg →
      (∃ k < nameSize, r.bytes (task + nameOff + k) = 0) → (∀ s ∈ arg, s.length < fuel) →
        ∃ r', copyName fuel r task argv = some r' ∧
          (StaysIn r.bytes r'.bytes (task + nameOff) (task + sigtermEnd) ↔
            ∀ s ∈ arg, s.length < nameSize)) ∧
    ∀ (fuel' : ℕ) (img : Tarfs) (before : ℕ) (files files' : FileTable) (path : List ℕ) (fd : ℤ),
      (tarfsOpenStores img before fuel' files path [114]).result = .ok (fd, files') → 0 < fd →
        StrAt r.bytes (task + fileNameOff fd.toNat) (files' fd.toNat).name → 128 < fuel →
          ∃ type q, (openResStores img before fuel' path).result = .ok (some (type, q)) ∧
            ∃ r', copyCwd fuel r task fd.toNat = some r' ∧
              (StaysIn r.bytes r'.bytes (task + cwdOff) (task + sigtermEnd) ↔
                (storedName before path type).length < nameSize) := by
  refine ⟨fun argv arg harg hname hfuel => copyName_staysIn_iff harg hname hfuel, ?_⟩
  intro fuel' img before files files' path fd hopen hfd hslot hfuel
  obtain ⟨rfl, -⟩ | ⟨type, q, i, entry, hres, hfree, hpath, rfl, rfl, -, hstored⟩ := openStores_cases hopen
  · exact absurd hfd (by decide)
  have hlen := length_storedName before path type
  have hlt : i < maxFileNum := (mem_slots.1 (mem_slots_of_freeSlot hfree).1).2
  rw [Int.toNat_natCast, Function.update_self, hstored] at hslot
  unfold fileNameSize at hpath
  exact ⟨type, q, hres, copyCwd_staysIn_iff hslot hlt (by omega) (by omega)⟩

section Repeated

open ExecCall

/-- The memory of a task with `/` as the name of its file 3. -/
def rootOpened (a : ℕ) : ℕ := if a = fileNameOff 3 then 47 else 0

/-- One argument of three letters, in the memory of its call, and the root directory. -/
theorem strings_stay_three :
    (∃ r', copyName 4 ⟨repeatedMem 1 3, []⟩ 0xffffffff80200000 0x10000000 = some r' ∧
      (StaysIn (repeatedMem 1 3) r'.bytes (0xffffffff80200000 + nameOff)
        (0xffffffff80200000 + sigtermEnd) ↔ ∀ s ∈ some (List.replicate 3 97), s.length < nameSize)) ∧
    ∃ type q, (openResStores sampleTarfs 0 1 [47]).result = .ok (some (type, q)) ∧
      ∃ r', copyCwd 129 ⟨rootOpened, []⟩ 0 3 = some r' ∧
        (StaysIn rootOpened r'.bytes (0 + cwdOff) (0 + sigtermEnd) ↔
          (storedName 0 [47] type).length < nameSize) := by
  have hload : load (repeatedMem 1 3) 8 0x10000000 = 0x20000000 := load_repeatedMem (i := 0) (by decide)
  constructor
  · refine (strings_stay_iff ⟨repeatedMem 1 3, []⟩ _ _).1 _ _ ⟨?_, ?_, ?_⟩ ⟨0, by decide, ?_⟩ (by simp)
    · rw [hload]
      decide
    · rw [hload]
      exact strAt_repeatedMem (by decide)
    · rw [hload]
      intro k hk
      rw [List.length_replicate] at hk
      unfold nameOff
      omega
    · decide
  · have hopen : tarfsOpen sampleTarfs 0 1 (fun _ => FileEntry.zero) [47] [114] =
        .ok ((3 : ℕ), Function.update (fun _ => FileEntry.zero) 3 (FileEntry.zero.openRoot sampleTarfs [114])) :=
      tarfsOpen_root (by unfold IsPath; decide) (by decide) (by decide) rfl
    refine (strings_stay_iff ⟨rootOpened, []⟩ 0 129).2 1 sampleTarfs 0 _ _ [47] (3 : ℕ)
      (openStores_result hopen) (by decide) ⟨?_, ?_, ?_⟩ (by decide)
    all_goals decide

/-- One argument of 64 letters passes the assertion, and clears the first byte of `cwd`. -/
theorem strings_stay_fails :
    ¬∀ (c : ExecCall) (fuel : ℕ) (z : Sizes) (k r : Ram), getSizes c.mem fuel c.argv c.envp = some z →
      z.Ok → copyIn fuel c.mem c.kbuf c.argv c.envp z = some k → copyName fuel k c.task c.argv = some r →
        StaysIn k.bytes r.bytes (c.task + nameOff) (c.task + sigtermEnd) := by
  intro h
  obtain ⟨c, hc⟩ : ∃ c, c = repeated 1 64 (by decide) (by decide) := ⟨_, rfl⟩
  have hargs : c.args = [List.replicate 64 97] := by rw [hc]; rfl
  have henvs : c.envs = [] := by rw [hc]; rfl
  have hcut : CutFits c.args c.envs := by
    rw [hargs, henvs, CutFits]
    decide
  have henough : Enough 100 c.args ∧ Enough 100 c.envs := by
    rw [hargs, henvs]
    exact ⟨⟨by decide, by decide⟩, ⟨by decide, by decide⟩⟩
  have hsizes := getSizes_eq c.argv_at c.envp_at henough.1 henough.2
  rw [hcut.intSizes_eq] at hsizes
  have hargv : StrsAt c.buffer.bytes (Foreign c.kbuf c.task c.args) c.argv c.args :=
    c.argv_at.congr fun a ha => buffer_bytes hcut ha.1
  rw [hargs] at hargv
  obtain ⟨hptr, -, hstr, hout, -⟩ := hargv
  have hcopy := strncpy_length hstr hptr (show c.task + nameOff ≠ 0 by unfold nameOff; omega)
    (show (List.replicate 64 97).length < 100 by decide) fun k hk => (hout k hk).2 _ rfl
  have hname : copyName 100 c.buffer c.task c.argv =
      some (c.buffer.put (c.task + nameOff) (List.replicate 64 97 ++ [0])) := by
    rw [copyName, strlen, if_neg hptr, hstr.strlen_eq (by decide), Option.bind_eq_bind, Option.bind_some,
      hcopy]
  have hstays := h c 100 _ _ _ hsizes hcut.ok (copyIn_eq hcut henough.1 henough.2) hname
  exact absurd ((put_staysIn_iff hstr.nonzero).1 hstays) (by decide)

end Repeated

end PlumOs.Args
