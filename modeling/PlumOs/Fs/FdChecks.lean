import PlumOs.Fs.Descriptors
import PlumOs.Lib.Traced

/-!
# What the calls check of a descriptor (`sys/syscall.c`)

`fd` is the lower half of a register of the user, an `int`.  `read`, `close` and `getdents` each make
checks of their own before they take `current->file_array[fd]`, and `file_array[fd]` may be anywhere
around the array.

* `readSlots`, `closeSlots`, `getdentsSlots` : the three functions, with the indices they use;
* `readSlots_result`, `closeSlots_result`, `getdentsSlots_result` : inside the array they are `read`,
  `close` and `getdents`;
* `SlotCall.Validated` : only allowed slots are used, and other descriptors are refused;
* `validated_iff` : **exactly when it is so**: `close` checks enough, `getdents` if the slot is in use,
  and `read` only if it has nothing to do, or the slot is there and in use.
-/

namespace PlumOs

open Traced

/-- What stands at an index from `file_array`, in front of the array and behind it too. -/
abbrev SlotMem : Type := ℤ → FileEntry

/-- A call, with the indices of `file_array` that it uses. -/
abbrev SlotM : Type → Type := Traced FsStop ℤ

/-- The array itself. -/
def SlotMem.table (files : SlotMem) : FileTable := fun i => files i

/-- `current->file_array[fd]`, to read it. -/
def slotAt (files : SlotMem) (fd : ℤ) : SlotM FileEntry := use fd (files fd)

/-- `current->file_array[fd]`, to store to it. -/
def setSlot (files : SlotMem) (fd : ℤ) (entry : FileEntry) : SlotM SlotMem :=
  use fd (Function.update files fd entry)

/-- `assert`. -/
def assertThat (p : Prop) [Decidable p] (func : String) : SlotM Unit :=
  lift (if p then .ok () else .error (.assertFail func))

/-- `-1`, as a `uint64_t`. -/
abbrev minusOne : ℕ := 0xffffffffffffffff

/-- `read`: the result and the slots.  `copied` says if `copy_from_kernel` succeeds, and `stdin` is
what `read_stdin` returns. -/
def readSlots (img : Tarfs) (files : SlotMem) (fd : ℤ) (size : ℕ) (copied : Bool) (stdin : ℕ) :
    SlotM (ℕ × SlotMem) := do
  assertThat (fd ≠ 1 ∧ fd ≠ 2) "read"
  if size = 0 then pure (minusOne, files)
  else if fd = 0 then pure (stdin, files)
  else do
    let entry ← slotAt files fd
    assertThat (entry.type = .file) "read"
    let entry ← slotAt files fd
    if entry.pos = entry.size then pure (0, files)
    else
      let (res, _, file) := entry.toTarfsFile.read img.mem size
      if copied then do
        let files ← setSlot files fd { entry with toTarfsFile := file }
        pure (res, files)
      else pure (minusOne, files)

/-- `close`. -/
def closeSlots (files : SlotMem) (fd : ℤ) : SlotM (ℕ × SlotMem) := do
  assertThat (fd ≠ 0 ∧ fd ≠ 1 ∧ fd ≠ 2) "close"
  assertThat ((startFd : ℤ) ≤ fd ∧ fd < maxFileNum) "tarfs_close"
  let entry ← slotAt files fd
  let _entry := zeroTarfsFileEntry entry
  pure (0, files)

/-- `getdents`: the result and the slots. -/
def getdentsSlots (img : Tarfs) (before fuel : ℕ) (files : SlotMem) (fd bufSize : ℤ)
    (copied : Bool) : SlotM (ℕ × SlotMem) := do
  assertThat ((startFd : ℤ) ≤ fd ∧ fd < maxFileNum) "getdents"
  let entry ← slotAt files fd
  assertThat (entry.type = .dir) "getdents"
  let entry ← slotAt files fd
  let res ← lift (traverseTarfs img before entry.name belongsToDir fuel
    ((entry.startAddr + entry.pos) % 2 ^ 64))
  match res with
  | none => pure (0, files)
  | some (type, res) => do
    let step ← lift (dentStep img.mem res type)
    let files ← setSlot files fd
      { entry with pos := (res + 2 ^ 64 - entry.startAddr + step) % 2 ^ 64 }
    let name ← lift (found (cstr img.mem res))
    assertThat ((direntSize : ℤ) ≤ bufSize ∧ name.length < 256) "getdents"
    pure (if copied then direntSize else minusOne, files)

/-! ### Inside the array -/

section Results

variable {img : Tarfs} {files : SlotMem} {size stdin before fuel : ℕ} {fd bufSize : ℤ}
  {copied : Bool} {p : Prop} [Decidable p] {func : String}

@[simp] theorem uses_assertThat : (assertThat p func).uses = [] := rfl

theorem result_assertThat_of (h : p) : (assertThat p func).result = .ok () := if_pos h

theorem result_assertThat_not (h : ¬ p) :
    (assertThat p func).result = .error (.assertFail func) := if_neg h

theorem error_bind {ε α β : Type} (e : ε) (f : α → Except ε β) :
    ((.error e : Except ε α) >>= f) = .error e := rfl

theorem table_update (hfd : 0 ≤ fd) (entry : FileEntry) :
    SlotMem.table (Function.update files fd entry) = Function.update files.table fd.toNat entry := by
  obtain ⟨i, rfl⟩ := Int.eq_ofNat_of_zero_le hfd
  funext j
  unfold SlotMem.table
  by_cases hj : j = i
  · subst hj
    rw [Int.toNat_natCast, Function.update_self, Function.update_self]
  · have hne : (j : ℤ) ≠ i := fun h => hj (Int.ofNat_inj.1 h)
    rw [Int.toNat_natCast, Function.update_of_ne hj, Function.update_of_ne hne]

theorem table_toNat (hfd : 0 ≤ fd) : files.table fd.toNat = files fd := by
  unfold SlotMem.table
  rw [Int.toNat_of_nonneg hfd]

theorem closeSlots_result :
    (closeSlots files fd).result.map (fun r => r.2.table) = close files.table fd := by
  unfold closeSlots close tarfsClose
  by_cases hstd : fd ≠ 0 ∧ fd ≠ 1 ∧ fd ≠ 2
  · rw [if_pos hstd, result_bind, result_assertThat_of hstd, ok_bind]
    by_cases hrange : (startFd : ℤ) ≤ fd ∧ fd < maxFileNum
    · rw [if_pos hrange, result_bind, result_assertThat_of hrange]
      rfl
    · rw [if_neg hrange, result_bind, result_assertThat_not hrange]
      rfl
  · rw [if_neg hstd, result_bind, result_assertThat_not hstd]
    rfl

/-- Where `read` does not leave the array it is the function on the table. -/
theorem readSlots_result (hlow : 0 ≤ fd) (hhigh : fd < maxFileNum) :
    (readSlots img files fd size copied stdin).result.map (fun r => r.2.table) =
      PlumOs.read img files.table fd size copied := by
  unfold readSlots PlumOs.read
  have hrange : ¬ (fd < 0 ∨ (maxFileNum : ℤ) ≤ fd) := by omega
  simp only [if_neg hrange, table_toNat hlow]
  by_cases h12 : fd = 1 ∨ fd = 2
  · rw [if_pos h12, result_bind, result_assertThat_not (by omega)]
    rfl
  rw [if_neg h12, result_bind, result_assertThat_of (by omega), ok_bind]
  by_cases hsize : size = 0
  · rw [if_pos hsize, if_pos (.inl hsize)]
    rfl
  rw [if_neg hsize]
  by_cases hzero : fd = 0
  · rw [if_pos hzero, if_pos (.inr hzero)]
    rfl
  rw [if_neg hzero, if_neg (by omega)]
  by_cases htype : (files fd).type = .file
  · have hsame : Function.update files.table fd.toNat
        { files fd with toTarfsFile := (files fd).toTarfsFile } = files.table := by
      have hslot : files.table fd.toNat = files fd := table_toNat hlow
      rw [← hslot]
      exact Function.update_eq_self _ _
    rw [if_pos htype]
    simp only [slotAt, result_bind, result_use, ok_bind, result_assertThat_of htype]
    by_cases hend : (files fd).pos = (files fd).size
    · rw [if_pos hend, TarfsFile.read, if_pos hend, hsame, ite_self]
      rfl
    rw [if_neg hend]
    generalize (files fd).toTarfsFile.read img.mem size = out
    obtain ⟨res, bytes, file⟩ := out
    cases copied with
    | false => rfl
    | true =>
      simp only [if_true, setSlot, result_bind, result_use, ok_bind, result_pure, Except.map,
        table_update hlow]
  · rw [if_neg htype]
    simp only [slotAt, result_bind, result_use, ok_bind, result_assertThat_not htype, error_bind]
    rfl

theorem getdentsSlots_result :
    (getdentsSlots img before fuel files fd bufSize copied).result.map (fun r => r.2.table) =
      (getdents img before fuel files.table fd bufSize copied).map fun r => r.2.2 := by
  unfold getdentsSlots getdents nextEntry
  by_cases hrange : (startFd : ℤ) ≤ fd ∧ fd < maxFileNum
  · have hlow : 0 ≤ fd := by unfold startFd at hrange; omega
    simp only [table_toNat hlow, result_bind, slotAt, result_use, ok_bind, result_lift,
      result_assertThat_of hrange]
    by_cases htype : (files fd).type = .dir
    · have hall : (startFd : ℤ) ≤ fd ∧ fd < maxFileNum ∧
          (files fd).type = .dir := ⟨hrange.1, hrange.2, htype⟩
      rw [result_assertThat_of htype, ok_bind, if_pos hall]
      cases traverseTarfs img before (files fd).name belongsToDir fuel
        (((files fd).startAddr + (files fd).pos) % 2 ^ 64) with
      | error e => rfl
      | ok found =>
        cases found with
        | none => rfl
        | some found =>
          obtain ⟨type, res⟩ := found
          simp only [ok_bind, result_bind, result_lift, setSlot, result_use]
          cases dentStep img.mem res type with
          | error e => rfl
          | ok step =>
            simp only [ok_bind]
            cases PlumOs.found (cstr img.mem res) with
            | error e => rfl
            | ok name =>
              simp only [ok_bind]
              by_cases hroom : (direntSize : ℤ) ≤ bufSize ∧ name.length < 256
              · rw [if_pos hroom, result_assertThat_of hroom]
                cases copied <;> simp only [Except.map, ok_bind, result_pure, table_update hlow]
                · rfl
                · rfl
              · rw [if_neg hroom, result_assertThat_not hroom]
                rfl
    · have hno : ¬ ((startFd : ℤ) ≤ fd ∧ fd < maxFileNum ∧
          (files fd).type = .dir) := fun h => htype h.2.2
      rw [result_assertThat_not htype, if_neg hno]
      rfl
  · have hno : ¬ ((startFd : ℤ) ≤ fd ∧ fd < maxFileNum ∧
        (files.table fd.toNat).type = .dir) := fun h => hrange ⟨h.1, h.2.1⟩
    rw [result_bind, result_assertThat_not hrange, if_neg hno]
    rfl

end Results

/-! ### The descriptors that are let through -/

/-- A call of a user process, with the register `rdi` that holds the descriptor. -/
inductive SlotCall where
  | read (rdi size : ℕ) (copied : Bool) (stdin : ℕ)
  | close (rdi : ℕ)
  | getdents (before rdi : ℕ) (bufSize : ℤ) (copied : Bool)
  deriving DecidableEq, Repr

/-- An index of the array that is used. -/
def InArray (fd : ℤ) : Prop := (startFd : ℤ) ≤ fd ∧ fd < maxFileNum

instance (fd : ℤ) : Decidable (InArray fd) := inferInstanceAs (Decidable (_ ∧ _))

/-- The slot is there and its field `free` marks it open. -/
def OpenSlot (files : SlotMem) (fd : ℤ) : Prop := InArray fd ∧ (files fd).free ≠ 0

instance (files : SlotMem) (fd : ℤ) : Decidable (OpenSlot files fd) :=
  inferInstanceAs (Decidable (_ ∧ _))

/-- The call returns -1, or ends in a failed assertion. -/
def CallRefused (r : Except FsStop (ℕ × SlotMem)) : Prop :=
  (∃ func, r = .error (.assertFail func)) ∨ ∃ files, r = .ok (minusOne, files)

namespace SlotCall

/-- The descriptor is `(int)(sf->rdi)`. -/
def fd : SlotCall → ℤ
  | read rdi _ _ _ => wrap32 rdi
  | close rdi => wrap32 rdi
  | getdents _ rdi _ _ => wrap32 rdi

/-- The call. -/
def exec (img : Tarfs) (fuel : ℕ) (files : SlotMem) : SlotCall → SlotM (ℕ × SlotMem)
  | read rdi size copied stdin => readSlots img files (wrap32 rdi) size copied stdin
  | close rdi => closeSlots files (wrap32 rdi)
  | getdents before rdi bufSize copied =>
    getdentsSlots img before fuel files (wrap32 rdi) bufSize copied

/-- The slots that the call may use. -/
def Allows (files : SlotMem) : SlotCall → ℤ → Prop
  | close _, i => InArray i
  | _, i => OpenSlot files i

/-- The descriptors that the call is for; 0 is the keyboard. -/
def Accepts (files : SlotMem) : SlotCall → ℤ → Prop
  | read _ _ _ _, i => i = 0 ∨ OpenSlot files i
  | close _, i => InArray i
  | getdents _ _ _ _, i => OpenSlot files i

/-- Only allowed slots are used, and any other descriptor is refused before a slot is used. -/
def Validated (img : Tarfs) (fuel : ℕ) (files : SlotMem) (c : SlotCall) : Prop :=
  (∀ i ∈ (c.exec img fuel files).uses, c.Allows files i) ∧
    (¬ c.Accepts files c.fd →
      (c.exec img fuel files).uses = [] ∧ CallRefused (c.exec img fuel files).result)

/-- What the checks of the call miss does not occur. -/
def Covered (files : SlotMem) : SlotCall → Prop
  | read rdi size _ _ => size = 0 ∨ wrap32 rdi = 0 ∨ wrap32 rdi = 1 ∨ wrap32 rdi = 2 ∨
      OpenSlot files (wrap32 rdi)
  | close _ => True
  | getdents _ rdi _ _ => InArray (wrap32 rdi) → OpenSlot files (wrap32 rdi)

instance (files : SlotMem) : DecidablePred (Covered files)
  | read _ _ _ _ => inferInstanceAs (Decidable (_ ∨ _ ∨ _ ∨ _ ∨ _))
  | close _ => inferInstanceAs (Decidable True)
  | getdents _ _ _ _ => inferInstanceAs (Decidable (_ → _))

end SlotCall

section Validated

variable {img : Tarfs} {files : SlotMem} {size stdin before fuel : ℕ} {i fd bufSize : ℤ}
  {copied : Bool} {p : Prop} [Decidable p] {func : String} {α : Type} {f : Unit → SlotM α}

/-- A failed assertion ends the call. -/
theorem uses_assert_not (h : ¬ p) : (assertThat p func >>= f).uses = [] :=
  uses_bind_error (result_assertThat_not h)

theorem uses_assert (h : p) : (assertThat p func >>= f).uses = (f ()).uses := by
  rw [uses_bind_ok (result_assertThat_of h), uses_assertThat, List.nil_append]

theorem mem_uses_assert : i ∈ (assertThat p func >>= f).uses ↔ p ∧ i ∈ (f ()).uses := by
  by_cases h : p
  · rw [uses_assert h]
    exact (and_iff_right h).symm
  · rw [uses_assert_not h]
    exact iff_of_false List.not_mem_nil fun hand => h hand.1

theorem refused_assert_not {f : Unit → SlotM (ℕ × SlotMem)} (h : ¬ p) :
    CallRefused (assertThat p func >>= f).result := by
  rw [result_bind, result_assertThat_not h]
  exact .inl ⟨func, rfl⟩

/-- `close` uses the slot of the descriptor, if there is one. -/
theorem mem_uses_closeSlots : i ∈ (closeSlots files fd).uses ↔ i = fd ∧ InArray fd := by
  have hslot : i ∈ (slotAt files fd >>= fun entry => let _entry := zeroTarfsFileEntry entry
      (pure (0, files) : SlotM (ℕ × SlotMem))).uses ↔ i = fd := by
    simp [mem_uses_bind, slotAt]
  unfold closeSlots InArray
  rw [mem_uses_assert, mem_uses_assert, hslot]
  unfold startFd
  omega

/-- `read` uses whatever slot it is asked for. -/
theorem mem_uses_readSlots : i ∈ (readSlots img files fd size copied stdin).uses ↔
    i = fd ∧ size ≠ 0 ∧ fd ≠ 0 ∧ fd ≠ 1 ∧ fd ≠ 2 := by
  unfold readSlots
  rw [mem_uses_assert]
  by_cases hsize : size = 0
  · rw [if_pos hsize]
    simp [hsize]
  rw [if_neg hsize]
  by_cases hzero : fd = 0
  · rw [if_pos hzero]
    simp [hzero]
  rw [if_neg hzero, mem_uses_bind]
  constructor
  · rintro ⟨hstd, hmem | ⟨entry, -, hmem⟩⟩
    · exact ⟨by simpa [slotAt] using hmem, hsize, hzero, hstd⟩
    · refine ⟨?_, hsize, hzero, hstd⟩
      rw [mem_uses_assert, mem_uses_bind] at hmem
      obtain ⟨-, hmem | ⟨entry', -, hmem⟩⟩ := hmem
      · simpa [slotAt] using hmem
      · split_ifs at hmem
        · exact absurd hmem List.not_mem_nil
        · simpa [mem_uses_bind, setSlot] using hmem
        · exact absurd hmem List.not_mem_nil
  · rintro ⟨rfl, -, -, hstd⟩
    exact ⟨hstd, .inl (List.mem_singleton_self _)⟩

/-- `getdents` uses the slot of the descriptor, if there is one. -/
theorem mem_uses_getdentsSlots :
    i ∈ (getdentsSlots img before fuel files fd bufSize copied).uses ↔ i = fd ∧ InArray fd := by
  unfold getdentsSlots
  rw [mem_uses_assert, mem_uses_bind]
  constructor
  · rintro ⟨hrange, hmem | ⟨entry, -, hmem⟩⟩
    · exact ⟨by simpa [slotAt] using hmem, hrange⟩
    · refine ⟨?_, hrange⟩
      rw [mem_uses_assert, mem_uses_bind] at hmem
      obtain ⟨-, hmem | ⟨entry', -, hmem⟩⟩ := hmem
      · simpa [slotAt] using hmem
      · rw [mem_uses_bind, uses_lift] at hmem
        obtain hmem | ⟨found, -, hmem⟩ := hmem
        · exact absurd hmem List.not_mem_nil
        cases found with
        | none => exact absurd hmem List.not_mem_nil
        | some found =>
          have hstep : (∃ step, dentStep img.mem found.2 found.1 = .ok step) ∧ i = fd := by
            simpa [mem_uses_bind, setSlot] using hmem
          exact hstep.2
  · rintro ⟨rfl, hrange⟩
    exact ⟨hrange, .inl (List.mem_singleton_self _)⟩

theorem refused_assert {f : Unit → SlotM (ℕ × SlotMem)} (hf : p → CallRefused (f ()).result) :
    CallRefused (assertThat p func >>= f).result := by
  by_cases h : p
  · rw [result_bind, result_assertThat_of h]
    exact hf h
  · exact refused_assert_not h

theorem closeSlots_refused (h : ¬ InArray fd) : CallRefused (closeSlots files fd).result :=
  refused_assert fun _ => refused_assert_not h

theorem readSlots_refused (h : size = 0 ∨ fd = 1 ∨ fd = 2) :
    CallRefused (readSlots img files fd size copied stdin).result := by
  refine refused_assert fun hstd => ?_
  have hsize : size = 0 := by omega
  rw [if_pos hsize]
  exact .inr ⟨files, rfl⟩

theorem getdentsSlots_refused (h : ¬ InArray fd) :
    CallRefused (getdentsSlots img before fuel files fd bufSize copied).result :=
  refused_assert_not h

end Validated

/-- **Exactly when a descriptor is validated.**  `close` always does it, whatever the register holds.
`getdents` takes a slot of the array that is not in use, and `read` any index, the ones behind and in
front of the array included, unless it asks for no bytes. -/
theorem validated_iff (img : Tarfs) (fuel : ℕ) (files : SlotMem) (c : SlotCall) :
    c.Validated img fuel files ↔ c.Covered files := by
  cases c with
  | close rdi =>
    refine iff_of_true ⟨fun i hi => ?_, fun hfd => ⟨?_, closeSlots_refused hfd⟩⟩ trivial
    · have hmem := mem_uses_closeSlots.1 hi
      rw [hmem.1]
      exact hmem.2
    · exact List.eq_nil_iff_forall_not_mem.2 fun i hi => hfd (mem_uses_closeSlots.1 hi).2
  | read rdi size copied stdin =>
    constructor
    · rintro ⟨hallows, -⟩
      by_contra hmiss
      have hparts := not_or.1 hmiss
      simp only [not_or] at hparts
      obtain ⟨hsize, hzero, hone, htwo, hopen⟩ := hparts
      exact hopen (hallows _ (mem_uses_readSlots.2 ⟨rfl, hsize, hzero, hone, htwo⟩))
    · intro hcov
      constructor
      · intro i hi
        obtain ⟨heq, hsize, hzero, hone, htwo⟩ := mem_uses_readSlots.1 hi
        rw [heq]
        rcases hcov with h | h | h | h | h
        · exact absurd h hsize
        · exact absurd h hzero
        · exact absurd h hone
        · exact absurd h htwo
        · exact h
      · intro hfd
        obtain ⟨hzero, hopen⟩ := not_or.1 hfd
        have hrefuse : size = 0 ∨ wrap32 rdi = 1 ∨ wrap32 rdi = 2 := by
          rcases hcov with h | h | h | h | h
          · exact .inl h
          · exact absurd h hzero
          · exact .inr (.inl h)
          · exact .inr (.inr h)
          · exact absurd h hopen
        refine ⟨List.eq_nil_iff_forall_not_mem.2 fun i hi => ?_, readSlots_refused hrefuse⟩
        obtain ⟨-, hsize, -, hone, htwo⟩ := mem_uses_readSlots.1 hi
        rcases hrefuse with h | h | h
        · exact hsize h
        · exact hone h
        · exact htwo h
  | getdents before rdi bufSize copied =>
    constructor
    · rintro ⟨hallows, -⟩ hin
      exact hallows _ (mem_uses_getdentsSlots.2 ⟨rfl, hin⟩)
    · intro hcov
      constructor
      · intro i hi
        have hmem := mem_uses_getdentsSlots.1 hi
        rw [hmem.1]
        exact hcov hmem.2
      · intro hfd
        have hout : ¬ InArray (wrap32 rdi) := fun hin => hfd (hcov hin)
        refine ⟨List.eq_nil_iff_forall_not_mem.2 fun i hi => ?_, getdentsSlots_refused hout⟩
        exact hout (mem_uses_getdentsSlots.1 hi).2

/-- A new process, with nothing open, reads one byte from descriptor 20, behind its array, and from
descriptor `-1`, in front of it, and lists descriptor 3. -/
theorem validated_fails :
    (¬ (SlotCall.read 20 1 true 0).Validated sampleTarfs 10 fun _ => FileEntry.zero) ∧
    (¬ (SlotCall.read 0xffffffffffffffff 1 true 0).Validated sampleTarfs 10 fun _ => FileEntry.zero) ∧
    ¬ (SlotCall.getdents 0 3 4096 true).Validated sampleTarfs 10 fun _ => FileEntry.zero := by
  have hread : ∀ rdi : ℕ, ¬ OpenSlot (fun _ => FileEntry.zero) (wrap32 rdi) :=
    fun rdi h => h.2 rfl
  refine ⟨fun h => hread 20 (h.1 _ ?_), fun h => hread 0xffffffffffffffff (h.1 _ ?_),
    fun h => hread 3 (h.1 _ ?_)⟩
  · exact mem_uses_readSlots.2 (by decide)
  · exact mem_uses_readSlots.2 (by decide)
  · exact mem_uses_getdentsSlots.2 (by decide)

end PlumOs
