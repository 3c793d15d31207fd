import PlumOs.Fs.Descriptors

/-!
# Reads inside a file (`sys/syscall.c`)

`read` compares `pos + size` with the size of the file, which may go beyond `2 ^ 64`, and hands the
number of bytes to `copy_from_kernel`, where it is an `int`.

* `TarfsFile.call` : `read` on the descriptor of a regular file, with a buffer that may be wrong;
* `TarfsFile.ReadsInside` : a call that succeeds copies the next bytes of the file, and moves there;
* `TarfsFile.FitsCall` : the sum does not overflow, and the number is an `int`;
* `readsInside_iff` : for one call they are the same;
* `reads_inside_iff` : **and for the calls of a sequence**, in which the position stays in the file.
-/

namespace PlumOs

/-- A call of `read`: the number of bytes asked for, and whether `search_vma` finds an area for the
buffer. -/
structure ReadCall where
  size : ℕ
  found : Bool
  deriving DecidableEq, Repr

namespace TarfsFile

/-- `read` from a regular file: the result, or nothing for the -1 of `copy_from_kernel`, the bytes
that are copied and the file afterwards. -/
def call (archive : ℕ → ℕ) (file : TarfsFile) (c : ReadCall) : Option ℕ × List ℕ × TarfsFile :=
  if file.pos = file.size then (some 0, [], file)
  else if c.found then
    let (res, bytes, file) := file.read archive c.size
    (some res, bytes, file)
  else (none, [], file)

/-- The calls of a sequence. -/
def step (archive : ℕ → ℕ) (file : TarfsFile) (c : ReadCall) : Except FsStop TarfsFile :=
  .ok (file.call archive c).2.2

/-- The bytes of the file from its position on. -/
def nextBytes (archive : ℕ → ℕ) (file : TarfsFile) (n : ℕ) : List ℕ :=
  (List.range n).map fun i => archive ((file.startAddr + file.pos + i) % 2 ^ 64)

/-- If the call succeeds it returns as many bytes as it can, copies them and moves behind them. -/
def ReadsInside (archive : ℕ → ℕ) (file : TarfsFile) (c : ReadCall) : Prop :=
  (file.call archive c).1.isSome → file.call archive c =
    (some (min c.size (file.size - file.pos)),
      file.nextBytes archive (min c.size (file.size - file.pos)),
      { file with pos := file.pos + min c.size (file.size - file.pos) })

/-- The call reads nothing, or position and size make no overflow and the bytes can be counted with
an `int`. -/
def FitsCall (file : TarfsFile) (c : ReadCall) : Prop :=
  file.pos = file.size ∨ c.found = false ∨
    file.pos + c.size < 2 ^ 64 ∧ min c.size (file.size - file.pos) < 2 ^ 31

instance (file : TarfsFile) (c : ReadCall) : Decidable (file.FitsCall c) :=
  inferInstanceAs (Decidable (_ ∨ _ ∨ _))

/-- A descriptor as `tarfs_open` and the calls leave it: the size is a `uint64_t`. -/
structure InFile (file : TarfsFile) : Prop where
  size : file.size < 2 ^ 64
  pos : file.pos ≤ file.size

section Call

variable {archive : ℕ → ℕ} {file : TarfsFile} {c : ReadCall}

theorem readsz_eq (h : file.InFile) (hwrap : file.pos + c.size < 2 ^ 64) :
    file.readsz c.size = min c.size (file.size - file.pos) := by
  have hsize := h.size
  have hpos := h.pos
  unfold readsz
  split_ifs <;> omega

/-- An overflow passes the test for the end of the file. -/
theorem readsz_wrap (h : file.InFile) (hsize : c.size < 2 ^ 64)
    (hwrap : 2 ^ 64 ≤ file.pos + c.size) : file.readsz c.size = c.size := by
  have hle := h.pos
  unfold readsz
  rw [if_pos (by omega)]

theorem length_copied (p n : ℕ) : (copied archive p n).length = (wrap32 n).toNat := by
  unfold copied
  rw [List.length_map, List.length_range]

theorem copied_eq {n : ℕ} (hn : n < 2 ^ 31) :
    copied archive (file.startAddr + file.pos) n = file.nextBytes archive n := by
  unfold copied nextBytes
  rw [wrap32_of_mem (by omega) (by omega), Int.toNat_natCast]

/-- **Exactly when a call reads inside the file.** -/
theorem readsInside_iff (h : file.InFile) (hsize : c.size < 2 ^ 64) :
    file.ReadsInside archive c ↔ file.FitsCall c := by
  have hlt := h.size
  have hle := h.pos
  unfold ReadsInside FitsCall call
  by_cases hend : file.pos = file.size
  · -- nothing is left, and the call returns 0
    have hzero : min c.size (file.size - file.pos) = 0 := by omega
    rw [if_pos hend, hzero]
    exact iff_of_true (fun _ => rfl) (.inl hend)
  rw [if_neg hend]
  cases hfound : c.found with
  | false => exact iff_of_true (fun hsome => absurd hsome (by simp)) (.inr (.inl rfl))
  | true =>
    have hread : file.read archive c.size = (file.readsz c.size,
        copied archive (file.startAddr + file.pos) (file.readsz c.size),
        { file with pos := (file.pos + file.readsz c.size) % 2 ^ 64 }) := by
      rw [read, if_neg hend]
    simp only [if_true, hread, Option.isSome_some, forall_const, hend, false_or, reduceCtorEq]
    constructor
    · intro heq
      simp only [Prod.mk.injEq, Option.some.injEq] at heq
      obtain ⟨hres, hbytes, -⟩ := heq
      have hwrap : file.pos + c.size < 2 ^ 64 := by
        by_contra hge
        rw [readsz_wrap h hsize (by omega)] at hres
        omega
      refine ⟨hwrap, ?_⟩
      -- as many bytes are copied as the `int` says
      have hlen := congrArg List.length hbytes
      rw [length_copied, hres, nextBytes, List.length_map, List.length_range] at hlen
      unfold wrap32 at hlen
      omega
    · rintro ⟨hwrap, hint⟩
      rw [readsz_eq h hwrap, copied_eq hint, Nat.mod_eq_of_lt (by omega)]

/-- A call that fits stays in the file. -/
theorem InFile.call (h : file.InFile) (hsize : c.size < 2 ^ 64) (hfits : file.FitsCall c) :
    (file.call archive c).2.2.InFile := by
  have hle := h.pos
  by_cases hsome : (file.call archive c).1.isSome
  · rw [(readsInside_iff h hsize).2 hfits hsome]
    exact ⟨h.size, by simp only; omega⟩
  · unfold TarfsFile.call at hsome ⊢
    by_cases hend : file.pos = file.size
    · rwa [if_pos hend]
    rw [if_neg hend] at hsome ⊢
    cases hfound : c.found with
    | false => exact h
    | true =>
      rw [hfound] at hsome
      exact absurd rfl hsome

end Call

end TarfsFile

open TarfsFile

/-- `read` on a slot of the table does what the call does to the file in it. -/
theorem read_slot_call (img : Tarfs) (files : FileTable) {i : ℕ} (hi : i ∈ slots) {c : ReadCall}
    (hsize : c.size ≠ 0) (htype : (files i).type = .file) :
    PlumOs.read img files i c.size c.found = .ok (Function.update files i
      { files i with toTarfsFile := ((files i).toTarfsFile.call img.mem c).2.2 }) := by
  have hsame : Function.update files i { files i with toTarfsFile := (files i).toTarfsFile } = files :=
    Function.update_eq_self i files
  rw [read_slot img files hi hsize, if_pos htype]
  unfold TarfsFile.call
  by_cases hend : (files i).toTarfsFile.pos = (files i).toTarfsFile.size
  · rw [if_pos hend, TarfsFile.read, if_pos hend, hsame, ite_self]
  · rw [if_neg hend]
    cases c.found with
    | false => exact congrArg Except.ok hsame.symm
    | true => rfl

/-- **Reads stay inside the file exactly if** in each call position and size make no overflow and the
bytes can be counted with an `int`: each call that succeeds returns the smaller of the size that is
asked for and what is left, copies these bytes and moves by as many, and the position is never
behind the end of the file. -/
theorem reads_inside_iff (archive : ℕ → ℕ) {file : TarfsFile} (hfile : file.InFile)
    {calls : List ReadCall} (hcalls : ∀ c ∈ calls, 1 ≤ c.size ∧ c.size < 2 ^ 64) :
    Along (TarfsFile.step archive) (ReadsInside archive) file calls ∧
        Always (TarfsFile.step archive) (fun file => file.pos ≤ file.size) file calls ↔
      Along (TarfsFile.step archive) FitsCall file calls := by
  have hall : Along (TarfsFile.step archive) (fun _ c => (1 ≤ c.size ∧ c.size < 2 ^ 64) ∧ True)
      file calls :=
    (along_of_forall (fun _ _ => trivial) file calls).and_of_mem hcalls
  have hkeep : ∀ f c f', f.InFile → (1 ≤ c.size ∧ c.size < 2 ^ 64) ∧ True → f.FitsCall c →
      TarfsFile.step archive f c = .ok f' → f'.InFile := by
    intro f c f' hf hc hfits hstep
    cases hstep
    exact hf.call hc.1.2 hfits
  have hiff : Along (TarfsFile.step archive) (ReadsInside archive) file calls ↔
      Along (TarfsFile.step archive) FitsCall file calls :=
    hall.congr_kept hfile (fun f c hf hc => readsInside_iff hf hc.1.2) hkeep
  rw [hiff]
  refine and_iff_left_of_imp fun hfits => ?_
  exact always_of_along hfile (fun _ hf => hf.pos)
    (fun f c f' hf hg hstep => hkeep f c f' hf hg.1 hg.2 hstep) (hall.and hfits)

/-- Three reads of a file of 600 bytes, one of them with a wrong buffer. -/
theorem reads_inside_iff_small : Along (TarfsFile.step fun _ => 0)
      (ReadsInside fun _ => 0) ⟨0x1000, 600, 0⟩ [⟨512, true⟩, ⟨5, false⟩, ⟨4096, true⟩] ∧
    Always (TarfsFile.step fun _ => 0) (fun file => file.pos ≤ file.size) ⟨0x1000, 600, 0⟩
      [⟨512, true⟩, ⟨5, false⟩, ⟨4096, true⟩] :=
  (reads_inside_iff (fun _ => 0) ⟨by decide, by decide⟩ (by decide)).2
    (along_of_decide (by decide))

/-- After a read of two bytes, a read of `2 ^ 64 - 2` bytes returns that number, copies nothing and
goes back to the beginning. -/
theorem reads_inside_fails : ¬ ∀ (archive : ℕ → ℕ) (file : TarfsFile), file.InFile →
    ∀ calls : List ReadCall, (∀ c ∈ calls, 1 ≤ c.size ∧ c.size < 2 ^ 64) →
      Along (TarfsFile.step archive) (ReadsInside archive) file calls := by
  intro hall
  have halong := hall (fun _ => 0) ⟨0x1000, 600, 0⟩ ⟨by decide, by decide⟩
    [⟨2, true⟩, ⟨2 ^ 64 - 2, true⟩] (by decide)
  have hcall := (halong.2 _ rfl).1
  have hin : (⟨0x1000, 600, 2⟩ : TarfsFile).InFile := ⟨by decide, by decide⟩
  have hfits : (⟨0x1000, 600, 2⟩ : TarfsFile).FitsCall ⟨2 ^ 64 - 2, true⟩ :=
    (readsInside_iff hin (by decide)).1 hcall
  exact absurd hfits (by decide)

end PlumOs
