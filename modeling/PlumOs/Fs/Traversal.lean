import PlumOs.Fs.Archive
import PlumOs.Lib.Loop

/-!
# The loop of `traverse_tarfs` (`sys/tarfs.c`)

From a header the loop goes on by 512 bytes, or by the size of the file that is rounded up.  `len` is
an `int`, so that a large size makes the step 0 or negative.

* `Search.turn`, `traverseTarfs_eq_loop` : one turn of the loop, and `traverse_tarfs` as a loop;
* `Search.Forward` : a header from which the loop goes forward, or where it ends;
* `traverse_progress_iff` : **each turn makes progress and the loop ends exactly if** it is so for all
  the headers that are visited.
-/

namespace PlumOs

/-- A call of `traverse_tarfs`, but for the address it starts from. -/
structure Search where
  img : Tarfs
  before : ℕ
  filename : List ℕ
  checker : List ℕ → List ℕ → ℤ

namespace Search

variable (s : Search)

/-- The name that is compared with those of directories. -/
def dirname : List ℕ := slashed s.before s.filename

/-- One turn of the loop. -/
def turn (p : ℕ) : Turn ℕ (Except FsStop (Option (FileType × ℕ))) :=
  if p < s.img.stop then
    match cstr s.img.mem p with
    | none => .done (.error .loop)
    | some name =>
      if s.img.mem (p + 156) = 53 then
        if nameSize ≤ s.dirname.length then .done (.error .overrun)
        else if s.checker s.dirname name = 0 then .done (.ok (some (.dir, p)))
        else .next ((p + tarfsHeader) % 2 ^ 64)
      else if s.checker s.filename name = 0 then .done (.ok (some (.file, p)))
      else
        match getFilesz s.img.mem p with
        | none => .done (.error .loop)
        | some filesz => .next ((p + fileStep filesz) % 2 ^ 64).toNat
  else .done (.ok none)

/-- The call, from the address `p`. -/
def traverse (fuel p : ℕ) : Except FsStop (Option (FileType × ℕ)) :=
  traverseTarfs s.img s.before s.filename s.checker fuel p

/-- The name in the header is the one that is looked for, or the step to the next header is positive
and does not leave the address space. -/
def Forward (q : ℕ) : Prop :=
  ∀ name n, cstr s.img.mem q = some name → getFilesz s.img.mem q = some n →
    if s.img.mem (q + 156) = 53 then s.checker s.dirname name = 0 ∨ q + tarfsHeader < 2 ^ 64
    else s.checker s.filename name = 0 ∨
      512 ≤ (n + 1023) % 2 ^ 32 ∧ (n + 1023) % 2 ^ 32 < 2 ^ 31 ∧
        q + (n + 1023) % 2 ^ 32 / 512 * 512 < 2 ^ 64

end Search

/-! ### Headers -/

section Header

variable {mem : ℕ → ℕ} {header n k : ℕ}

/-- A string ends where there is a 0. -/
theorem exists_strlen {addr fuel : ℕ} (h : mem (addr + k) = 0) (hk : k < fuel) :
    ∃ len, strlen mem addr fuel = some len := by
  induction k generalizing addr fuel with
  | zero =>
    obtain ⟨fuel, rfl⟩ := Nat.exists_eq_succ_of_ne_zero (Nat.ne_of_gt hk)
    exact ⟨0, by rw [strlen]; exact if_pos h⟩
  | succ k ih =>
    obtain ⟨fuel, rfl⟩ := Nat.exists_eq_succ_of_ne_zero (Nat.ne_of_gt (Nat.zero_lt_of_lt hk))
    have hnext : mem (addr + 1 + k) = 0 := by rwa [Nat.add_assoc, Nat.add_comm 1 k]
    obtain ⟨len, hlen⟩ := ih hnext (Nat.lt_of_succ_lt_succ hk)
    rw [strlen]
    split_ifs
    · exact ⟨0, rfl⟩
    · exact ⟨len + 1, by rw [hlen]; rfl⟩

/-- The name of a header ends in the size field at the latest. -/
theorem SizeField.exists_name (h : SizeField mem header n) : ∃ name, cstr mem header = some name := by
  obtain ⟨digits, hlen, -, hstr, -⟩ := h
  have hstop := hstr.stop
  rw [Nat.add_assoc, List.length_map] at hstop
  have hshort : 124 + digits.length < 2 ^ 64 := by omega
  obtain ⟨len, hlen'⟩ := exists_strlen hstop hshort
  exact ⟨_, by rw [cstr, hlen']; rfl⟩

/-- The step of a file, from the lower half of its size. -/
theorem fileStep_eq_wrap32 (n : ℕ) : fileStep n = wrap32 (n + 1023) / 512 * 512 := by
  unfold fileStep tarfsHeader
  rw [wrap32_wrap32_add]
  congr 3

theorem fileStep_of_lt (h : (n + 1023) % 2 ^ 32 < 2 ^ 31) :
    fileStep n = ((n + 1023) % 2 ^ 32 / 512 * 512 : ℕ) := by
  rw [fileStep_eq_wrap32]
  unfold wrap32
  omega

/-- A size with bit 31, after what is added to it, makes the step negative. -/
theorem fileStep_neg (h : 2 ^ 31 ≤ (n + 1023) % 2 ^ 32) : -2 ^ 31 ≤ fileStep n ∧ fileStep n < 0 := by
  rw [fileStep_eq_wrap32]
  unfold wrap32
  omega

end Header

/-! ### The loop -/

/-- **`traverse_tarfs` is the loop** over these turns. -/
theorem traverseTarfs_eq_loop (s : Search) (fuel p : ℕ) :
    s.traverse fuel p = (loop s.turn fuel p).getD (.error .loop) := by
  unfold Search.traverse
  induction fuel generalizing p with
  | zero => rfl
  | succ fuel ih =>
    rw [traverseTarfs, loop, Search.turn]
    by_cases hp : p < s.img.stop
    · simp only [if_pos hp]
      cases cstr s.img.mem p with
      | none => rfl
      | some name =>
        have hdirname : slashed s.before s.filename = s.dirname := rfl
        simp only [found, ok_bind, hdirname]
        by_cases hdir : s.img.mem (p + 156) = 53
        · simp only [if_pos hdir]
          by_cases hbuf : nameSize ≤ s.dirname.length
          · simp only [if_pos hbuf, Option.getD_some]
          simp only [if_neg hbuf]
          by_cases hacc : s.checker s.dirname name = 0
          · simp only [if_pos hacc, Option.getD_some]
          · simp only [if_neg hacc]
            exact ih _
        · simp only [if_neg hdir]
          by_cases hacc : s.checker s.filename name = 0
          · simp only [if_pos hacc, Option.getD_some]
          simp only [if_neg hacc]
          cases getFilesz s.img.mem p with
          | none => rfl
          | some filesz => exact ih _
    · simp only [if_neg hp]
      rfl

namespace Search

variable {s : Search} {p q r n : ℕ} {name : List ℕ}

theorem turn_dir (hq : q < s.img.stop) (hname : cstr s.img.mem q = some name)
    (hdir : s.img.mem (q + 156) = 53) (hbuf : s.dirname.length < nameSize) :
    s.turn q = if s.checker s.dirname name = 0 then .done (.ok (some (.dir, q)))
      else .next ((q + tarfsHeader) % 2 ^ 64) := by
  rw [turn, if_pos hq, hname]
  simp only [if_pos hdir, if_neg (Nat.not_le.2 hbuf)]

theorem turn_file (hq : q < s.img.stop) (hname : cstr s.img.mem q = some name)
    (hfile : s.img.mem (q + 156) ≠ 53) (hsize : getFilesz s.img.mem q = some n) :
    s.turn q = if s.checker s.filename name = 0 then .done (.ok (some (.file, q)))
      else .next ((q + fileStep n) % 2 ^ 64).toNat := by
  rw [turn, if_pos hq, hname]
  simp only [if_neg hfile, hsize]

theorem turn_end (hq : ¬ q < s.img.stop) : s.turn q = .done (.ok none) := by
  rw [turn, if_neg hq]

/-- A name of at most 62 bytes has room for the `/` in the buffer. -/
theorem dirname_lt (hlen : s.filename.length ≤ 62) : s.dirname.length < nameSize := by
  unfold dirname slashed nameSize
  split_ifs
  · omega
  · rw [List.length_append, List.length_singleton]
    omega

theorem forall_next_iff {R : Type} {t : ℕ} :
    (∀ r, (Turn.next t : Turn ℕ R) = .next r → q < r) ↔ q < t := by
  simp only [Turn.next.injEq, forall_eq']

/-- From a header that is read the loop goes forward exactly if the header is one from which it does. -/
theorem forward_iff (hlen : s.filename.length ≤ 62) (hq : q < s.img.stop) (hstop : s.img.stop < 2 ^ 64)
    (himage : 2 ^ 31 ≤ q) (hsize : SizeField s.img.mem q n) :
    s.Forward q ↔ ∀ r, s.turn q = .next r → q < r := by
  obtain ⟨name, hname⟩ := hsize.exists_name
  have hfilesz := hsize.getFilesz_eq
  have hforward : s.Forward q ↔
      if s.img.mem (q + 156) = 53 then s.checker s.dirname name = 0 ∨ q + tarfsHeader < 2 ^ 64
      else s.checker s.filename name = 0 ∨
        512 ≤ (n + 1023) % 2 ^ 32 ∧ (n + 1023) % 2 ^ 32 < 2 ^ 31 ∧
          q + (n + 1023) % 2 ^ 32 / 512 * 512 < 2 ^ 64 := by
    refine ⟨fun h => h name n hname hfilesz, fun h name' n' hname' hfilesz' => ?_⟩
    rw [hname, Option.some.injEq] at hname'
    rw [hfilesz, Option.some.injEq] at hfilesz'
    rw [← hname', ← hfilesz']
    exact h
  rw [hforward]
  by_cases hdir : s.img.mem (q + 156) = 53
  · rw [if_pos hdir, turn_dir hq hname hdir (dirname_lt hlen)]
    by_cases hacc : s.checker s.dirname name = 0
    · rw [if_pos hacc]
      exact iff_of_true (.inl hacc) fun r hr => nomatch hr
    · rw [if_neg hacc, forall_next_iff, or_iff_right hacc]
      unfold tarfsHeader
      omega
  · rw [if_neg hdir, turn_file hq hname hdir hfilesz]
    by_cases hacc : s.checker s.filename name = 0
    · rw [if_pos hacc]
      exact iff_of_true (.inl hacc) fun r hr => nomatch hr
    · rw [if_neg hacc, forall_next_iff, or_iff_right hacc]
      by_cases hneg : 2 ^ 31 ≤ (n + 1023) % 2 ^ 32
      · -- the loop goes back
        obtain ⟨hlow, hhigh⟩ := fileStep_neg hneg
        refine iff_of_false (fun h => absurd h.2.1 (by omega)) ?_
        generalize fileStep n = step at hlow hhigh
        omega
      · rw [fileStep_of_lt (by omega)]
        omega

/-- A turn at a header that can be read does not fail. -/
theorem ok_of_done (hlen : s.filename.length ≤ 62) (hsize : q < s.img.stop → ∃ n, SizeField s.img.mem q n)
    {res : Except FsStop (Option (FileType × ℕ))} (hdone : s.turn q = .done res) :
    ∃ found, res = .ok found := by
  by_cases hq : q < s.img.stop
  · obtain ⟨n, hn⟩ := hsize hq
    obtain ⟨name, hname⟩ := hn.exists_name
    by_cases hdir : s.img.mem (q + 156) = 53
    · rw [turn_dir hq hname hdir (dirname_lt hlen)] at hdone
      split_ifs at hdone
      cases hdone
      exact ⟨_, rfl⟩
    · rw [turn_file hq hname hdir hn.getFilesz_eq] at hdone
      split_ifs at hdone
      cases hdone
      exact ⟨_, rfl⟩
  · rw [turn_end hq] at hdone
    cases hdone
    exact ⟨_, rfl⟩

end Search

/-- **Exactly when the loop makes progress.**  In the kernel image, with sizes that are octal numbers
wherever the loop looks for one, each turn goes forward and the loop ends exactly if all the headers
that are visited are ones from which it goes forward. -/
theorem traverse_progress_iff (s : Search) {p : ℕ} (hlen : 1 ≤ s.filename.length ∧ s.filename.length ≤ 62)
    (himage : 2 ^ 31 ≤ p) (hstop : s.img.stop < 2 ^ 64)
    (hsizes : ∀ q, Visits s.turn p q → p ≤ q → q < s.img.stop → ∃ n, SizeField s.img.mem q n) :
    ((∀ q r, Visits s.turn p q → s.turn q = .next r → q < r) ∧
        ∃ fuel res, s.traverse fuel p = .ok res) ↔
      ∀ q, Visits s.turn p q → q < s.img.stop → s.Forward q := by
  have habove : (∀ q r, Visits s.turn p q → s.turn q = .next r → q < r) →
      ∀ q, Visits s.turn p q → p ≤ q := by
    intro hprogress q hq
    refine visits_invariant (I := fun q => p ≤ q) le_rfl (fun t u ht hle hnext => ?_) hq
    exact hle.trans (Nat.le_of_lt (hprogress t u ht hnext))
  constructor
  · rintro ⟨hprogress, -⟩ q hq hlt
    have hle := habove hprogress q hq
    obtain ⟨n, hn⟩ := hsizes q hq hle hlt
    exact (Search.forward_iff hlen.2 hlt hstop (himage.trans hle) hn).2 fun r hr => hprogress q r hq hr
  · intro hforward
    have hlt : ∀ q r, s.turn q = .next r → q < s.img.stop := by
      intro q r hnext
      by_contra hq
      rw [Search.turn_end hq] at hnext
      cases hnext
    have hkeep : ∀ q, Visits s.turn p q → p ≤ q ∧ ∀ r, s.turn q = .next r → q < r := by
      intro q hq
      have hstep : ∀ t, Visits s.turn p t → p ≤ t → ∀ u, s.turn t = .next u → t < u := by
        intro t ht hle u hnext
        have htlt := hlt t u hnext
        obtain ⟨n, hn⟩ := hsizes t ht hle htlt
        exact (Search.forward_iff hlen.2 htlt hstop (himage.trans hle) hn).1 (hforward t ht htlt) u hnext
      have hle : p ≤ q := visits_invariant (I := fun q => p ≤ q) le_rfl
        (fun t u ht hle hnext => hle.trans (Nat.le_of_lt (hstep t ht hle u hnext))) hq
      exact ⟨hle, hstep q hq hle⟩
    refine ⟨fun q r hq hnext => (hkeep q hq).2 r hnext, ?_⟩
    -- what is left of the region decreases
    have hdecr : ∀ q r, Visits s.turn p q → s.turn q = .next r → s.img.stop - r < s.img.stop - q := by
      intro q r hq hnext
      have hqr := (hkeep q hq).2 r hnext
      have hqlt := hlt q r hnext
      omega
    obtain ⟨fuel, res, hres⟩ := exists_loop (fun q => s.img.stop - q) hdecr
    obtain ⟨q, hq, hdone⟩ := exists_done_of_loop hres
    obtain ⟨found, rfl⟩ := Search.ok_of_done hlen.2 (hsizes q hq (hkeep q hq).1) hdone
    exact ⟨fuel, found, by rw [traverseTarfs_eq_loop, hres]; rfl⟩

/-- A search for `x` in an archive with one header, with these digits as its size, and one block. -/
def sampleSearch (digits : List ℕ) : Search where
  img := ⟨sampleArchive digits [], 0xffffffff80200000, 0xffffffff80200400⟩
  before := 0
  filename := [120]
  checker := strcmp

@[simp] theorem sampleSearch_mem (digits : List ℕ) :
    (sampleSearch digits).img.mem = sampleArchive digits [] := by
  simp only [sampleSearch]

@[simp] theorem sampleSearch_stop (digits : List ℕ) :
    (sampleSearch digits).img.stop = 0xffffffff80200400 := rfl

@[simp] theorem sampleSearch_filename (digits : List ℕ) : (sampleSearch digits).filename = [120] := rfl

@[simp] theorem sampleSearch_checker (digits : List ℕ) : (sampleSearch digits).checker = strcmp := rfl

theorem sizeField_sampleSearch {digits : List ℕ} (hlen : digits.length ≤ 11)
    (hdigits : ∀ d ∈ digits, d < 8) :
    SizeField (sampleSearch digits).img.mem 0xffffffff80200000 (octal digits) := by
  rw [sampleSearch_mem]
  exact sizeField_sampleArchive [] hlen hdigits

theorem turn_sampleSearch {digits : List ℕ} {q : ℕ} (hlen : digits.length ≤ 11)
    (hdigits : ∀ d ∈ digits, d < 8)
    (hq : (((0xffffffff80200000 : ℕ) : ℤ) + fileStep (octal digits)) % 2 ^ 64 = q) :
    (sampleSearch digits).turn 0xffffffff80200000 = .next q := by
  have hbyte : ∀ i < 124, sampleArchive digits [] (0xffffffff80200000 + i) = 0 := by
    intro i hi
    have hoff : 0xffffffff80200000 + i - 0xffffffff80200000 = i := by omega
    simp only [sampleArchive, hoff]
    rw [if_neg (by omega), if_neg (by omega), if_neg (by unfold tarfsHeader; omega)]
  have hstr : StrAt (sampleSearch digits).img.mem 0xffffffff80200000 [] := by
    refine ⟨fun i hi => absurd hi (Nat.not_lt_zero i), fun c hc => absurd hc List.not_mem_nil, ?_⟩
    rw [sampleSearch_mem, List.length_nil]
    exact hbyte 0 (by decide)
  have hname := hstr.cstr_eq (by decide)
  have htype : (sampleSearch digits).img.mem (0xffffffff80200000 + 156) ≠ 53 := by
    have hoff : 0xffffffff80200000 + 156 - 0xffffffff80200000 = 156 := by omega
    simp [sampleArchive, hoff]
  have hlt : 0xffffffff80200000 < (sampleSearch digits).img.stop := by
    rw [sampleSearch_stop]
    decide
  have hother : (sampleSearch digits).checker (sampleSearch digits).filename [] ≠ 0 := by
    rw [sampleSearch_checker, sampleSearch_filename]
    decide
  rw [Search.turn_file hlt hname htype (sizeField_sampleSearch hlen hdigits).getFilesz_eq,
    if_neg hother, hq, Int.toNat_natCast]

/-- A file of five bytes. -/
theorem traverse_progress_iff_five :
    ((∀ q r, Visits (sampleSearch [5]).turn 0xffffffff80200000 q → (sampleSearch [5]).turn q = .next r →
        q < r) ∧
      ∃ fuel res, (sampleSearch [5]).traverse fuel 0xffffffff80200000 = .ok res) ↔
    ∀ q, Visits (sampleSearch [5]).turn 0xffffffff80200000 q → q < (sampleSearch [5]).img.stop →
      (sampleSearch [5]).Forward q := by
  refine traverse_progress_iff (sampleSearch [5]) (by decide) (by decide) (by decide) ?_
  have hturn : (sampleSearch [5]).turn 0xffffffff80200000 = .next 0xffffffff80200400 := by
    refine turn_sampleSearch (by decide) (by decide) ?_
    rw [show fileStep (octal [5]) = 1024 from rfl]
    omega
  intro q hq _ hlt
  rw [visits_iff_of_next hturn] at hq
  rcases hq with hq | hq
  · rw [hq]
    exact ⟨_, sizeField_sampleSearch (by decide) (by decide)⟩
  · rw [visits_iff_of_done (Search.turn_end (by decide))] at hq
    rw [hq] at hlt
    exact absurd hlt (by decide)

/-- With the size `2 ^ 32 - 1023`, in octal digits, the step is 0 and the loop stays at the header. -/
theorem traverse_progress_fails : ¬ ∀ (s : Search) (p : ℕ),
    1 ≤ s.filename.length ∧ s.filename.length ≤ 62 → 2 ^ 31 ≤ p → s.img.stop < 2 ^ 64 →
    (∀ q, Visits s.turn p q → p ≤ q → q < s.img.stop → ∃ n, SizeField s.img.mem q n) →
    (∀ q r, Visits s.turn p q → s.turn q = .next r → q < r) ∧
      ∃ fuel res, s.traverse fuel p = .ok res := by
  intro hall
  have hturn : (sampleSearch [3, 7, 7, 7, 7, 7, 7, 6, 0, 0, 1]).turn 0xffffffff80200000 =
      .next 0xffffffff80200000 := by
    refine turn_sampleSearch (by decide) (by decide) ?_
    rw [show fileStep (octal [3, 7, 7, 7, 7, 7, 7, 6, 0, 0, 1]) = 0 from rfl]
    omega
  have hstay : ∀ q, Visits (sampleSearch [3, 7, 7, 7, 7, 7, 7, 6, 0, 0, 1]).turn 0xffffffff80200000 q →
      q = 0xffffffff80200000 := by
    intro q hq
    refine visits_invariant (I := fun q => q = 0xffffffff80200000) rfl (fun t u _ ht hnext => ?_) hq
    rw [ht, hturn, Turn.next.injEq] at hnext
    exact hnext.symm
  have hprogress := (hall (sampleSearch [3, 7, 7, 7, 7, 7, 7, 6, 0, 0, 1]) 0xffffffff80200000 (by decide)
    (by decide) (by decide) fun q hq _ _ => ?_).1
  · exact absurd (hprogress _ _ (visits_refl _) hturn) (Nat.lt_irrefl _)
  · rw [hstay q hq]
    exact ⟨_, sizeField_sampleSearch (by decide) (by decide)⟩

end PlumOs
