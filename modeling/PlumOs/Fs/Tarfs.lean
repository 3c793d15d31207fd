import Mathlib.Data.List.GetD
import Mathlib.Data.List.Range
import Mathlib.Tactic.Ring
import PlumOs.Lib.CStr
import PlumOs.Lib.Word

/-!
# Files of the archive (`sys/tarfs.c`, `sys/syscall.c`)

The only file system is a tar archive in the kernel image.  A member has a header of 512 bytes with
its size as an octal string, and its bytes behind the header, filled up with zeros to a multiple of
512.  `tarfs_open` stores the size that is rounded up in the descriptor, so `read` goes on into the
zeros.

* `getFilesz`, `tarfsFile`, `TarfsFile.read` : the functions of the source;
* `RegularMember` : a well-formed member;
* `readAll` : the pieces that the calls of `read` return, up to the first that returns 0;
* `readAll_iff` : **they are the member's bytes exactly if** its size is a multiple of 512, and in no
  call the position and the size that is asked for make an overflow;
* `readAll_fails` : a member of five bytes.
-/

namespace PlumOs

/-! ### Headers -/

/-- `TARFS_HEADER`. -/
abbrev tarfsHeader : ℕ := 512

/-- `ROUND_TO_512`, of a `uint64_t`. -/
def roundTo512 (n : ℕ) : ℕ := (n + 511) % 2 ^ 64 / 512 * 512

/-- `size * 8 + (size_str[i++] - '0')`, as a `uint64_t`.  A `char` has a sign. -/
def octstrStep (size c : ℕ) : ℕ :=
  (((size : ℤ) * 8 + ((if c < 128 then (c : ℤ) else c - 256) - 48)) % 2 ^ 64).toNat

/-- `octstr_to_int`, of the characters up to the 0. -/
def octstrToInt (str : List ℕ) : ℕ := str.foldl octstrStep 0

/-- `get_filesz`: the field `size` is at offset 124 of the header.  The search for the 0 may leave the
field, and would have no end without one. -/
def getFilesz (archive : ℕ → ℕ) (header : ℕ) : Option ℕ :=
  (strlen archive (header + 124) (2 ^ 64)).map fun len =>
    octstrToInt ((List.range len).map fun i => archive (header + 124 + i))

/-! ### Descriptors -/

/-- `tarfs_file`, of a regular file. -/
structure TarfsFile where
  /-- Where the content starts. -/
  startAddr : ℕ
  /-- Its length. -/
  size : ℕ
  /-- Where the next read starts. -/
  pos : ℕ
  deriving DecidableEq, Repr

/-- What `tarfs_open` stores in a slot that was never used, for the regular member with this header. -/
def tarfsFile (archive : ℕ → ℕ) (header : ℕ) : Option TarfsFile :=
  (getFilesz archive header).map fun n =>
    { startAddr := header + tarfsHeader, size := roundTo512 n, pos := 0 }

namespace TarfsFile

/-- `readsz` of `read`, if the file is not at its end. -/
def readsz (file : TarfsFile) (size : ℕ) : ℕ :=
  if (file.pos + size) % 2 ^ 64 ≤ file.size then size else (file.size + 2 ^ 64 - file.pos) % 2 ^ 64

/-- The bytes that `copy_from_kernel(buf, p, readsz)` copies: its parameter `size` is an `int`. -/
def copied (archive : ℕ → ℕ) (p readsz : ℕ) : List ℕ :=
  (List.range (wrap32 readsz).toNat).map fun i => archive ((p + i) % 2 ^ 64)

/-- `read` from a regular file into a buffer that can be written: the result, the bytes that are copied
and the file afterwards. -/
def read (archive : ℕ → ℕ) (file : TarfsFile) (size : ℕ) : ℕ × List ℕ × TarfsFile :=
  if file.pos = file.size then (0, [], file)
  else
    (file.readsz size, copied archive (file.startAddr + file.pos) (file.readsz size),
      { file with pos := (file.pos + file.readsz size) % 2 ^ 64 })

end TarfsFile

/-- The pieces that some calls of `read` return, up to the first that returns 0; `none` if there is no
such call. -/
def readAll (archive : ℕ → ℕ) : TarfsFile → List ℕ → Option (List (List ℕ))
  | _, [] => none
  | file, size :: sizes =>
    let (res, piece, file) := file.read archive size
    if res = 0 then some [] else (readAll archive file sizes).map (piece :: ·)

/-! ### Well-formed members -/

/-- The number that octal digits stand for. -/
def octal (digits : List ℕ) : ℕ := digits.foldl (fun n d => n * 8 + d) 0

/-- A regular member of the archive in the kernel image: its header is at `header`, and `content` are
its bytes. -/
structure RegularMember (archive : ℕ → ℕ) (header : ℕ) (content : List ℕ) : Prop where
  /-- The archive is in the image of the kernel. -/
  image : 0xffffffff80000000 ≤ header
  fits : header + tarfsHeader + (content.length + 511) / 512 * 512 ≤ 2 ^ 64
  /-- The digits of the size. -/
  size : ∃ digits : List ℕ, digits.length ≤ 11 ∧ (∀ d ∈ digits, d < 8) ∧
    StrAt archive (header + 124) (digits.map (· + 48)) ∧ octal digits = content.length
  /-- The member is no directory. -/
  regular : archive (header + 156) ≠ 53
  /-- The content. -/
  bytes : ∀ i (h : i < content.length), archive (header + tarfsHeader + i) = content[i]
  /-- Zeros are behind it, up to the next block. -/
  padding : ∀ i, content.length ≤ i → i < (content.length + 511) / 512 * 512 →
    archive (header + tarfsHeader + i) = 0

/-- The size field of a header holds at most 11 octal digits with a 0 behind them, of this number. -/
def SizeField (mem : ℕ → ℕ) (header n : ℕ) : Prop :=
  ∃ digits : List ℕ, digits.length ≤ 11 ∧ (∀ d ∈ digits, d < 8) ∧
    StrAt mem (header + 124) (digits.map (· + 48)) ∧ octal digits = n

theorem octstrStep_digit {n d : ℕ} (hd : d < 8) (hlt : n * 8 + d < 2 ^ 64) :
    octstrStep n (d + 48) = n * 8 + d := by
  rw [octstrStep, if_pos (by omega)]
  omega

/-- On octal digits `octstr_to_int` computes the number they stand for. -/
theorem octstrToInt_digits {digits : List ℕ} (hlen : digits.length ≤ 11) (h : ∀ d ∈ digits, d < 8) :
    octstrToInt (digits.map (· + 48)) = octal digits := by
  suffices ∀ n : ℕ, (n + 1) * 8 ^ digits.length ≤ 2 ^ 64 →
      (digits.map (· + 48)).foldl octstrStep n = digits.foldl (fun n d => n * 8 + d) n by
    refine this 0 ?_
    calc (0 + 1) * 8 ^ digits.length ≤ 8 ^ 11 := by
          rw [Nat.zero_add, Nat.one_mul]
          exact Nat.pow_le_pow_right (by decide) hlen
      _ ≤ 2 ^ 64 := by decide
  clear hlen
  induction digits with
  | nil => intro n _; rfl
  | cons d digits ih =>
    intro n hn
    have hd := h d (List.mem_cons_self ..)
    have hpow : (n * 8 + d + 1) * 8 ^ digits.length ≤ 2 ^ 64 := by
      refine Nat.le_trans ?_ hn
      rw [List.length_cons, Nat.pow_succ, Nat.mul_comm (8 ^ _) 8, ← Nat.mul_assoc]
      exact Nat.mul_le_mul_right _ (by omega)
    have hlt : n * 8 + d < 2 ^ 64 := by
      have hone : n * 8 + d + 1 ≤ (n * 8 + d + 1) * 8 ^ digits.length :=
        Nat.le_mul_of_pos_right _ (Nat.pow_pos (by decide))
      omega
    rw [List.map_cons, List.foldl_cons, List.foldl_cons, octstrStep_digit hd hlt]
    exact ih (fun e he => h e (List.mem_cons_of_mem d he)) _ hpow

section Member

variable {archive : ℕ → ℕ} {header : ℕ} {content : List ℕ}

/-- The size of a member that is rounded up. -/
def paddedSize (content : List ℕ) : ℕ := (content.length + 511) / 512 * 512

theorem SizeField.getFilesz_eq {n : ℕ} (h : SizeField archive header n) :
    getFilesz archive header = some n := by
  obtain ⟨digits, hlen, hdigits, hstr, hoct⟩ := h
  have hchars : cstr archive (header + 124) = some (digits.map (· + 48)) :=
    hstr.cstr_eq (by rw [List.length_map]; omega)
  have hfilesz : getFilesz archive header = (cstr archive (header + 124)).map octstrToInt := by
    rw [getFilesz, cstr, Option.map_map]
    rfl
  rw [hfilesz, hchars, Option.map_some, octstrToInt_digits hlen hdigits, hoct]

/-- The size field of a member holds its size. -/
theorem RegularMember.getFilesz_eq (h : RegularMember archive header content) :
    getFilesz archive header = some content.length :=
  SizeField.getFilesz_eq h.size

/-- The kernel image is in the last 2 GB of the address space. -/
theorem RegularMember.paddedSize_lt (h : RegularMember archive header content) :
    paddedSize content + tarfsHeader ≤ 2 ^ 31 := by
  have himage := h.image
  have hfits := h.fits
  unfold tarfsHeader at hfits ⊢
  unfold paddedSize
  omega

theorem RegularMember.roundTo512_eq (h : RegularMember archive header content) :
    roundTo512 content.length = paddedSize content := by
  have hlt := h.paddedSize_lt
  unfold paddedSize at hlt
  unfold roundTo512 paddedSize
  rw [Nat.mod_eq_of_lt (by omega)]

/-- **The descriptor of a member** has the size that is rounded up. -/
theorem RegularMember.tarfsFile_eq (h : RegularMember archive header content) :
    tarfsFile archive header =
      some { startAddr := header + tarfsHeader, size := paddedSize content, pos := 0 } := by
  rw [tarfsFile, h.getFilesz_eq, Option.map_some, h.roundTo512_eq]

end Member

/-! ### Runs of `read` -/

namespace TarfsFile

/-- In no call up to the end of the file the position and the size make an overflow. -/
def NoWrap (total : ℕ) : ℕ → List ℕ → Prop
  | _, [] => True
  | pos, size :: sizes =>
    pos = total ∨ pos + size < 2 ^ 64 ∧ NoWrap total (min (pos + size) total) sizes

/-- The kernel image ends where the address space ends, and files are shorter than 2 GB. -/
structure Sound (file : TarfsFile) : Prop where
  fits : file.startAddr + file.size ≤ 2 ^ 64
  small : file.size < 2 ^ 31
  pos : file.pos ≤ file.size

variable {archive : ℕ → ℕ} {file : TarfsFile} {size : ℕ}

/-- The bytes of the file from one position to another. -/
def slice (archive : ℕ → ℕ) (file : TarfsFile) (lo hi : ℕ) : List ℕ :=
  (List.range' lo (hi - lo)).map fun i => archive (file.startAddr + i)

/-- A call without an overflow returns the next bytes, and at most as many as asked for. -/
theorem read_nowrap (h : file.Sound) (hpos : file.pos ≠ file.size) (hsize : 1 ≤ size)
    (hwrap : file.pos + size < 2 ^ 64) :
    file.read archive size = (min (file.pos + size) file.size - file.pos,
      file.slice archive file.pos (min (file.pos + size) file.size),
      { file with pos := min (file.pos + size) file.size }) := by
  have hfits := h.fits
  have hsmall := h.small
  have hle := h.pos
  have hread : file.readsz size = min (file.pos + size) file.size - file.pos := by
    unfold readsz
    split <;> omega
  have hcopy : copied archive (file.startAddr + file.pos) (file.readsz size) =
      file.slice archive file.pos (min (file.pos + size) file.size) := by
    unfold copied slice
    rw [wrap32_of_mem (by omega) (by omega), Int.toNat_natCast, hread]
    refine List.ext_getElem (by simp) fun i h₁ h₂ => ?_
    simp only [List.length_map, List.length_range] at h₁
    simp only [List.getElem_map, List.getElem_range, List.getElem_range', Nat.one_mul]
    rw [Nat.mod_eq_of_lt (by omega), Nat.add_assoc]
  have hnext : (file.pos + file.readsz size) % 2 ^ 64 = min (file.pos + size) file.size := by
    rw [hread]
    omega
  rw [read, if_neg hpos, hcopy, hnext, hread]

/-- A call with an overflow copies nothing and goes back. -/
theorem read_wrap (h : file.Sound) (hpos : file.pos ≠ file.size) (hsize : size < 2 ^ 64)
    (hwrap : 2 ^ 64 ≤ file.pos + size) : file.read archive size =
      (size, [], { file with pos := file.pos + size - 2 ^ 64 }) := by
  have hsmall := h.small
  have hle := h.pos
  have hread : file.readsz size = size := by
    unfold readsz
    rw [if_pos (by omega)]
  have hcopy : copied archive (file.startAddr + file.pos) size = [] := by
    unfold copied
    have hneg : wrap32 size < 0 := by
      unfold wrap32
      omega
    rw [Int.toNat_of_nonpos (by omega)]
    rfl
  have hnext : (file.pos + size) % 2 ^ 64 = file.pos + size - 2 ^ 64 := by omega
  rw [read, if_neg hpos, hread, hcopy, hnext]

/-- Two neighbouring slices are one. -/
theorem slice_append {lo mid hi : ℕ} (h₁ : lo ≤ mid) (h₂ : mid ≤ hi) :
    file.slice archive lo mid ++ file.slice archive mid hi = file.slice archive lo hi := by
  obtain ⟨k, rfl⟩ := Nat.exists_eq_add_of_le h₁
  obtain ⟨l, rfl⟩ := Nat.exists_eq_add_of_le h₂
  have hlen : lo + k + l - lo = k + l := by omega
  rw [slice, slice, slice, ← List.map_append, Nat.add_sub_cancel_left, Nat.add_sub_cancel_left, hlen,
    List.range'_append_1]

@[simp] theorem length_slice (lo hi : ℕ) : (file.slice archive lo hi).length = hi - lo := by
  simp [slice]

/-- **What the calls up to the end of the file return**: the rest of the file, if there is no overflow,
and more bytes than that if there is one. -/
theorem readAll_spec {sizes : List ℕ} {pieces : List (List ℕ)} (h : file.Sound)
    (hsizes : ∀ z ∈ sizes, 1 ≤ z ∧ z < 2 ^ 64) (hread : readAll archive file sizes = some pieces) :
    (NoWrap file.size file.pos sizes → pieces.flatten = file.slice archive file.pos file.size) ∧
      (¬NoWrap file.size file.pos sizes → file.size - file.pos < pieces.flatten.length) := by
  induction sizes generalizing file pieces with
  | nil => cases hread
  | cons size sizes ih =>
    obtain ⟨hone, hlt⟩ := hsizes size (List.mem_cons_self ..)
    have hrest : ∀ z ∈ sizes, 1 ≤ z ∧ z < 2 ^ 64 := fun z hz => hsizes z (List.mem_cons_of_mem size hz)
    have hsmall := h.small
    have hle := h.pos
    by_cases hpos : file.pos = file.size
    · -- at the end of the file
      rw [readAll, read, if_pos hpos] at hread
      obtain rfl : [] = pieces := by simpa using hread
      refine ⟨fun _ => by simp [slice, hpos], fun hno => absurd (Or.inl hpos) hno⟩
    by_cases hwrap : file.pos + size < 2 ^ 64
    · rw [readAll, read_nowrap h hpos hone hwrap] at hread
      simp only [if_neg (show ¬min (file.pos + size) file.size - file.pos = 0 by omega),
        Option.map_eq_some_iff] at hread
      obtain ⟨pieces, hpieces, rfl⟩ := hread
      have hnext : Sound { file with pos := min (file.pos + size) file.size } :=
        ⟨h.fits, h.small, Nat.min_le_right ..⟩
      -- the next calls go on from the new position
      obtain ⟨heq, hmore⟩ := ih hnext hrest hpieces
      have hiff : NoWrap file.size file.pos (size :: sizes) ↔
          NoWrap file.size (min (file.pos + size) file.size) sizes := by
        rw [NoWrap]
        exact ⟨fun hor => (hor.resolve_left hpos).2, fun hrun => Or.inr ⟨hwrap, hrun⟩⟩
      rw [hiff, List.flatten_cons]
      refine ⟨fun hrun => ?_, fun hrun => ?_⟩
      · rw [heq hrun]
        exact slice_append (by omega) (Nat.min_le_right ..)
      · have hlen := hmore hrun
        rw [List.length_append, length_slice]
        simp only at hlen
        omega
    · -- the position goes back, so the bytes from there on are returned once more
      rw [readAll, read_wrap h hpos hlt (by omega)] at hread
      simp only [if_neg (show ¬size = 0 by omega), Option.map_eq_some_iff] at hread
      obtain ⟨pieces, hpieces, rfl⟩ := hread
      have hnext : Sound { file with pos := file.pos + size - 2 ^ 64 } :=
        ⟨h.fits, h.small, by simp only; omega⟩
      obtain ⟨heq, hmore⟩ := ih hnext hrest hpieces
      have hno : ¬NoWrap file.size file.pos (size :: sizes) := by
        rintro (hor | ⟨hor, -⟩)
        exacts [hpos hor, hwrap hor]
      refine ⟨fun hrun => absurd hrun hno, fun _ => ?_⟩
      have hlen : file.size - (file.pos + size - 2 ^ 64) ≤ pieces.flatten.length := by
        by_cases hrun : NoWrap file.size (file.pos + size - 2 ^ 64) sizes
        · rw [heq hrun, length_slice]
        · exact Nat.le_of_lt (hmore hrun)
      rw [List.flatten_cons, List.nil_append]
      omega

end TarfsFile

/-! ### Reading a member -/

section Reading

variable {archive : ℕ → ℕ} {header : ℕ} {content : List ℕ}

theorem RegularMember.sound (h : RegularMember archive header content) :
    TarfsFile.Sound { startAddr := header + tarfsHeader, size := paddedSize content, pos := 0 } where
  fits := h.fits
  small := by
    have hlt := h.paddedSize_lt
    unfold tarfsHeader at hlt
    simp only
    omega
  pos := Nat.zero_le _

/-- A member without padding. -/
theorem RegularMember.slice_eq (h : RegularMember archive header content) {size pos : ℕ} :
    TarfsFile.slice archive ⟨header + tarfsHeader, size, pos⟩ 0 content.length = content := by
  refine List.ext_getElem (by simp) fun i h₁ h₂ => ?_
  simp only [TarfsFile.slice, List.getElem_map, List.getElem_range', Nat.zero_add, Nat.one_mul]
  exact h.bytes i h₂

/-- **The calls of `read` return the bytes of the member exactly if** its size is a multiple of 512 and
in no call the position and the size make an overflow. -/
theorem readAll_iff (h : RegularMember archive header content) :
    ∃ file, tarfsFile archive header = some file ∧ ∀ sizes pieces,
      (∀ z ∈ sizes, 1 ≤ z ∧ z < 2 ^ 64) → readAll archive file sizes = some pieces →
      (pieces.flatten = content ↔
        512 ∣ content.length ∧ TarfsFile.NoWrap content.length 0 sizes) := by
  refine ⟨_, h.tarfsFile_eq, fun sizes pieces hsizes hread => ?_⟩
  have hsound := h.sound
  obtain ⟨heq, hmore⟩ := TarfsFile.readAll_spec hsound hsizes hread
  have hpad : content.length ≤ paddedSize content := by
    unfold paddedSize
    omega
  have hdvd : 512 ∣ content.length ↔ paddedSize content = content.length := by
    unfold paddedSize
    omega
  simp only at heq hmore
  rw [hdvd]
  constructor
  · rintro rfl
    by_cases hrun : TarfsFile.NoWrap (paddedSize pieces.flatten) 0 sizes
    · have hlen := congrArg List.length (heq hrun)
      rw [TarfsFile.length_slice, Nat.sub_zero] at hlen
      exact ⟨hlen.symm, by rwa [hlen]⟩
    · have hlen := hmore hrun
      omega
  · rintro ⟨hlen, hrun⟩
    rw [heq (by rwa [hlen]), hlen]
    exact h.slice_eq

end Reading

/-- A member with the header at 2 MB of the kernel image: the digits of its size, and its bytes. -/
def sampleArchive (digits content : List ℕ) (addr : ℕ) : ℕ :=
  let offset := addr - 0xffffffff80200000
  if 124 ≤ offset ∧ offset < 136 then (digits.map (· + 48)).getD (offset - 124) 0
  else if offset = 156 then 48
  else if tarfsHeader ≤ offset then content.getD (offset - tarfsHeader) 0
  else 0

theorem sizeField_sampleArchive {digits : List ℕ} (content : List ℕ) (hlen : digits.length ≤ 11)
    (hdigits : ∀ d ∈ digits, d < 8) :
    SizeField (sampleArchive digits content) 0xffffffff80200000 (octal digits) := by
  refine ⟨digits, hlen, hdigits, ⟨fun i hi => ?_, fun c hc => ?_, ?_⟩, rfl⟩
  · rw [List.length_map] at hi
    have hoff : 0xffffffff80200000 + 124 + i - 0xffffffff80200000 = 124 + i := by omega
    simp only [sampleArchive, hoff]
    rw [if_pos (by omega), Nat.add_sub_cancel_left, List.getD_eq_getElem _ _ (by simpa using hi)]
  · obtain ⟨d, -, rfl⟩ := List.mem_map.mp hc
    omega
  · rw [List.length_map]
    have hoff : 0xffffffff80200000 + 124 + digits.length - 0xffffffff80200000 =
        124 + digits.length := by omega
    simp only [sampleArchive, hoff]
    rw [if_pos (by omega), Nat.add_sub_cancel_left, List.getD_eq_default _ _ (by simp)]

theorem regularMember_sampleArchive {digits content : List ℕ} (hlen : digits.length ≤ 11)
    (hdigits : ∀ d ∈ digits, d < 8) (hoct : octal digits = content.length)
    (hsmall : content.length ≤ 2 ^ 20) :
    RegularMember (sampleArchive digits content) 0xffffffff80200000 content where
  image := by decide
  fits := by unfold tarfsHeader; omega
  size := hoct ▸ sizeField_sampleArchive content hlen hdigits
  regular := by
    have hoff : 0xffffffff80200000 + 156 - 0xffffffff80200000 = 156 := by omega
    simp [sampleArchive, hoff]
  bytes i hi := by
    have hoff : 0xffffffff80200000 + 512 + i - 0xffffffff80200000 = 512 + i := by omega
    simp only [sampleArchive, tarfsHeader, hoff]
    rw [if_neg (by omega), if_neg (by omega), if_pos (by omega), Nat.add_sub_cancel_left,
      List.getD_eq_getElem _ _ hi]
  padding i hi _ := by
    have hoff : 0xffffffff80200000 + 512 + i - 0xffffffff80200000 = 512 + i := by omega
    simp only [sampleArchive, tarfsHeader, hoff]
    rw [if_neg (by omega), if_neg (by omega), if_pos (by omega), Nat.add_sub_cancel_left,
      List.getD_eq_default _ _ hi]

/-- A member of 512 bytes, in two pieces. -/
theorem readAll_block : ∃ file,
    tarfsFile (sampleArchive [1, 0, 0, 0] (List.replicate 512 65)) 0xffffffff80200000 = some file ∧
    ∃ pieces, readAll (sampleArchive [1, 0, 0, 0] (List.replicate 512 65)) file [300, 4096, 1] =
        some pieces ∧
      (pieces.flatten = List.replicate 512 65 ↔
        512 ∣ (List.replicate 512 65).length ∧
          TarfsFile.NoWrap (List.replicate 512 65).length 0 [300, 4096, 1]) := by
  have hmem : RegularMember (sampleArchive [1, 0, 0, 0] (List.replicate 512 65)) 0xffffffff80200000
      (List.replicate 512 65) :=
    regularMember_sampleArchive (by decide) (by decide) (by rw [List.length_replicate]; decide)
      (by rw [List.length_replicate]; decide)
  obtain ⟨file, hfile, hiff⟩ := readAll_iff hmem
  refine ⟨file, hfile, ?_⟩
  rw [hmem.tarfsFile_eq] at hfile
  obtain rfl := Option.some.inj hfile
  have hsome : (readAll (sampleArchive [1, 0, 0, 0] (List.replicate 512 65))
      ⟨0xffffffff80200000 + tarfsHeader, paddedSize (List.replicate 512 65), 0⟩
      [300, 4096, 1]).isSome := by
    decide +kernel
  obtain ⟨pieces, hpieces⟩ := Option.isSome_iff_exists.mp hsome
  exact ⟨pieces, hpieces, hiff _ pieces (by decide) hpieces⟩

/-- A member of five bytes: `read` returns 507 zeros behind them. -/
theorem readAll_fails : ¬∀ (archive : ℕ → ℕ) (header : ℕ) (content : List ℕ),
    RegularMember archive header content → ∀ file, tarfsFile archive header = some file →
      ∀ sizes pieces, (∀ z ∈ sizes, 1 ≤ z ∧ z < 2 ^ 64) → readAll archive file sizes = some pieces →
        pieces.flatten = content := by
  intro hall
  have hmem : RegularMember (sampleArchive [5] [104, 101, 108, 108, 111]) 0xffffffff80200000
      [104, 101, 108, 108, 111] :=
    regularMember_sampleArchive (by decide) (by decide) (by decide) (by decide)
  have hread : readAll (sampleArchive [5] [104, 101, 108, 108, 111])
      ⟨0xffffffff80200000 + tarfsHeader, paddedSize [104, 101, 108, 108, 111], 0⟩ [4096, 4096] =
      some [[104, 101, 108, 108, 111] ++ List.replicate 507 0] := by
    decide +kernel
  have heq := hall _ _ _ hmem _ hmem.tarfsFile_eq _ _ (by decide) hread
  have hlen := congrArg List.length heq
  rw [List.flatten_cons, List.length_append, List.length_append, List.length_replicate] at hlen
  simp only [List.length_cons] at hlen
  omega

end PlumOs
