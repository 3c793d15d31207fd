import PlumOs.Fs.Tarfs
import PlumOs.Lib.Outcome
import PlumOs.Lib.Word

/-!
# Going through the archive (`sys/tarfs.c`, `sys/string.c`)

`traverse_tarfs` goes from header to header and compares the name that it looks for with the name of
each member.  For a directory it appends a `/` to the name it looks for, if there is none.  The blocks
of zeros at the end of the archive are headers to it, of files with an empty name.

* `strcmp`, `strncmp`, `traverseTarfs` : the functions of the source, the first two on lists: what they are on
  memory is in `Libc/Strings.lean`;
* `Laid` : an archive with some members, and blocks of zeros behind them;
* `traverse_laid` : **the traversal finds the first member that the comparison accepts**, and if there
  is none the first block of zeros, if the comparison accepts the empty name;
* `Tarfs.WellFormed`, `wellFormed_archiveOf` : well-formed archives, and that there is one with any members.
-/

namespace PlumOs

/-! ### Strings -/

/-- The difference of the first characters that are not the same, of two strings or of as many of
their characters as `size` says. -/
def strncmp : List ℕ → List ℕ → ℕ → ℤ
  | _, _, 0 => 0
  | [], [], _ + 1 => 0
  | c :: _, [], _ + 1 => charVal c
  | [], d :: _, _ + 1 => 0 - charVal d
  | c :: dest, d :: src, size + 1 =>
    if c = d then strncmp dest src size else charVal c - charVal d

/-- `strcmp` compares the lengths first. -/
def strcmp (dest src : List ℕ) : ℤ :=
  if dest.length ≠ src.length then -1 else strncmp dest src dest.length

/-! ### The traversal -/

/-- `FT_DIR` and `FT_FILE`. -/
inductive FileType where
  | dir
  | file
  deriving DecidableEq, Repr

/-- The number of the type. -/
def FileType.toNat : FileType → ℕ
  | .dir => 0
  | .file => 1

/-- Why a call for a file does not return: a loop that goes on, a name that is too long for a buffer on
the stack, an assertion, or the end of the process. -/
inductive FsStop where
  | loop
  | overrun
  | assertFail (func : String)
  | exitSt
  deriving DecidableEq, Repr

/-- The archive in the kernel image, from `_binary_tarfs_start` to `_binary_tarfs_end`. -/
structure Tarfs where
  /-- The memory. -/
  mem : ℕ → ℕ
  /-- Where the archive begins. -/
  start : ℕ
  /-- Where it ends. -/
  stop : ℕ

/-- `NAME_SIZE`, also the size of the buffer `name` of `traverse_tarfs`. -/
abbrev nameSize : ℕ := 64

/-- The name that is compared with the names of directories.  If `filename` is empty, the last of its
characters that the source looks at is the byte before it. -/
def slashed (before : ℕ) (filename : List ℕ) : List ℕ :=
  if filename.getLastD before = 47 then filename else filename ++ [47]

/-- `ROUND_TO_512(len)`, for a file of this size; `len` is an `int`. -/
def fileStep (filesz : ℕ) : ℤ := wrap32 (wrap32 (filesz + tarfsHeader) + 511) / 512 * 512

/-- What a search in the memory finds. -/
def found {α : Type} : Option α → Except FsStop α
  | some a => .ok a
  | none => .error .loop

/-- `traverse_tarfs`, with at most `fuel` headers: the type and the address of the member. -/
def traverseTarfs (img : Tarfs) (before : ℕ) (filename : List ℕ) (checker : List ℕ → List ℕ → ℤ) :
    ℕ → ℕ → Except FsStop (Option (FileType × ℕ))
  | 0, _ => .error .loop
  | fuel + 1, p =>
    if p < img.stop then do
      let name ← found (cstr img.mem p)
      if img.mem (p + 156) = 53 then
        if nameSize ≤ (slashed before filename).length then .error .overrun
        else if checker (slashed before filename) name = 0 then .ok (some (.dir, p))
        else traverseTarfs img before filename checker fuel ((p + tarfsHeader) % 2 ^ 64)
      else if checker filename name = 0 then .ok (some (.file, p))
      else do
        let filesz ← found (getFilesz img.mem p)
        traverseTarfs img before filename checker fuel ((p + fileStep filesz) % 2 ^ 64).toNat
    else .ok none

/-! ### Members -/

/-- A member of an archive: a directory, or a file with its bytes. -/
inductive Member where
  | dir (name : List ℕ)
  | file (name content : List ℕ)
  deriving DecidableEq, Repr

namespace Member

/-- The name of the member, of a directory with the `/` at its end. -/
def name : Member → List ℕ
  | dir name => name
  | file name _ => name

def type : Member → FileType
  | dir _ => .dir
  | file _ _ => .file

/-- The bytes of the member in the archive. -/
def size : Member → ℕ
  | dir _ => tarfsHeader
  | file _ content => tarfsHeader + paddedSize content

/-- The member has its header at the address `p`. -/
def At (mem : ℕ → ℕ) (p : ℕ) : Member → Prop
  | dir name => StrAt mem p name ∧ mem (p + 156) = 53
  | file name content => StrAt mem p name ∧ RegularMember mem p content

/-- The comparison accepts the member. -/
def Accepted (before : ℕ) (filename : List ℕ) (checker : List ℕ → List ℕ → ℤ) : Member → Prop
  | dir name => checker (slashed before filename) name = 0
  | file name _ => checker filename name = 0

instance (before : ℕ) (filename : List ℕ) (checker : List ℕ → List ℕ → ℤ) :
    DecidablePred (Accepted before filename checker)
  | dir name => inferInstanceAs (Decidable (checker (slashed before filename) name = 0))
  | file name _ => inferInstanceAs (Decidable (checker filename name = 0))

theorem size_ge (m : Member) : tarfsHeader ≤ m.size := by
  cases m with
  | dir name => exact Nat.le_refl _
  | file name content => exact Nat.le_add_right ..

theorem At.strAt {mem : ℕ → ℕ} {p : ℕ} {m : Member} (h : m.At mem p) : StrAt mem p m.name := by
  cases m with
  | dir name => exact h.1
  | file name content => exact h.1

end Member

/-- From the address `p` on the archive has these members, then blocks of zeros to its end. -/
def Laid (img : Tarfs) : ℕ → List Member → Prop
  | p, [] => ∃ k, 1 ≤ k ∧ img.stop = p + 512 * k ∧ ∀ i < 512 * k, img.mem (p + i) = 0
  | p, m :: members => m.At img.mem p ∧ Laid img (p + m.size) members

/-- The members with their addresses. -/
def membersAt : ℕ → List Member → List (ℕ × Member)
  | _, [] => []
  | p, m :: members => (p, m) :: membersAt (p + m.size) members

/-- The bytes of some members. -/
def totalSize (members : List Member) : ℕ := (members.map Member.size).sum

section Traversal

variable {img : Tarfs} {before p fuel : ℕ} {filename : List ℕ} {checker : List ℕ → List ℕ → ℤ}
  {members pre post : List Member} {m : Member}

@[simp] theorem totalSize_cons (m : Member) (members : List Member) :
    totalSize (m :: members) = m.size + totalSize members := by
  simp [totalSize]

theorem laid_append : Laid img p (pre ++ post) ↔
    (∀ x ∈ membersAt p pre, x.2.At img.mem x.1) ∧ Laid img (p + totalSize pre) post := by
  induction pre generalizing p with
  | nil => simp [membersAt, totalSize]
  | cons m pre ih =>
    simp only [List.cons_append, Laid, ih, membersAt, List.forall_mem_cons, totalSize_cons, and_assoc,
      Nat.add_assoc]

theorem Laid.at (h : Laid img p members) {x : ℕ × Member} (hx : x ∈ membersAt p members) :
    x.2.At img.mem x.1 := by
  rw [← List.append_nil members, laid_append] at h
  exact h.1 x hx

theorem map_snd_membersAt (p : ℕ) (members : List Member) :
    (membersAt p members).map Prod.snd = members := by
  induction members generalizing p with
  | nil => rfl
  | cons m members ih => rw [membersAt, List.map_cons, ih]

theorem mem_of_mem_membersAt {x : ℕ × Member} (h : x ∈ membersAt p members) : x.2 ∈ members := by
  rw [← map_snd_membersAt p members]
  exact List.mem_map_of_mem h

theorem exists_mem_membersAt (p : ℕ) (h : m ∈ members) : ∃ q, (q, m) ∈ membersAt p members := by
  rw [← map_snd_membersAt p members] at h
  obtain ⟨x, hx, rfl⟩ := List.mem_map.1 h
  exact ⟨x.1, hx⟩

theorem membersAt_append (p : ℕ) (pre post : List Member) :
    membersAt p (pre ++ post) = membersAt p pre ++ membersAt (p + totalSize pre) post := by
  induction pre generalizing p with
  | nil => simp [membersAt, totalSize]
  | cons m pre ih => simp only [List.cons_append, membersAt, ih, totalSize_cons, Nat.add_assoc]

/-- There is a block behind the members. -/
theorem Laid.stop_ge (h : Laid img p members) : p + totalSize members + 512 ≤ img.stop := by
  induction members generalizing p with
  | nil =>
    obtain ⟨k, hk, hstop, -⟩ := h
    simp only [totalSize, List.map_nil, List.sum_nil]
    omega
  | cons m members ih =>
    have hle := ih h.2
    rw [totalSize_cons]
    omega

/-- A block of zeros is a header with an empty name and the size 0. -/
theorem getFilesz_zeros (h : ∀ i < 512, img.mem (p + i) = 0) :
    cstr img.mem p = some [] ∧ img.mem (p + 156) ≠ 53 ∧ getFilesz img.mem p = some 0 := by
  have hname : StrAt img.mem p [] := ⟨fun _ hi => absurd hi (by simp), by simp, h 0 (by decide)⟩
  have hsize : strlen img.mem (p + 124) (2 ^ 64) = some 0 := by
    have hstr : StrAt img.mem (p + 124) [] :=
      ⟨fun _ hi => absurd hi (by simp), by simp, h 124 (by decide)⟩
    exact hstr.strlen_eq (by decide)
  refine ⟨hname.cstr_eq (by decide), ?_, ?_⟩
  · rw [h 156 (by decide)]
    decide
  · rw [getFilesz, hsize]
    rfl

/-- The size of a file is not too large for an `int`. -/
theorem fileStep_eq {n : ℕ} (hn : (n + 511) / 512 * 512 + 1024 ≤ 2 ^ 31) :
    fileStep n = (tarfsHeader + (n + 511) / 512 * 512 : ℕ) := by
  have hlen : wrap32 ((n : ℤ) + (512 : ℕ)) = n + 512 := wrap32_of_mem (by omega) (by omega)
  rw [fileStep, tarfsHeader, hlen, wrap32_of_mem (by omega) (by omega)]
  omega

/-- The header behind a file. -/
theorem add_fileStep {n : ℕ} (hn : (n + 511) / 512 * 512 + 1024 ≤ 2 ^ 31)
    (hnext : p + (tarfsHeader + (n + 511) / 512 * 512) < 2 ^ 64) :
    ((p : ℤ) + fileStep n) % 2 ^ 64 = (p + (tarfsHeader + (n + 511) / 512 * 512) : ℕ) := by
  rw [fileStep_eq hn]
  omega

/-- One step of the traversal: a member that the comparison accepts is found, and from any other one
the traversal goes on to the next. -/
theorem traverse_member (hm : m.At img.mem p) (hlen : m.name.length < 2 ^ 64)
    (hbuf : m.type = .dir → (slashed before filename).length < nameSize) (hnext : p + m.size + 512 ≤ img.stop)
    (hstop : img.stop < 2 ^ 64) :
    traverseTarfs img before filename checker (fuel + 1) p =
      if m.Accepted before filename checker then .ok (some (m.type, p))
      else traverseTarfs img before filename checker fuel (p + m.size) := by
  have hlt : p < img.stop := by omega
  have hname := hm.strAt.cstr_eq hlen
  rw [traverseTarfs, if_pos hlt, hname]
  simp only [found, ok_bind]
  cases m with
  | dir name =>
    rw [if_pos hm.2, if_neg (not_le.2 (hbuf rfl))]
    have hmod : (p + tarfsHeader) % 2 ^ 64 = p + tarfsHeader := by
      simp only [Member.size] at hnext
      exact Nat.mod_eq_of_lt (by omega)
    rw [hmod]
    rfl
  | file name content =>
    have hreg := hm.2
    rw [if_neg hreg.regular, hreg.getFilesz_eq]
    simp only [ok_bind, Member.name, Member.size, paddedSize] at hnext ⊢
    have himage := hreg.image
    rw [add_fileStep (by omega) (by omega), Int.toNat_natCast]
    rfl

/-- The traversal of the blocks of zeros. -/
theorem traverse_zeros {k : ℕ} (hk : img.stop = p + 512 * k) (hstop : img.stop < 2 ^ 64)
    (hzero : ∀ i < 512 * k, img.mem (p + i) = 0) (hfuel : k < fuel) :
    traverseTarfs img before filename checker fuel p =
      .ok (if 1 ≤ k ∧ checker filename [] = 0 then some (.file, p) else none) := by
  induction k generalizing p fuel with
  | zero =>
    obtain ⟨fuel, rfl⟩ := Nat.exists_eq_succ_of_ne_zero (Nat.ne_of_gt hfuel)
    rw [traverseTarfs, if_neg (by omega), if_neg (fun h => absurd h.1 (by decide))]
  | succ k ih =>
    obtain ⟨fuel, rfl⟩ := Nat.exists_eq_succ_of_ne_zero (Nat.ne_of_gt (Nat.zero_lt_of_lt hfuel))
    obtain ⟨hname, htype, hsize⟩ := getFilesz_zeros fun i hi => hzero i (by omega)
    rw [traverseTarfs, if_pos (by omega), hname, hsize]
    simp only [found, ok_bind, if_neg htype]
    by_cases hacc : checker filename [] = 0
    · rw [if_pos hacc, if_pos ⟨by omega, hacc⟩]
    · have hstep : (((p : ℤ) + fileStep 0) % 2 ^ 64).toNat = p + 512 := by
        rw [show fileStep 0 = 512 from rfl]
        omega
      rw [if_neg hacc, hstep, ih (by omega) (fun i hi => ?_) (by omega),
        if_neg (fun h => hacc h.2), if_neg (fun h => hacc h.2)]
      rw [Nat.add_assoc]
      exact hzero (512 + i) (by omega)

/-- **What the traversal finds** in an archive with these members. -/
theorem traverse_laid (h : Laid img p members) (hlen : ∀ m ∈ members, m.name.length < 2 ^ 64)
    (hbuf : (slashed before filename).length < nameSize) (hstop : img.stop < 2 ^ 64)
    (hfuel : img.stop < p + 512 * fuel) :
    traverseTarfs img before filename checker fuel p =
      .ok ((((membersAt p members).find? fun x => x.2.Accepted before filename checker).map
        fun x => (x.2.type, x.1)).or
          (if checker filename [] = 0 then some (.file, p + totalSize members) else none)) := by
  induction members generalizing p fuel with
  | nil =>
    obtain ⟨k, hk, hend, hzero⟩ := h
    rw [traverse_zeros hend hstop hzero (by omega)]
    simp [membersAt, totalSize, hk]
  | cons m members ih =>
    obtain ⟨hm, hrest⟩ := h
    have hge := hrest.stop_ge
    have hsize := m.size_ge
    unfold tarfsHeader at hsize
    obtain ⟨fuel, rfl⟩ : ∃ k, fuel = k + 1 := Nat.exists_eq_succ_of_ne_zero (by omega)
    rw [traverse_member hm (hlen m (List.mem_cons_self ..)) (fun _ => hbuf) (by omega) hstop, membersAt,
      List.find?_cons]
    by_cases hacc : m.Accepted before filename checker
    · simp only [if_pos hacc, decide_eq_true hacc, Option.map_some, Option.some_or]
    · simp only [if_neg hacc, decide_eq_false hacc]
      rw [ih hrest (fun x hx => hlen x (List.mem_cons_of_mem m hx)) (by omega), totalSize_cons,
        Nat.add_assoc]

/-- A directory does not let a name pass that is too long for the buffer. -/
theorem traverse_overrun {name : List ℕ} (hm : (Member.dir name).At img.mem p)
    (hlen : name.length < 2 ^ 64) (hbuf : nameSize ≤ (slashed before filename).length)
    (hp : p < img.stop) : traverseTarfs img before filename checker (fuel + 1) p = .error .overrun := by
  rw [traverseTarfs, if_pos hp, hm.strAt.cstr_eq hlen]
  simp only [found, ok_bind]
  rw [if_pos hm.2, if_pos hbuf]

/-- **A directory that the traversal finds** is a member that the comparison accepts, and the buffer was
large enough for the name. -/
theorem traverse_eq_dir {q : ℕ} (h : Laid img p members) (hlen : ∀ m ∈ members, m.name.length < 2 ^ 64)
    (hstop : img.stop < 2 ^ 64) (hfuel : img.stop < p + 512 * fuel)
    (hres : traverseTarfs img before filename checker fuel p = .ok (some (.dir, q))) :
    ∃ pre name post, members = pre ++ .dir name :: post ∧ q = p + totalSize pre ∧
      checker (slashed before filename) name = 0 ∧ (slashed before filename).length < nameSize := by
  induction members generalizing p fuel with
  | nil =>
    obtain ⟨k, hk, hend, hzero⟩ := h
    rw [traverse_zeros hend hstop hzero (by omega)] at hres
    split at hres <;> cases hres
  | cons m members ih =>
    obtain ⟨hm, hrest⟩ := h
    have hge := hrest.stop_ge
    have hsize := m.size_ge
    unfold tarfsHeader at hsize
    obtain ⟨fuel, rfl⟩ : ∃ k, fuel = k + 1 := Nat.exists_eq_succ_of_ne_zero (by omega)
    have hshort := hlen m (List.mem_cons_self ..)
    have hbuf : m.type = .dir → (slashed before filename).length < nameSize := by
      intro htype
      by_contra hlong
      cases m with
      | dir name =>
        rw [traverse_overrun hm hshort (not_lt.1 hlong) (by omega)] at hres
        cases hres
      | file name content => cases htype
    rw [traverse_member hm hshort hbuf (by omega) hstop] at hres
    by_cases hacc : m.Accepted before filename checker
    · rw [if_pos hacc] at hres
      cases m with
      | dir name =>
        cases hres
        exact ⟨[], name, members, rfl, rfl, hacc, hbuf rfl⟩
      | file name content => cases hres
    · rw [if_neg hacc] at hres
      obtain ⟨pre, name, post, rfl, rfl, hcheck, hlong⟩ :=
        ih hrest (fun x hx => hlen x (List.mem_cons_of_mem m hx)) (by omega) hres
      exact ⟨m :: pre, name, post, rfl, by rw [totalSize_cons, Nat.add_assoc], hcheck, hlong⟩

end Traversal

/-! ### Well-formed archives -/

/-- A path without empty components, that is relative. -/
structure ProperName (name : List ℕ) : Prop where
  /-- The name is not empty. -/
  nonempty : name ≠ []
  /-- The name does not begin with `/`. -/
  relative : name.head? ≠ some 47
  /-- The name has no empty component. -/
  components : ¬[47, 47] <:+: name
  /-- The field of the header has room for it. -/
  short : name.length < 100

/-- A well-formed archive in the kernel image.  The name of a member is in the field `name`; that of a
directory has a `/` at its end. -/
structure Tarfs.WellFormed (img : Tarfs) (members : List Member) : Prop where
  /-- The members follow each other, with zeros at the end. -/
  laid : Laid img img.start members
  /-- The memory holds bytes. -/
  bytes : ∀ a, img.mem a < 256
  /-- The archive does not wrap around. -/
  stop : img.stop < 2 ^ 64
  /-- The names are proper. -/
  names : ∀ m ∈ members, ProperName m.name
  /-- The names of directories end with `/`. -/
  slash : ∀ name, Member.dir name ∈ members → ∃ l, name = l ++ [47]

/-- The last `k` octal digits of a number. -/
def octalDigits : ℕ → ℕ → List ℕ
  | 0, _ => []
  | k + 1, n => octalDigits k (n / 8) ++ [n % 8]

@[simp] theorem length_octalDigits (k n : ℕ) : (octalDigits k n).length = k := by
  induction k generalizing n with
  | zero => rfl
  | succ k ih => rw [octalDigits, List.length_append, ih]; rfl

theorem octalDigits_lt {k n d : ℕ} (h : d ∈ octalDigits k n) : d < 8 := by
  induction k generalizing n with
  | zero => cases h
  | succ k ih =>
    rcases List.mem_append.1 h with h | h
    · exact ih h
    · rw [List.mem_singleton.1 h]
      exact Nat.mod_lt _ (by decide)

theorem octal_octalDigits (k n : ℕ) : octal (octalDigits k n) = n % 8 ^ k := by
  induction k generalizing n with
  | zero => rw [Nat.pow_zero, Nat.mod_one]; rfl
  | succ k ih =>
    have happ : octal (octalDigits (k + 1) n) = octal (octalDigits k (n / 8)) * 8 + n % 8 := by
      rw [octalDigits, octal, List.foldl_append]
      rfl
    rw [happ, ih, Nat.pow_succ', Nat.mod_mul]
    omega

namespace Member

/-- The bytes of a file; a directory has none. -/
def content : Member → List ℕ
  | dir _ => []
  | file _ content => content

def typeflag : Member → ℕ
  | dir _ => 53
  | file _ _ => 48

/-- The bytes of a member in the archive, the ones of its header first. -/
def byte (m : Member) (i : ℕ) : ℕ :=
  if i < 100 then m.name.getD i 0
  else if 124 ≤ i ∧ i < 135 then ((octalDigits 11 m.content.length).map (· + 48)).getD (i - 124) 0
  else if i = 156 then m.typeflag
  else if i < 512 then 0
  else m.content.getD (i - 512) 0

/-- The member has a name and bytes that a header and the blocks behind it can hold. -/
structure Storable (m : Member) : Prop where
  name : ProperName m.name
  slash : m.type = .dir → ∃ l, m.name = l ++ [47]
  nameBytes : ∀ c ∈ m.name, c ≠ 0 ∧ c < 256
  contentBytes : ∀ c ∈ m.content, c < 256

end Member

/-- The bytes of some members in the archive. -/
def archiveByte : List Member → ℕ → ℕ
  | [], _ => 0
  | m :: members, i => if i < m.size then m.byte i else archiveByte members (i - m.size)

/-- The archive with some members, and two blocks of zeros behind them. -/
def archiveOf (start : ℕ) (members : List Member) : Tarfs where
  mem a := if a < start then 0 else archiveByte members (a - start)
  start := start
  stop := start + totalSize members + 1024

section Stored

variable {mem : ℕ → ℕ} {img : Tarfs} {p start : ℕ} {m : Member} {members : List Member}

theorem strAt_of_getD {s : List ℕ} (len : ℕ) (hs : ∀ c ∈ s, c ≠ 0) (hlen : s.length < len)
    (hmem : ∀ i < len, mem (p + i) = s.getD i 0) : StrAt mem p s where
  bytes i hi := by rw [hmem i (by omega), List.getD_eq_getElem _ _ hi]
  nonzero := hs
  stop := by rw [hmem _ hlen, List.getD_eq_default _ _ (Nat.le_refl _)]

theorem Member.size_eq (m : Member) : m.size = 512 + paddedSize m.content := by
  cases m with
  | dir name => simp [Member.size, Member.content, paddedSize]
  | file name content => rfl

/-- The size field of a member that is stored. -/
theorem Member.digitsAt (hmem : ∀ i < m.size, mem (p + i) = m.byte i) :
    StrAt mem (p + 124) ((octalDigits 11 m.content.length).map (· + 48)) := by
  have hsize := m.size_ge
  unfold tarfsHeader at hsize
  refine strAt_of_getD 12 ?_ (by simp) fun i hi => ?_
  · intro c hc
    obtain ⟨d, -, rfl⟩ := List.mem_map.1 hc
    omega
  · rw [Nat.add_assoc, hmem _ (by omega), Member.byte, if_neg (by omega)]
    by_cases hlast : i = 11
    · rw [hlast]
      rfl
    · rw [if_pos (by omega), Nat.add_sub_cancel_left]

/-- A member that is stored has its header there. -/
theorem Member.Storable.at (hm : m.Storable) (himage : 0xffffffff80000000 ≤ p)
    (hstop : p + m.size ≤ 2 ^ 64) (hmem : ∀ i < m.size, mem (p + i) = m.byte i) : m.At mem p := by
  have hsize := m.size_eq
  unfold paddedSize at hsize
  have hstr : StrAt mem p m.name := by
    refine strAt_of_getD 100 (fun c hc => (hm.nameBytes c hc).1) hm.name.short fun i hi => ?_
    rw [hmem i (by omega), Member.byte, if_pos hi]
  have hdigits := Member.digitsAt hmem
  have htype : mem (p + 156) = m.typeflag := by
    rw [hmem 156 (by omega)]
    rfl
  have hcontent : ∀ i < (m.content.length + 511) / 512 * 512,
      mem (p + tarfsHeader + i) = m.content.getD i 0 := by
    intro i hi
    rw [Nat.add_assoc, tarfsHeader, hmem _ (by omega), Member.byte, if_neg (by omega),
      if_neg (by omega), if_neg (by omega), if_neg (by omega), Nat.add_sub_cancel_left]
  cases m with
  | dir name => exact ⟨hstr, htype⟩
  | file name content =>
    simp only [Member.content] at hsize hdigits hcontent
    refine ⟨hstr, himage, by unfold tarfsHeader; omega, ?_, ?_, fun i hi => ?_, fun i hi hlt => ?_⟩
    · have hlt : content.length < 8 ^ 11 := by omega
      refine ⟨octalDigits 11 content.length, by simp, fun d hd => octalDigits_lt hd, hdigits, ?_⟩
      rw [octal_octalDigits, Nat.mod_eq_of_lt hlt]
    · rw [htype, Member.typeflag]
      decide
    · rw [hcontent i (by omega), List.getD_eq_getElem _ _ hi]
    · rw [hcontent i hlt, List.getD_eq_default _ _ hi]

/-- Members that are stored one after the other. -/
theorem laid_of_archiveByte (hm : ∀ m ∈ members, m.Storable) (himage : 0xffffffff80000000 ≤ p)
    (hstop : img.stop = p + totalSize members + 1024) (hlt : img.stop < 2 ^ 64)
    (hmem : ∀ i, img.mem (p + i) = archiveByte members i) : Laid img p members := by
  induction members generalizing p with
  | nil =>
    rw [totalSize, List.map_nil, List.sum_nil] at hstop
    exact ⟨2, by decide, by omega, fun i _ => hmem i⟩
  | cons m members ih =>
    rw [totalSize_cons] at hstop
    refine ⟨(hm m (List.mem_cons_self ..)).at himage (by omega) fun i hi => ?_, ?_⟩
    · rw [hmem i, archiveByte, if_pos hi]
    · refine ih (fun x hx => hm x (List.mem_cons_of_mem m hx)) (by omega) (by omega) fun i => ?_
      rw [Nat.add_assoc, hmem, archiveByte, if_neg (by omega), Nat.add_sub_cancel_left]

theorem getD_lt {s : List ℕ} (hs : ∀ c ∈ s, c < 256) (i : ℕ) : s.getD i 0 < 256 := by
  by_cases hi : i < s.length
  · rw [List.getD_eq_getElem _ _ hi]
    exact hs _ (List.getElem_mem hi)
  · rw [List.getD_eq_default _ _ (Nat.le_of_not_lt hi)]
    decide

theorem Member.Storable.byte_lt (hm : m.Storable) (i : ℕ) : m.byte i < 256 := by
  rw [Member.byte]
  split
  · exact getD_lt (fun c hc => (hm.nameBytes c hc).2) i
  split
  · refine getD_lt (fun c hc => ?_) _
    obtain ⟨d, hd, rfl⟩ := List.mem_map.1 hc
    have := octalDigits_lt hd
    omega
  split
  · unfold Member.typeflag
    split <;> decide
  split
  · decide
  · exact getD_lt hm.contentBytes _

theorem archiveByte_lt (hm : ∀ m ∈ members, m.Storable) (i : ℕ) : archiveByte members i < 256 := by
  induction members generalizing i with
  | nil => exact Nat.zero_lt_succ _
  | cons m members ih =>
    rw [archiveByte]
    split
    · exact (hm m (List.mem_cons_self ..)).byte_lt i
    · exact ih (fun x hx => hm x (List.mem_cons_of_mem m hx)) _

/-- **There is an archive** with any members that fit the kernel image. -/
theorem wellFormed_archiveOf (hm : ∀ m ∈ members, m.Storable) (himage : 0xffffffff80000000 ≤ start)
    (hstop : start + totalSize members + 1024 < 2 ^ 64) :
    (archiveOf start members).WellFormed members where
  laid := by
    refine laid_of_archiveByte hm himage rfl hstop fun i => ?_
    simp only [archiveOf]
    rw [if_neg (by omega), Nat.add_sub_cancel_left]
  bytes a := by
    simp only [archiveOf]
    split
    · decide
    · exact archiveByte_lt hm _
  stop := hstop
  names m h := (hm m h).name
  slash _ h := (hm _ h).slash rfl

end Stored

/-- The members `bin/`, `bin/ls` and `etc/`. -/
def sampleMembers : List Member :=
  [.dir [98, 105, 110, 47], .file [98, 105, 110, 47, 108, 115] [127, 69, 76, 70],
    .dir [101, 116, 99, 47]]

/-- An archive with them, at 2 MB of the kernel image. -/
def sampleTarfs : Tarfs := archiveOf 0xffffffff80200000 sampleMembers

theorem storable_sampleMembers : ∀ m ∈ sampleMembers, m.Storable := by
  simp only [sampleMembers, List.forall_mem_cons]
  refine ⟨?_, ?_, ?_, by simp⟩
  · exact ⟨⟨by decide, by decide, by decide, by decide⟩, fun _ => ⟨[98, 105, 110], rfl⟩, by decide,
      by decide⟩
  · exact ⟨⟨by decide, by decide, by decide, by decide⟩, (fun h => nomatch h), by decide, by decide⟩
  · exact ⟨⟨by decide, by decide, by decide, by decide⟩, fun _ => ⟨[101, 116, 99], rfl⟩, by decide,
      by decide⟩

theorem wellFormed_sampleTarfs : sampleTarfs.WellFormed sampleMembers :=
  wellFormed_archiveOf storable_sampleMembers (by decide) (by decide)

end PlumOs
