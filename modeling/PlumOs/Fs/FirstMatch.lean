import PlumOs.Fs.Directory
import PlumOs.Fs.Traversal

/-!
# A search finds the first match (`sys/tarfs.c`)

* `TarHeader`, `Ustar` : an archive with some headers, and blocks of zeros behind them;
* `turn_header` : one turn of `traverse_tarfs` at a header;
* `loop_headers`, `visits_headers` : what the loop finds, and what it comes to;
* `traverse_first_match` : **the search finds the first header that the comparison accepts**, and comes
  to headers only.
-/

namespace PlumOs

/-! ### Archives -/

/-- What a header says about its member. -/
structure TarHeader where
  type : FileType
  name : List ℕ
  filesz : ℕ
  deriving DecidableEq, Repr

namespace TarHeader

/-- The bytes of the header and of the content behind it; a directory has none. -/
def size (h : TarHeader) : ℕ :=
  match h.type with
  | .dir => tarfsHeader
  | .file => tarfsHeader + (h.filesz + 511) / 512 * 512

/-- The header is at the address `p`. -/
structure At (mem : ℕ → ℕ) (p : ℕ) (h : TarHeader) : Prop where
  name : StrAt mem p h.name
  type : mem (p + 156) = 53 ↔ h.type = .dir
  filesz : SizeField mem p h.filesz
  small : h.filesz < 2 ^ 31 - 1024

/-- A block of zeros. -/
def zeros : TarHeader := ⟨.file, [], 0⟩

end TarHeader

/-- The bytes up to the end of some headers with their content. -/
def bytesOfHeaders (headers : List TarHeader) : ℕ := (headers.map TarHeader.size).sum

/-- The headers are one behind the other, from the address `p` on. -/
def HeadersAt (mem : ℕ → ℕ) : ℕ → List TarHeader → Prop
  | _, [] => True
  | p, h :: headers => h.At mem p ∧ HeadersAt mem (p + h.size) headers

/-- A well-formed archive: these headers with their content, and `k` blocks of zeros at the end. -/
structure Ustar (img : Tarfs) (headers : List TarHeader) (k : ℕ) : Prop where
  /-- Each header is behind the content of the one before. -/
  laid : HeadersAt img.mem img.start headers
  /-- Blocks of zeros are behind them. -/
  zeros : ∀ i < 512 * k, img.mem (img.start + bytesOfHeaders headers + i) = 0
  /-- The archive ends with these blocks. -/
  stop : img.stop = img.start + bytesOfHeaders headers + 512 * k
  small : img.stop < 2 ^ 64

namespace Search

/-- The comparison accepts the header. -/
def Accepts (s : Search) (h : TarHeader) : Prop :=
  match h.type with
  | .dir => s.checker s.dirname h.name = 0
  | .file => s.checker s.filename h.name = 0

instance (s : Search) : DecidablePred s.Accepts := fun h => by
  unfold Accepts
  cases h.type <;> infer_instance

/-- The result is the first of the headers, from the address `p` on, that the comparison accepts. -/
def IsFirst (s : Search) (p : ℕ) (headers : List TarHeader) : Option (FileType × ℕ) → Prop
  | none => ∀ h ∈ headers, ¬s.Accepts h
  | some (type, q) => ∃ mid h rest, headers = mid ++ h :: rest ∧ (∀ h' ∈ mid, ¬s.Accepts h') ∧
      s.Accepts h ∧ type = h.type ∧ q = p + bytesOfHeaders mid

end Search

section Headers

variable {mem : ℕ → ℕ} {img : Tarfs} {p k : ℕ} {h : TarHeader} {headers pre post : List TarHeader}

@[simp] theorem bytesOfHeaders_nil : bytesOfHeaders [] = 0 := rfl

@[simp] theorem bytesOfHeaders_cons (h : TarHeader) (headers : List TarHeader) :
    bytesOfHeaders (h :: headers) = h.size + bytesOfHeaders headers := by
  simp [bytesOfHeaders]

@[simp] theorem bytesOfHeaders_append (pre post : List TarHeader) :
    bytesOfHeaders (pre ++ post) = bytesOfHeaders pre + bytesOfHeaders post := by
  simp [bytesOfHeaders]

theorem headersAt_append : HeadersAt mem p (pre ++ post) ↔
    HeadersAt mem p pre ∧ HeadersAt mem (p + bytesOfHeaders pre) post := by
  induction pre generalizing p with
  | nil => simp [HeadersAt]
  | cons h pre ih =>
    simp only [List.cons_append, HeadersAt, ih, bytesOfHeaders_cons, and_assoc, Nat.add_assoc]

theorem size_zeros : TarHeader.zeros.size = 512 := rfl

theorem bytesOfHeaders_zeros (k : ℕ) : bytesOfHeaders (List.replicate k .zeros) = 512 * k := by
  induction k with
  | zero => rfl
  | succ k ih =>
    rw [List.replicate_succ, bytesOfHeaders_cons, ih, size_zeros]
    omega

/-- A block of zeros is a header to `traverse_tarfs`. -/
theorem at_zeros (hzero : ∀ i < 512, mem (p + i) = 0) : TarHeader.zeros.At mem p where
  name := ⟨fun i hi => absurd hi (Nat.not_lt_zero i), fun c hc => absurd hc List.not_mem_nil,
    hzero 0 (by decide)⟩
  type := by
    rw [hzero 156 (by decide)]
    decide
  filesz := ⟨[], by decide, by decide, ⟨fun i hi => absurd hi (Nat.not_lt_zero i),
    fun c hc => absurd hc List.not_mem_nil, hzero 124 (by decide)⟩, rfl⟩
  small := by decide

theorem headersAt_zeros (hzero : ∀ i < 512 * k, mem (p + i) = 0) :
    HeadersAt mem p (List.replicate k .zeros) := by
  induction k generalizing p with
  | zero => trivial
  | succ k ih =>
    rw [List.replicate_succ]
    refine ⟨at_zeros fun i hi => hzero i (by omega), ih fun i hi => ?_⟩
    rw [size_zeros, Nat.add_assoc]
    exact hzero (512 + i) (by omega)

/-- **From a header on, the archive is a list of headers** up to its end. -/
theorem Ustar.headersAt (h : Ustar img headers k)
    (hsplit : headers ++ List.replicate k .zeros = pre ++ post) :
    HeadersAt img.mem (img.start + bytesOfHeaders pre) post ∧
      img.start + bytesOfHeaders pre + bytesOfHeaders post = img.stop := by
  have hall : HeadersAt img.mem img.start (pre ++ post) := by
    rw [← hsplit, headersAt_append]
    exact ⟨h.laid, headersAt_zeros h.zeros⟩
  have hbytes := congrArg bytesOfHeaders hsplit
  rw [bytesOfHeaders_append, bytesOfHeaders_append, bytesOfHeaders_zeros] at hbytes
  refine ⟨(headersAt_append.1 hall).2, ?_⟩
  rw [h.stop, Nat.add_assoc, Nat.add_assoc, hbytes]

/-- A name ends in the size field at the latest. -/
theorem TarHeader.At.cstr_eq (hat : h.At mem p) : cstr mem p = some h.name := by
  obtain ⟨digits, hlen, -, hstr, -⟩ := hat.filesz
  refine hat.name.cstr_eq ?_
  by_contra hlong
  have hlt : 124 + digits.length < h.name.length := by omega
  have hstop := hstr.stop
  rw [List.length_map, Nat.add_assoc, hat.name.bytes _ hlt] at hstop
  exact hat.name.nonzero _ (List.getElem_mem hlt) hstop

end Headers

/-! ### Stored members -/

/-- The header of a member. -/
def Member.header (m : Member) : TarHeader := ⟨m.type, m.name, m.content.length⟩

theorem Member.size_header (m : Member) : m.header.size = m.size := by
  cases m with
  | dir name => rfl
  | file name content => rfl

theorem bytesOfHeaders_map (members : List Member) :
    bytesOfHeaders (members.map Member.header) = totalSize members := by
  rw [bytesOfHeaders, totalSize, List.map_map]
  congr 1
  exact List.map_congr_left fun m _ => m.size_header

/-- A member that is stored has its header there. -/
theorem Member.header_at {mem : ℕ → ℕ} {p : ℕ} {m : Member} (hat : m.At mem p)
    (hsmall : m.content.length < 2 ^ 31 - 1024) (hmem : ∀ i < m.size, mem (p + i) = m.byte i) : m.header.At mem p where
  name := hat.strAt
  type := by
    cases m with
    | dir name => exact iff_of_true hat.2 rfl
    | file name content => exact iff_of_false hat.2.regular nofun
  filesz := by
    refine ⟨octalDigits 11 m.content.length, by simp, fun d hd => octalDigits_lt hd,
      Member.digitsAt hmem, ?_⟩
    rw [octal_octalDigits, Nat.mod_eq_of_lt (by omega)]
    rfl
  small := hsmall

theorem headersAt_of_archiveByte {img : Tarfs} {p : ℕ} {members : List Member}
    (hlaid : Laid img p members) (hsmall : ∀ m ∈ members, m.content.length < 2 ^ 31 - 1024)
    (hmem : ∀ i, img.mem (p + i) = archiveByte members i) :
    HeadersAt img.mem p (members.map Member.header) := by
  induction members generalizing p with
  | nil => trivial
  | cons m members ih =>
    refine ⟨Member.header_at hlaid.1 (hsmall m (List.mem_cons_self ..)) fun i hi => ?_, ?_⟩
    · rw [hmem i, archiveByte, if_pos hi]
    · rw [m.size_header]
      refine ih hlaid.2 (fun x hx => hsmall x (List.mem_cons_of_mem m hx)) fun i => ?_
      rw [Nat.add_assoc, hmem, archiveByte, if_neg (by omega), Nat.add_sub_cancel_left]

/-- **There is an archive** with any members that fit the kernel image. -/
theorem ustar_archiveOf {start : ℕ} {members : List Member} (hm : ∀ m ∈ members, m.Storable)
    (hsmall : ∀ m ∈ members, m.content.length < 2 ^ 31 - 1024) (himage : 0xffffffff80000000 ≤ start)
    (hstop : start + totalSize members + 1024 < 2 ^ 64) :
    Ustar (archiveOf start members) (members.map Member.header) 2 := by
  have hwf := wellFormed_archiveOf hm himage hstop
  have hlaid := hwf.laid
  refine ⟨headersAt_of_archiveByte hlaid hsmall fun i => ?_, ?_, ?_, hstop⟩
  · simp only [archiveOf]
    rw [if_neg (by omega), Nat.add_sub_cancel_left]
  · rw [← List.append_nil members, laid_append] at hlaid
    obtain ⟨k, -, hend, hzero⟩ := hlaid.2
    rw [List.append_nil, archiveOf] at hend hzero
    simp only at hend hzero
    intro i hi
    rw [bytesOfHeaders_map]
    exact hzero i (by omega)
  · rw [bytesOfHeaders_map]
    rfl

/-! ### The search -/

section Search

variable {s : Search} {p q : ℕ} {h : TarHeader} {headers : List TarHeader}

theorem TarHeader.size_ge (h : TarHeader) : 512 ≤ h.size := by
  unfold size tarfsHeader
  split <;> omega

/-- **One turn at a header** ends with a match, or goes on to the next header. -/
theorem turn_header (hat : h.At s.img.mem p) (hnext : p + h.size ≤ s.img.stop)
    (hstop : s.img.stop < 2 ^ 64) (hlen : s.filename.length ≤ 62) :
    s.turn p = if s.Accepts h then .done (.ok (some (h.type, p))) else .next (p + h.size) := by
  have hlt : p < s.img.stop := by
    have hsize := h.size_ge
    omega
  have hname := hat.cstr_eq
  have hsmall := hat.small
  cases htype : h.type with
  | dir =>
    have hsize : h.size = tarfsHeader := by rw [TarHeader.size, htype]
    rw [hsize] at hnext ⊢
    rw [Search.turn_dir hlt hname (hat.type.2 htype) (Search.dirname_lt hlen),
      Nat.mod_eq_of_lt (by omega)]
    simp only [Search.Accepts, htype]
  | file =>
    have hsize : h.size = tarfsHeader + (h.filesz + 511) / 512 * 512 := by rw [TarHeader.size, htype]
    have hfile : s.img.mem (p + 156) ≠ 53 := by
      rw [Ne, hat.type, htype]
      decide
    have hstep : ((p : ℤ) + fileStep h.filesz) % 2 ^ 64 = (p + h.size : ℕ) := by
      rw [hsize]
      exact add_fileStep (by omega) (by omega)
    rw [Search.turn_file hlt hname hfile hat.filesz.getFilesz_eq, hstep, Int.toNat_natCast]
    simp only [Search.Accepts, htype]

/-- **What the loop finds**, in as many turns as there are headers and one more. -/
theorem loop_headers (hheaders : HeadersAt s.img.mem p headers)
    (hend : p + bytesOfHeaders headers = s.img.stop) (hstop : s.img.stop < 2 ^ 64)
    (hlen : s.filename.length ≤ 62) :
    ∃ res, s.IsFirst p headers res ∧
      ∀ fuel, headers.length < fuel → loop s.turn fuel p = some (.ok res) := by
  induction headers generalizing p with
  | nil =>
    refine ⟨none, fun h hh => absurd hh List.not_mem_nil, fun fuel hfuel => ?_⟩
    obtain ⟨fuel, rfl⟩ := Nat.exists_eq_succ_of_ne_zero (Nat.ne_of_gt hfuel)
    rw [bytesOfHeaders_nil] at hend
    rw [loop, Search.turn_end (by omega)]
  | cons h headers ih =>
    obtain ⟨hat, hrest⟩ := hheaders
    rw [bytesOfHeaders_cons, ← Nat.add_assoc] at hend
    have hturn := turn_header hat (by omega) hstop hlen
    by_cases hacc : s.Accepts h
    · refine ⟨some (h.type, p), ⟨[], h, headers, rfl, by simp, hacc, rfl, rfl⟩, fun fuel hfuel => ?_⟩
      obtain ⟨fuel, rfl⟩ := Nat.exists_eq_succ_of_ne_zero (Nat.ne_of_gt (Nat.zero_lt_of_lt hfuel))
      rw [loop, hturn, if_pos hacc]
    · rw [if_neg hacc] at hturn
      obtain ⟨res, hfirst, hloop⟩ := ih hrest hend
      refine ⟨res, ?_, fun fuel hfuel => ?_⟩
      · cases res with
        | none => exact List.forall_mem_cons.2 ⟨hacc, hfirst⟩
        | some found =>
          obtain ⟨mid, h', rest, rfl, hmid, hacc', htype, hq⟩ := hfirst
          refine ⟨h :: mid, h', rest, rfl, List.forall_mem_cons.2 ⟨hacc, hmid⟩, hacc', htype, ?_⟩
          rw [hq, bytesOfHeaders_cons, Nat.add_assoc]
      · obtain ⟨fuel, rfl⟩ := Nat.exists_eq_succ_of_ne_zero (Nat.ne_of_gt (Nat.zero_lt_of_lt hfuel))
        rw [loop, hturn]
        exact hloop fuel (Nat.lt_of_succ_lt_succ hfuel)

/-- **The loop comes to headers only**, up to the end of the archive. -/
theorem visits_headers (hheaders : HeadersAt s.img.mem p headers)
    (hend : p + bytesOfHeaders headers = s.img.stop) (hstop : s.img.stop < 2 ^ 64)
    (hlen : s.filename.length ≤ 62) (hq : Visits s.turn p q) (hlt : q < s.img.stop) :
    ∃ mid h rest, headers = mid ++ h :: rest ∧ q = p + bytesOfHeaders mid := by
  induction headers generalizing p with
  | nil =>
    rw [bytesOfHeaders_nil] at hend
    rw [visits_iff_of_done (Search.turn_end (by omega))] at hq
    omega
  | cons h headers ih =>
    obtain ⟨hat, hrest⟩ := hheaders
    rw [bytesOfHeaders_cons, ← Nat.add_assoc] at hend
    have hturn := turn_header hat (by omega) hstop hlen
    by_cases hacc : s.Accepts h
    · rw [if_pos hacc] at hturn
      rw [visits_iff_of_done hturn] at hq
      exact ⟨[], h, headers, rfl, hq⟩
    · rw [if_neg hacc] at hturn
      rw [visits_iff_of_next hturn] at hq
      rcases hq with hq | hq
      · exact ⟨[], h, headers, rfl, hq⟩
      · obtain ⟨mid, h', rest, rfl, hq'⟩ := ih hrest hend hq
        refine ⟨h :: mid, h', rest, rfl, ?_⟩
        rw [hq', bytesOfHeaders_cons, Nat.add_assoc]

/-- A block of zeros has no name that is looked for. -/
theorem not_accepts_zeros (hlen : 1 ≤ s.filename.length)
    (hchecker : s.checker = strcmp ∨ s.checker = belongsToDir) : ¬s.Accepts .zeros := by
  rcases hchecker with hchecker | hchecker
  · have hne : s.filename.length ≠ ([] : List ℕ).length := Nat.ne_of_gt hlen
    simp only [Search.Accepts, TarHeader.zeros, hchecker, strcmp, if_pos hne]
    decide
  · simp [Search.Accepts, TarHeader.zeros, hchecker, belongsToDir]

end Search

/-- **The search finds the first match.**  From a header of a well-formed archive on, or from one of
the blocks of zeros, it ends with the first header that the comparison accepts, and comes to headers
only. -/
theorem traverse_first_match (s : Search) {headers pre post : List TarHeader} {k : ℕ}
    (h : Ustar s.img headers k) (hsplit : headers ++ List.replicate k .zeros = pre ++ post)
    (hlen : 1 ≤ s.filename.length ∧ s.filename.length ≤ 62)
    (hchecker : s.checker = strcmp ∨ s.checker = belongsToDir) :
    (∃ res, s.IsFirst (s.img.start + bytesOfHeaders pre) post res ∧
      ∀ fuel, post.length < fuel → s.traverse fuel (s.img.start + bytesOfHeaders pre) = .ok res) ∧
    (∀ q, Visits s.turn (s.img.start + bytesOfHeaders pre) q → q < s.img.stop →
      ∃ mid h rest, post = mid ++ h :: rest ∧ q = s.img.start + bytesOfHeaders pre + bytesOfHeaders mid) ∧
    ¬s.Accepts .zeros := by
  obtain ⟨hheaders, hend⟩ := h.headersAt hsplit
  refine ⟨?_, fun q hq hlt => visits_headers hheaders hend h.small hlen.2 hq hlt,
    not_accepts_zeros hlen.1 hchecker⟩
  obtain ⟨res, hfirst, hloop⟩ := loop_headers hheaders hend h.small hlen.2
  refine ⟨res, hfirst, fun fuel hfuel => ?_⟩
  rw [traverseTarfs_eq_loop, hloop fuel hfuel, Option.getD_some]

/-- A search for `bin/ls`. -/
def lsSearch : Search := ⟨sampleTarfs, 0, [98, 105, 110, 47, 108, 115], strcmp⟩

theorem ustar_sampleTarfs : Ustar sampleTarfs (sampleMembers.map Member.header) 2 :=
  ustar_archiveOf storable_sampleMembers (by decide) (by decide) (by decide)

/-- The headers behind that of `bin/`. -/
def behindBin : List TarHeader :=
  [⟨.file, [98, 105, 110, 47, 108, 115], 4⟩, ⟨.dir, [101, 116, 99, 47], 0⟩, .zeros, .zeros]

theorem traverse_first_match_ls :
    (∃ res, lsSearch.IsFirst (sampleTarfs.start + 512) behindBin res ∧
      ∀ fuel, 4 < fuel → lsSearch.traverse fuel (sampleTarfs.start + 512) = .ok res) ∧
    (∀ q, Visits lsSearch.turn (sampleTarfs.start + 512) q → q < sampleTarfs.stop →
      ∃ mid h rest, behindBin = mid ++ h :: rest ∧ q = sampleTarfs.start + 512 + bytesOfHeaders mid) ∧
    ¬lsSearch.Accepts .zeros := by
  have hsplit : sampleMembers.map Member.header ++ List.replicate 2 .zeros =
      [⟨.dir, [98, 105, 110, 47], 0⟩] ++ behindBin := rfl
  exact traverse_first_match lsSearch ustar_sampleTarfs hsplit (by decide) (.inl rfl)

end PlumOs
