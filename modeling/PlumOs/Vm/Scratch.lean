import Mathlib.Algebra.BigOperators.Group.Finset.Piecewise
import PlumOs.Vm.Calls

/-!
# The page of `getdents` (`sys/syscall.c`)

`getdents` takes a page for the entry before it looks at the archive, and frees it behind the copy to
the user.  It returns in front of that at the end of the directory, and if the copy fails.

* `Vm.sysGetdents` : the function of the source, with the archive, the descriptor and the memory;
* `EntryFrom` : the archive has a header that `belongs_to_dir` accepts, from an address on;
* `Vm.mapAPage_counts`, `Vm.copyFromKernel_counts` : the counts that a copy to the user changes;
* `Vm.pageReturned_iff` : **the page comes back exactly if** there is such a header, and the buffer is in an
  area of the task;
* `Vm.pageReturned_fails` : at the end of the directory it does not.
-/

namespace PlumOs

/-- What stops a call: the archive, or the memory. -/
inductive CallStop where
  | fs (e : FsStop)
  | mm (e : Stop)
  deriving DecidableEq, Repr

/-! ### The call -/

/-- `getdents`, of a task with the address space `mm` and the descriptors `files`: the result, the
descriptors and the memory afterwards.  `before` is the byte in front of `dirname` on the stack. -/
def Vm.sysGetdents (s : Vm) (mm : MmStruct) (img : Tarfs) (before fuel : ℕ) (files : FileTable) (fd : ℤ)
    (dp bufSize : ℕ) : Except CallStop (ℕ × FileTable × Vm) := do
  let (kbuf, s) ← s.getZeroPage.mapError .mm
  let entry := files fd.toNat
  if (startFd : ℤ) ≤ fd ∧ fd < maxFileNum ∧ entry.type = .dir then do
    let next ← (nextEntry img before fuel files fd).mapError .fs
    match next with
    -- no more dirent found
    | none => .ok (0, files, s)
    | some (type, name, files) => do
      let (res, s) ← (s.giveEntry mm kbuf entry.name type name dp bufSize).mapError .mm
      .ok (res, files, s)
  else .error (.fs (.assertFail "getdents"))

/-- The name that is compared with that of the header at `p`. -/
def comparedName (img : Tarfs) (before : ℕ) (dirname : List ℕ) (p : ℕ) : List ℕ :=
  if img.mem (p + 156) = 53 then slashed before dirname else dirname

/-- The address behind the header at `p` and the content. -/
def nextHeader (img : Tarfs) (p : ℕ) : Option ℕ :=
  if img.mem (p + 156) = 53 then some ((p + tarfsHeader) % 2 ^ 64)
  else (getFilesz img.mem p).map fun filesz => ((p + fileStep filesz) % 2 ^ 64).toNat

/-- There is an entry of the directory, from the address `p` on. -/
inductive EntryFrom (img : Tarfs) (before : ℕ) (dirname : List ℕ) : ℕ → Prop
  | here {p : ℕ} {name : List ℕ} (inside : p < img.stop) (named : cstr img.mem p = some name)
      (accepted : belongsToDir (comparedName img before dirname p) name = 0) :
      EntryFrom img before dirname p
  | next {p q : ℕ} {name : List ℕ} (inside : p < img.stop) (named : cstr img.mem p = some name)
      (other : belongsToDir (comparedName img before dirname p) name ≠ 0)
      (step : nextHeader img p = some q) (rest : EntryFrom img before dirname q) :
      EntryFrom img before dirname p

namespace Vm

/-- The frame `f` is that of the page `v`, or a table on the way to it. -/
def OnWay (s : Vm) (a v f : ℕ) : Prop :=
  (∃ k, s.ptes a v = some (f, k)) ∨ ∃ p, p <:+ path v ∧ p ≠ [] ∧ s.Table a p f

/-- The pages that were mapped between `s` and `s'` for the `n` bytes at `buf`, with their tables. -/
def mappedFor (s s' : Vm) (a buf n : ℕ) : Set ℕ :=
  {f | s.ref f = 0 ∧ ∃ i < n, s'.OnWay a ((buf + i) / pgSize) f}

open Classical in
/-- The counts of the frames, but for some. -/
noncomputable def counts (s : Vm) (except : Set ℕ) : Multiset ℤ :=
  ((Finset.range pageArraySize).filter (· ∉ except)).val.map s.ref

/-- The counts are as they were, apart from pages that are mapped for the buffer of `getdents`. -/
def PageReturned (s s' : Vm) (a dp : ℕ) : Prop :=
  s'.counts (mappedFor s s' a dp direntSize) = s.counts (mappedFor s s' a dp direntSize)

end Vm

/-! ### The archive -/

section Archive

variable {img : Tarfs} {before fuel p : ℕ} {dirname : List ℕ} {res : Option (FileType × ℕ)}

/-- The search finds an entry where there is one. -/
theorem traverse_isSome_iff (h : traverseTarfs img before dirname belongsToDir fuel p = .ok res) :
    res.isSome = true ↔ EntryFrom img before dirname p := by
  induction fuel generalizing p with
  | zero => cases h
  | succ fuel ih =>
    rw [traverseTarfs] at h
    by_cases hp : p < img.stop
    · rw [if_pos hp] at h
      cases hname : cstr img.mem p with
      | none =>
        rw [hname] at h
        cases h
      | some name =>
        simp only [hname, found, ok_bind] at h
        -- a header that is not accepted leads to the next one
        have hnext : ∀ q, belongsToDir (comparedName img before dirname p) name ≠ 0 →
            nextHeader img p = some q → (EntryFrom img before dirname q ↔
              EntryFrom img before dirname p) := by
          intro q hother hq
          refine ⟨.next hp hname hother hq, fun hentry => ?_⟩
          cases hentry with
          | here _ hname' hacc =>
            obtain rfl := Option.some.inj (hname.symm.trans hname')
            exact absurd hacc hother
          | next _ _ _ hq' hrest =>
            obtain rfl := Option.some.inj (hq.symm.trans hq')
            exact hrest
        by_cases hdir : img.mem (p + 156) = 53
        · have hcompared : comparedName img before dirname p = slashed before dirname := if_pos hdir
          rw [if_pos hdir] at h
          split_ifs at h with hbuf hacc
          · cases h
            exact iff_of_true rfl (.here hp hname (hcompared ▸ hacc))
          · exact (ih h).trans (hnext _ (hcompared ▸ hacc) (if_pos hdir))
        · have hcompared : comparedName img before dirname p = dirname := if_neg hdir
          rw [if_neg hdir] at h
          split_ifs at h with hacc
          · cases h
            exact iff_of_true rfl (.here hp hname (by rw [hcompared]; exact hacc))
          · cases hsize : getFilesz img.mem p with
            | none =>
              rw [hsize] at h
              cases h
            | some filesz =>
              simp only [hsize, ok_bind] at h
              refine (ih h).trans (hnext _ (by rw [hcompared]; exact hacc) ?_)
              rw [nextHeader, if_neg hdir, hsize, Option.map_some]
    · rw [if_neg hp] at h
      cases h
      refine iff_of_false (by decide) fun hentry => ?_
      cases hentry with
      | here hin => exact hp hin
      | next hin => exact hp hin

end Archive

namespace Vm

variable {s s' s₀ s₁ : Vm} {a b v w f g p q r buf dp bufSize n : ℕ} {mm : MmStruct} {vma : Vma}
  {bytes : List ℕ}

/-! ### Counts -/

theorem counts_congr {U : Set ℕ} (h : ∀ f, f ∉ U → s'.ref f = s.ref f) : s'.counts U = s.counts U := by
  classical
  rw [counts, counts]
  generalize Finset.range pageArraySize = frames
  exact Multiset.map_congr rfl fun f hf => h f (Finset.mem_filter.1 hf).2

/-- One more page is in use: then the counts are not the same. -/
theorem counts_ne {U : Set ℕ} (hg : g < pageArraySize) (hU : g ∉ U) (hzero : s.ref g = 0)
    (href : s'.ref = Function.update s.ref g 1) : s'.counts U ≠ s.counts U := by
  classical
  have hmem : g ∈ Finset.range pageArraySize := Finset.mem_range.2 hg
  rw [counts, counts, href]
  generalize Finset.range pageArraySize = frames at hmem
  have hframe : g ∈ frames.filter (· ∉ U) := Finset.mem_filter.2 ⟨hmem, hU⟩
  intro heq
  -- the sum of the counts grows by 1
  have hsum : ∑ f ∈ frames.filter (· ∉ U), Function.update s.ref g 1 f =
      ∑ f ∈ frames.filter (· ∉ U), s.ref f := congrArg Multiset.sum heq
  rw [Finset.sum_update_of_mem hframe, Finset.sum_eq_add_sum_sdiff_singleton_of_mem hframe s.ref, hzero] at hsum
  omega

/-! ### Pages for the user -/

/-- Between `s` and `s'` pages were taken for the way to the page `v` only. -/
def TakesWay (s s' : Vm) (a v : ℕ) : Prop :=
  ∀ f, s'.ref f = s.ref f ∨ s.ref f = 0 ∧ s'.OnWay a v f

theorem Grown.onWay (hg : Grown s s') (h : s.OnWay a v f) : s'.OnWay a v f := by
  obtain ⟨k, hk⟩ | ⟨p, hp, hne, ht⟩ := h
  · exact .inl ⟨k, by rw [hg.ptes]; exact hk⟩
  · exact .inr ⟨p, hp, hne, hg.table a p f ht⟩

/-- What was taken first is still on the way. -/
theorem TakesWay.trans (h : TakesWay s s₁ a v) (hg : Grown s s₁)
    (hway : ∀ f, s₁.OnWay a v f → s'.OnWay a v f) (h' : TakesWay s₁ s' a v) : TakesWay s s' a v := by
  intro f
  obtain hsame' | ⟨hfree, hon⟩ := h' f
  · obtain hsame | ⟨hfree, hon⟩ := h f
    · exact .inl (hsame'.trans hsame)
    · exact .inr ⟨hfree, hway f hon⟩
  · exact .inr ⟨hg.free hfree, hon⟩

/-- A new table is on the way. -/
theorem nextTable_way (h : TableInv s) {p : List ℕ} {i : ℕ} (ht : s.Table a p f)
    (hi : userPath (i :: p)) (hsuf : i :: p <:+ path v) : Yields (s.nextTable f i) (fun x =>
      (TableInv x.2 ∧ Grown s x.2 ∧ x.2.Table a (i :: p) x.1) ∧ TakesWay s x.2 a v) fun _ => True := by
  have hnew : Yields (s.nextTable f i) (fun x => ∀ g, x.2.ref g = s.ref g ∨ s.ref g = 0 ∧ g = x.1)
      fun _ => True := by
    rw [nextTable]
    split
    · refine yields_bind (getZeroPage_spec s) ?_
      rintro ⟨g, s₁⟩ hz x
      by_cases hx : x = g
      · exact .inr ⟨hx ▸ hz.free, hx⟩
      · exact .inl (hz.ref_of_ne hx)
    · exact fun g => .inl rfl
  refine ((nextTable_spec h ht hi).and hnew).imp ?_ fun _ _ => trivial
  rintro ⟨g, s₁⟩ ⟨hspec, hcounts⟩
  refine ⟨hspec, fun x => (hcounts x).imp_right ?_⟩
  rintro ⟨hfree, rfl⟩
  exact ⟨hfree, .inr ⟨_, hsuf, List.cons_ne_nil _ _, hspec.2.2⟩⟩

/-- The entry of a new page is on the way, like the tables that were there. -/
theorem Mapped.takesWay {s₂ : Vm} {k : Cow.Mode} {page : ℕ → ℕ} (hm : Mapped s₁ s₂ a v g k page)
    (hz : ZeroPage s₁ g s') (href : s₂.ref = s'.ref) (hnone : s₁.ptes a v = none) (hg : Grown s s₁)
    (h : TakesWay s s₁ a v) : TakesWay s s₂ a v := by
  refine h.trans hg ?_ fun f => ?_
  · rintro f (⟨k, hk⟩ | ⟨p, hp, hne, ht⟩)
    · rw [hnone] at hk
      cases hk
    · exact .inr ⟨p, hp, hne, hm.table a p f ht⟩
  · rw [href]
    by_cases hf : f = g
    · refine .inr ⟨hf ▸ hz.free, .inl ⟨k, ?_⟩⟩
      rw [hm.ptes, hf, Cow.set_self]
    · exact .inl (hz.ref_of_ne hf)

/-- The new frame and the tables on the way to it are what a page takes. -/
theorem reservePage_counts (h : TableInv s) (hr : s.roots a = some r) (hv : buf / pgSize < userPages) :
    Yields (s.reservePage r buf) (fun x => TakesWay s x.2 a (buf / pgSize)) fun _ => True := by
  obtain ⟨v, hva⟩ : ∃ v, v = buf / pgSize := ⟨_, rfl⟩
  rw [reservePage]
  simp only [← hva] at hv ⊢
  refine yields_bind (nextTable_way h (Table.root hr) (userPath_pgd hv) (List.suffix_append [_, _] _)) ?_
  rintro ⟨pud, s₁⟩ ⟨⟨h₁, hg₁, ht₁⟩, hway₁⟩
  refine yields_bind (nextTable_way h₁ ht₁ (userPath_pud hv) (List.suffix_append [_] _)) ?_
  rintro ⟨pmd, s₂⟩ ⟨⟨h₂, hg₂, ht₂⟩, hway₂⟩
  refine yields_bind (nextTable_way h₂ ht₂ (userPath_path hv) List.suffix_rfl) ?_
  rintro ⟨pte, s₃⟩ ⟨⟨h₃, hg₃, ht₃⟩, hway₃⟩
  have hgrown : Grown s s₃ := (hg₁.trans hg₂).trans hg₃
  have hway : TakesWay s s₃ a v := (hway₁.trans hg₁ (fun _ => hg₂.onWay) hway₂).trans
    (hg₁.trans hg₂) (fun _ => hg₃.onWay) hway₃
  split
  · next hzero =>
    have hnone : s₃.ptes a v = none := by
      rw [Table.ptes_eq ht₃ hv]
      exact decode_eq_none.2 hzero
    refine yields_bind (getZeroPage_spec s₃) ?_
    rintro ⟨g, s₄⟩ hz
    exact (mapped_zero h₃ hv ht₃ hz).takesWay hz rfl hnone hgrown hway
  · exact hway

/-- **`map_a_page` takes pages** for the frame and the tables on the way to it, and no others. -/
theorem mapAPage_counts (h : TableInv s) (hr : s.roots a = some r) (hv : buf / pgSize < userPages)
    (hok : s.mapAPage r vma buf = .ok s') : TakesWay s s' a (buf / pgSize) := by
  obtain ⟨x, s₁, hres, href, htab, hframes⟩ := mapAPage_eq_ok h hr hv hok
  have hcounts := (reservePage_counts h hr hv).of_eq_ok hres
  intro f
  rw [href]
  refine (hcounts f).imp_right fun hf => ⟨hf.1, ?_⟩
  obtain ⟨k, hk⟩ | ⟨p, hp, hne, ht⟩ := hf.2
  · have hframe := hframes a (buf / pgSize)
    rw [hk, Option.map_some, Option.map_eq_some_iff] at hframe
    obtain ⟨⟨g, k'⟩, hk', rfl⟩ := hframe
    exact .inl ⟨k', hk'⟩
  · exact .inr ⟨p, hp, hne, (htab a p f).2 ht⟩

/-- The stores of a copy leave the tables as they are. -/
theorem kernelStores_way (h : TableInv s) (hr : s.roots a = some r)
    (hok : kernelStores r s buf bytes = .ok s') (hf : s.OnWay a v f) : s'.OnWay a v f := by
  induction bytes generalizing s buf with
  | nil =>
    obtain rfl := Except.ok.inj hok
    exact hf
  | cons byte bytes ih =>
    obtain ⟨s₁, hstore, hrest⟩ := bind_eq_ok.1 hok
    obtain ⟨g, k, hmap, rfl⟩ := (kernelStore_spec h hr buf byte).of_eq_ok hstore
    obtain ⟨h₁, hptes, htab⟩ := h.putPage (h.data hmap).2 (pageSetByte (s.mem g) (buf % pgSize) byte)
    refine ih h₁ hr hrest ?_
    obtain ⟨k', hk⟩ | ⟨p, hp, hne, ht⟩ := hf
    · exact .inl ⟨k', by rw [hptes]; exact hk⟩
    · exact .inr ⟨p, hp, hne, htab.2 ht⟩

/-- **A copy to the user takes pages** for the way to the first page of the buffer, and no others. -/
theorem copyFromKernel_counts {copied : ℤ} (h : VmInv s) (hmm : s.mms a = some mm)
    (hfind : searchVma buf mm = some vma) (hok : s.copyFromKernel mm buf bytes = .ok (copied, s')) :
    copied = 0 ∧ TakesWay s s' a (buf / pgSize) := by
  rw [copyFromKernel, hfind] at hok
  obtain ⟨s₁, hmap, hrest⟩ := bind_eq_ok.1 hok
  obtain ⟨s₂, hstores, hdone⟩ := bind_eq_ok.1 hrest
  cases hdone
  obtain ⟨h₁, hr₁, -, -⟩ := ptes_mapAPage h hmm hfind hmap
  have hv := lt_of_mem_pages (mem_pages_of_holds (holds_of_searchVma hfind).2)
  have hcounts := mapAPage_counts h.tables (roots_of_mm hmm) hv hmap
  refine ⟨rfl, fun f => ?_⟩
  rw [ref, pages_kernelStores hstores]
  exact (hcounts f).imp_right fun hf => ⟨hf.1, kernelStores_way h₁.tables hr₁ hstores hf.2⟩

/-! ### The page -/

section Getdents

variable {img : Tarfs} {before fuel : ℕ} {files files' : FileTable} {fd : ℤ}
  {res : ℕ}

/-- What is found is an entry of the directory. -/
theorem nextEntry_isSome_iff {next : Option (FileType × List ℕ × FileTable)}
    (h : nextEntry img before fuel files fd = .ok next) :
    next.isSome = true ↔ EntryFrom img before (files fd.toNat).name
      (((files fd.toNat).startAddr + (files fd.toNat).pos) % 2 ^ 64) := by
  obtain ⟨res, hwalk, h⟩ := bind_eq_ok.1 h
  rw [← traverse_isSome_iff hwalk]
  cases res with
  | none =>
    cases h
    rfl
  | some x =>
    obtain ⟨step, -, h⟩ := bind_eq_ok.1 h
    obtain ⟨name, -, h⟩ := bind_eq_ok.1 h
    cases h
    rfl

/-- The page of the entry is freed behind the copy, if this succeeds. -/
theorem giveEntry_cases {kbuf : ℕ} {dirname name : List ℕ} {type : FileType}
    (h : s₁.giveEntry mm kbuf dirname type name dp bufSize = .ok (res, s')) :
    ((direntSize : ℤ) ≤ wrap32 bufSize ∧ name.length < 256) ∧ ∃ page copied s₂,
      (s₁.putPage kbuf page).copyFromKernel mm dp (dirent type (dentName dirname name)) = .ok (copied, s₂) ∧
        res = (if copied = 0 then direntSize else callFailed) ∧
        s' = if copied = 0 then { s₂ with pages := s₂.pages.freePage kbuf } else s₂ := by
  rw [giveEntry] at h
  split at h
  case isFalse => cases h
  case isTrue hroom =>
    obtain ⟨⟨copied, s₂⟩, hcopy, h⟩ := bind_eq_ok.1 h
    refine ⟨hroom, _, copied, s₂, hcopy, ?_⟩
    simp only at h
    by_cases hzero : copied = 0
    · rw [if_pos hzero] at h
      cases h
      rw [if_pos hzero, if_pos hzero]
      exact ⟨rfl, rfl⟩
    · rw [if_neg hzero] at h
      cases h
      rw [if_neg hzero, if_neg hzero]
      exact ⟨rfl, rfl⟩

/-- What the call does with the page: it is not freed at the end of the directory, nor if the copy
fails. -/
theorem sysGetdents_cases
    (h : s.sysGetdents mm img before fuel files fd dp bufSize = .ok (res, files', s')) :
    ∃ kbuf s₁, ZeroPage s kbuf s₁ ∧
      (¬EntryFrom img before (files fd.toNat).name
          (((files fd.toNat).startAddr + (files fd.toNat).pos) % 2 ^ 64) ∧ s' = s₁ ∨
        EntryFrom img before (files fd.toNat).name
          (((files fd.toNat).startAddr + (files fd.toNat).pos) % 2 ^ 64) ∧
        ∃ page bytes copied s₂, (s₁.putPage kbuf page).copyFromKernel mm dp bytes = .ok (copied, s₂) ∧
          s' = if copied = 0 then { s₂ with pages := s₂.pages.freePage kbuf } else s₂) := by
  rw [sysGetdents] at h
  obtain ⟨⟨kbuf, s₁⟩, hzero, h⟩ := bind_eq_ok.1 h
  refine ⟨kbuf, s₁, (getZeroPage_spec s).of_eq_ok (mapError_eq_ok.1 hzero), ?_⟩
  simp only at h
  split at h
  case isFalse => cases h
  obtain ⟨next, hnext, h⟩ := bind_eq_ok.1 h
  have hiff := nextEntry_isSome_iff (mapError_eq_ok.1 hnext)
  cases next with
  | none =>
    cases h
    exact .inl ⟨fun hentry => absurd (hiff.2 hentry) (by decide), rfl⟩
  | some x =>
    obtain ⟨type, name, moved⟩ := x
    obtain ⟨⟨res', s₂⟩, hgive, h⟩ := bind_eq_ok.1 h
    cases h
    obtain ⟨-, page, copied, s₂, hcopy, -, hs⟩ := giveEntry_cases (mapError_eq_ok.1 hgive)
    exact .inr ⟨hiff.1 rfl, page, _, copied, s₂, hcopy, hs⟩

/-- The result and the descriptors are those of `getdents`, the memory is that of the call for what is
found in the archive. -/
theorem sysGetdents_parts
    (h : s.sysGetdents mm img before fuel files fd dp bufSize = .ok (res, files', s')) :
    ∃ found bytes copied ret,
      PlumOs.getdents img before fuel files fd (wrap32 bufSize) copied = .ok (ret, bytes, files') ∧
        (ret % 2 ^ 64).toNat = res ∧
        s.getdents mm (files fd.toNat).name found dp bufSize = .ok (res, s') := by
  have hnone : ((0 : ℤ) % 2 ^ 64).toNat = 0 := by decide
  have hdone : ((direntSize : ℤ) % 2 ^ 64).toNat = direntSize := by decide
  have hfailed : ((-1 : ℤ) % 2 ^ 64).toNat = callFailed := by decide
  rw [sysGetdents] at h
  obtain ⟨⟨kbuf, s₁⟩, hzero, h⟩ := bind_eq_ok.1 h
  have hkbuf := mapError_eq_ok.1 hzero
  simp only at h
  split at h
  case isFalse => cases h
  case isTrue hguard =>
    obtain ⟨next, hfound, h⟩ := bind_eq_ok.1 h
    have hnext := mapError_eq_ok.1 hfound
    cases next with
    | none =>
      cases h
      refine ⟨none, [], true, 0, ?_, hnone, ?_⟩
      · rw [PlumOs.getdents]
        simp only [if_pos hguard, hnext, ok_bind]
      · rw [getdents, hkbuf]
        rfl
    | some x =>
      obtain ⟨type, name, moved⟩ := x
      obtain ⟨⟨ret, s₂⟩, hgive, h⟩ := bind_eq_ok.1 h
      obtain ⟨rfl, rfl, rfl⟩ : ret = res ∧ moved = files' ∧ s₂ = s' := by simpa using h
      have hput := mapError_eq_ok.1 hgive
      obtain ⟨hroom, page, copied, s₂', -, hres, -⟩ := giveEntry_cases hput
      have hget : ∀ done, PlumOs.getdents img before fuel files fd (wrap32 bufSize) done =
          if done = true then
            .ok (direntSize, dirent type (dentName (files fd.toNat).name name), moved)
          else .ok (-1, [], moved) := by
        intro done
        rw [PlumOs.getdents, if_pos hguard, hnext, ok_bind]
        exact if_pos hroom
      have hmem : s.getdents mm (files fd.toNat).name (some (type, name)) dp bufSize =
          .ok (ret, s₂) := by
        rw [getdents, hkbuf, ok_bind]
        exact hput
      by_cases hcopied : copied = 0
      · rw [if_pos hcopied] at hres
        exact ⟨_, _, true, _, hget true, hdone.trans hres.symm, hmem⟩
      · rw [if_neg hcopied] at hres
        exact ⟨_, _, false, _, hget false, hfailed.trans hres.symm, hmem⟩

section Returned

variable {kbuf : ℕ} (h : VmInv s) (hz : ZeroPage s kbuf s₁)

include hz

/-- With one more page in use the counts are not as before. -/
theorem not_pageReturned {s₂ : Vm} (href : s₂.ref = s₁.ref) (hway : ∀ v, ¬s₂.OnWay a v kbuf) :
    ¬PageReturned s s₂ a dp := by
  refine counts_ne (Nat.lt_trans hz.hi (by decide)) ?_ hz.free (href.trans hz.ref)
  rintro ⟨-, i, -, hon⟩
  exact hway _ hon

include h

/-- The page of `kbuf` is on no way, whatever is stored there. -/
theorem notOnWay_kbuf (page : ℕ → ℕ) (a v : ℕ) : ¬(s₁.putPage kbuf page).OnWay a v kbuf := by
  have hno := (hz.spare h.tables).notTable
  obtain ⟨-, hptes, htab⟩ := (hz.tableInv h.tables).putPage hno page
  rintro (⟨k, hk⟩ | ⟨p, -, -, ht⟩)
  · rw [hptes, hz.ptes h.tables] at hk
    exact (h.tables.frames a v kbuf k hk).1 hz.free
  · exact hno a p (htab.1 ht)

/-- The page is freed behind the copy: the counts are as before, but for those of the buffer. -/
theorem pageReturned_freed (hmm : s.mms a = some mm) (hfind : searchVma dp mm = some vma)
    (page : ℕ → ℕ) {s₂ : Vm} {copied : ℤ}
    (hcopy : (s₁.putPage kbuf page).copyFromKernel mm dp bytes = .ok (copied, s₂)) :
    copied = 0 ∧ PageReturned s { s₂ with pages := s₂.pages.freePage kbuf } a dp := by
  obtain ⟨h₁, hgrown⟩ := grown_kbuf h hz page
  obtain ⟨hzero, hcounts⟩ := copyFromKernel_counts h₁ (by rw [hgrown.mms]; exact hmm) hfind hcopy
  refine ⟨hzero, counts_congr fun f hf => ?_⟩
  have href₁ : (s₁.putPage kbuf page).ref = s₁.ref := rfl
  rw [ref, freePage_pageArray]
  by_cases hk : f = kbuf
  · -- the count went from 0 to 1 and back
    have hone : s₂.pages.pageArray kbuf = 1 := by
      obtain hsame | ⟨hfree, -⟩ := hcounts kbuf
      · exact hsame.trans (by rw [href₁, hz.ref_self])
      · rw [href₁, hz.ref_self] at hfree
        cases hfree
    rw [hk, Function.update_self, hone, hz.free]
    rfl
  · rw [Function.update_of_ne hk]
    obtain hsame | ⟨hfree, hon⟩ := hcounts f
    · exact hsame.trans (hz.ref_of_ne hk)
    · refine absurd ⟨?_, 0, by decide, hon⟩ hf
      rw [← hz.ref_of_ne hk]
      exact hfree

end Returned

/-- At the end of the directory the page does not come back. -/
theorem not_pageReturned_of_none (h : VmInv s)
    (hcall : s.sysGetdents mm img before fuel files fd dp bufSize = .ok (res, files', s'))
    (hnone : ¬EntryFrom img before (files fd.toNat).name
      (((files fd.toNat).startAddr + (files fd.toNat).pos) % 2 ^ 64)) : ¬PageReturned s s' a dp := by
  obtain ⟨kbuf, s₁, hz, ⟨-, rfl⟩ | ⟨hentry, -⟩⟩ := sysGetdents_cases hcall
  · have hsame : s'.putPage kbuf (s'.mem kbuf) = s' := by rw [putPage, Function.update_eq_self]
    have hway := notOnWay_kbuf h hz (s'.mem kbuf) a
    rw [hsame] at hway
    exact not_pageReturned hz rfl hway
  · exact absurd hentry hnone

/-- **The page of `kbuf` comes back exactly if** an entry is found, and the buffer is in an area of the
task. -/
theorem pageReturned_iff {acts : List Act} (h : Start s₀) (hrun : run step s₀ acts = .ok s)
    (hp : s.userMm p = some (a, mm))
    (hcall : s.sysGetdents mm img before fuel files fd dp bufSize = .ok (res, files', s')) :
    PageReturned s s' a dp ↔
      EntryFrom img before (files fd.toNat).name
          (((files fd.toNat).startAddr + (files fd.toNat).pos) % 2 ^ 64) ∧
        searchVma dp mm ≠ none := by
  have hinv := run_inv h hrun
  by_cases hentry : EntryFrom img before (files fd.toNat).name
      (((files fd.toNat).startAddr + (files fd.toNat).pos) % 2 ^ 64)
  · obtain ⟨kbuf, s₁, hz, ⟨hnone, -⟩ | ⟨-, page, bytes, copied, s₂, hcopy, rfl⟩⟩ :=
      sysGetdents_cases hcall
    · exact absurd hentry hnone
    cases hfind : searchVma dp mm with
    | none =>
      rw [copyFromKernel, hfind] at hcopy
      cases hcopy
      rw [if_neg (by decide)]
      exact iff_of_false (not_pageReturned hz rfl (notOnWay_kbuf hinv hz page a))
        fun hyes => hyes.2 rfl
    | some vma =>
      obtain ⟨rfl, hreturned⟩ := pageReturned_freed hinv hz (userMm_eq_some hp).1 hfind page hcopy
      exact iff_of_true hreturned ⟨hentry, Option.some_ne_none vma⟩
  · exact iff_of_false (not_pageReturned_of_none hinv hcall hentry) fun hyes => hentry hyes.1

end Getdents

/-- A call that finds an entry, and has the pages of its buffer mapped, returns the size of the entry. -/
theorem sysGetdents_entry {img : Tarfs} {before fuel kbuf addr step f : ℕ} {files : FileTable} {fd : ℤ}
    {type : FileType} {name : List ℕ} {k : Cow.Mode} (h : VmInv s) (hmm : s.mms a = some mm)
    (hfind : searchVma dp mm = some vma) (hmap : s.ptes a (dp / pgSize) = some (f, k))
    (hpages : ∀ bytes : List ℕ, bytes.length ≤ direntSize → MapsAll s a dp bytes)
    (hz : s.getZeroPage = .ok (kbuf, s₁))
    (hfd : (startFd : ℤ) ≤ fd ∧ fd < maxFileNum ∧ (files fd.toNat).type = .dir)
    (hwalk : traverseTarfs img before (files fd.toNat).name belongsToDir fuel
      (((files fd.toNat).startAddr + (files fd.toNat).pos) % 2 ^ 64) = .ok (some (type, addr)))
    (hstep : dentStep img.mem addr type = .ok step) (hname : cstr img.mem addr = some name)
    (hroom : (direntSize : ℤ) ≤ wrap32 bufSize ∧ name.length < 256) : ∃ files' s',
      s.sysGetdents mm img before fuel files fd dp bufSize = .ok (direntSize, files', s') := by
  obtain ⟨bytes, hbytes⟩ : ∃ bytes, bytes = dirent type (dentName (files fd.toNat).name name) := ⟨_, rfl⟩
  have hlen : bytes.length ≤ direntSize := by
    rw [hbytes, length_dirent]
  obtain ⟨h₂, hgrown⟩ := grown_kbuf h ((getZeroPage_spec s).of_eq_ok hz)
    (filePage (fun i => bytes.getD i 0) 0)
  have hall : MapsAll (s₁.putPage kbuf (filePage (fun i => bytes.getD i 0) 0)) a dp bytes := by
    intro i hi
    rw [hgrown.ptes]
    exact hpages bytes hlen i hi
  rcases copyFromKernel_mapped h₂ (by rw [hgrown.mms]; exact hmm) hfind (by rw [hgrown.ptes]; exact hmap)
    bytes with ⟨-, s', hs', -⟩ | ⟨hno, -⟩
  · rw [hbytes] at hs'
    obtain ⟨moved, hnext⟩ : ∃ moved, nextEntry img before fuel files fd = .ok (some (type, name, moved)) := by
      simp only [nextEntry, hwalk, hstep, hname, found, ok_bind]
      exact ⟨_, rfl⟩
    obtain ⟨s₂, hgive⟩ : ∃ s₂, s₁.giveEntry mm kbuf (files fd.toNat).name type name dp bufSize =
        .ok (direntSize, s₂) := by
      rw [giveEntry, if_pos hroom]
      simp only [hs', ok_bind, if_true]
      exact ⟨_, rfl⟩
    refine ⟨moved, s₂, ?_⟩
    refine bind_eq_ok.2 ⟨_, mapError_eq_ok.2 hz, (if_pos hfd).trans ?_⟩
    refine bind_eq_ok.2 ⟨_, mapError_eq_ok.2 hnext, ?_⟩
    exact bind_eq_ok.2 ⟨_, mapError_eq_ok.2 hgive, rfl⟩
  · exact absurd hall hno

/-- An archive with two blocks of zeros. -/
def emptyArchive : Tarfs where
  mem := fun _ => 0
  start := 0x1000
  stop := 0x1400

/-- A descriptor of the root directory, at the end of the archive. -/
def rootEntry : FileEntry := { FileEntry.zero with startAddr := 0x1000, pos := 0x400, name := [47] }

/-- The second block of zeros, from which `getdents` goes to the end of the archive, has no entry. -/
theorem not_entryFrom_rootEntry : ¬EntryFrom emptyArchive 0 rootEntry.name
    ((rootEntry.startAddr + rootEntry.pos) % 2 ^ 64) := by
  intro hentry
  cases hentry with
  | here hin => exact absurd hin (by decide)
  | next hin => exact absurd hin (by decide)

/-- After a `fork` the parent calls `getdents`, at the end of the root directory. -/
theorem exists_rootEntry : ∃ s a mm s', run step smallVm onceActs = .ok s ∧
    s.userMm 700 = some (a, mm) ∧
      s.sysGetdents mm emptyArchive 0 1 (fun _ => rootEntry) 3 0x401000 274 =
        .ok (0, fun _ => rootEntry, s') := by
  have hrun : reaches (run step smallVm onceActs) (fun s =>
      (s.userMm 700).isSome && reaches s.getZeroPage fun _ => true) = true := by
    decide +kernel
  obtain ⟨s, hs, htest⟩ := exists_of_reaches hrun
  obtain ⟨hmm, hzero⟩ := Bool.and_eq_true_iff.1 htest
  obtain ⟨⟨a, mm⟩, hmm⟩ := Option.isSome_iff_exists.1 hmm
  obtain ⟨⟨kbuf, s'⟩, hkbuf, -⟩ := exists_of_reaches hzero
  refine ⟨s, a, mm, s', hs, hmm, ?_⟩
  rw [sysGetdents, hkbuf]
  rfl

/-- An archive with a directory `a/`. -/
def dirArchive : Tarfs where
  mem := fun i => if i = 0x1000 then 97 else if i = 0x1001 then 47 else if i = 0x109c then 53 else 0
  start := 0x1000
  stop := 0x1600

/-- A descriptor of the root directory, at its start. -/
def firstEntry : FileEntry := { rootEntry with pos := 0 }

/-- After a `fork` the parent calls `getdents` there, and the page comes back. -/
theorem pageReturned_dirArchive : ∃ s a mm files' s', run step smallVm onceActs = .ok s ∧
    s.userMm 700 = some (a, mm) ∧
      s.sysGetdents mm dirArchive 0 1 (fun _ => firstEntry) 3 0x401000 274 =
        .ok (274, files', s') ∧ PageReturned s s' a 0x401000 := by
  have hrun : reaches (run step smallVm onceActs) (fun s => (s.userMm 700).any fun x =>
      (searchVma 0x401000 x.2).isSome && (s.ptes x.1 0x401).isSome &&
        reaches s.getZeroPage fun _ => true) = true := by
    decide +kernel
  obtain ⟨s, hs, htest⟩ := exists_of_reaches hrun
  obtain ⟨⟨a, mm⟩, hp, hparts⟩ := (Option.any_eq_true _ _).1 htest
  simp only [Bool.and_eq_true] at hparts
  obtain ⟨⟨harea, hpage⟩, hzero⟩ := hparts
  obtain ⟨vma, hfind⟩ := Option.isSome_iff_exists.1 harea
  obtain ⟨⟨f, k⟩, hmap⟩ := Option.isSome_iff_exists.1 hpage
  obtain ⟨⟨kbuf, s₁⟩, hz, -⟩ := exists_of_reaches hzero
  have hpages : ∀ bytes : List ℕ, bytes.length ≤ direntSize → MapsAll s a 0x401000 bytes := by
    intro bytes hlen i hi
    have hpfn : (0x401000 + i) / pgSize = 0x401 := by
      unfold direntSize at hlen
      unfold pgSize
      omega
    rw [hpfn, hmap]
    exact Option.some_ne_none _
  have hwalk : traverseTarfs dirArchive 0 [47] belongsToDir 1 0x1000 = .ok (some (.dir, 0x1000)) := by
    decide +kernel
  have hname : cstr dirArchive.mem 0x1000 = some [97, 47] := by decide +kernel
  have hroom : (direntSize : ℤ) ≤ wrap32 (274 : ℕ) ∧ [97, 47].length < 256 := by decide
  have hfd : (startFd : ℤ) ≤ 3 ∧ (3 : ℤ) < maxFileNum ∧ firstEntry.type = .dir := by decide
  obtain ⟨files', s', hcall⟩ : ∃ files' s', s.sysGetdents mm dirArchive 0 1
      (fun _ => firstEntry) 3 0x401000 274 = .ok (direntSize, files', s') :=
    sysGetdents_entry (run_inv smallVm_start hs) (userMm_eq_some hp).1 hfind hmap hpages hz hfd hwalk rfl
      hname hroom
  refine ⟨s, a, mm, files', s', hs, hp, hcall, (pageReturned_iff smallVm_start hs hp hcall).2 ⟨?_, ?_⟩⟩
  · exact .here (by decide) hname (by decide)
  · rw [hfind]
    exact Option.some_ne_none vma

/-- There the page is lost. -/
theorem pageReturned_fails : ¬∀ (s₀ s s' : Vm) (acts : List Act) (p a : ℕ) (mm : MmStruct) (img : Tarfs)
    (before fuel : ℕ) (files files' : FileTable) (fd : ℤ) (res dp bufSize : ℕ), Start s₀ →
      run step s₀ acts = .ok s → s.userMm p = some (a, mm) →
      s.sysGetdents mm img before fuel files fd dp bufSize = .ok (res, files', s') →
      PageReturned s s' a dp := by
  intro hall
  obtain ⟨s, a, mm, s', hs, hmm, hcall⟩ := exists_rootEntry
  exact not_pageReturned_of_none (run_inv smallVm_start hs) hcall not_entryFrom_rootEntry
    (hall smallVm s s' onceActs 700 a mm _ 0 1 _ _ 3 0 0x401000 274 smallVm_start hs hmm hcall)

end Vm

end PlumOs
