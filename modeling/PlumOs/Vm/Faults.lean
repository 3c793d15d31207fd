import PlumOs.Vm.Tables

/-!
# Page faults

What `map_a_page` and the two ways out of copy-on-write in `page_fault_handler` do to the mappings,
the counts and the contents of the pages.

* `Mapped` : a page is mapped to a new frame;
* `copyFile_spec` : the copy from the file takes each byte from where it is in the memory of the kernel;
* `mapAPage_spec` : `map_a_page` maps the page, with the contents of its area, unless it is mapped;
* `Copied`, `Owned` : a page that was copy-on-write becomes writable, as a copy or as it is;
* `pageFaultHandler_spec` : these, or the end of the task, are all that a fault leads to.
-/

namespace PlumOs

open Cow (Mode)

/-- The mode in which the pages of an area are mapped. -/
def Prot.mode : Prot → Mode
  | .readOnly => .readOnly
  | .readWrite => .writable

/-- What a page of an area holds when it is first used, if it comes from the archive. -/
def Vma.demandPage (vma : Vma) (archive : ℕ → ℕ) (pfn : ℕ) : ℕ → ℕ :=
  match vma.vmFile with
  | none => fun _ => 0
  | some start => filePage archive (vma.filePos start pfn)

/-- What is known of a page of an area when it is first used. -/
structure Vma.Fills (vma : Vma) (img : Tarfs) (pfn : ℕ) (page : ℕ → ℕ) : Prop where
  anonymous : vma.vmFile = none → page = fun _ => 0
  /-- A page that is in the archive has its bytes. -/
  archive : vma.PageInArchive img pfn →
    ∀ off < pgSize, pageByte page off = pageByte (vma.demandPage img.mem pfn) off

/-- The bytes of a page that is copied from a file. -/
theorem pageByte_filePage (archive : ℕ → ℕ) (fp off : ℕ) :
    pageByte (filePage archive fp) off = archive ((fp + off) % 2 ^ 64) % 256 := by
  have hmod : off % 8 < 8 := Nat.mod_lt _ (by decide)
  rw [pageByte, filePage, byteAt_packBytes (by simpa using hmod), List.getElem_map, List.getElem_range,
    Nat.div_add_mod]

theorem Tarfs.HoldsPage.holds {img : Tarfs} {fp off : ℕ} (h : img.HoldsPage fp) (hoff : off < pgSize) :
    img.start ≤ (fp + off) % 2 ^ 64 ∧ (fp + off) % 2 ^ 64 < img.stop := by
  obtain ⟨hlo, hhi, hmax⟩ := h
  rw [Nat.mod_eq_of_lt (by omega)]
  omega

theorem Prot.flags (prot : Prot) : PageFlags (pteP + prot.bits + pteUs) ∧
    pteP + prot.bits + pteUs < pgSize ∧ Vm.modeOf (pteP + prot.bits + pteUs) = prot.mode := by
  cases prot
  · exact ⟨.inl rfl, by decide, rfl⟩
  · exact ⟨.inr (.inl rfl), by decide, rfl⟩

theorem pageFlags_writable : PageFlags (pteP + pteRw + pteUs) := .inr (.inl rfl)

theorem modeOf_rw : Vm.modeOf (pteP + pteRw + pteUs) = .writable := rfl

namespace Cow

variable {A V F : Type*} [DecidableEq A] [DecidableEq V]

theorem set_set (P : Ptes A V F) (a : A) (v : V) (x y : Option (F × Mode)) :
    set (set P a v x) a v y = set P a v y := by
  funext b w
  unfold set
  split <;> rfl

end Cow

namespace Vm

variable {s s' : Vm} {a b v w f g r t addr : ℕ} {p q : List ℕ} {k : Mode} {mm : MmStruct} {vma : Vma}

/-- A frame that is in use, but not as a table. -/
def Data (s : Vm) (f : ℕ) : Prop := s.ref f ≠ 0 ∧ ∀ a p, ¬ s.Table a p f

theorem TableInv.data (h : TableInv s) (hv : s.ptes a v = some (f, k)) : s.Data f :=
  ⟨(h.frames a v f k hv).1, fun b q ht => h.unmapped b q f ht a v k hv⟩

theorem TableInv.spare (h : TableInv s) (hv : s.ptes a v = some (f, k)) : Spare s f :=
  ⟨(h.data hv).1, (h.data hv).2⟩

/-- The contents of a page that is not a table do not matter for the tables. -/
theorem TableInv.putPage (h : TableInv s) (hg : ∀ a p, ¬ s.Table a p g) (page : ℕ → ℕ) :
    TableInv (s.putPage g page) ∧ (s.putPage g page).ptes = s.ptes ∧
      ∀ {a p f}, (s.putPage g page).Table a p f ↔ s.Table a p f := by
  have hmem : ∀ a p f, s.Table a p f → (s.putPage g page).mem f = s.mem f := by
    intro a p f ht
    refine Function.update_of_ne ?_ ..
    rintro rfl
    exact hg a p ht
  have hroots : (s.putPage g page).roots = s.roots := rfl
  exact ⟨h.congr hroots hmem rfl fun _ hf => hf, ptes_congr hroots hmem, table_congr hroots hmem⟩

/-! ### Demand paging -/

/-- The page `v` of the address space `a` is mapped to the new frame `g`. -/
structure Mapped (s s' : Vm) (a v g : ℕ) (k : Mode) (page : ℕ → ℕ) : Prop where
  tables : TableInv s'
  mms : s'.mms = s.mms
  tasks : s'.tasks = s.tasks
  archive : s'.archive = s.archive
  pgdStart : s'.pgdStart = s.pgdStart
  table : ∀ b p f, s.Table b p f → s'.Table b p f
  tableNew : ∀ b p f, s'.Table b p f → s.Table b p f ∨ s.ref f = 0
  ptes : s'.ptes = Cow.set s.ptes a v (some (g, k))
  free : s.ref g = 0
  ref : ∀ f, s.ref f ≠ 0 → s'.ref f = s.ref f
  one : ∀ f, s.ref f = 0 → s'.ref f = 0 ∨ s'.ref f = 1
  refNew : s'.ref g = 1
  mem : ∀ f, s.Data f → s'.mem f = s.mem f
  memNew : s'.mem g = page

theorem Grown.data (h : Grown s s') (hf : s.Data f) : s'.Data f := by
  refine ⟨h.live hf.1, fun a p ht => ?_⟩
  rcases h.tableNew a p f ht with ht | h0
  · exact hf.2 a p ht
  · exact hf.1 h0

/-- A frame that is free after an allocation was free before. -/
theorem Grown.free (h : Grown s s') (hf : s'.ref f = 0) : s.ref f = 0 := by
  by_contra hne
  exact h.live hne hf

theorem Mapped.of_grown {s₀ : Vm} {page : ℕ → ℕ} (h₀ : Grown s₀ s) (h : Mapped s s' a v g k page)
    (hfree : s₀.ref g = 0) : Mapped s₀ s' a v g k page where
  tables := h.tables
  mms := h.mms.trans h₀.mms
  tasks := h.tasks.trans h₀.tasks
  archive := h.archive.trans h₀.archive
  pgdStart := h.pgdStart.trans h₀.pgdStart
  table b p f ht := h.table b p f (h₀.table b p f ht)
  tableNew b p f ht := by
    rcases h.tableNew b p f ht with ht | h0
    · exact h₀.tableNew b p f ht
    · exact .inr (h₀.free h0)
  ptes := by rw [h.ptes, h₀.ptes]
  free := hfree
  ref f hf := (h.ref f (h₀.live hf)).trans (h₀.ref f hf)
  one f hf := by
    rcases h₀.one f hf with h0 | h1
    · exact h.one f h0
    · exact .inr ((h.ref f (by rw [h1]; decide)).trans h1)
  refNew := h.refNew
  mem f hf := (h.mem f (h₀.data hf)).trans (h₀.mem f hf.1 hf.2)
  memNew := h.memNew

section Demand

variable {s₁ : Vm} (h : TableInv s) (hv : v < userPages) (ht : s.Table a (path v) f)
  (hz : ZeroPage s g s₁)

include h ht hz

theorem table_mapped_zero {b x : ℕ} :
    (s₁.putEntry f (getPteOff v) g (pteP + pteRw + pteUs)).Table b q x ↔ s.Table b q x :=
  (table_put (hz.tableInv h) ((hz.table_iff h).2 ht)).trans (hz.table_iff h)

include hv

/-- A new page and its entry. -/
theorem mapped_zero :
    Mapped s (s₁.putEntry f (getPteOff v) g (pteP + pteRw + pteUs)) a v g .writable fun _ => 0 := by
  have h₁ := hz.tableInv h
  have ht₁ : s₁.Table a (path v) f := (hz.table_iff h).2 ht
  have hgf : g ≠ f := by
    rintro rfl
    exact hz.notTable h a (path v) ht
  have hgrown := hz.grown h
  refine ⟨?_, hz.mms, hz.tasks, hz.archive, hz.pgdStart,
    fun b q x hx => (table_mapped_zero h ht hz).2 hx,
    fun b q x hx => .inl ((table_mapped_zero h ht hz).1 hx), ?_, hz.free, hgrown.ref, hgrown.one,
    hz.ref_self, fun x hx => ?_, ?_⟩
  · exact h₁.put hv ht₁ (hz.spare h) (Nat.lt_trans hz.hi (by decide)) pageFlags_writable (by decide)
  · rw [ptes_put h₁ hv ht₁ pageFlags_writable (by decide), hz.ptes h, modeOf_rw]
  · have hxf : x ≠ f := by
      rintro rfl
      exact hx.2 a (path v) ht
    exact (Function.update_of_ne hxf ..).trans (hz.mem_of_ne (hz.ne hx.1))
  · refine (Function.update_of_ne hgf ..).trans ?_
    funext j
    exact hz.mem_self j

end Demand

section Mapped

variable {page : ℕ → ℕ} (h : Mapped s s' a v g k page)

include h

theorem Mapped.ptes_self : s'.ptes a v = some (g, k) := by
  rw [h.ptes]
  exact Cow.set_self _

/-- The new page takes other contents. -/
theorem Mapped.putPage (page' : ℕ → ℕ) : Mapped s (s'.putPage g page') a v g k page' := by
  obtain ⟨ht, hptes, htab⟩ := h.tables.putPage (h.tables.data h.ptes_self).2 page'
  refine ⟨ht, h.mms, h.tasks, h.archive, h.pgdStart, fun b p f hx => htab.2 (h.table b p f hx),
    fun b p f hx => h.tableNew b p f (htab.1 hx), hptes.trans h.ptes, h.free, h.ref, h.one, h.refNew,
    fun f hf => ?_, Function.update_self ..⟩
  refine (Function.update_of_ne ?_ ..).trans (h.mem f hf)
  rintro rfl
  exact hf.1 h.free

/-- The second walk of `map_a_page` ends at the entry of the new page. -/
theorem Mapped.protectPage_eq (hr : s.roots a = some r) (prot : Prot) : ∃ f, s'.Table a (path v) f ∧
    v < userPages ∧ s'.protectPage r v prot =
      s'.putEntry f (getPteOff v) g (pteP + prot.bits + pteUs) := by
  obtain ⟨hv, f, ht, -, hfg, -⟩ := exists_table_of_ptes h.ptes_self
  have hr' : s'.roots a = some r := by
    rw [Vm.roots, h.mms]
    exact hr
  obtain ⟨pud, pmd, -, rfl, -, -, rfl, -, -, hf⟩ := ht.walk hr' hv
  exact ⟨f, ht, hv, by simp only [protectPage, hf, ← hfg]⟩

/-- The entry of the new page takes other flags. -/
theorem Mapped.protect (hr : s.roots a = some r) (prot : Prot) :
    Mapped s (s'.protectPage r v prot) a v g prot.mode page := by
  obtain ⟨f, ht, hv, heq⟩ := h.protectPage_eq hr prot
  obtain ⟨hfl, hlt, hmode⟩ := prot.flags
  have hdata := h.tables.data h.ptes_self
  rw [heq]
  refine ⟨h.tables.put hv ht (h.tables.spare h.ptes_self) (h.tables.frames a v g k h.ptes_self).2 hfl hlt,
    h.mms, h.tasks, h.archive, h.pgdStart, fun b p x hx => (table_put h.tables ht).2 (h.table b p x hx),
    fun b p x hx => h.tableNew b p x ((table_put h.tables ht).1 hx), ?_, h.free, h.ref, h.one, h.refNew,
    fun x hx => ?_, ?_⟩
  · rw [ptes_put h.tables hv ht hfl hlt, h.ptes, Cow.set_set, hmode]
  · have hxf : x ≠ f := by
      rintro rfl
      rcases h.tableNew a _ x ht with hold | hfree
      · exact hx.2 a _ hold
      · exact hx.1 hfree
    exact (Function.update_of_ne hxf ..).trans (h.mem x hx)
  · have hgf : g ≠ f := by
      rintro rfl
      exact hdata.2 a _ ht
    exact (Function.update_of_ne hgf ..).trans h.memNew

end Mapped

/-- **The first part of `map_a_page`** takes a page, unless the page of the address is mapped. -/
theorem reservePage_spec (h : TableInv s) (hr : s.roots a = some r) (hv : addr / pgSize < userPages) :
    Yields (s.reservePage r addr) (fun x =>
      x.1 = none ∧ s.ptes a (addr / pgSize) ≠ none ∧ TableInv x.2 ∧ Grown s x.2 ∨
      ∃ g, x.1 = some g ∧ s.ptes a (addr / pgSize) = none ∧
        Mapped s x.2 a (addr / pgSize) g .writable fun _ => 0) fun _ => True := by
  unfold reservePage
  obtain ⟨v, hva⟩ : ∃ v, v = addr / pgSize := ⟨_, rfl⟩
  simp only [← hva] at hv ⊢
  refine yields_bind (nextTable_spec h (Table.root hr) (userPath_pgd hv)) ?_
  rintro ⟨pud, s₁⟩ ⟨h₁, hg₁, ht₁⟩
  refine yields_bind (nextTable_spec h₁ ht₁ (userPath_pud hv)) ?_
  rintro ⟨pmd, s₂⟩ ⟨h₂, hg₂, ht₂⟩
  refine yields_bind (nextTable_spec h₂ ht₂ (userPath_path hv)) ?_
  rintro ⟨pte, s₃⟩ ⟨h₃, hg₃, ht₃⟩
  have hgrown : Grown s s₃ := (hg₁.trans hg₂).trans hg₃
  have hptes : s.ptes a v = decode (s₃.mem pte (getPteOff v)) := by
    rw [← hgrown.ptes]
    exact Table.ptes_eq ht₃ hv
  split
  · next h0 =>
    refine yields_bind (getZeroPage_spec s₃) ?_
    rintro ⟨g, s₄⟩ hz
    have hnone : s.ptes a v = none := by rw [hptes]; exact decode_eq_none.2 h0
    have hm := (mapped_zero h₃ hv ht₃ hz).of_grown hgrown (hgrown.free hz.free)
    exact .inr ⟨g, rfl, hnone, hm⟩
  · next hne => exact .inl ⟨rfl, by rw [hptes]; exact mt decode_eq_none.1 hne, h₃, hgrown⟩

/-! ### Accesses in kernel mode -/

/-- The page decides where an access goes. -/
theorem TableInv.kernelFrame_eq (h : TableInv s) (hr : s.roots a = some r) (addr : ℕ) :
    s.kernelFrame r addr =
      match s.ptes a (addr / pgSize) with
      | some x => .ok x.1
      | none => .error .kernelFault := by
  have hiff : addr < userTop ↔ addr / pgSize < userPages := by
    unfold userTop pgSize userPages
    omega
  by_cases haddr : addr < userTop
  · simp only [kernelFrame, if_pos haddr, h.mmuWalk_eq hr (hiff.1 haddr)]
    cases s.ptes a (addr / pgSize) <;> rfl
  · have hnone : s.ptes a (addr / pgSize) = none := if_neg (mt hiff.2 haddr)
    simp only [kernelFrame, if_neg haddr, hnone]

/-! ### The copy from the file -/

/-- The byte at the address is not in the frame `g`. -/
def Outside (s : Vm) (g pgd x : ℕ) : Prop :=
  ∀ page, (s.putPage g page).kernelLoad pgd x = s.kernelLoad pgd x

theorem putPage_putPage (s : Vm) (g : ℕ) (page page' : ℕ → ℕ) :
    (s.putPage g page).putPage g page' = s.putPage g page' :=
  congrArg (fun m => { s with mem := m }) (Function.update_idem ..)

theorem putPage_self (s : Vm) (g : ℕ) : s.putPage g (s.mem g) = s :=
  congrArg (fun m => { s with mem := m }) (Function.update_eq_self g s.mem)

theorem kernelLoad_archive {x : ℕ} (hx : s.archive.start ≤ x ∧ x < s.archive.stop) (pgd : ℕ) :
    s.kernelLoad pgd x = .ok (s.archive.mem x) := by
  rw [kernelLoad, if_pos hx]

theorem outside_archive {x : ℕ} (hx : s.archive.start ≤ x ∧ x < s.archive.stop) (g pgd : ℕ) :
    s.Outside g pgd x := by
  intro page
  rw [kernelLoad_archive hx]
  exact kernelLoad_archive (s := s.putPage g page) hx pgd

theorem kernelFrame_stops (s : Vm) (pgd x : ℕ) :
    Yields (s.kernelFrame pgd x) (fun _ => True) fun e => e = .kernelFault := by
  simp only [kernelFrame]
  split
  · split
    · trivial
    · rfl
  · rfl

theorem kernelLoad_stops (s : Vm) (pgd x : ℕ) :
    Yields (s.kernelLoad pgd x) (fun _ => True) fun e => e = .kernelFault := by
  simp only [kernelLoad]
  split
  · trivial
  · split
    · trivial
    · split
      · split
        · trivial
        · rfl
      · exact yields_bind (kernelFrame_stops s pgd x) fun _ _ => trivial

/-- **The copy from the file**, of `n` bytes from the byte `i` on: those before it stay, and each of the
others comes from where the file is.  It stops only at a byte that is not in the archive. -/
theorem copyFile_spec (s : Vm) (pgd g fp n i : ℕ) : Yields (copyFile pgd g fp n i s) (fun s' =>
      ∃ page, s' = s.putPage g page ∧ (∀ k < i, pageByte page k = pageByte (s.mem g) k) ∧
        ∀ k, i ≤ k → k < i + n → s.Outside g pgd ((fp + k) % 2 ^ 64) →
          ∃ b, s.kernelLoad pgd ((fp + k) % 2 ^ 64) = .ok b ∧ pageByte page k = b % 256)
      fun e => e = .kernelFault ∧ ∃ k < i + n, i ≤ k ∧
        ¬(s.archive.start ≤ (fp + k) % 2 ^ 64 ∧ (fp + k) % 2 ^ 64 < s.archive.stop) := by
  induction n generalizing i s with
  | zero => exact ⟨s.mem g, (putPage_self s g).symm, fun _ _ => rfl, fun k hlo hhi => by omega⟩
  | succ n ih =>
    unfold copyFile
    cases hload : s.kernelLoad pgd ((fp + i) % 2 ^ 64) with
    | error e =>
      obtain rfl := (kernelLoad_stops s pgd _).of_eq_error hload
      refine ⟨rfl, i, by omega, le_rfl, fun hin => ?_⟩
      rw [kernelLoad_archive hin] at hload
      cases hload
    | ok b =>
      refine (ih (s.putPage g (pageSetByte (s.mem g) i b)) (i + 1)).imp ?_ ?_
      · rintro s' ⟨page, rfl, hbefore, hcopied⟩
        have hself : (s.putPage g (pageSetByte (s.mem g) i b)).mem g = pageSetByte (s.mem g) i b :=
          Function.update_self ..
        simp only [hself, pageByte_pageSetByte] at hbefore
        refine ⟨page, putPage_putPage .., fun k hk => ?_, fun k hlo hhi hout => ?_⟩
        · rw [hbefore k (by omega), if_neg (by omega)]
        · by_cases hki : k = i
          · rw [hki]
            exact ⟨b, hload, by rw [hbefore i (by omega), if_pos rfl]⟩
          · rw [← hout (pageSetByte (s.mem g) i b)]
            refine hcopied k (by omega) (by omega) fun page' => ?_
            rw [putPage_putPage, hout, hout]
      · rintro e ⟨rfl, k, hk, hlo, hno⟩
        exact ⟨rfl, k, by omega, by omega, hno⟩

/-- **`map_a_page`** maps the page, with the contents that it has in its area, unless it is
mapped. -/
theorem mapAPage_spec (h : TableInv s) (hr : s.roots a = some r) (hv : addr / pgSize < userPages)
    (vma : Vma) : Yields (s.mapAPage r vma addr) (fun s' =>
      s.ptes a (addr / pgSize) ≠ none ∧ TableInv s' ∧ Grown s s' ∨
      s.ptes a (addr / pgSize) = none ∧ ∃ g page, Mapped s s' a (addr / pgSize) g vma.prot.mode page ∧
        vma.Fills s.archive (addr / pgSize) page) fun _ => True := by
  unfold mapAPage
  refine yields_bind (reservePage_spec h hr hv) ?_
  rintro ⟨x, s₁⟩ (⟨rfl, hne, h₁, hg₁⟩ | ⟨g, rfl, hnone, hm⟩)
  · exact .inl ⟨hne, h₁, hg₁⟩
  · simp only
    cases hfile : vma.vmFile with
    | none =>
      refine .inr ⟨hnone, g, fun _ => 0, ?_, fun _ => rfl, fun _ off _ => ?_⟩
      · rw [vma.anonymous hfile]
        exact hm
      · rw [Vma.demandPage, hfile]
    | some start =>
      refine yields_bind ((copyFile_spec s₁ r g (vma.filePos start (addr / pgSize)) pgSize 0).imp
        (fun _ hx => hx) fun _ _ => trivial) ?_
      rintro s₂ ⟨page, rfl, -, hcopied⟩
      refine .inr ⟨hnone, g, page, (hm.putPage page).protect hr vma.prot,
        fun hnofile => ?_, fun hin off hoff => ?_⟩
      · rw [hfile] at hnofile
        cases hnofile
      · have hholds := (hin start hfile).holds hoff
        rw [← hm.archive] at hholds
        obtain ⟨b, hb, hbyte⟩ := hcopied off (Nat.zero_le off) (by omega) (outside_archive hholds g r)
        rw [kernelLoad_archive hholds] at hb
        rw [hbyte, Vma.demandPage, hfile, pageByte_filePage, ← hm.archive, Except.ok.inj hb]

/-- A page that is in the archive is there, once a frame is. -/
theorem mapAPage_of_reservePage {x : Option ℕ} {s₁ : Vm} (h : TableInv s) (hr : s.roots a = some r)
    (hv : addr / pgSize < userPages) (hin : vma.PageInArchive s.archive (addr / pgSize))
    (hres : s.reservePage r addr = .ok (x, s₁)) : ∃ s', s.mapAPage r vma addr = .ok s' := by
  rw [mapAPage, hres, ok_bind]
  rcases (reservePage_spec h hr hv).of_eq_ok hres with ⟨rfl, -⟩ | ⟨g, rfl, -, hm⟩
  · exact ⟨s₁, rfl⟩
  · cases hfile : vma.vmFile with
    | none => exact ⟨s₁, rfl⟩
    | some start =>
      cases hcopy : copyFile r g (vma.filePos start (addr / pgSize)) pgSize 0 s₁ with
      | ok s₂ =>
        simp only [hcopy]
        exact ⟨_, rfl⟩
      | error e =>
        -- the copy stops only outside of the archive
        obtain ⟨-, k, hk, -, hout⟩ := (copyFile_spec s₁ r g _ pgSize 0).of_eq_error hcopy
        rw [hm.archive] at hout
        exact absurd ((hin start hfile).holds (by omega)) hout

/-- An allocation stops for want of memory only. -/
theorem getZeroPage_stops (s : Vm) : Yields s.getZeroPage (fun _ => True) fun e => e = .outOfMemory := by
  rw [getZeroPage, PageState.getFreePage]
  cases findFree s.pages.pageArray with
  | some pfn => trivial
  | none => rfl

theorem nextTable_stops (s : Vm) (table off : ℕ) :
    Yields (s.nextTable table off) (fun _ => True) fun e => e = .outOfMemory := by
  rw [nextTable]
  split
  · exact yields_bind (getZeroPage_stops s) fun _ _ => trivial
  · trivial

theorem reservePage_stops (s : Vm) (pgd addr : ℕ) :
    Yields (s.reservePage pgd addr) (fun _ => True) fun e => e = .outOfMemory := by
  rw [reservePage]
  refine yields_bind (nextTable_stops s _ _) ?_
  rintro ⟨pud, s₁⟩ -
  refine yields_bind (nextTable_stops s₁ _ _) ?_
  rintro ⟨pmd, s₂⟩ -
  refine yields_bind (nextTable_stops s₂ _ _) ?_
  rintro ⟨pte, s₃⟩ -
  simp only
  split
  · exact yields_bind (getZeroPage_stops s₃) fun _ _ => trivial
  · trivial

/-- `map_a_page` of a page in the archive likewise. -/
theorem mapAPage_stops (h : TableInv s) (hr : s.roots a = some r) (hv : addr / pgSize < userPages)
    (vma : Vma) : Yields (s.mapAPage r vma addr) (fun _ => True) fun e =>
      vma.PageInArchive s.archive (addr / pgSize) → e = .outOfMemory := by
  cases hok : s.mapAPage r vma addr with
  | ok s' => trivial
  | error e =>
    intro hin
    cases hres : s.reservePage r addr with
    | ok x =>
      obtain ⟨s', hs'⟩ := mapAPage_of_reservePage h hr hv hin hres
      rw [hok] at hs'
      cases hs'
    | error e' =>
      rw [mapAPage, hres] at hok
      obtain rfl := Except.error.inj hok
      exact (reservePage_stops s r addr).of_eq_error hres

/-- What is behind the first part leaves the counts, the tables and the frames that are mapped alone. -/
theorem mapAPage_eq_ok (h : TableInv s) (hr : s.roots a = some r) (hv : addr / pgSize < userPages)
    (hok : s.mapAPage r vma addr = .ok s') : ∃ x s₁, s.reservePage r addr = .ok (x, s₁) ∧
      s'.ref = s₁.ref ∧ (∀ b q w, s'.Table b q w ↔ s₁.Table b q w) ∧
      ∀ b w, (s'.ptes b w).map Prod.fst = (s₁.ptes b w).map Prod.fst := by
  rw [mapAPage] at hok
  obtain ⟨⟨x, s₁⟩, hres, hok⟩ := bind_eq_ok.1 hok
  refine ⟨x, s₁, hres, ?_⟩
  rcases (reservePage_spec h hr hv).of_eq_ok hres with ⟨rfl, -⟩ | ⟨g, rfl, -, hm⟩
  · cases hok
    exact ⟨rfl, fun _ _ _ => .rfl, fun _ _ => rfl⟩
  · cases hfile : vma.vmFile with
    | none =>
      simp only [hfile] at hok
      cases hok
      exact ⟨rfl, fun _ _ _ => .rfl, fun _ _ => rfl⟩
    | some start =>
      simp only [hfile] at hok
      obtain ⟨s₂, hcopy, hok⟩ := bind_eq_ok.1 hok
      obtain ⟨page, rfl, -⟩ := (copyFile_spec s₁ r g _ pgSize 0).of_eq_ok hcopy
      cases hok
      have hput := hm.putPage page
      obtain ⟨-, -, htab⟩ := hm.tables.putPage (hm.tables.data hm.ptes_self).2 page
      obtain ⟨f, ht, -, heq⟩ := hput.protectPage_eq hr vma.prot
      refine ⟨by rw [heq]; rfl, fun b q w => ?_, fun b w => ?_⟩
      · rw [heq]
        exact (table_put hput.tables ht).trans htab
      · rw [(hput.protect hr vma.prot).ptes, hm.ptes]
        by_cases hbw : b = a ∧ w = addr / pgSize
        · rw [hbw.1, hbw.2, Cow.set_self, Cow.set_self]
          rfl
        · rw [Cow.set_of_ne hbw, Cow.set_of_ne hbw]

/-! ### Counts -/

/-- Only the count of the frame `g` changes, to `n`. -/
structure Recounted (s s' : Vm) (g : ℕ) (n : ℤ) : Prop where
  mms : s'.mms = s.mms
  tasks : s'.tasks = s.tasks
  archive : s'.archive = s.archive
  pgdStart : s'.pgdStart = s.pgdStart
  mem : s'.mem = s.mem
  self : s'.ref g = n
  other : ∀ x, x ≠ g → s'.ref x = s.ref x

namespace Recounted

variable {n : ℤ} (h : Recounted s s' g n)

include h

theorem roots : s'.roots = s.roots := by
  funext a
  rw [Vm.roots, Vm.roots, h.mms]

theorem table_iff {a : ℕ} {p : List ℕ} {x : ℕ} : s'.Table a p x ↔ s.Table a p x :=
  table_congr h.roots fun _ _ _ _ => by rw [h.mem]

theorem ptes : s'.ptes = s.ptes := ptes_congr h.roots fun _ _ _ _ => by rw [h.mem]

theorem live (hn : n ≠ 0) {x : ℕ} (hx : s.ref x ≠ 0) : s'.ref x ≠ 0 := by
  by_cases hxg : x = g
  · rw [hxg, h.self]
    exact hn
  · rw [h.other x hxg]
    exact hx

theorem tableInv (ht : TableInv s) (hn : n ≠ 0) : TableInv s' :=
  ht.congr h.roots (fun _ _ _ _ => by rw [h.mem]) h.pgdStart fun _ => h.live hn

end Recounted

/-- `add_page_ref` counts a reference more. -/
theorem recounted_addPageRef (hsize : g < pageArraySize) (hpos : -2 ^ 31 ≤ s.ref g + 1)
    (hmax : s.ref g + 1 < 2 ^ 31) :
    Yields (s.pages.addPageRef g)
      (fun pages => Recounted s { s with pages := pages } g (s.ref g + 1)) fun _ => True := by
  rw [PageState.addPageRef, if_pos hsize]
  refine ⟨rfl, rfl, rfl, rfl, rfl, ?_, fun x hx => Function.update_of_ne hx ..⟩
  exact (Function.update_self ..).trans (wrap32_of_mem hpos hmax)

/-- `deduct_page_ref` counts one less. -/
theorem recounted_deductPageRef {E : Stop → Prop} (hsize : g < pageArraySize) (hpos : -2 ^ 31 ≤ s.ref g - 1)
    (hmax : s.ref g - 1 < 2 ^ 31) :
    Yields (s.pages.deductPageRef g)
      (fun pages => Recounted s { s with pages := pages } g (s.ref g - 1)) E := by
  rw [PageState.deductPageRef, if_pos hsize]
  refine ⟨rfl, rfl, rfl, rfl, rfl, ?_, fun x hx => Function.update_of_ne hx ..⟩
  exact (Function.update_self ..).trans (wrap32_of_mem hpos hmax)

/-! ### Copy-on-write -/

/-- The page `v` of the address space `a` moves from the shared frame `f` to its copy `g`. -/
structure Copied (s s' : Vm) (a v f g : ℕ) : Prop where
  tables : TableInv s'
  mms : s'.mms = s.mms
  tasks : s'.tasks = s.tasks
  archive : s'.archive = s.archive
  pgdStart : s'.pgdStart = s.pgdStart
  tableNew : ∀ b p f, s'.Table b p f → s.Table b p f ∨ s.ref f = 0
  ptes : s'.ptes = Cow.set s.ptes a v (some (g, .writable))
  free : s.ref g = 0
  ref : ∀ x, s.ref x ≠ 0 → x ≠ f → s'.ref x = s.ref x
  less : s'.ref f = s.ref f - 1
  one : ∀ x, s.ref x = 0 → s'.ref x = 0 ∨ s'.ref x = 1
  refNew : s'.ref g = 1
  mem : ∀ x, s.Data x → s'.mem x = s.mem x
  memNew : s'.mem g = s.mem f

/-- The page `v` of the address space `a` becomes writable. -/
structure Owned (s s' : Vm) (a v f : ℕ) : Prop where
  tables : TableInv s'
  pages : s'.pages = s.pages
  mms : s'.mms = s.mms
  tasks : s'.tasks = s.tasks
  archive : s'.archive = s.archive
  pgdStart : s'.pgdStart = s.pgdStart
  tableNew : ∀ b p f, s'.Table b p f → s.Table b p f ∨ s.ref f = 0
  ptes : s'.ptes = Cow.set s.ptes a v (some (f, .writable))
  mem : ∀ x, s.Data x → s'.mem x = s.mem x

/-- What the kernel does after a page fault of the task `t` with the address space `a`. -/
inductive Handled (s : Vm) (t a : ℕ) (mm : MmStruct) (addr : ℕ) : Vm → Prop
  | mapped {s' : Vm} {vma : Vma} {g : ℕ} {page : ℕ → ℕ} (mem : vma ∈ mm.mmap)
      (find : searchVma addr mm = some vma) (none : s.ptes a (addr / pgSize) = none)
      (map : Mapped s s' a (addr / pgSize) g vma.prot.mode page)
      (fills : vma.Fills s.archive (addr / pgSize) page) : Handled s t a mm addr s'
  | copied {s' : Vm} {f g : ℕ} (cow : s.ptes a (addr / pgSize) = some (f, .cow)) (shared : 1 < s.ref f)
      (copy : Copied s s' a (addr / pgSize) f g) : Handled s t a mm addr s'
  | owned {s' : Vm} {f : ℕ} (cow : s.ptes a (addr / pgSize) = some (f, .cow)) (sole : s.ref f ≤ 1)
      (own : Owned s s' a (addr / pgSize) f) : Handled s t a mm addr s'
  | exited : Handled s t a mm addr (s.exitSt t)

section Cow

variable (h : TableInv s) (hr : s.roots a = some r) (hv : addr / pgSize < userPages)
  (ht : s.Table a (path (addr / pgSize)) f)

include h hv ht

/-- A writable entry for a page that is mapped. -/
theorem owned_put (hg : s.ptes a (addr / pgSize) = some (g, k)) :
    Owned s (s.putEntry f (getPteOff (addr / pgSize)) g (pteP + pteRw + pteUs)) a (addr / pgSize)
      g := by
  refine ⟨h.put hv ht (h.spare hg) (h.frames a _ g k hg).2 pageFlags_writable (by decide), rfl, rfl,
    rfl, rfl, rfl, fun b q x hx => .inl ((table_put h ht).1 hx),
    ptes_put h hv ht pageFlags_writable (by decide), fun x hx => ?_⟩
  refine Function.update_of_ne ?_ ..
  rintro rfl
  exact hx.2 a _ ht

include hr

/-- A copy of the page in a new frame. -/
theorem copied_put (hmax : ∀ x, s.ref x < 2 ^ 31) (hg : s.ptes a (addr / pgSize) = some (g, k))
    (hshared : 1 < s.ref g) :
    Yields (do
      let (pgFrame, s) ← s.getZeroPage
      let s := s.copyPage pgFrame g
      let table ← s.pteTableTrick r addr
      let s := s.putEntry table (getPteOff (addr / pgSize)) pgFrame (pteP + pteRw + pteUs)
      let pages ← s.pages.deductPageRef g
      .ok { s with pages := pages })
      (fun s' => ∃ g', Copied s s' a (addr / pgSize) g g') fun e => e = .outOfMemory := by
  refine yields_bind ((getZeroPage_spec s).and (getZeroPage_stops s) |>.imp (fun _ hx => hx.1)
    fun _ he => he.2) ?_
  rintro ⟨n, s₁⟩ hz
  have h₁ := hz.tableInv h
  have hgrown := hz.grown h
  have hdata := h.data hg
  have hng : n ≠ g := (hz.ne hdata.1).symm
  obtain ⟨h₂, hptes₂, htab₂⟩ := h₁.putPage (fun b q => (hz.spare h).notTable b q) (s₁.mem g)
  obtain ⟨s₂, hs₂⟩ : ∃ s₂, s₂ = s₁.copyPage n g := ⟨_, rfl⟩
  rw [show s₁.putPage n (s₁.mem g) = s₂ from hs₂.symm] at h₂ hptes₂ htab₂
  have ht₂ : s₂.Table a (path (addr / pgSize)) f := htab₂.2 ((hz.table_iff h).2 ht)
  have hr₂ : s₂.roots a = some r := by
    rw [hs₂, show (s₁.copyPage n g).roots = s₁.roots from rfl, hz.roots]
    exact hr
  have hspare : Spare s₂ n := by
    refine ⟨?_, fun b q hx => (hz.spare h).notTable b q (htab₂.1 hx)⟩
    rw [hs₂]
    exact (hz.spare h).live
  have hput := h₂.put hv ht₂ hspare (Nat.lt_trans hz.hi (by decide)) pageFlags_writable (by decide)
  have hptes := ptes_put h₂ hv ht₂ (g := n) pageFlags_writable (by decide)
  simp only [← hs₂]
  rw [h₂.pteTableTrick_eq hr₂ hv ht₂, ok_bind]
  obtain ⟨s₃, hs₃⟩ : ∃ s₃, s₃ = s₂.putEntry f (getPteOff (addr / pgSize)) n (pteP + pteRw + pteUs) :=
    ⟨_, rfl⟩
  simp only [← hs₃] at hput hptes ⊢
  have hpages : s₃.pages = s₁.pages := by
    rw [hs₃, hs₂]
    rfl
  have href : ∀ x, s₃.ref x = s₁.ref x := fun x => by rw [Vm.ref, Vm.ref, hpages]
  have hcount : s₃.ref g = s.ref g := (href g).trans (hz.ref_of_ne (Ne.symm hng))
  have hbound := hmax g
  -- the old frame loses a reference, and was shared
  refine yields_bind (recounted_deductPageRef (h.frames a _ g k hg).2 (by omega) (by omega)) ?_
  intro pages hre
  rw [hcount] at hre
  have htab₃ : ∀ {b q x}, s₃.Table b q x → s.Table b q x := fun hx => by
    rw [hs₃] at hx
    exact (hz.table_iff h).1 (htab₂.1 ((table_put h₂ ht₂).1 hx))
  refine ⟨n, hre.tableInv hput (by omega), ?_, ?_, ?_, ?_,
    fun b q x hx => .inl (htab₃ (hre.table_iff.1 hx)), ?_, hz.free, fun x hx hxg => ?_, hre.self,
    fun x hx => ?_, ?_, fun x hx => ?_, ?_⟩
  · rw [hre.mms, hs₃, hs₂]
    exact hz.mms
  · rw [hre.tasks, hs₃, hs₂]
    exact hz.tasks
  · rw [hre.archive, hs₃, hs₂]
    exact hz.archive
  · rw [hre.pgdStart, hs₃, hs₂]
    exact hz.pgdStart
  · rw [hre.ptes, hptes, hptes₂, hz.ptes h, modeOf_rw]
  · rw [hre.other x hxg, href]
    exact hgrown.ref x hx
  · have hxg : x ≠ g := by
      rintro rfl
      exact hdata.1 hx
    rw [hre.other x hxg, href]
    exact hgrown.one x hx
  · rw [hre.other n hng, href]
    exact hz.ref_self
  · have hxf : x ≠ f := by
      rintro rfl
      exact hx.2 a _ ht
    rw [hre.mem, hs₃, hs₂]
    refine (Function.update_of_ne hxf ..).trans ?_
    exact (Function.update_of_ne (hz.ne hx.1) ..).trans (hz.mem_of_ne (hz.ne hx.1))
  · have hnf : n ≠ f := by
      rintro rfl
      exact hz.notTable h a _ ht
    rw [hre.mem, hs₃, hs₂]
    refine (Function.update_of_ne hnf ..).trans ?_
    exact (Function.update_self ..).trans (hz.mem_of_ne (Ne.symm hng))

end Cow

/-- **A page fault** maps the page, gives the task a page of its own, or ends the task; if the page is in
the archive, the kernel stops for want of memory only. -/
theorem pageFaultHandler_spec (h : TableInv s) (hmm : s.roots a = some mm.pgd)
    (hv : addr / pgSize < userPages) (hmax : ∀ x, s.ref x < 2 ^ 31) {present write : Bool}
    (hfault : s.translate mm.pgd addr write = .fault present) :
    Yields (s.pageFaultHandler t mm addr present write) (Handled s t a mm addr) fun e =>
      (∀ vma, searchVma addr mm = some vma → vma.PageInArchive s.archive (addr / pgSize)) →
        e = .outOfMemory := by
  rw [h.translate_eq hmm hv] at hfault
  unfold pageFaultHandler
  cases hpte : s.ptes a (addr / pgSize) with
  | none =>
    rw [hpte] at hfault
    obtain rfl := (Access.fault.inj hfault).symm
    rw [if_pos rfl]
    cases hfind : searchVma addr mm with
    | none => exact Handled.exited
    | some vma =>
      refine ((mapAPage_spec h hmm hv vma).and (mapAPage_stops h hmm hv vma)).imp ?_
        fun e he hin => he.2 (hin vma rfl)
      rintro s' ⟨⟨hne, -⟩ | ⟨-, g, page, hm, hfills⟩, -⟩
      · exact absurd hpte hne
      · exact .mapped (List.mem_of_find?_eq_some hfind) hfind hpte hm hfills
  | some x =>
    obtain ⟨g, k⟩ := x
    rw [hpte] at hfault
    simp only at hfault
    split at hfault
    · simp at hfault
    · next hno =>
      obtain rfl := (Access.fault.inj hfault).symm
      rw [not_or] at hno
      have hwrite : write = true := by simpa using hno.2
      rw [if_neg (by decide), if_pos hwrite]
      obtain ⟨-, f, ht, hne, hg, hk⟩ := exists_table_of_ptes hpte
      have hcow := modeOf_cow (h.flags a _ f _ ht rfl hne)
      rw [h.pteTableTrick_eq hmm hv ht, ok_bind, if_neg hne]
      split
      · next h9 =>
        have hpte' : s.ptes a (addr / pgSize) = some (g, .cow) := by rw [hpte, hk, hcow.2 h9]
        have hcount : s.pages.getPageRef g = .ok (s.ref g) := if_pos (h.frames a _ g k hpte).2
        rw [← hg, hcount, ok_bind]
        split
        · next hgt =>
          refine (copied_put h hmm hv ht hmax hpte' hgt).imp ?_ fun e he _ => he
          rintro s' ⟨n, hc⟩
          exact .copied hpte' hgt hc
        · next hle => exact .owned hpte' (not_lt.1 hle) (owned_put h hv ht hpte')
      · exact .exited

end Vm

end PlumOs
