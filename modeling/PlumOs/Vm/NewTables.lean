import PlumOs.Vm.Steps

/-!
# New tables

A table of an address space is a page that was taken for it, with one reference, on the way to a page of
an area; and it stays there.

* `Vm.NewTables` : the tables that a step adds are of this kind, and the others keep their counts;
* `Vm.mapAPage_newTables`, `Vm.copyMm_newTables` : the two functions that make tables;
* `Vm.Extends` : what a step may add;
* `Vm.onAreas_of_run` : **every table of a reached state** is on the way to a page of an area.
-/

namespace PlumOs

open Cow (Mode)

namespace Vm

variable {s s' s₀ s₁ s₂ : Vm} {W W' : ℕ → ℕ → Prop} {a b v f g i r t addr : ℕ} {p q : List ℕ} {k : Mode}
  {n : ℤ} {mm : MmStruct} {vma : Vma} {done : List (ℕ × Bool)}

/-- A table after a step was one before, with the same count; or it has one reference, and is on the
way to a page in `W`. -/
def NewTables (W : ℕ → ℕ → Prop) (s s' : Vm) : Prop :=
  ∀ a p f, s'.Table a p f → s.Table a p f ∧ s'.ref f = s.ref f ∨
    s'.ref f = 1 ∧ (p ≠ [] → ∃ v, W a v ∧ p <:+ path v)

namespace NewTables

theorem refl (s : Vm) : NewTables W s s := fun _ _ _ ht => .inl ⟨ht, rfl⟩

theorem trans (h : NewTables W s s₁) (h' : NewTables W s₁ s') : NewTables W s s' := by
  intro a p f ht
  obtain ⟨ht₁, href⟩ | hnew := h' a p f ht
  · rw [href]
    exact h a p f ht₁
  · exact .inr hnew

/-- Only the pages of the address spaces that are there matter. -/
theorem mono (h : NewTables W s s') (hW : ∀ a v, s'.roots a ≠ none → W a v → W' a v) :
    NewTables W' s s' := by
  intro a p f ht
  obtain ⟨-, r, hr, -⟩ := id ht
  refine (h a p f ht).imp_right fun ⟨hone, hway⟩ => ⟨hone, fun hne => ?_⟩
  obtain ⟨v, hv, hp⟩ := hway hne
  exact ⟨v, hW a v (by rw [hr]; exact Option.some_ne_none r) hv, hp⟩

/-- The same tables, but for pages that are not tables. -/
theorem of_table (htab : ∀ a p f, s'.Table a p f → s.Table a p f)
    (href : ∀ a p f, s.Table a p f → s'.ref f = s.ref f) : NewTables W s s' :=
  fun a p f ht => .inl ⟨htab a p f ht, href a p f (htab a p f ht)⟩

end NewTables

/-! ### Pages -/

/-- A page is taken, for something else than a table. -/
theorem ZeroPage.newTables_of (h : TableInv s) (hz : ZeroPage s g s₁) (href : s'.ref = s₁.ref)
    (htab : ∀ a p f, s'.Table a p f → s.Table a p f) : NewTables W s s' := by
  refine .of_table htab fun a p f ht => ?_
  rw [href]
  exact hz.ref_of_ne (hz.ne (h.live a p f ht))

theorem ZeroPage.newTables (h : TableInv s) (hz : ZeroPage s g s') : NewTables W s s' :=
  hz.newTables_of h rfl fun _ _ _ => (hz.table_iff h).1

theorem TableInv.newTables_putPage (h : TableInv s) (hg : ∀ a p, ¬s.Table a p g) (page : ℕ → ℕ) :
    NewTables W s (s.putPage g page) :=
  .of_table (fun _ _ _ => (h.putPage hg page).2.2.1) fun _ _ _ _ => rfl

/-- Other counts for a page that is not a table. -/
theorem newTables_setPages {pages : PageState} (hg : ∀ a p, ¬s.Table a p g)
    (hpages : ∀ x, x ≠ g → pages.pageArray x = s.pages.pageArray x) :
    NewTables W s { s with pages := pages } := by
  refine .of_table (fun _ _ _ => id) fun a p f ht => hpages f ?_
  rintro rfl
  exact hg a p ht

/-- **The next table** is new, or it was there. -/
theorem nextTable_newTables (h : TableInv s) (ht : s.Table a p f) (hi : userPath (i :: p))
    (hv : W a v) (hsuf : i :: p <:+ path v) (hok : s.nextTable f i = .ok (g, s')) :
    NewTables W s s' := by
  rw [nextTable] at hok
  split at hok
  · next hnull =>
    obtain ⟨⟨g, s₁⟩, hzero, hput⟩ := bind_eq_ok.1 hok
    have hz := (getZeroPage_spec s).of_eq_ok hzero
    cases hput
    have ht₁ := (hz.table_iff h).2 ht
    have hnull₁ : s₁.mem f i = 0 := by
      rw [hz.mem_table h ht]
      exact hnull
    intro b q w hw
    obtain hold | ⟨rfl, rfl, rfl⟩ :=
      (table_link (hz.tableInv h) ht₁ hi hnull₁ (hz.spare h) hz.mem_self).1 hw
    · exact hz.newTables h b q w hold
    · exact .inr ⟨hz.ref_self, fun _ => ⟨v, hv, hsuf⟩⟩
  · cases hok
    exact .refl s

/-- The next table, with the state behind it. -/
theorem nextTable_eq_ok (h : TableInv s) (ht : s.Table a p f) (hi : userPath (i :: p)) (hv : W a v)
    (hsuf : i :: p <:+ path v) (hok : s.nextTable f i = .ok (g, s')) :
    TableInv s' ∧ Grown s s' ∧ s'.Table a (i :: p) g ∧ NewTables W s s' := by
  obtain ⟨htables, hgrown, htable⟩ := (nextTable_spec h ht hi).of_eq_ok hok
  exact ⟨htables, hgrown, htable, nextTable_newTables h ht hi hv hsuf hok⟩

theorem reservePage_newTables {x : Option ℕ} (h : TableInv s) (hr : s.roots a = some r)
    (hv : addr / pgSize < userPages) (hW : W a (addr / pgSize))
    (hok : s.reservePage r addr = .ok (x, s')) : NewTables W s s' := by
  obtain ⟨v, hva⟩ : ∃ v, v = addr / pgSize := ⟨_, rfl⟩
  rw [reservePage] at hok
  simp only [← hva] at hv hW hok
  obtain ⟨⟨pud, s₁⟩, hpud, hok⟩ := bind_eq_ok.1 hok
  obtain ⟨h₁, hg₁, ht₁, hnew₁⟩ :=
    nextTable_eq_ok h (Table.root hr) (userPath_pgd hv) hW (List.suffix_append [_, _] _) hpud
  obtain ⟨⟨pmd, s₂⟩, hpmd, hok⟩ := bind_eq_ok.1 hok
  obtain ⟨h₂, hg₂, ht₂, hnew₂⟩ := nextTable_eq_ok h₁ ht₁ (userPath_pud hv) hW (List.suffix_append [_] _) hpmd
  obtain ⟨⟨pte, s₃⟩, hpte, hok⟩ := bind_eq_ok.1 hok
  obtain ⟨h₃, hg₃, ht₃, hnew₃⟩ := nextTable_eq_ok h₂ ht₂ (userPath_path hv) hW List.suffix_rfl hpte
  refine ((hnew₁.trans hnew₂).trans hnew₃).trans ?_
  simp only at hok
  split at hok
  · obtain ⟨⟨g, s₄⟩, hzero, hok⟩ := bind_eq_ok.1 hok
    have hz := (getZeroPage_spec s₃).of_eq_ok hzero
    cases hok
    exact hz.newTables_of h₃ rfl fun b q x => (table_mapped_zero h₃ ht₃ hz).1
  · cases hok
    exact .refl _

/-- **`map_a_page` makes tables** on the way to the page. -/
theorem mapAPage_newTables (h : TableInv s) (hr : s.roots a = some r) (hv : addr / pgSize < userPages)
    (hW : W a (addr / pgSize)) (hok : s.mapAPage r vma addr = .ok s') : NewTables W s s' := by
  obtain ⟨x, s₁, hres, href, htab, -⟩ := mapAPage_eq_ok h hr hv hok
  refine (reservePage_newTables h hr hv hW hres).trans ?_
  exact .of_table (fun b q w => (htab b q w).1) fun _ _ f _ => congrFun href f

/-! ### Page faults -/

section Fault

variable (h : TableInv s) (hv : addr / pgSize < userPages)

include h hv

/-- A copy of a page, and the count of the page. -/
theorem copied_newTables (hr : s.roots a = some r) (ht : s.Table a (path (addr / pgSize)) f)
    (hg : s.Data g) (hok : (do
      let (pgFrame, s) ← s.getZeroPage
      let s := s.copyPage pgFrame g
      let table ← s.pteTableTrick r addr
      let s := s.putEntry table (getPteOff (addr / pgSize)) pgFrame (pteP + pteRw + pteUs)
      let pages ← s.pages.deductPageRef g
      .ok { s with pages := pages }) = .ok s') : NewTables W s s' := by
  obtain ⟨⟨n, s₁⟩, hzero, hok⟩ := bind_eq_ok.1 hok
  have hz := (getZeroPage_spec s).of_eq_ok hzero
  obtain ⟨h₂, -, htab₂⟩ := (hz.tableInv h).putPage (hz.spare h).notTable (s₁.mem g)
  obtain ⟨s₂, hs₂⟩ : ∃ s₂, s₂ = s₁.copyPage n g := ⟨_, rfl⟩
  rw [show s₁.putPage n (s₁.mem g) = s₂ from hs₂.symm] at h₂ htab₂
  have ht₂ : s₂.Table a (path (addr / pgSize)) f := htab₂.2 ((hz.table_iff h).2 ht)
  have hr₂ : s₂.roots a = some r := by
    rw [hs₂, show (s₁.copyPage n g).roots = s₁.roots from rfl, hz.roots]
    exact hr
  simp only [← hs₂, h₂.pteTableTrick_eq hr₂ hv ht₂, ok_bind] at hok
  obtain ⟨s₃, hs₃⟩ : ∃ s₃, s₃ = s₂.putEntry f (getPteOff (addr / pgSize)) n (pteP + pteRw + pteUs) :=
    ⟨_, rfl⟩
  have htab₃ : ∀ b q x, s₃.Table b q x → s.Table b q x := fun b q x hx => by
    rw [hs₃] at hx
    exact (hz.table_iff h).1 (htab₂.1 ((table_put h₂ ht₂).1 hx))
  have href : s₃.ref = s₁.ref := by
    rw [hs₃, hs₂]
    rfl
  simp only [← hs₃] at hok
  obtain ⟨pages, hdeduct, hok⟩ := bind_eq_ok.1 hok
  cases hok
  refine (hz.newTables_of h href htab₃).trans (newTables_setPages (g := g) ?_ ?_)
  · exact fun b q hx => hg.2 b q (htab₃ b q g hx)
  · intro x hx
    rw [(deductPageRef_eq_ok hdeduct).2]
    exact Function.update_of_ne hx ..

/-- **A page fault** makes tables on the way to the page. -/
theorem pageFaultHandler_newTables {present write : Bool} (hr : s.roots a = some mm.pgd)
    (hfault : s.translate mm.pgd addr write = .fault present)
    (hW : ∀ vma ∈ mm.mmap, vma.Holds addr → W a (addr / pgSize))
    (hok : s.pageFaultHandler t mm addr present write = .ok s') : NewTables W s s' := by
  rw [h.translate_eq hr hv] at hfault
  rw [pageFaultHandler] at hok
  cases hpte : s.ptes a (addr / pgSize) with
  | none =>
    rw [hpte] at hfault
    obtain rfl := (Access.fault.inj hfault).symm
    rw [if_pos rfl] at hok
    cases hfind : searchVma addr mm with
    | none =>
      simp only [hfind] at hok
      cases hok
      exact .refl s
    | some vma =>
      simp only [hfind] at hok
      obtain ⟨hvma, hholds⟩ := holds_of_searchVma hfind
      exact mapAPage_newTables h hr hv (hW vma hvma hholds) hok
  | some x =>
    obtain ⟨g, k⟩ := x
    rw [hpte] at hfault
    simp only at hfault
    split at hfault
    · cases hfault
    · next hno =>
      obtain rfl := (Access.fault.inj hfault).symm
      rw [not_or] at hno
      have hwrite : write = true := by simpa using hno.2
      rw [if_neg (by decide), if_pos hwrite] at hok
      obtain ⟨-, f, ht, hne, hg, -⟩ := exists_table_of_ptes hpte
      rw [h.pteTableTrick_eq hr hv ht, ok_bind, if_neg hne] at hok
      split at hok
      · obtain ⟨count, -, hok⟩ := bind_eq_ok.1 hok
        rw [← hg] at hok
        split at hok
        · exact copied_newTables h hv hr ht (h.data hpte) hok
        · cases hok
          exact .of_table (fun _ _ _ => (table_put h ht).1) fun _ _ _ _ => rfl
      · cases hok
        exact .refl s

end Fault

/-! ### `fork` -/

/-- The entries for a page that is shared, and the count of the page. -/
theorem share_newTables {pte npte : ℕ} {rw : Bool} {pages : PageState} (h : TableInv s)
    (hv : v < userPages) (ht : s.Table a (path v) pte) (hn : s.Table b (path v) npte)
    (hg : s.ptes a v = some (g, k))
    (hadd : (s.shareEntries pte npte (getPteOff v) g rw).pages.addPageRef g = .ok pages) :
    NewTables W s { s.shareEntries pte npte (getPteOff v) g rw with pages := pages } := by
  obtain ⟨-, -, htab, -⟩ := shareEntries_spec h hv ht hn hg rw
  have href : (s.shareEntries pte npte (getPteOff v) g rw).ref = s.ref := by
    rw [shareEntries]
    split <;> rfl
  have hshare : NewTables W s (s.shareEntries pte npte (getPteOff v) g rw) :=
    .of_table (fun c q x => (htab c q x).1) fun _ _ f _ => congrFun href f
  refine hshare.trans (newTables_setPages (g := g) (fun c q hx => ?_) fun x hx => ?_)
  · exact (h.data hg).2 c q ((htab c q g).1 hx)
  · rw [(addPageRef_eq_ok hadd).2]
    exact Function.update_of_ne hx ..

section Copy

variable {newPgd oldPgd : ℕ} (h₀ : TableInv s₀) (hold : s₀.roots a = some oldPgd)
  (hnew : s₀.roots b = some newPgd)

include hold hnew

/-- **The copy of one page** makes tables on the way to it. -/
theorem copyVmaPage_newTables (h : Copying s₀ s a b done) (hv : v < userPages) (hW : W b v)
    (hok : s.copyVmaPage newPgd vma oldPgd v = .ok s') : NewTables W s s' := by
  rw [copyVmaPage] at hok
  have ht₀ : s.Table a [] oldPgd := Table.root (by rw [h.roots]; exact hold)
  have hn₀ : s.Table b [] newPgd := Table.root (by rw [h.roots]; exact hnew)
  split at hok
  · cases hok
    exact .refl s
  · next h0 =>
    have ht₁ := ht₀.next (userPath_pgd hv) h0
    obtain ⟨⟨npud, s₁⟩, hpud, hok⟩ := bind_eq_ok.1 hok
    obtain ⟨h₁, hg₁, hn₁, hnew₁⟩ :=
      nextTable_eq_ok h.tables hn₀ (userPath_pgd hv) hW (List.suffix_append [_, _] _) hpud
    replace ht₁ := hg₁.table _ _ _ ht₁
    refine hnew₁.trans ?_
    simp only at hok
    split at hok
    · cases hok
      exact .refl _
    · next h1 =>
      have ht₂ := ht₁.next (userPath_pud hv) h1
      obtain ⟨⟨npmd, s₂⟩, hpmd, hok⟩ := bind_eq_ok.1 hok
      obtain ⟨h₂, hg₂, hn₂, hnew₂⟩ :=
        nextTable_eq_ok h₁ hn₁ (userPath_pud hv) hW (List.suffix_append [_] _) hpmd
      replace ht₂ := hg₂.table _ _ _ ht₂
      refine hnew₂.trans ?_
      simp only at hok
      split at hok
      · cases hok
        exact .refl _
      · next h2 =>
        have ht₃ := ht₂.next (userPath_path hv) h2
        obtain ⟨⟨npte, s₃⟩, hpte, hok⟩ := bind_eq_ok.1 hok
        obtain ⟨h₃, hg₃, hn₃, hnew₃⟩ := nextTable_eq_ok h₂ hn₂ (userPath_path hv) hW List.suffix_rfl hpte
        replace ht₃ := hg₃.table _ _ _ ht₃
        refine hnew₃.trans ?_
        simp only at hok
        split at hok
        · cases hok
          exact .refl _
        · next h3 =>
          have hmap := Table.ptes_eq ht₃ hv
          rw [decode, if_neg h3] at hmap
          obtain ⟨pages, hadd, hok⟩ := bind_eq_ok.1 hok
          cases hok
          exact share_newTables h₃ hv ht₃ hn₃ hmap hadd

include h₀

/-- **The copy of some pages.** -/
theorem copyPages_newTables {m : ℕ} (hcow : Cow.Counted s₀.ptes s₀.ref) (hab : a ≠ b)
    (hnum : ∀ f, s₀.ref f + m < 2 ^ 31 - 1) {l : List ℕ} (hnodup : l.Nodup)
    (hl : ∀ v ∈ l, v < userPages) (h : Copying s₀ s a b done) (hm : ∀ v ∈ l, Cow.visits done v ≤ m)
    (hW : ∀ v ∈ l, W b v) (hok : l.foldlM (fun s i => s.copyVmaPage newPgd vma oldPgd i) s = .ok s') :
    NewTables W s s' := by
  refine rel_of_foldlM .refl (fun _ _ _ => .trans) (fun pre v s₁ s₂ hpre hs₁ hs₂ => ?_) hok
  have hsub : pre.Sublist l := ((List.prefix_append pre [v]).trans hpre).sublist
  have hmem : ∀ w ∈ pre, w ∈ l := fun w hw => hsub.subset hw
  have hv : v ∈ l := hpre.subset (by simp)
  obtain ⟨h₁, -⟩ := (copyPages_spec h₀ hcow hab hold hnew hnum vma pre (hnodup.sublist hsub)
    (fun w hw => hl w (hmem w hw)) h fun w hw => hm w (hmem w hw)).of_eq_ok hs₁
  exact copyVmaPage_newTables hold hnew h₁ (hl v hv) (hW v hv) hs₂

variable (hcow : Cow.Counted s₀.ptes s₀.ref) (hab : a ≠ b) (hbound : Bounded s₀)

include hcow hab hbound

/-- **The copy of one area.** -/
theorem copyArea_newTables {areas : List Vma} (h : Areas s₀ s a b mm areas) (hW : ∀ v ∈ vma.pages, W b v)
    (hok : s.copyArea b newPgd oldPgd vma = .ok s') : NewTables W s s' := by
  obtain ⟨⟨g, s₁⟩, hzero, hok⟩ := bind_eq_ok.1 hok
  have hz := (getZeroPage_spec s).of_eq_ok hzero
  obtain ⟨s₂, hcopy, hok⟩ := bind_eq_ok.1 hok
  have hc₁ := h.copying.grown h₀ (hz.grown h.copying.tables) (hz.tableInv h.copying.tables)
  have hvis : ∀ v ∈ vma.pages, Cow.visits (mmapVisits areas) v ≤ areas.length := fun v _ => by
    rw [visits_areas]
    exact List.countP_le_length
  have hpages := copyPages_newTables h₀ hold hnew hcow hab (h.lt hbound) (nodup_pages vma)
    (fun v => lt_of_mem_pages) hc₁ hvis hW hcopy
  cases hok
  refine ((hz.newTables h.copying.tables).trans hpages).trans (.of_table (fun c q x => ?_) fun _ _ _ _ => rfl)
  exact (table_congr (roots_insertVma s₂ b vma) fun _ _ _ _ => rfl).1

/-- **The copy of all the areas.** -/
theorem copyMm_newTables {old : MmStruct} (hpgd : old.pgd = oldPgd) (h : Areas s₀ s a b mm [])
    (hW : ∀ vma ∈ old.mmap, ∀ v ∈ vma.pages, W b v) (hok : s.copyMm b newPgd old = .ok s') :
    NewTables W s s' := by
  subst hpgd
  refine rel_of_foldlM .refl (fun _ _ _ => .trans) (fun pre vma s₁ s₂ hpre hs₁ hs₂ => ?_) hok
  have hspec : Yields (s.copyMm b newPgd { old with mmap := pre }) (fun s' => Areas s₀ s' a b mm pre)
      fun _ => True := copyMm_spec h₀ hcow hab hold hnew hbound rfl h
  have hareas : Areas s₀ s₁ a b mm pre := hspec.of_eq_ok hs₁
  exact copyArea_newTables h₀ hold hnew hcow hab hbound hareas (hW vma (hpre.subset (by simp))) hs₂

end Copy

/-! ### Areas -/

/-- The page `v` is in an area of the address space. -/
def InArea (s : Vm) (a v : ℕ) : Prop := ∃ mm, s.mms a = some mm ∧ ∃ vma ∈ mm.mmap, v ∈ vma.pages

/-- What a step may add: tables on the way to pages of areas, and areas. -/
structure Extends (s s' : Vm) : Prop where
  tables : NewTables s'.InArea s s'
  areas : ∀ a v, s.InArea a v → s'.InArea a v

namespace Extends

theorem refl (s : Vm) : Extends s s := ⟨.refl s, fun _ _ => id⟩

theorem trans (h : Extends s s₁) (h' : Extends s₁ s') : Extends s s' where
  tables := (h.tables.mono fun a v _ => h'.areas a v).trans h'.tables
  areas a v hv := h'.areas a v (h.areas a v hv)

/-- The areas stay. -/
theorem of_mms (h : NewTables s.InArea s s') (hmms : s'.mms = s.mms) : Extends s s' := by
  have hareas : s'.InArea = s.InArea := by
    funext a v
    rw [InArea, InArea, hmms]
  exact ⟨hareas ▸ h, fun a v hv => by rw [hareas]; exact hv⟩

end Extends

theorem ZeroPage.extends (h : TableInv s) (hz : ZeroPage s g s') : Extends s s' :=
  .of_mms (hz.newTables h) hz.mms

/-- The tasks do not matter. -/
theorem extends_setTasks (s : Vm) (tasks : ℕ → Option VmTask) : Extends s { s with tasks := tasks } :=
  .of_mms (.of_table (fun _ _ _ => id) fun _ _ _ _ => rfl) rfl

/-- A page for a directory. -/
theorem allocPgd_newTables (h : TableInv s) (hok : s.allocPgd = .ok (g, s')) :
    NewTables W s s' ∧ s'.mms = s.mms := by
  obtain ⟨⟨p, s₁⟩, hzero, hok⟩ := bind_eq_ok.1 hok
  have hz := (getZeroPage_spec s).of_eq_ok hzero
  cases hok
  obtain ⟨s₂, hs₂⟩ : ∃ s₂, s₂ = (s₁.putPage g s₁.pgdStart).putEntry g selfRefIndex g (pteP + pteRw) :=
    ⟨_, rfl⟩
  have hmem : ∀ a q f, s₁.Table a q f → s₂.mem f = s₁.mem f := by
    intro a q f hf
    have hne : f ≠ g := by
      rintro rfl
      exact (hz.spare h).notTable a q hf
    rw [hs₂]
    exact (Function.update_of_ne hne ..).trans (Function.update_of_ne hne ..)
  have hroots : s₂.roots = s₁.roots := by
    rw [hs₂]
    rfl
  rw [← hs₂]
  refine ⟨(hz.newTables h).trans (.of_table (fun a q f => (table_congr hroots hmem).1) ?_), ?_⟩
  · rw [hs₂]
    exact fun _ _ _ _ => rfl
  · rw [hs₂]
    exact hz.mms

theorem allocPgd_extends (h : TableInv s) (hok : s.allocPgd = .ok (g, s')) : Extends s s' :=
  .of_mms (allocPgd_newTables h hok).1 (allocPgd_newTables (W := s.InArea) h hok).2

/-- A new address space. -/
theorem Prepared.newTables (h : Prepared s s' b mm.pgd) (hb : s'.mms b = none) :
    NewTables W s' { s' with mms := Function.update s'.mms b (some mm) } := by
  intro c q x hx
  obtain hold | ⟨-, rfl, rfl⟩ := (table_root hb h.directory).1 hx
  · exact .inl ⟨hold, rfl⟩
  · refine .inr ⟨?_, fun hne => absurd rfl hne⟩
    exact (h.grown.one _ h.freePgd).resolve_left h.spare.live

theorem Prepared.extends (h : Prepared s s' b mm.pgd) (hb : s'.mms b = none) :
    Extends s' { s' with mms := Function.update s'.mms b (some mm) } := by
  refine ⟨h.newTables hb, ?_⟩
  · rintro c v ⟨mmc, hmmc, hv⟩
    have hcb : c ≠ b := by
      rintro rfl
      rw [hb] at hmmc
      cases hmmc
    exact ⟨mmc, (Function.update_of_ne hcb ..).trans hmmc, hv⟩

/-- A new area. -/
theorem extends_insertVma (s : Vm) (a : ℕ) (vma : Vma) : Extends s (s.insertVma a vma) := by
  constructor
  · refine .of_table (fun c q f => ?_) fun _ _ _ _ => rfl
    exact (table_congr (roots_insertVma s a vma) fun _ _ _ _ => rfl).1
  · rintro c v ⟨mm, hmm, vma', hvma', hv⟩
    by_cases hca : c = a
    · subst hca
      refine ⟨{ mm with mmap := mm.mmap ++ [vma] }, ?_, vma', List.mem_append_left _ hvma', hv⟩
      show Function.update s.mms c _ c = _
      rw [Function.update_self, hmm]
      rfl
    · exact ⟨mm, (Function.update_of_ne hca ..).trans hmm, vma', hvma', hv⟩

/-- `map_a_page` for a page of an area. -/
theorem mapAPage_extends (h : TableInv s) (hmm : s.mms a = some mm) (hvma : vma ∈ mm.mmap)
    (hv : addr / pgSize ∈ vma.pages) (hok : s.mapAPage mm.pgd vma addr = .ok s') :
    TableInv s' ∧ s'.mms = s.mms ∧ Extends s s' := by
  have hr := roots_of_mm hmm
  have hin : s.InArea a (addr / pgSize) := ⟨mm, hmm, vma, hvma, hv⟩
  have hnew := mapAPage_newTables h hr (lt_of_mem_pages hv) hin hok
  have hspec := (mapAPage_spec h hr (lt_of_mem_pages hv) vma).of_eq_ok hok
  obtain ⟨-, htables, hgrown⟩ | ⟨-, g, page, hm, -⟩ := hspec
  · exact ⟨htables, hgrown.mms, .of_mms hnew hgrown.mms⟩
  · exact ⟨hm.tables, hm.mms, .of_mms hnew hm.mms⟩

/-! ### Calls -/

/-- **`fork` makes tables** of the child, on the way to the pages of its areas. -/
theorem fork_newTables (h : VmInv s) (hmm : s.mms a = some mm) {child : ℕ} (hf : Forked s s' a mm child b)
    (hok : s.fork mm = .ok (child, s')) :
    NewTables (fun c v => c = b ∧ ∃ vma ∈ mm.mmap, v ∈ vma.pages) s s' := by
  obtain ⟨⟨tsp, s₁⟩, hzero₁, hok⟩ := bind_eq_ok.1 hok
  have hz₁ := (getZeroPage_spec s).of_eq_ok hzero₁
  have h₁ := hz₁.tableInv h.tables
  obtain ⟨⟨stack, s₂⟩, hzero₂, hok⟩ := bind_eq_ok.1 hok
  have hz₂ := (getZeroPage_spec s₁).of_eq_ok hzero₂
  have h₂ := hz₂.tableInv h₁
  obtain ⟨⟨b', s₃⟩, hzero₃, hok⟩ := bind_eq_ok.1 hok
  have hz₃ := (getZeroPage_spec s₂).of_eq_ok hzero₃
  have h₃ := hz₃.tableInv h₂
  obtain ⟨⟨pgd, s₄⟩, hpgd, hok⟩ := bind_eq_ok.1 hok
  have hp := (allocPgd_spec h₃).of_eq_ok hpgd
  have hg₂ : Grown s s₂ := (hz₁.grown h.tables).trans (hz₂.grown h₁)
  have hg₃ : Grown s s₃ := hg₂.trans (hz₃.grown h₂)
  have hready := NewPgd.prepared hg₃ hp (hg₂.free hz₃.free) (hz₃.spare h₂).live
  have hb : s.mms b' = none := h.mms_none hready.freeMm
  have hab : a ≠ b' := by
    rintro rfl
    exact absurd (hmm.symm.trans hb) (by simp)
  -- the child gets an empty address space
  obtain ⟨new, hnew⟩ : ∃ new : MmStruct, new = { mm with mmap := [], pgd := pgd } := ⟨_, rfl⟩
  have hnewPgd : new.pgd = pgd := by rw [hnew]
  rw [← hnewPgd] at hready
  obtain ⟨s₅, hs₅⟩ : ∃ s₅ : Vm, s₅ = { s₄ with mms := Function.update s₄.mms b' (some new) } := ⟨_, rfl⟩
  have hroot := hready.newTables (W := fun c v => c = b ∧ ∃ vma ∈ mm.mmap, v ∈ vma.pages)
    (by rw [hready.grown.mms]; exact hb)
  obtain ⟨k₅, hptes₅, -⟩ := Prepared.root (o := True) hready h
  simp only [← hnew, ← hs₅] at hroot k₅ hptes₅ hok
  obtain ⟨s₆, hcopy, hok⟩ := bind_eq_ok.1 hok
  have hmms₅ : ∀ c, c ≠ b' → s₅.mms c = s.mms c := fun c hc => by
    rw [hs₅, ← hready.grown.mms]
    exact Function.update_of_ne hc ..
  have hnew₅ : s₅.mms b' = some new := by rw [hs₅]; exact Function.update_self ..
  have hold₅ : s₅.mms a = some mm := (hmms₅ a hab).trans hmm
  have hnone₅ : ∀ v, s₅.ptes b' v = none := fun v => by rw [hptes₅]; exact ptes_none hb v
  have hareas : Areas s₅ s₅ a b' new [] := areas_nil k₅.inv hnone₅ (by rw [hnew₅, hnew])
  have hrb : s₅.roots b' = some pgd := (roots_of_mm hnew₅).trans (congrArg some hnewPgd)
  cases hok
  -- the address space that the child has
  obtain rfl : b' = b := by
    have htask : some ({ mm := some b', zombie := false } : VmTask) = some { mm := some b, zombie := false } :=
      (Function.update_self child _ s₆.tasks).symm.trans hf.task
    rw [Option.some.injEq, VmTask.mk.injEq, Option.some.injEq] at htask
    exact htask.1
  have hcopied := copyMm_newTables (W := fun c v => c = b' ∧ ∃ vma ∈ mm.mmap, v ∈ vma.pages)
    k₅.inv.tables (roots_of_mm hold₅) hrb k₅.inv.cow.toCounted hab k₅.inv.bounded rfl hareas
    (fun vma hvma v hv => ⟨rfl, vma, hvma, hv⟩) hcopy
  exact (((((hz₁.newTables h.tables).trans (hz₂.newTables h₁)).trans (hz₃.newTables h₂)).trans
    (allocPgd_newTables h₃ hpgd).1).trans hroot).trans (hcopied.trans (.of_table (fun _ _ _ => id) fun _ _ _ _ => rfl))

/-- **`fork`.** -/
theorem fork_extends (h : VmInv s) (hmm : s.mms a = some mm) {child : ℕ}
    (hok : s.fork mm = .ok (child, s')) : Extends s s' := by
  obtain ⟨b, hf⟩ := (fork_spec h hmm).of_eq_ok hok
  obtain ⟨pgd, hspace⟩ := hf.space
  refine ⟨(fork_newTables h hmm hf hok).mono ?_, ?_⟩
  · rintro c v - ⟨rfl, hv⟩
    exact ⟨_, hspace, hv⟩
  · rintro c v ⟨mmc, hmmc, hv⟩
    have hcb : c ≠ b := by
      rintro rfl
      exact absurd (hmmc.symm.trans hf.freshMm) (by simp)
    exact ⟨mmc, (hf.spaces c hcb).trans hmmc, hv⟩

/-- The loop over the program headers takes pages only. -/
theorem execSegments_extends {file n : ℕ} {ph : List (Option LoadSegment)} {new : MmStruct}
    (h : TableInv s) (hok : s.execSegments file i n ph mm = .ok (new, s')) : Extends s s' := by
  induction n generalizing s i ph mm with
  | zero =>
    cases hok
    exact .refl _
  | succ n ih =>
    by_cases hnil : loaded ph = []
    · rw [execSegments_of_loaded_nil hnil] at hok
      exact ih h hok
    · obtain ⟨seg, ph, rfl⟩ := exists_segment hnil
      rw [execSegments] at hok
      obtain ⟨⟨g, s₁⟩, hzero, hok⟩ := bind_eq_ok.1 hok
      have hz := (getZeroPage_spec s).of_eq_ok hzero
      exact (hz.extends h).trans (ih (hz.tableInv h) hok)

theorem execArgs_extends {old : Option MmStruct} {argv : Option ℕ} (h : TableInv s)
    (hold : ∀ mm, old = some mm → ∃ a, s.mms a = some mm) (hok : s.execArgs old argv = .ok s') :
    Extends s s' := by
  obtain ⟨⟨kbuf, s₁⟩, hzero, hok⟩ := bind_eq_ok.1 hok
  have hz := (getZeroPage_spec s).of_eq_ok hzero
  refine (hz.extends h).trans ?_
  cases argv with
  | none =>
    cases hok
    exact .refl _
  | some addr =>
    cases old with
    | none => cases hok
    | some mm =>
      cases hfind : searchVma addr mm with
      | none =>
        simp only [hfind] at hok
        cases hok
      | some vma =>
        simp only [hfind] at hok
        obtain ⟨a, ha⟩ := hold mm rfl
        obtain ⟨hvma, hholds⟩ := holds_of_searchVma hfind
        have ha₁ : s₁.mms a = some mm := (congrFun hz.mms a).trans ha
        exact (mapAPage_extends (hz.tableInv h) ha₁ hvma (mem_pages_of_holds hholds) hok).2.2

/-- The new address space of `exec`. -/
theorem newSpace_extends {file pgd : ℕ} {headers : List (Option LoadSegment)} (h : VmInv s)
    (hok : s.newSpace t file headers = .ok (a, pgd, mm, s')) :
    Extends s s' ∧ TableInv s' ∧ s'.mms a = some mm ∧ mm.pgd = pgd ∧ stackVma ∈ mm.mmap := by
  obtain ⟨⟨a, s₁⟩, hzero₁, hok⟩ := bind_eq_ok.1 hok
  have hz₁ := (getZeroPage_spec s).of_eq_ok hzero₁
  have h₁ := hz₁.tableInv h.tables
  obtain ⟨⟨pgd, s₂⟩, hpgd, hok⟩ := bind_eq_ok.1 hok
  have hp := (allocPgd_spec h₁).of_eq_ok hpgd
  have hready := NewPgd.prepared (hz₁.grown h.tables) hp hz₁.free (hz₁.spare h.tables).live
  obtain ⟨⟨mm₀, s₃⟩, hsegments, hok⟩ := bind_eq_ok.1 hok
  obtain ⟨h₃, hg₃, hmm₀, -⟩ := (execSegments_spec hp.tables file 0 headers.length headers _
    (.inl rfl)).of_eq_ok hsegments
  obtain ⟨⟨vmaPage, s₄⟩, hzero₄, hok⟩ := bind_eq_ok.1 hok
  have hz₄ := (getZeroPage_spec s₃).of_eq_ok hzero₄
  have hready₄ := (hready.grow h₃ hg₃).grow (hz₄.tableInv h₃) (hz₄.grown h₃)
  have hext₄ := (((hz₁.extends h.tables).trans (allocPgd_extends h₁ hpgd)).trans
    (execSegments_extends hp.tables hsegments)).trans (hz₄.extends h₃)
  obtain ⟨heap, hheap⟩ : ∃ heap, heap =
    if mm₀.dataEnd ≠ 0 then pgAlign mm₀.dataEnd else pgAlign mm₀.codeEnd := ⟨_, rfl⟩
  obtain ⟨mm, hmm⟩ : ∃ mm : MmStruct, mm =
    { mm₀ with userHeap := heap, brk := heap, mmap := mm₀.mmap ++ [stackVma] } := ⟨_, rfl⟩
  have hmmPgd : mm.pgd = pgd := by rw [hmm]; exact hmm₀
  have hstack : stackVma ∈ mm.mmap := by rw [hmm]; simp
  rw [← hmmPgd] at hready₄
  obtain ⟨k₅, -, -⟩ := Prepared.root (o := True) hready₄ h
  have hroot := hready₄.extends (by rw [hready₄.grown.mms]; exact h.mms_none hz₁.free)
  obtain ⟨s₅, hs₅⟩ : ∃ s₅ : Vm, s₅ = { s₄ with mms := Function.update s₄.mms a (some mm) } := ⟨_, rfl⟩
  obtain ⟨s₆, hs₆⟩ : ∃ s₆ : Vm, s₆ = { s₅ with
    tasks := Function.update s₄.tasks t (some { mm := some a, zombie := false }) } := ⟨_, rfl⟩
  have hext₆ : Extends s₅ s₆ := hs₆ ▸ extends_setTasks s₅ _
  have h₅ : TableInv s₅ := hs₅ ▸ k₅.inv.tables
  have h₆ : TableInv s₆ := by
    have hroots : s₆.roots = s₅.roots := by rw [hs₆]; rfl
    have hmem : s₆.mem = s₅.mem := by rw [hs₆]
    have href : s₆.ref = s₅.ref := by rw [hs₆]; rfl
    exact h₅.congr hroots (fun _ _ f _ => congrFun hmem f) (by rw [hs₆]) fun f hf => href ▸ hf
  have hmm₆ : s₆.mms a = some mm := by
    rw [hs₆, hs₅]
    exact Function.update_self ..
  simp only [← hheap, ← hmm] at hok
  rw [show ({ s₄ with
    mms := Function.update s₄.mms a (some mm)
    tasks := Function.update s₄.tasks t (some { mm := some a, zombie := false }) } : Vm) = s₆ by
      rw [hs₆, hs₅]] at hok
  cases hok
  exact ⟨(hext₄.trans (hs₅ ▸ hroot)).trans hext₆, h₆, hmm₆, hmmPgd, hstack⟩

/-- The page of the arguments. -/
theorem storeArgs_extends {args : ℕ → ℕ} (h : TableInv s) (hmm : s.mms a = some mm)
    (hstack : stackVma ∈ mm.mmap) (hok : s.storeArgs mm.pgd args = .ok s') : Extends s s' := by
  have hholds : stackVma.Holds (userTop - pgSize) := by decide
  obtain ⟨s₁, hmap, hok⟩ := bind_eq_ok.1 hok
  obtain ⟨h₁, hmms₁, hext₁⟩ := mapAPage_extends h hmm hstack (mem_pages_of_holds hholds) hmap
  have hr₁ : s₁.roots a = some mm.pgd := roots_of_mm ((congrFun hmms₁ a).trans hmm)
  -- the arguments are stored in the new page
  cases hacc : s₁.translate mm.pgd (userTop - pgSize) true with
  | fault present =>
    simp only [hacc] at hok
    cases hok
  | granted f =>
    simp only [hacc] at hok
    obtain ⟨k, hpte, -⟩ := h₁.granted hr₁ (by decide) hacc
    have hno := (h₁.data hpte).2
    obtain ⟨⟨kstack, s₃⟩, hzero₃, hok⟩ := bind_eq_ok.1 hok
    have hz₃ := (getZeroPage_spec _).of_eq_ok hzero₃
    cases hok
    have hput : Extends s₁ (s₁.putPage f args) := .of_mms (h₁.newTables_putPage hno args) rfl
    exact (hext₁.trans hput).trans (hz₃.extends (h₁.putPage hno args).1)

/-- The program is loaded. -/
theorem execLoad_extends {file : ℕ} {headers : List (Option LoadSegment)} {args : ℕ → ℕ} (h : VmInv s)
    (hok : s.execLoad t file headers args = .ok s') : Extends s s' := by
  rw [execLoad_eq] at hok
  obtain ⟨⟨a, pgd, mm, s₁⟩, hnew, hok⟩ := bind_eq_ok.1 hok
  obtain ⟨hext, h₁, hmm₁, rfl, hstack⟩ := newSpace_extends h hnew
  exact hext.trans (storeArgs_extends h₁ hmm₁ hstack hok)

/-- **`exec`.** -/
theorem exec_extends {old : Option MmStruct} {program : Program} {argv : Option ℕ} {args : ℕ → ℕ}
    (h : VmInv s) (hold : ∀ mm, old = some mm → ∃ a, s.mms a = some mm)
    (hok : s.exec t old argv args program = .ok s') : Extends s s' := by
  induction program generalizing s argv with
  | elf file headers =>
    rw [exec] at hok
    obtain ⟨s₁, hargs, hok⟩ := bind_eq_ok.1 hok
    obtain ⟨k₁, -⟩ := (execArgs_spec (o := True) h hold argv).of_eq_ok hargs
    exact (execArgs_extends h.tables hold hargs).trans (execLoad_extends k₁.inv hok)
  | script interp ih =>
    rw [exec] at hok
    obtain ⟨s₁, hargs, hok⟩ := bind_eq_ok.1 hok
    obtain ⟨k₁, hmms, -⟩ := (execArgs_spec (o := True) h hold argv).of_eq_ok hargs
    refine (execArgs_extends h.tables hold hargs).trans (ih k₁.inv (fun mm hmm => ?_) hok)
    rw [hmms]
    exact hold mm hmm

/-- **`brk`** adds an area. -/
theorem brk_extends {newBreak : ℕ} {x : ℕ × Vm} (h : VmInv s)
    (hok : s.brk a mm newBreak = .ok x) : Extends s x.2 := by
  rw [brk] at hok
  split at hok
  · cases hok
    exact .refl s
  · split at hok
    · split at hok
      · obtain ⟨⟨page, s₁⟩, hzero, hok⟩ := bind_eq_ok.1 hok
        have hz := (getZeroPage_spec s).of_eq_ok hzero
        cases hok
        exact (hz.extends h.tables).trans (extends_insertVma s₁ a _)
      · split at hok
        · next vma _ =>
          rw [if_neg fun hbit => vma.prot.bits_ne_one hbit.1] at hok
          cases hok
        · cases hok
    · split at hok <;> cases hok

/-- **A page fault.** -/
theorem pageFault_extends {present write : Bool} (h : VmInv s) (hmm : s.mms a = some mm)
    (haddr : addr / pgSize < userPages) (hfault : s.translate mm.pgd addr write = .fault present)
    (hok : s.pageFaultHandler t mm addr present write = .ok s') : Extends s s' := by
  have hr := roots_of_mm hmm
  have hmms : s'.mms = s.mms := by
    have hh := (pageFaultHandler_spec h.tables hr haddr h.bounded.lt hfault).of_eq_ok hok
    cases hh with
    | mapped _ _ _ hm => exact hm.mms
    | copied _ _ hc => exact hc.mms
    | owned _ _ ho => exact ho.mms
    | exited => rfl
  refine .of_mms (pageFaultHandler_newTables h.tables haddr hr hfault (fun vma hvma hholds => ?_) hok) hmms
  exact ⟨mm, hmm, vma, hvma, mem_pages_of_holds hholds⟩

theorem load_extends {x : Option ℕ × Vm} (h : VmInv s) (hmm : s.mms a = some mm) (addr : UserAddr)
    (hok : s.load t mm addr = .ok x) : Extends s x.2 := by
  rw [load] at hok
  cases hacc : s.translate mm.pgd addr false with
  | granted f =>
    simp only [hacc] at hok
    cases hok
    exact .refl s
  | fault present =>
    simp only [hacc] at hok
    obtain ⟨s₁, hfault, hok⟩ := bind_eq_ok.1 hok
    cases hok
    exact pageFault_extends h hmm addr.page_lt hacc hfault

theorem store_extends {byte : ℕ} (h : VmInv s) (hmm : s.mms a = some mm) (addr : UserAddr)
    (hok : s.store t mm addr byte = .ok s') : Extends s s' := by
  rw [store] at hok
  cases hacc : s.translate mm.pgd addr true with
  | granted f =>
    simp only [hacc] at hok
    cases hok
    obtain ⟨k, hpte, -⟩ := h.tables.granted (roots_of_mm hmm) addr.page_lt hacc
    exact .of_mms (h.tables.newTables_putPage (h.tables.data hpte).2 _) rfl
  | fault present =>
    simp only [hacc] at hok
    exact pageFault_extends h hmm addr.page_lt hacc hok

theorem kernelThread_extends {x : ℕ × Vm} (h : VmInv s) (hok : s.kernelThread = .ok x) :
    Extends s x.2 := by
  obtain ⟨⟨tsp, s₁⟩, hzero₁, hok⟩ := bind_eq_ok.1 hok
  have hz₁ := (getZeroPage_spec s).of_eq_ok hzero₁
  obtain ⟨⟨stack, s₂⟩, hzero₂, hok⟩ := bind_eq_ok.1 hok
  have hz₂ := (getZeroPage_spec s₁).of_eq_ok hzero₂
  cases hok
  exact ((hz₁.extends h.tables).trans (hz₂.extends (hz₁.tableInv h.tables))).trans (extends_setTasks s₂ _)

/-! ### Runs -/

/-- **Every step** adds tables on the way to pages of areas only. -/
theorem step_extends (h : VmInv s) (act : Act) : Yields (s.step act) (Extends s) fun _ => True := by
  cases act with
  | kernelThread => exact yields_bind (yields_of_ok fun x hx => kernelThread_extends h hx) fun _ hx => hx
  | exec t argv args program =>
    rw [step]
    cases htask : s.tasks t with
    | none => exact Extends.refl s
    | some task =>
      simp only
      split
      · exact Extends.refl s
      · refine yields_of_ok fun x hx => exec_extends h (fun mm hmm => ?_) hx
        obtain ⟨a, -, ha⟩ := Option.bind_eq_some_iff.1 hmm
        exact ⟨a, ha⟩
  | exit t =>
    rw [step]
    cases s.userMm t with
    | none => exact Extends.refl s
    | some x => exact extends_setTasks s _
  | fork t =>
    rw [step]
    cases hmm : s.userMm t with
    | none => exact Extends.refl s
    | some x =>
      exact yields_bind (yields_of_ok fun y hy => fork_extends h (userMm_eq_some hmm).1 hy) fun _ hy => hy
  | brk t newBreak =>
    rw [step]
    cases s.userMm t with
    | none => exact Extends.refl s
    | some x => exact yields_bind (yields_of_ok fun y hy => brk_extends h hy) fun _ hy => hy
  | load t addr =>
    rw [step]
    cases hmm : s.userMm t with
    | none => exact Extends.refl s
    | some x =>
      refine yields_bind (yields_of_ok fun y hy => ?_) fun _ hy => hy
      exact load_extends h (userMm_eq_some hmm).1 addr hy
  | store t addr byte =>
    rw [step]
    cases hmm : s.userMm t with
    | none => exact Extends.refl s
    | some x => exact yields_of_ok fun y hy => store_extends h (userMm_eq_some hmm).1 addr hy
  | put t addr byte =>
    rw [step]
    cases hmm : s.userMm t with
    | none => exact Extends.refl s
    | some x =>
      have hr := roots_of_mm (userMm_eq_some hmm).1
      refine (kernelStore_spec h.tables hr addr byte).imp ?_ fun _ _ => trivial
      rintro s' ⟨f, k, hmap, rfl⟩
      exact .of_mms (h.tables.newTables_putPage (h.tables.data hmap).2 _) rfl
  | keep bytes => exact .of_mms (.of_table (fun _ _ _ => id) fun _ _ _ _ => rfl) rfl

/-- Every table has one reference, and is on the way to a page of an area. -/
def OnAreas (s : Vm) : Prop :=
  ∀ a p f, s.Table a p f → s.ref f = 1 ∧ (p ≠ [] → ∃ v, s.InArea a v ∧ p <:+ path v)

theorem Start.onAreas (h : Start s₀) : s₀.OnAreas := by
  rintro a p f ⟨-, r, hr, -⟩
  rw [roots_eq_none.2 (h.noSpace a)] at hr
  cases hr

theorem Extends.onAreas (h : Extends s s') (hs : s.OnAreas) : s'.OnAreas := by
  intro a p f ht
  obtain ⟨hold, href⟩ | hnew := h.tables a p f ht
  · obtain ⟨hone, hway⟩ := hs a p f hold
    refine ⟨href.trans hone, fun hne => ?_⟩
    obtain ⟨v, hv, hp⟩ := hway hne
    exact ⟨v, h.areas a v hv, hp⟩
  · exact hnew

/-- **Every table of a reached state** has one reference, and is on the way to a page of an area. -/
theorem onAreas_of_run {acts : List Act} (h : Start s₀) (hrun : run step s₀ acts = .ok s) : s.OnAreas := by
  have hboth : VmInv s ∧ s.OnAreas := by
    refine run_invariant (I := fun s => VmInv s ∧ s.OnAreas) (G := fun _ _ => True) ⟨h.inv, h.onAreas⟩
      (fun s act s' hs _ hstep => ?_) (along_of_forall (fun _ _ => trivial) s₀ acts) hrun
    obtain ⟨hinv, hon⟩ := hs
    exact ⟨((step_keeps hinv act).of_eq_ok hstep).inv, ((step_extends hinv act).of_eq_ok hstep).onAreas hon⟩
  exact hboth.2

end Vm

end PlumOs
