import Mathlib.Order.Interval.Finset.Nat
import PlumOs.Vm.Faults

/-!
# The copy of an address space

`copy_mm` goes through the areas of the parent, and `copy_vma_deep` through the pages of an area: a
page that is mapped is shared with the child.  A page that two areas touch is shared twice, which
the mappings do not show but the counts do.

* `Copying` : what holds between two pages of the copy;
* `copyVmaPage_spec`, `copyVmaDeep_spec`, `copyMm_spec` : a page, an area, all the areas;
* `used` : the number of frames in use, which bounds the counts: each area takes a page and adds at
  most one to the count of a frame.
-/

namespace PlumOs

open Cow (Mode)

namespace Vm

variable {s s' s₀ : Vm} {a b v w f g r t i : ℕ} {p q : List ℕ} {k : Mode} {mm : MmStruct} {vma : Vma}
  {done : List (ℕ × Bool)}

/-! ### The frames in use -/

/-- The number of the frames of the normal area that are in use. -/
def used (s : Vm) : ℕ := ((Finset.Ico normalPfnStart normalPfnEnd).filter fun f => s.ref f ≠ 0).card

theorem used_le (s : Vm) : s.used ≤ 32095 := by
  refine (Finset.card_filter_le _ _).trans ?_
  rw [Nat.card_Ico]
  exact Nat.le_refl 32095

theorem used_mono (h : ∀ f, s.ref f ≠ 0 → s'.ref f ≠ 0) : s.used ≤ s'.used := by
  refine Finset.card_le_card fun f hf => ?_
  rw [Finset.mem_filter] at hf ⊢
  exact ⟨hf.1, h f hf.2⟩

theorem ZeroPage.used (hz : ZeroPage s g s') : s.used + 1 ≤ s'.used := by
  refine Finset.card_lt_card ((Finset.ssubset_iff_of_subset ?_).2 ⟨g, ?_, ?_⟩)
  · intro f hf
    rw [Finset.mem_filter] at hf ⊢
    exact ⟨hf.1, hz.live hf.2⟩
  · rw [Finset.mem_filter, Finset.mem_Ico, hz.ref_self]
    exact ⟨⟨hz.lo, hz.hi⟩, by decide⟩
  · rw [Finset.mem_filter]
    exact fun hg => hg.2 hz.free

/-- No count is larger than the number of frames in use allows. -/
def Bounded (s : Vm) : Prop := ∀ f, s.ref f ≤ 1 + s.used

theorem Bounded.lt (h : Bounded s) (f : ℕ) : s.ref f < 2 ^ 31 := by
  have h₁ := h f
  have h₂ := s.used_le
  omega

/-- A step that takes no frame out of use, and raises no count above one, keeps the bound. -/
theorem Bounded.step (h : Bounded s) (hlive : ∀ f, s.ref f ≠ 0 → s'.ref f ≠ 0)
    (hle : ∀ f, s'.ref f ≤ s.ref f ∨ s'.ref f ≤ 1) : Bounded s' := by
  intro f
  have hused := used_mono hlive
  have hf := h f
  rcases hle f with hle | hle <;> omega

/-! ### One page -/

/-- What holds after the visits `done` of the copy of `a` to `b` that started in `s₀`. -/
structure Copying (s₀ s : Vm) (a b : ℕ) (done : List (ℕ × Bool)) : Prop where
  tables : TableInv s
  fork : Cow.Forking s₀.ptes s₀.ref a b done s.ptes s.ref
  roots : s.roots = s₀.roots
  mms : ∀ c, c ≠ b → s.mms c = s₀.mms c
  tasks : s.tasks = s₀.tasks
  archive : s.archive = s₀.archive
  pgdStart : s.pgdStart = s₀.pgdStart
  live : ∀ f, s₀.ref f ≠ 0 → s.ref f ≠ 0
  kernel : ∀ f, s₀.ref f ≠ 0 → Cow.Unmapped s₀.ptes f → s.ref f = s₀.ref f
  one : ∀ f, s₀.ref f = 0 → s.ref f = 0 ∨ s.ref f = 1
  table : ∀ c p f, s₀.Table c p f → s.Table c p f
  tableNew : ∀ c p f, s.Table c p f → s₀.Table c p f ∨ s₀.ref f = 0
  mem : ∀ f, s₀.Data f → s.mem f = s₀.mem f

theorem Copying.data (h : Copying s₀ s a b done) (hf : s₀.Data f) : s.Data f := by
  refine ⟨h.live f hf.1, fun c p ht => ?_⟩
  rcases h.tableNew c p f ht with ht | h0
  · exact hf.2 c p ht
  · exact hf.1 h0

/-- The copy of pages keeps frames in use and leaves the areas alone. -/
structure Later (s s' : Vm) : Prop where
  live : ∀ f, s.ref f ≠ 0 → s'.ref f ≠ 0
  mms : s'.mms = s.mms

theorem Later.refl (s : Vm) : Later s s := ⟨fun _ hf => hf, rfl⟩

theorem Later.trans {s'' : Vm} (h : Later s s') (h' : Later s' s'') : Later s s'' :=
  ⟨fun f hf => h'.live f (h.live f hf), h'.mms.trans h.mms⟩

theorem Grown.later (h : Grown s s') : Later s s' := ⟨fun _ => h.live, h.mms⟩

/-- Allocations do not matter for the copy. -/
theorem Copying.grown (h₀ : TableInv s₀) (h : Copying s₀ s a b done) (hg : Grown s s')
    (ht : TableInv s') : Copying s₀ s' a b done where
  tables := ht
  fork := by
    rw [hg.ptes]
    refine h.fork.congr ?_
    rintro f ⟨⟨c, v⟩, k, hk⟩
    exact hg.ref f (h.live f (h₀.frames c v f k hk).1)
  roots := hg.roots.trans h.roots
  mms c hc := by rw [hg.mms]; exact h.mms c hc
  tasks := hg.tasks.trans h.tasks
  archive := hg.archive.trans h.archive
  pgdStart := hg.pgdStart.trans h.pgdStart
  live f hf := hg.live (h.live f hf)
  kernel f hf hun := (hg.ref f (h.live f hf)).trans (h.kernel f hf hun)
  one f hf := by
    rcases h.one f hf with h0 | h1
    · exact hg.one f h0
    · exact .inr ((hg.ref f (by rw [h1]; decide)).trans h1)
  table c p f hp := hg.table c p f (h.table c p f hp)
  tableNew c p f hp := by
    rcases hg.tableNew c p f hp with hp | h0
    · exact h.tableNew c p f hp
    · by_contra hno
      rw [not_or] at hno
      exact h.live f hno.2 h0
  mem f hf := (hg.mem f (h.data hf).1 (h.data hf).2).trans (h.mem f hf)

/-- A visit of a page that is not mapped. -/
theorem Copying.skip (h : Copying s₀ s a b done) (hv : s.ptes a v = none) (rw : Bool) :
    Copying s₀ s a b (done ++ [(v, rw)]) := by
  refine { h with fork := h.fork.skip ?_ rw }
  have hpar := h.fork.parent v
  rw [hv] at hpar
  exact Option.map_eq_none_iff.1 hpar.symm

section Share

variable {pte npte : ℕ} (h : TableInv s) (hv : v < userPages) (ht : s.Table a (path v) pte)
  (hn : s.Table b (path v) npte) (hg : s.ptes a v = some (g, k))

include h hv ht hn hg

theorem shareEntries_spec (rw : Bool) :
    TableInv (s.shareEntries pte npte (getPteOff v) g rw) ∧
      (s.shareEntries pte npte (getPteOff v) g rw).ptes = Cow.share s.ptes a b v rw g ∧
      (∀ c q x, (s.shareEntries pte npte (getPteOff v) g rw).Table c q x ↔ s.Table c q x) ∧
      ∀ x, s.Data x → (s.shareEntries pte npte (getPteOff v) g rw).mem x = s.mem x := by
  have hsize := (h.frames a v g k hg).2
  have hne : ∀ x, s.Data x → x ≠ pte ∧ x ≠ npte := fun x hx =>
    ⟨fun he => hx.2 a _ (he ▸ ht), fun he => hx.2 b _ (he ▸ hn)⟩
  cases rw with
  | false =>
    have hfl : PageFlags (pteP + pteUs) := .inl rfl
    refine ⟨h.put hv hn (h.spare hg) hsize hfl (by decide), ptes_put h hv hn hfl (by decide),
      fun c q x => table_put h hn, fun x hx => Function.update_of_ne (hne x hx).2 ..⟩
  | true =>
    have hfl : PageFlags (pteP + pteCow + pteUs) := .inr (.inr rfl)
    have h₁ := h.put hv ht (h.spare hg) hsize hfl (by decide)
    have htab : ∀ {c q x}, (s.putEntry pte (getPteOff v) g (pteP + pteCow + pteUs)).Table c q x ↔
        s.Table c q x := table_put h ht
    have hspare : Spare (s.putEntry pte (getPteOff v) g (pteP + pteCow + pteUs)) g :=
      ⟨(h.spare hg).live, fun c q hx => (h.spare hg).notTable c q (htab.1 hx)⟩
    refine ⟨h₁.put hv (htab.2 hn) hspare hsize hfl (by decide), ?_,
      fun c q x => (table_put h₁ (htab.2 hn)).trans htab, fun x hx => ?_⟩
    · refine (ptes_put h₁ hv (htab.2 hn) hfl (by decide)).trans ?_
      rw [ptes_put h hv ht hfl (by decide)]
      rfl
    · exact (Function.update_of_ne (hne x hx).2 ..).trans (Function.update_of_ne (hne x hx).1 ..)

end Share

/-- A visit of a page that is mapped: the entries and the count. -/
theorem Copying.share {pte npte : ℕ} (h₀ : TableInv s₀) (hcow : Cow.Counted s₀.ptes s₀.ref)
    (h : Copying s₀ s a b done) (hab : a ≠ b) (hv : v < userPages) (ht : s.Table a (path v) pte)
    (hn : s.Table b (path v) npte) (hg : s.ptes a v = some (g, k)) (hmax : s.ref g < 2 ^ 31 - 1)
    (rw : Bool) :
    Yields ((s.shareEntries pte npte (getPteOff v) g rw).pages.addPageRef g)
      (fun pages =>
        Copying s₀ { s.shareEntries pte npte (getPteOff v) g rw with pages := pages } a b
          (done ++ [(v, rw)]) ∧
        Later s { s.shareEntries pte npte (getPteOff v) g rw with pages := pages })
      fun _ => True := by
  obtain ⟨k₀, hk₀, -⟩ := h.fork.parent_frame hg
  obtain ⟨h₁, hptes, htab, hmem⟩ := shareEntries_spec h.tables hv ht hn hg rw
  have hkeep : (s.shareEntries pte npte (getPteOff v) g rw).pages = s.pages ∧
      (s.shareEntries pte npte (getPteOff v) g rw).mms = s.mms ∧
      (s.shareEntries pte npte (getPteOff v) g rw).tasks = s.tasks ∧
      (s.shareEntries pte npte (getPteOff v) g rw).archive = s.archive ∧
      (s.shareEntries pte npte (getPteOff v) g rw).pgdStart = s.pgdStart := by
    unfold shareEntries
    split <;> exact ⟨rfl, rfl, rfl, rfl, rfl⟩
  obtain ⟨s₁, hs₁⟩ : ∃ s₁, s₁ = s.shareEntries pte npte (getPteOff v) g rw := ⟨_, rfl⟩
  rw [← hs₁] at h₁ hptes htab hmem hkeep ⊢
  obtain ⟨hpages, hmms, htasks, harchive, hpgd⟩ := hkeep
  have href₁ : ∀ x, s₁.ref x = s.ref x := fun x => by rw [Vm.ref, Vm.ref, hpages]
  have hroots₁ : s₁.roots = s.roots := by
    funext c
    rw [Vm.roots, Vm.roots, hmms]
  -- the frame is counted, since the parent maps it
  have hpos : 0 < s.ref g := by
    have hle := hcow.le g ⟨_, Cow.mem_mapsTo hk₀⟩
    have hcard := (Set.ncard_pos (hcow.finite g)).2 ⟨_, Cow.mem_mapsTo hk₀⟩
    have hsh := h.fork.shared v g k₀ hk₀
    omega
  have hcount := href₁ g
  refine (recounted_addPageRef (h.tables.frames a v g k hg).2 (by omega) (by omega)).mono ?_
  intro pages hre
  rw [hcount] at hre
  have hother : ∀ x, x ≠ g → ({ s₁ with pages := pages } : Vm).ref x = s.ref x := fun x hx =>
    (hre.other x hx).trans (href₁ x)
  have hlive : ∀ x, s.ref x ≠ 0 → ({ s₁ with pages := pages } : Vm).ref x ≠ 0 := fun x hx =>
    hre.live (by omega) (by rw [href₁]; exact hx)
  refine ⟨⟨hre.tableInv h₁ (by omega), ?_, ?_, fun c hc => ?_, ?_, ?_, ?_,
    fun x hx => hlive x (h.live x hx), fun x hx hun => ?_, fun x hx => ?_, fun c q x hx => ?_,
    fun c q x hx => ?_, fun x hx => ?_⟩, hlive, hre.mms.trans hmms⟩
  · rw [hre.ptes, hptes]
    exact h.fork.share hcow hab hg rw hre.self hother
  · rw [hre.roots, hroots₁]
    exact h.roots
  · rw [hre.mms, hmms]
    exact h.mms c hc
  · exact (hre.tasks.trans htasks).trans h.tasks
  · exact (hre.archive.trans harchive).trans h.archive
  · exact (hre.pgdStart.trans hpgd).trans h.pgdStart
  · have hxg : x ≠ g := by
      rintro rfl
      exact hun a v k₀ hk₀
    rw [hother x hxg]
    exact h.kernel x hx hun
  · have hxg : x ≠ g := by
      rintro rfl
      exact (h₀.frames a v x k₀ hk₀).1 hx
    rw [hother x hxg]
    exact h.one x hx
  · exact hre.table_iff.2 ((htab c q x).2 (h.table c q x hx))
  · exact h.tableNew c q x ((htab c q x).1 (hre.table_iff.1 hx))
  · rw [hre.mem, hmem x (h.data hx)]
    exact h.mem x hx

/-- **The copy of one page.** -/
theorem copyVmaPage_spec {newPgd oldPgd : ℕ} (h₀ : TableInv s₀) (hcow : Cow.Counted s₀.ptes s₀.ref)
    (h : Copying s₀ s a b done) (hab : a ≠ b) (hold : s₀.roots a = some oldPgd)
    (hnew : s₀.roots b = some newPgd) (hv : v < userPages)
    (hmax : ∀ g k, s₀.ptes a v = some (g, k) → s.ref g < 2 ^ 31 - 1) (vma : Vma) :
    Yields (s.copyVmaPage newPgd vma oldPgd v)
      (fun s' => Copying s₀ s' a b (done ++ [(v, vma.writable)]) ∧ Later s s')
      fun _ => True := by
  have hskip : ∀ {s₁ : Vm} {p i f}, TableInv s₁ → Grown s s₁ → s₁.Table a p f → s₁.mem f i = 0 →
      (i :: p) <:+ path v → Copying s₀ s₁ a b (done ++ [(v, vma.writable)]) ∧ Later s s₁ := by
    intro s₁ p i f h₁ hg ht hnull hsuf
    exact ⟨(h.grown h₀ hg h₁).skip (ht.ptes_null hnull hsuf) _, hg.later⟩
  unfold copyVmaPage
  have ht₀ : s.Table a [] oldPgd := Table.root (by rw [h.roots]; exact hold)
  have hn₀ : s.Table b [] newPgd := Table.root (by rw [h.roots]; exact hnew)
  split
  · next h0 => exact hskip h.tables (Grown.refl s) ht₀ h0 (List.suffix_append [_, _] _)
  · next h0 =>
    have ht₁ := ht₀.next (userPath_pgd hv) h0
    refine yields_bind (nextTable_spec h.tables hn₀ (userPath_pgd hv)) ?_
    rintro ⟨npud, s₁⟩ ⟨h₁, hg₁, hn₁⟩
    replace ht₁ := hg₁.table _ _ _ ht₁
    show Yields (ite _ _ _) _ _
    split
    · next h1 => exact hskip h₁ hg₁ ht₁ h1 (List.suffix_append [_] _)
    · next h1 =>
      have ht₂ := ht₁.next (userPath_pud hv) h1
      refine yields_bind (nextTable_spec h₁ hn₁ (userPath_pud hv)) ?_
      rintro ⟨npmd, s₂⟩ ⟨h₂, hg₂, hn₂⟩
      replace ht₂ := hg₂.table _ _ _ ht₂
      show Yields (ite _ _ _) _ _
      split
      · next h2 => exact hskip h₂ (hg₁.trans hg₂) ht₂ h2 List.suffix_rfl
      · next h2 =>
        have ht₃ := ht₂.next (userPath_path hv) h2
        refine yields_bind (nextTable_spec h₂ hn₂ (userPath_path hv)) ?_
        rintro ⟨npte, s₃⟩ ⟨h₃, hg₃, hn₃⟩
        replace ht₃ := hg₃.table _ _ _ ht₃
        have hgrown : Grown s s₃ := (hg₁.trans hg₂).trans hg₃
        have hc := h.grown h₀ hgrown h₃
        have hpte := Table.ptes_eq ht₃ hv
        show Yields (ite _ _ _) _ _
        split
        · next h3 =>
          exact ⟨hc.skip (hpte.trans (decode_eq_none.2 h3)) _, hgrown.later⟩
        · next h3 =>
          rw [decode, if_neg h3] at hpte
          obtain ⟨k₀, hk₀, -⟩ := hc.fork.parent_frame hpte
          have hlt := hmax _ _ hk₀
          rw [← hgrown.ref _ (h.live _ (h₀.frames a v _ k₀ hk₀).1)] at hlt
          refine yields_bind (hc.share h₀ hcow hab hv ht₃ hn₃ hpte hlt vma.writable) ?_
          rintro pages ⟨hshare, hlater⟩
          exact ⟨hshare, hgrown.later.trans hlater⟩

/-! ### All the areas -/

/-- The visits of the pages of an area. -/
def areaVisits (vma : Vma) : List (ℕ × Bool) := vma.pages.map fun v => (v, vma.writable)

/-- The visits of the pages of some areas, in the order of the copy. -/
def mmapVisits (areas : List Vma) : List (ℕ × Bool) := areas.flatMap areaVisits

theorem mem_pages : v ∈ vma.pages ↔ vma.vmStart / pgSize ≤ v ∧ v ≤ (vma.vmEnd - 1) / pgSize := by
  unfold Vma.pages
  rw [List.mem_range'_1]
  omega

theorem lt_of_mem_pages (h : v ∈ vma.pages) : v < userPages := by
  have hle := (mem_pages.1 h).2
  have hend := vma.inUser
  have hpos := vma.pos
  unfold userTop at hend
  unfold pgSize at hle
  unfold userPages
  omega

theorem nodup_pages (vma : Vma) : vma.pages.Nodup := List.nodup_range'

theorem visits_areas (areas : List Vma) (v : ℕ) :
    Cow.visits (mmapVisits areas) v = areas.countP fun vma => v ∈ vma.pages := by
  induction areas with
  | nil => rfl
  | cons vma areas ih =>
    have happ : Cow.visits (mmapVisits (vma :: areas)) v =
        vma.pages.count v + Cow.visits (mmapVisits areas) v := by
      unfold mmapVisits areaVisits
      rw [List.flatMap_cons]
      unfold Cow.visits
      rw [List.map_append, List.count_append, List.map_map]
      congr 2
      exact List.map_id' _
    rw [happ, ih, List.countP_cons, Nat.add_comm]
    congr 1
    by_cases hmem : v ∈ vma.pages
    · rw [List.count_eq_one_of_mem (nodup_pages vma) hmem, if_pos (by simpa using hmem)]
    · rw [List.count_eq_zero_of_not_mem hmem, if_neg (by simpa using hmem)]

section Areas

variable {newPgd oldPgd : ℕ} (h₀ : TableInv s₀) (hcow : Cow.Counted s₀.ptes s₀.ref) (hab : a ≠ b)
  (hold : s₀.roots a = some oldPgd) (hnew : s₀.roots b = some newPgd)

include h₀ hcow hab hold hnew

/-- The loop of `copy_vma_deep`: no page is visited twice in it. -/
theorem copyPages_spec {m : ℕ} (hnum : ∀ f, s₀.ref f + m < 2 ^ 31 - 1) (vma : Vma) (l : List ℕ)
    (hnodup : l.Nodup) (hl : ∀ v ∈ l, v < userPages) (h : Copying s₀ s a b done)
    (hm : ∀ v ∈ l, Cow.visits done v ≤ m) :
    Yields (l.foldlM (fun s i => s.copyVmaPage newPgd vma oldPgd i) s)
      (fun s' => Copying s₀ s' a b (done ++ l.map fun v => (v, vma.writable)) ∧ Later s s')
      fun _ => True := by
  refine yields_foldlM (P := fun pre s' => Copying s₀ s' a b (done ++ pre.map fun v =>
    (v, vma.writable)) ∧ Later s s') l ?_ ?_
  · rintro pre v rest s₁ rfl ⟨h₁, hlater₁⟩
    have hmem : v ∈ pre ++ v :: rest := List.mem_append_right pre (List.mem_cons_self ..)
    have hpre : pre.count v = 0 := by
      refine List.count_eq_zero_of_not_mem fun hin => ?_
      exact (List.disjoint_of_nodup_append hnodup) hin (List.mem_cons_self ..)
    refine (copyVmaPage_spec h₀ hcow h₁ hab hold hnew (hl v hmem) (fun g k hg => ?_) vma).mono ?_
    · have hvis := hm v hmem
      have hlt := hnum g
      rw [h₁.fork.shared v g k hg, Cow.visits_append_map, hpre]
      omega
    · rintro s₂ ⟨h₂, hlater₂⟩
      rw [List.map_append, List.map_singleton, ← List.append_assoc]
      exact ⟨h₂, hlater₁.trans hlater₂⟩
  · rw [List.map_nil, List.append_nil]
    exact ⟨h, Later.refl s⟩

end Areas

/-- What holds after some areas of the copy. -/
structure Areas (s₀ s : Vm) (a b : ℕ) (mm : MmStruct) (areas : List Vma) : Prop where
  copying : Copying s₀ s a b (mmapVisits areas)
  space : s.mms b = some { mm with mmap := areas }
  used : s₀.used + areas.length ≤ s.used

/-- There are not enough frames for so many areas that a count could wrap. -/
theorem Areas.lt {areas : List Vma} (h : Areas s₀ s a b mm areas) (hbound : Bounded s₀) (f : ℕ) :
    s₀.ref f + areas.length < 2 ^ 31 - 1 := by
  have h₁ := hbound f
  have h₂ := s.used_le
  have h₃ := h.used
  omega

theorem mmapVisits_append (areas : List Vma) (vma : Vma) :
    mmapVisits (areas ++ [vma]) = mmapVisits areas ++ areaVisits vma := by
  unfold mmapVisits
  rw [List.flatMap_append, List.flatMap_singleton]

/-- A new area is for the same directory. -/
theorem roots_insertVma (s : Vm) (b : ℕ) (vma : Vma) : (s.insertVma b vma).roots = s.roots := by
  funext c
  show (Function.update s.mms b _ c).map MmStruct.pgd = _
  by_cases hc : c = b
  · subst hc
    rw [Function.update_self, Option.map_map]
    rfl
  · rw [Function.update_of_ne hc]
    rfl

/-- A new area of the child does not matter for the copy. -/
theorem Copying.insertVma (h : Copying s₀ s a b done) (vma : Vma) :
    Copying s₀ (s.insertVma b vma) a b done := by
  have hroots := roots_insertVma s b vma
  have hptes : (s.insertVma b vma).ptes = s.ptes := ptes_congr hroots fun _ _ _ _ => rfl
  refine { h with
    tables := h.tables.congr hroots (fun _ _ _ _ => rfl) rfl fun _ hf => hf
    fork := by rw [hptes]; exact h.fork
    roots := hroots.trans h.roots
    mms := fun c hc => (Function.update_of_ne hc ..).trans (h.mms c hc)
    table := fun c q x hx => (table_congr hroots fun _ _ _ _ => rfl).2 (h.table c q x hx)
    tableNew := fun c q x hx => h.tableNew c q x ((table_congr hroots fun _ _ _ _ => rfl).1 hx) }

section Mm

variable {newPgd oldPgd : ℕ} (h₀ : TableInv s₀) (hcow : Cow.Counted s₀.ptes s₀.ref) (hab : a ≠ b)
  (hold : s₀.roots a = some oldPgd) (hnew : s₀.roots b = some newPgd) (hbound : Bounded s₀)

include h₀ hcow hab hold hnew hbound

/-- **The copy of one area.** -/
theorem copyArea_spec {areas : List Vma} (h : Areas s₀ s a b mm areas) (vma : Vma) :
    Yields (s.copyArea b newPgd oldPgd vma) (fun s' => Areas s₀ s' a b mm (areas ++ [vma]))
      fun _ => True := by
  unfold copyArea
  refine yields_bind (getZeroPage_spec s) ?_
  rintro ⟨g, s₁⟩ hz
  have hc₁ := h.copying.grown h₀ (hz.grown h.copying.tables) (hz.tableInv h.copying.tables)
  have hused := h.used
  have hused₁ : s.used + 1 ≤ s₁.used := hz.used
  have hvis : ∀ v, Cow.visits (mmapVisits areas) v ≤ areas.length := fun v => by
    rw [visits_areas]
    exact List.countP_le_length
  refine yields_bind (copyPages_spec h₀ hcow hab hold hnew (h.lt hbound) vma vma.pages (nodup_pages vma)
    (fun v => lt_of_mem_pages) hc₁ fun v _ => hvis v) ?_
  rintro s₂ ⟨hc₂, hlater⟩
  refine ⟨?_, ?_, ?_⟩
  · rw [mmapVisits_append]
    exact hc₂.insertVma vma
  · have hmm : s₂.mms b = some { mm with mmap := areas } := by
      rw [hlater.mms]
      exact (congrFun hz.mms b).trans h.space
    show Function.update s₂.mms b _ b = _
    rw [Function.update_self, hmm]
    rfl
  · have hused₂ : s₁.used ≤ s₂.used := used_mono hlater.live
    rw [List.length_append, List.length_singleton]
    show s₀.used + (areas.length + 1) ≤ s₂.used
    omega

/-- **The copy of all the areas.** -/
theorem copyMm_spec {old : MmStruct} (hpgd : old.pgd = oldPgd) (h : Areas s₀ s a b mm []) :
    Yields (s.copyMm b newPgd old) (fun s' => Areas s₀ s' a b mm old.mmap) fun _ => True := by
  subst hpgd
  refine yields_foldlM (P := fun pre s' => Areas s₀ s' a b mm pre) old.mmap ?_ h
  rintro pre vma rest s₁ - h₁
  exact copyArea_spec h₀ hcow hab hold hnew hbound h₁ vma

end Mm

end Vm

end PlumOs
