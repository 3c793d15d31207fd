import PlumOs.Vm.Flat

/-!
# The calls that change the memory of a program

`brk` adds an area, `fork` makes a second set of tables, and `exec` makes new ones.  What a program sees
is more zero pages, a copy, and its segments with its arguments on the stack.

* `Shows.grow` : **`brk`**, if the areas that share a page agree on it;
* `Shows.forked`, `Shows.forkedChild` : **`fork`**, for the parent and the child;
* `Program.Paged` : the segments of a program are on pages of their own, below the heap;
* `exec_shows` : **`exec`**.
-/

namespace PlumOs

open Cow (Mode)

namespace Vm

variable {s s' s₀ : Vm} {a b c v w f g t q addr : ℕ} {k : Mode} {mm mm' : MmStruct} {vma : Vma}
  {p : Process} {F : Flat} {img : Tarfs} {args : ℕ → ℕ}

/-! ### More heap -/

/-- A call of `brk` returns the break, or takes a page for the new area. -/
theorem brk_grows (h : VmInv s) (a : ℕ) (mm : MmStruct) (newBreak : ℕ) :
    Yields (s.brk a mm newBreak) (fun x => newBreak = 0 ∧ x = (mm.brk, s) ∨ newBreak ≠ 0 ∧
      ∃ hlt : mm.brk < newBreak ∧ newBreak < heapLimit, x.1 = newBreak ∧ ∃ s₁, Grown s s₁ ∧
        x.2 = s₁.insertVma a (heapVma mm.brk newBreak hlt)) fun _ => True := by
  unfold brk
  split
  · next h0 => exact .inl ⟨h0, rfl⟩
  · next h0 =>
    split
    · next hlt =>
      split
      · refine yields_bind (getZeroPage_spec s) ?_
        rintro ⟨page, s₁⟩ hz
        exact .inr ⟨h0, hlt, rfl, s₁, hz.grown h.tables, rfl⟩
      · split
        · next vma _ =>
          rw [if_neg fun hbit => vma.prot.bits_ne_one hbit.1]
          trivial
        · trivial
    · split <;> trivial

/-- An area on a page of the heap is as the heap is. -/
theorem Agreed.on_heap (h : Agreed img mm) (hvma : vma ∈ mm.mmap) (hv : v ∈ vma.pages)
    {newBreak : ℕ} (hlt : mm.brk < newBreak ∧ newBreak < heapLimit)
    (hheap : v ∈ (heapVma mm.brk newBreak hlt).pages) :
    vma.prot = .readWrite ∧ vma.demandPage img.mem v = fun _ => 0 := by
  have hfile : vma.vmFile = none := by
    by_contra hfile
    obtain ⟨hlo, hhi⟩ := mem_pages.1 hheap
    have hstop : (newBreak - 1) / pgSize < heapLimit / pgSize := by
      obtain ⟨-, hlimit⟩ := hlt
      unfold heapLimit at hlimit ⊢
      unfold pgSize
      omega
    rcases h.heap vma hvma hfile v hv with hbelow | habove
    · exact absurd hlo (Nat.not_le_of_lt hbelow)
    · exact absurd (habove.trans hhi) (Nat.not_le_of_lt hstop)
  refine ⟨vma.anonymous hfile, ?_⟩
  rw [Vma.demandPage, hfile]

/-- **More heap.** -/
theorem Shows.grow (h : VmInv s) (hmm : s.mms a = some mm) (hp : Shows s a mm p) {newBreak : ℕ}
    (hlt : mm.brk < newBreak ∧ newBreak < heapLimit) (hlt' : p.brk < newBreak ∧ newBreak < heapLimit)
    (harch : s'.archive = s.archive) (hptes : s'.ptes a = s.ptes a)
    (hmem : ∀ v f k, s.ptes a v = some (f, k) → s'.mem f = s.mem f) :
    Shows s' a { mm with mmap := mm.mmap ++ [heapVma mm.brk newBreak hlt] } (p.grow newBreak hlt') := by
  obtain ⟨areas, brk, byte⟩ := p
  obtain rfl : brk = mm.brk := hp.brk
  obtain ⟨heap, hheap⟩ : ∃ heap, heap = heapVma mm.brk newBreak hlt := ⟨_, rfl⟩
  have hnew : ∀ vma ∈ mm.mmap, ∀ v ∈ vma.pages, v ∈ heap.pages →
      vma.prot = .readWrite ∧ vma.demandPage s.archive.mem v = fun _ => 0 :=
    fun vma hvma v hv hv' => hp.agreed.on_heap hvma hv hlt (hheap ▸ hv')
  have hself : heap.prot = .readWrite ∧ ∀ v, heap.demandPage s.archive.mem v = fun _ => 0 := by
    rw [hheap]
    exact ⟨rfl, fun v => rfl⟩
  have hgrown : ∀ x, (Process.grow ⟨areas, mm.brk, byte⟩ newBreak hlt').byte x =
      if x / pgSize ∈ heap.pages then some ((byte x).getD 0) else byte x := by
    rw [hheap]
    exact fun x => rfl
  rw [← hheap]
  refine ⟨?_, rfl, ⟨fun x hx y hy v hvx hvy => ?_, fun x hx => ?_, fun x hx hfile => ?_⟩, fun x hno => ?_,
    fun x vma hnone hvma hv => ?_, fun x f k hk => ?_, fun v f hk vma hvma hv => ?_⟩
  · show areas ++ [heapVma mm.brk newBreak hlt'] = mm.mmap ++ [heap]
    rw [hheap, show areas = mm.mmap from hp.areas]
  · rw [harch]
    rcases List.mem_append.1 hx with hxm | hxm <;> rcases List.mem_append.1 hy with hym | hym
    · exact hp.agreed.shared x hxm y hym v hvx hvy
    · obtain rfl := List.mem_singleton.1 hym
      obtain ⟨hprot, hpage⟩ := hnew x hxm v hvx hvy
      exact ⟨hprot.trans hself.1.symm, hpage.trans (hself.2 v).symm⟩
    · obtain rfl := List.mem_singleton.1 hxm
      obtain ⟨hprot, hpage⟩ := hnew y hym v hvy hvx
      exact ⟨hself.1.trans hprot.symm, (hself.2 v).trans hpage.symm⟩
    · obtain rfl := List.mem_singleton.1 hxm
      obtain rfl := List.mem_singleton.1 hym
      exact ⟨rfl, rfl⟩
  · rw [harch]
    rcases List.mem_append.1 hx with hx | hx
    · exact hp.agreed.inArchive x hx
    · obtain rfl := List.mem_singleton.1 hx
      exact inArchive_of_anonymous (by rw [hheap]; rfl) _
  · rcases List.mem_append.1 hx with hx | hx
    · exact hp.agreed.heap x hx hfile
    · obtain rfl := List.mem_singleton.1 hx
      exact absurd (by rw [hheap]; rfl) hfile
  · rw [hgrown, if_neg (hno heap (by simp))]
    exact hp.absent x fun vma hvma => hno vma (List.mem_append_left _ hvma)
  · rw [hptes] at hnone
    rw [harch, hgrown]
    by_cases hin : x / pgSize ∈ heap.pages
    · -- every area on the page is zero there
      have hzero : vma.demandPage s.archive.mem (x / pgSize) = fun _ => 0 := by
        rcases List.mem_append.1 hvma with hvma | hvma
        · exact (hnew vma hvma _ hv hin).2
        · obtain rfl := List.mem_singleton.1 hvma
          exact hself.2 _
      rw [if_pos hin, hzero, pageByte_zero]
      by_cases hold : ∃ vma ∈ mm.mmap, x / pgSize ∈ vma.pages
      · obtain ⟨vma', hvma', hv'⟩ := hold
        have hbyte : byte x = _ := hp.unused x vma' hnone hvma' hv'
        rw [hbyte, (hnew vma' hvma' _ hv' hin).2, pageByte_zero, Option.getD_some]
      · have hbyte : byte x = none := hp.absent x fun vma' hvma' hv' => hold ⟨vma', hvma', hv'⟩
        rw [hbyte, Option.getD_none]
    · rw [if_neg hin]
      rcases List.mem_append.1 hvma with hvma | hvma
      · exact hp.unused x vma hnone hvma hv
      · obtain rfl := List.mem_singleton.1 hvma
        exact absurd hv hin
  · rw [hptes] at hk
    have hbyte : byte x = _ := hp.mapped x f k hk
    rw [hgrown, hbyte, hmem _ f k hk]
    split <;> rfl
  · rw [hptes] at hk
    rcases List.mem_append.1 hvma with hvma | hvma
    · exact hp.readOnly v f hk vma hvma hv
    · obtain rfl := List.mem_singleton.1 hvma
      -- the page was mapped for an area that may be written
      obtain ⟨vma', hvma', hv'⟩ := (h.covered a mm v f _ hmm hk).1
      have hro := hp.readOnly v f hk vma' hvma' hv'
      rw [(hnew vma' hvma' v hv' hv).1] at hro
      cases hro

/-! ### `fork` -/

/-- A `fork` leaves the mappings of the other processes alone. -/
theorem fork_others (h : VmInv s) (hmm : s.mms a = some mm) :
    Yields (s.fork mm) (fun x => ∀ c, c ≠ a → s.mms c ≠ none → x.2.ptes c = s.ptes c)
      fun _ => True := by
  unfold fork
  refine yields_bind (getZeroPage_spec s) ?_
  rintro ⟨tsp, s₁⟩ hz₁
  have h₁ := hz₁.tableInv h.tables
  refine yields_bind (getZeroPage_spec s₁) ?_
  rintro ⟨stack, s₂⟩ hz₂
  have h₂ := hz₂.tableInv h₁
  refine yields_bind (getZeroPage_spec s₂) ?_
  rintro ⟨b, s₃⟩ hz₃
  have h₃ := hz₃.tableInv h₂
  refine yields_bind (allocPgd_spec h₃) ?_
  rintro ⟨pgd, s₄⟩ hnewPgd
  have hg₂ : Grown s s₂ := (hz₁.grown h.tables).trans (hz₂.grown h₁)
  have hready := NewPgd.prepared (hg₂.trans (hz₃.grown h₂)) hnewPgd (hg₂.free hz₃.free)
    (hz₃.spare h₂).live
  have hb : s.mms b = none := h.mms_none hready.freeMm
  have hab : a ≠ b := by
    rintro rfl
    rw [hmm] at hb
    cases hb
  obtain ⟨new, hnew⟩ : ∃ new : MmStruct, new = { mm with mmap := [], pgd := pgd } := ⟨_, rfl⟩
  have hpgd : new.pgd = pgd := by rw [hnew]
  obtain ⟨k₅, hptes₅, -⟩ := Prepared.root (o := True) (hpgd ▸ hready) h
  obtain ⟨s₅, hs₅⟩ : ∃ s₅ : Vm, s₅ = { s₄ with mms := Function.update s₄.mms b (some new) } := ⟨_, rfl⟩
  simp only [← hnew, ← hs₅] at k₅ hptes₅ ⊢
  have hnew₅ : s₅.mms b = some new := by rw [hs₅]; exact Function.update_self ..
  have hold₅ : s₅.mms a = some mm := by
    rw [hs₅]
    exact (Function.update_of_ne hab ..).trans ((congrFun hready.grown.mms a).trans hmm)
  have hnone₅ : ∀ v, s₅.ptes b v = none := fun v => by rw [hptes₅]; exact ptes_none hb v
  have hareas : Areas s₅ s₅ a b new [] := areas_nil k₅.inv hnone₅ (by rw [hnew₅, hnew])
  refine yields_bind (copyMm_spec k₅.inv.tables k₅.inv.cow.toCounted hab (roots_of_mm hold₅)
    ((roots_of_mm hnew₅).trans (congrArg some hpgd)) k₅.inv.bounded rfl hareas) ?_
  intro s₆ hc c hca hcmm
  have hcb : c ≠ b := by
    rintro rfl
    exact hcmm hb
  exact (hc.copying.fork.others c hca hcb).trans (by rw [hptes₅])

theorem mem_visits_readOnly {areas : List Vma} :
    (v, false) ∈ mmapVisits areas ↔ ∃ vma ∈ areas, v ∈ vma.pages ∧ vma.prot = .readOnly := by
  have hprot : ∀ vma : Vma, vma.writable = false ↔ vma.prot = .readOnly := by
    intro vma
    unfold Vma.writable
    cases vma.prot <;> decide
  unfold mmapVisits areaVisits
  simp [hprot]

section Fork

variable (hp : Shows s a mm p) {n : ℕ} (hf : Forked s s' a mm n b)

include hp hf

/-- **The parent** sees what it saw. -/
theorem Shows.forked (ht : TableInv s) : Shows s' a mm p := by
  refine hp.congr rfl rfl hf.archive (fun v => ?_) (fun v f k hk => hf.mem f (ht.data hk))
    fun v f hk vma hvma hv => ?_
  · rw [hf.parent v, Option.map_map]
    rfl
  · rw [hf.parent v] at hk
    obtain ⟨⟨g, k⟩, hold, heq⟩ := Option.map_eq_some_iff.1 hk
    obtain ⟨rfl, hmode⟩ := Prod.mk.inj heq
    simp only at hmode
    split at hmode
    · cases hmode
    · subst hmode
      exact hp.readOnly v g hold vma hvma hv

/-- **The child** sees the same. -/
theorem Shows.forkedChild (ht : TableInv s) (pgd : ℕ) : Shows s' b { mm with pgd := pgd } p := by
  refine hp.congr rfl rfl hf.archive (fun v => ?_) (fun v f k hk => hf.mem f (ht.data hk))
    fun v f hk vma hvma hv => ?_
  · rw [hf.frames, if_pos rfl]
  · obtain ⟨rw, hvisit, hmode⟩ := hf.mode v f _ hk
    cases rw with
    | true => cases hmode
    | false =>
      obtain ⟨vma', hvma', hv', hprot⟩ := mem_visits_readOnly.1 hvisit
      rw [(hp.agreed.shared vma hvma vma' hvma' v hv hv').1, hprot]

end Fork

/-! ### `exec` -/

/-- No page is in both areas. -/
def PagesApart (x y : Vma) : Prop :=
  (x.vmEnd - 1) / pgSize < y.vmStart / pgSize ∨ (y.vmEnd - 1) / pgSize < x.vmStart / pgSize

instance decidablePagesApart (x y : Vma) : Decidable (PagesApart x y) := inferInstanceAs (Decidable (_ ∨ _))

instance symmPagesApart : Std.Symm PagesApart := ⟨fun _ _ h => h.symm⟩

/-- The segments and the stack share no page, and the segments are on pages below the heap. -/
def Program.Paged : Program → Prop
  | .elf file headers => (programAreas file headers).Pairwise PagesApart ∧
      ∀ seg ∈ loaded headers, (seg.pVaddr + seg.pMemsz - 1) / pgSize < heapStart headers / pgSize
  | .script interp => interp.Paged

instance decidablePaged : (program : Program) → Decidable program.Paged
  | .elf _ _ => inferInstanceAs (Decidable (_ ∧ _))
  | .script interp => decidablePaged interp

theorem agreed_of_paged {file : ℕ} {headers : List (Option LoadSegment)}
    (hpaged : (Program.elf file headers).Paged) (hin : (Program.elf file headers).InArchive img)
    (hspace : (Program.elf file headers).Space mm) : Agreed img mm := by
  have hareas : ∀ x ∈ mm.mmap, x.InArchive img := fun x hx => inArchive_of_space hin hspace hx
  obtain ⟨hmmap, -, hbrk⟩ := hspace
  obtain ⟨hapart, hbelow⟩ := hpaged
  have hmmap' : mm.mmap = programAreas file headers := hmmap
  constructor
  · rw [hmmap']
    intro x hx y hy v hvx hvy
    by_cases hxy : x = y
    · rw [hxy]
      exact ⟨rfl, rfl⟩
    · obtain ⟨hxlo, hxhi⟩ := mem_pages.1 hvx
      obtain ⟨hylo, hyhi⟩ := mem_pages.1 hvy
      rcases hapart.forall hx hy hxy with hlt | hlt <;> omega
  · exact hareas
  · intro x hx hfile v hv
    rw [hmmap', programAreas, List.mem_append] at hx
    rcases hx with hx | hx
    · obtain ⟨seg, hseg, rfl⟩ := List.mem_map.1 hx
      rw [hbrk]
      exact .inl (lt_of_le_of_lt (mem_pages.1 hv).2 (hbelow seg hseg))
    · obtain rfl := List.mem_singleton.1 hx
      exact absurd rfl hfile

/-- The page of the arguments. -/
abbrev argsPage : ℕ := (userTop - pgSize) / pgSize

/-- **A new program** with the page of its arguments. -/
theorem shows_start {file : ℕ} {headers : List (Option LoadSegment)}
    (hpaged : (Program.elf file headers).Paged) (hin : (Program.elf file headers).InArchive s.archive)
    (hspace : (Program.elf file headers).Space mm)
    (hargs : s.ptes a argsPage = some (f, .writable)) (hmem : s.mem f = args)
    (hnone : ∀ v, v ≠ argsPage → s.ptes a v = none) :
    Shows s a mm (Process.start s.archive.mem args (.elf file headers)) := by
  have hagreed : Agreed s.archive mm := agreed_of_paged hpaged hin hspace
  have hmmap : mm.mmap = programAreas file headers := hspace.1
  have hbyte : ∀ x, (Process.start s.archive.mem args (.elf file headers)).byte x =
      if x / pgSize = argsPage then some (pageByte args (x % pgSize))
      else areasByte s.archive.mem (programAreas file headers) x := fun x => rfl
  have hstack : argsPage ∈ stackVma.pages := by decide
  refine ⟨hmmap.symm, hspace.2.2.symm, hagreed, fun x hno => ?_, fun x vma hx hvma hv => ?_,
    fun x g k hk => ?_, fun v g hk => ?_⟩
  · have hne : x / pgSize ≠ argsPage := by
      intro hx
      refine hno stackVma ?_ (hx ▸ hstack)
      rw [hmmap, programAreas]
      simp
    rw [hbyte, if_neg hne, areasByte, Option.map_eq_none_iff, List.find?_eq_none, ← hmmap]
    exact fun vma hvma => by simpa using hno vma hvma
  · have hne : x / pgSize ≠ argsPage := by
      intro heq
      rw [heq, hargs] at hx
      cases hx
    rw [hbyte, if_neg hne, areasByte, ← hmmap]
    cases hfind : mm.mmap.find? fun vma => x / pgSize ∈ vma.pages with
    | none => exact absurd hv (by simpa using List.find?_eq_none.1 hfind vma hvma)
    | some vma' =>
      have hv' : x / pgSize ∈ vma'.pages := by simpa using List.find?_some hfind
      have hmem' := List.mem_of_find?_eq_some hfind
      rw [Option.map_some, (hagreed.shared vma' hmem' vma hvma _ hv' hv).2]
  · by_cases hx : x / pgSize = argsPage
    · rw [hx, hargs] at hk
      obtain ⟨rfl, -⟩ := Prod.mk.inj (Option.some.inj hk)
      rw [hbyte, if_pos hx, hmem]
    · rw [hnone _ hx] at hk
      cases hk
  · by_cases hv : v = argsPage
    · rw [hv, hargs] at hk
      obtain ⟨-, hmode⟩ := Prod.mk.inj (Option.some.inj hk)
      cases hmode
    · rw [hnone v hv] at hk
      cases hk

/-- The pages of the others, while `exec` looks at its arguments. -/
theorem execArgs_spared (h : VmInv s) (own argv : Option ℕ) :
    Yields (s.execArgs (own.bind s.mms) argv)
      (fun s' => s'.archive = s.archive ∧ ∀ c, own ≠ some c → Spared s s' c) fun _ => True := by
  unfold execArgs
  refine yields_bind (getZeroPage_spec s) ?_
  rintro ⟨page, s₁⟩ hz
  have hg := hz.grown h.tables
  have hspared := hg.spared h.tables
  cases argv with
  | none => exact ⟨hg.archive, fun c _ => hspared c⟩
  | some addr =>
    cases hold : own.bind s.mms with
    | none => trivial
    | some mm =>
      simp only
      cases hfind : searchVma addr mm with
      | none => trivial
      | some vma =>
        obtain ⟨a, rfl, ha⟩ := Option.bind_eq_some_iff.1 hold
        have hr : s₁.roots a = some mm.pgd := roots_of_mm ((congrFun hz.mms a).trans ha)
        have hv := lt_of_mem_pages (mem_pages_of_holds (holds_of_searchVma hfind).2)
        refine (mapAPage_spec (hz.tableInv h.tables) hr hv vma).mono ?_
        rintro s' (⟨-, -, hg'⟩ | ⟨-, g, page, hm, -⟩)
        · exact ⟨hg'.archive.trans hg.archive, fun c _ =>
            (hspared c).trans (hg'.spared (hz.tableInv h.tables) c)⟩
        · refine ⟨hm.archive.trans hg.archive, fun c hc => (hspared c).trans ?_⟩
          refine spared_set (hz.tableInv h.tables) hm.archive hm.ptes hm.mem ?_
          rintro rfl
          exact hc rfl

/-- **The arguments** are in a new page, the only one of their address space. -/
theorem storeArgs_shows (h : VmInv s) (hmm : s.mms a = some mm) (hnone : ∀ v, s.ptes a v = none)
    (args : ℕ → ℕ) : Yields (s.storeArgs mm.pgd args) (fun s' => s'.archive = s.archive ∧
      s'.mms = s.mms ∧ s'.tasks = s.tasks ∧
      ∃ g, s'.ptes = Cow.set s.ptes a argsPage (some (g, .writable)) ∧ s'.mem g = args ∧
        ∀ c v f k, s.ptes c v = some (f, k) → s'.mem f = s.mem f) fun _ => True := by
  have hpage : (userTop - pgSize) / pgSize < userPages := by decide
  unfold storeArgs
  refine yields_bind (mapAPage_spec h.tables (roots_of_mm hmm) hpage stackVma) ?_
  rintro s₁ (⟨hne, -⟩ | ⟨-, g, page, hm, -⟩)
  · exact absurd (hnone _) hne
  have hg : s₁.ptes a argsPage = some (g, .writable) := by
    rw [hm.ptes]
    exact Cow.set_self _
  have htrans := hm.tables.translate_eq (roots_of_mm ((congrFun hm.mms a).trans hmm)) hpage true
  rw [show (userTop - pgSize) / pgSize = argsPage from rfl, hg] at htrans
  rw [htrans]
  simp only [true_or, if_true]
  -- the page is filled
  obtain ⟨ht₂, hptes₂, -⟩ := hm.tables.putPage (hm.tables.data hg).2 args
  obtain ⟨s₂, hs₂⟩ : ∃ s₂, s₂ = s₁.putPage g args := ⟨_, rfl⟩
  have hmem₂ : s₂.mem = Function.update s₁.mem g args := by rw [hs₂]; rfl
  have hsame₂ : s₂.archive = s₁.archive ∧ s₂.mms = s₁.mms ∧ s₂.tasks = s₁.tasks := by
    rw [hs₂]
    exact ⟨rfl, rfl, rfl⟩
  rw [← hs₂] at ht₂ hptes₂ ⊢
  refine yields_bind (getZeroPage_spec s₂) ?_
  rintro ⟨kstack, s₃⟩ hz₃
  have hg₃ := hz₃.grown ht₂
  have hptes : s₂.ptes = Cow.set s.ptes a argsPage (some (g, .writable)) := hptes₂.trans hm.ptes
  refine ⟨(hg₃.archive.trans hsame₂.1).trans hm.archive, (hg₃.mms.trans hsame₂.2.1).trans hm.mms,
    (hg₃.tasks.trans hsame₂.2.2).trans hm.tasks, g, hg₃.ptes.trans hptes, ?_, fun c v f k hk => ?_⟩
  · have hdata : s₂.Data g := ht₂.data (by rw [hptes₂]; exact hg)
    rw [hg₃.mem g hdata.1 hdata.2, hmem₂, Function.update_self]
  · have hdata := h.tables.data hk
    have hk₂ : s₂.ptes c v = some (f, k) := by
      rw [hptes, Cow.set_of_ne, hk]
      rintro ⟨rfl, -⟩
      rw [hnone] at hk
      cases hk
    have hdata₂ := ht₂.data hk₂
    have hfg : f ≠ g := by
      rintro rfl
      exact hdata.1 hm.free
    rw [hg₃.mem f hdata₂.1 hdata₂.2, hmem₂, Function.update_of_ne hfg, hm.mem f hdata]

/-- **The new address space** holds the new program. -/
theorem execLoad_shows {task : VmTask} (h : VmInv s) (ht : s.tasks t = some task) {file : ℕ}
    {headers : List (Option LoadSegment)} (hpaged : (Program.elf file headers).Paged)
    (hin : (Program.elf file headers).InArchive s.archive) :
    Yields (s.execLoad t file headers args) (fun s' => s'.archive = s.archive ∧
      (∃ b mm, s'.userMm t = some (b, mm) ∧
        Shows s' b mm (Process.start s.archive.mem args (.elf file headers))) ∧
      ∀ c, s.mms c ≠ none → Spared s s' c) fun _ => True := by
  rw [execLoad_eq]
  refine yields_bind (newSpace_spec h ht file headers) ?_
  rintro ⟨a, pgd, mm, s₁⟩ ⟨hspace, hnew⟩
  dsimp only at hspace hnew ⊢
  obtain rfl := hnew.pgd
  have hmm₁ : s₁.mms a = some mm := by
    rw [hnew.mms]
    exact Function.update_self ..
  have htask₁ : s₁.tasks t = some { mm := some a, zombie := false } := by
    rw [hnew.tasks]
    exact Function.update_self ..
  have hnone : ∀ v, s₁.ptes a v = none := by
    rw [hnew.ptes]
    exact ptes_none hnew.free
  refine (storeArgs_shows (hnew.keeps True).inv hmm₁ hnone args).mono ?_
  rintro s₂ ⟨harch, hmms, htasks, g, hptes, hmem, hothers⟩
  have harch₂ : s₂.archive = s.archive := harch.trans hnew.archive
  have hother : ∀ c v, ¬(c = a ∧ v = argsPage) → s₂.ptes c v = s.ptes c v := by
    intro c v hne
    rw [hptes, Cow.set_of_ne hne, hnew.ptes]
  refine ⟨harch₂, ⟨a, mm, ?_, ?_⟩, fun c hc => ⟨harch₂, fun v => ?_, fun v f k hk => ?_⟩⟩
  · rw [userMm_eq ((congrFun htasks t).trans htask₁), hmms, hmm₁]
    rfl
  · rw [← harch₂]
    refine shows_start (f := g) hpaged (by rw [harch₂]; exact hin) hspace ?_ hmem fun v hv => ?_
    · rw [hptes]
      exact Cow.set_self _
    · rw [hother a v fun he => hv he.2]
      exact ptes_none hnew.free v
  · refine hother c v ?_
    rintro ⟨rfl, -⟩
    exact hc hnew.free
  · rw [hothers c v f k (by rw [hnew.ptes]; exact hk), (hnew.mem f (h.tables.data hk)).2]

theorem execArgs_keeps (h : VmInv s) (own argv : Option ℕ) :
    Yields (s.execArgs (own.bind s.mms) argv) (fun s' => VmInv s' ∧ s'.mms = s.mms ∧
      s'.tasks = s.tasks ∧ s'.archive = s.archive ∧ ∀ c, own ≠ some c → Spared s s' c) fun _ => True := by
  have hold : ∀ mm, own.bind s.mms = some mm → ∃ a, s.mms a = some mm := fun mm hmm => by
    obtain ⟨a, -, ha⟩ := Option.bind_eq_some_iff.1 hmm
    exact ⟨a, ha⟩
  refine ((execArgs_spec (o := True) h hold argv).and (execArgs_spared h own argv)).imp ?_
    fun _ _ => trivial
  rintro s₁ ⟨⟨k₁, hmms, htasks⟩, hspared⟩
  exact ⟨k₁.inv, hmms, htasks, hspared⟩

/-- **`exec`** gives the task the memory of the program, and leaves the others alone. -/
theorem exec_shows {own : Option ℕ} {task : VmTask} (program : Program) (h : VmInv s)
    (ht : s.tasks t = some task) (argv : Option ℕ) (hpaged : program.Paged)
    (hin : program.InArchive s.archive) :
    Yields (s.exec t (own.bind s.mms) argv args program) (fun s' => s'.archive = s.archive ∧
      (∃ b mm, s'.userMm t = some (b, mm) ∧
        Shows s' b mm (Process.start s.archive.mem args program)) ∧
      ∀ c, own ≠ some c → s.mms c ≠ none → Spared s s' c) fun _ => True := by
  induction program generalizing s argv with
  | elf file headers =>
    rw [exec]
    refine yields_bind (execArgs_keeps h own argv) ?_
    rintro s₁ ⟨h₁, hmms, htasks, harch, hspared⟩
    refine (execLoad_shows h₁ ((congrFun htasks t).trans ht) hpaged (by rw [harch]; exact hin)).mono ?_
    rintro s₂ ⟨harch₂, hshows, hspared₂⟩
    rw [harch] at hshows
    exact ⟨harch₂.trans harch, hshows, fun c hc hmm =>
      (hspared c hc).trans (hspared₂ c (by rw [hmms]; exact hmm))⟩
  | script interp ih =>
    rw [exec]
    refine yields_bind (execArgs_keeps h own argv) ?_
    rintro s₁ ⟨h₁, hmms, htasks, harch, hspared⟩
    have hrest := ih h₁ ((congrFun htasks t).trans ht) none hpaged (by rw [harch]; exact hin)
    rw [hmms, harch] at hrest
    refine hrest.mono ?_
    rintro s₂ ⟨harch₂, hshows, hspared₂⟩
    exact ⟨harch₂, hshows, fun c hc hmm => (hspared c hc).trans (hspared₂ c hc hmm)⟩

end Vm

end PlumOs
