import PlumOs.Vm.Fork

/-!
# The invariant of the address spaces

* `VmInv` : the tables are sound, writable pages are not shared, every mapped page is in an area of
  its address space and a page that may be written, now or after a fault, in a writable one;
* `Keeps` : what every step has to show: the invariant, and that exact counts stay exact;
* `keeps_grown`, `keeps_mapped`, `keeps_copied`, `keeps_owned`, `keeps_areas` : the effects that
  the steps are made of.
-/

namespace PlumOs

open Cow (Mode)

namespace Vm

/-- The invariant of the system. -/
structure VmInv (s : Vm) : Prop where
  /-- The page tables. -/
  tables : TableInv s
  /-- The mappings and the counts. -/
  cow : Cow.Inv s.ptes s.ref
  /-- The counts are below the references that there can be. -/
  bounded : Bounded s
  /-- A page that is mapped is in an area, and stores to it need one that is writable. -/
  covered : ∀ a mm v f k, s.mms a = some mm → s.ptes a v = some (f, k) →
    (∃ vma ∈ mm.mmap, v ∈ vma.pages) ∧
      (k ≠ .readOnly → ∃ vma ∈ mm.mmap, v ∈ vma.pages ∧ vma.writable = true)
  /-- The page of a task is in use. -/
  taskLive : ∀ t task, s.tasks t = some task → s.ref t ≠ 0
  /-- The `mm_struct` of a task is there. -/
  taskMm : ∀ t task a, s.tasks t = some task → task.mm = some a → s.mms a ≠ none
  /-- No two tasks have the same one. -/
  own : ∀ t t' task task' a, s.tasks t = some task → s.tasks t' = some task' → task.mm = some a →
    task'.mm = some a → t = t'

/-- Every reference to a page of a user is an entry of a page table. -/
def ExactRefs (s : Vm) : Prop := Cow.Exact s.ptes s.ref

/-- What a step shows; `o` is the condition for the counts. -/
structure Keeps (s s' : Vm) (o : Prop) : Prop where
  inv : VmInv s'
  exact : o → ExactRefs s → ExactRefs s'
  live : ∀ f, s.ref f ≠ 0 → s'.ref f ≠ 0
  spaces : ∀ a, s'.mms a ≠ none → s.mms a ≠ none ∨ s.ref a = 0
  tableNew : ∀ a p f, s'.Table a p f → s.Table a p f ∨ s.ref f = 0
  pgdStart : s'.pgdStart = s.pgdStart
  archive : s'.archive = s.archive

variable {s s' s₀ : Vm} {a b v w f g r t addr : ℕ} {k : Mode} {mm : MmStruct} {vma : Vma} {o : Prop}

theorem Keeps.refl (h : VmInv s) : Keeps s s o :=
  ⟨h, fun _ he => he, fun _ hf => hf, fun _ => .inl, fun _ _ _ => .inl, rfl, rfl⟩

theorem Keeps.trans {s'' : Vm} (h : Keeps s s' o) (h' : Keeps s' s'' o) : Keeps s s'' o where
  inv := h'.inv
  exact ho he := h'.exact ho (h.exact ho he)
  live f hf := h'.live f (h.live f hf)
  spaces a ha := by
    rcases h'.spaces a ha with ha | h0
    · exact h.spaces a ha
    · by_contra hno
      rw [not_or] at hno
      exact h.live a hno.2 h0
  tableNew a p f ht := by
    rcases h'.tableNew a p f ht with ht | h0
    · exact h.tableNew a p f ht
    · by_contra hno
      rw [not_or] at hno
      exact h.live f hno.2 h0
  pgdStart := h'.pgdStart.trans h.pgdStart
  archive := h'.archive.trans h.archive

theorem Keeps.weaken {o' : Prop} (h : Keeps s s' o') (ho : o → o') : Keeps s s' o :=
  { h with exact := fun hon => h.exact (ho hon) }

theorem VmInv.mms_none (h : VmInv s) (ha : s.ref a = 0) : s.mms a = none := by
  by_contra hne
  exact h.tables.mmLive a hne ha

theorem VmInv.tasks_none (h : VmInv s) (ht : s.ref t = 0) : s.tasks t = none := by
  cases htask : s.tasks t with
  | none => rfl
  | some task => exact absurd ht (h.taskLive t task htask)

theorem VmInv.sameRef (h : VmInv s) (href : ∀ f, s.ref f ≠ 0 → s'.ref f = s.ref f) :
    Cow.SameRef s.ptes s.ref s'.ref := by
  rintro f ⟨⟨a, v⟩, k, hk⟩
  exact href f (h.tables.frames a v f k hk).1

/-! ### Effects on the mappings -/

/-- **Allocations.** -/
theorem keeps_grown (h : VmInv s) (ht : TableInv s') (hg : Grown s s') : Keeps s s' o where
  inv := by
    refine ⟨ht, ?_, ?_, ?_, ?_, ?_, ?_⟩
    · rw [hg.ptes]
      exact h.cow.congr (h.sameRef hg.ref)
    · refine h.bounded.step (fun f => hg.live) fun f => ?_
      by_cases hf : s.ref f = 0
      · rcases hg.one f hf with h0 | h1 <;> omega
      · exact .inl (hg.ref f hf).le
    · rw [hg.ptes, hg.mms]
      exact h.covered
    · rw [hg.tasks]
      exact fun t task htask => hg.live (h.taskLive t task htask)
    · rw [hg.tasks, hg.mms]
      exact h.taskMm
    · rw [hg.tasks]
      exact h.own
  exact _ he := by
    unfold ExactRefs
    rw [hg.ptes]
    exact Cow.Exact.congr he (h.sameRef hg.ref)
  live _ := hg.live
  spaces a ha := .inl (hg.mms ▸ ha)
  tableNew := hg.tableNew
  pgdStart := hg.pgdStart
  archive := hg.archive

theorem keeps_zeroPage (h : VmInv s) (hz : ZeroPage s g s') : Keeps s s' o :=
  keeps_grown h (hz.tableInv h.tables) (hz.grown h.tables)

/-- A page is mapped in another way or to another frame: the parts that do not depend on the
counts. -/
theorem VmInv.remap (h : VmInv s) (ht : TableInv s') (hcow : Cow.Inv s'.ptes s'.ref)
    (hmms : s'.mms = s.mms) (htasks : s'.tasks = s.tasks)
    (hptes : s'.ptes = Cow.set s.ptes a v (some (g, k)))
    (hcov : ∀ mm, s.mms a = some mm → (∃ vma ∈ mm.mmap, v ∈ vma.pages) ∧
      (k ≠ .readOnly → ∃ vma ∈ mm.mmap, v ∈ vma.pages ∧ vma.writable = true))
    (hlive : ∀ f, s.ref f ≠ 0 → s'.ref f ≠ 0) (hle : ∀ f, s'.ref f ≤ s.ref f ∨ s'.ref f ≤ 1) :
    VmInv s' := by
  refine ⟨ht, hcow, h.bounded.step hlive hle, fun b mm w f k' hmm hk => ?_, ?_, ?_, ?_⟩
  · rw [hmms] at hmm
    rw [hptes] at hk
    rcases Cow.set_eq_some hk with ⟨rfl, rfl, hx⟩ | ⟨-, hk⟩
    · obtain rfl := congrArg Prod.snd (Option.some.inj hx)
      exact hcov mm hmm
    · exact h.covered b mm w f k' hmm hk
  · rw [htasks]
    exact fun t task htask => hlive t (h.taskLive t task htask)
  · rw [htasks, hmms]
    exact h.taskMm
  · rw [htasks]
    exact h.own

/-- The page of an address is a page of every area that holds the address. -/
theorem mem_pages_of_holds (h : vma.Holds addr) : addr / pgSize ∈ vma.pages := by
  obtain ⟨hlo, hhi⟩ := h
  refine mem_pages.2 ⟨Nat.div_le_div_right hlo, Nat.div_le_div_right ?_⟩
  omega

/-- **A page is mapped.** -/
theorem keeps_mapped {page : ℕ → ℕ} (h : VmInv s) (hmm : s.mms a = some mm) (hvma : vma ∈ mm.mmap)
    (hv : v ∈ vma.pages) (hnone : s.ptes a v = none)
    (hm : Mapped s s' a v g vma.prot.mode page) : Keeps s s' o := by
  have hfresh : Cow.Fresh s.ptes s.ref s'.ref g := by
    refine ⟨fun b w k' hk => (h.tables.frames b w g k' hk).1 hm.free, hm.refNew, fun x _ hx => ?_⟩
    exact h.sameRef hm.ref x hx
  have hlive : ∀ f, s.ref f ≠ 0 → s'.ref f ≠ 0 := fun f hf => by rw [hm.ref f hf]; exact hf
  refine ⟨h.remap hm.tables ?_ hm.mms hm.tasks hm.ptes (fun mm' hmm' => ?_) hlive fun f => ?_,
    fun _ he => ?_, hlive, fun b hb => .inl (hm.mms ▸ hb), hm.tableNew, hm.pgdStart,
    hm.archive⟩
  · rw [hm.ptes]
    exact h.cow.map hnone hfresh _
  · obtain rfl := Option.some.inj (hmm.symm.trans hmm')
    refine ⟨⟨vma, hvma, hv⟩, fun hmode => ⟨vma, hvma, hv, ?_⟩⟩
    cases hp : vma.prot with
    | readOnly => rw [hp] at hmode; exact absurd rfl hmode
    | readWrite => unfold Vma.writable; rw [hp]; rfl
  · by_cases hf : s.ref f = 0
    · rcases hm.one f hf with h0 | h1 <;> omega
    · exact .inl (hm.ref f hf).le
  · unfold ExactRefs
    rw [hm.ptes]
    exact Cow.Exact.map he hnone hfresh _

/-- **A shared page is copied.** -/
theorem keeps_copied (h : VmInv s) (hcow : s.ptes a v = some (f, .cow)) (hshared : 1 < s.ref f)
    (hc : Copied s s' a v f g) : Keeps s s' o := by
  have hsplit : Cow.Split s.ptes s.ref s'.ref f g := by
    refine ⟨fun b w k' hk => (h.tables.frames b w g k' hk).1 hc.free, hc.refNew, hc.less, ?_⟩
    rintro x hxf - ⟨⟨b, w⟩, k', hk⟩
    exact hc.ref x (h.tables.frames b w x k' hk).1 hxf
  have hlive : ∀ x, s.ref x ≠ 0 → s'.ref x ≠ 0 := by
    intro x hx
    by_cases hxf : x = f
    · rw [hxf, hc.less]
      omega
    · rw [hc.ref x hx hxf]
      exact hx
  refine ⟨h.remap hc.tables ?_ hc.mms hc.tasks hc.ptes (fun mm hmm => ?_) hlive fun x => ?_,
    fun _ he => ?_, hlive, fun b hb => .inl (hc.mms ▸ hb), hc.tableNew, hc.pgdStart,
    hc.archive⟩
  · rw [hc.ptes]
    exact h.cow.split hcow hsplit
  · obtain ⟨hany, hrw⟩ := h.covered a mm v f .cow hmm hcow
    exact ⟨hany, fun _ => hrw (by decide)⟩
  · by_cases hxf : x = f
    · rw [hxf, hc.less]
      exact .inl (by omega)
    · by_cases hx : s.ref x = 0
      · rcases hc.one x hx with h0 | h1 <;> omega
      · exact .inl (hc.ref x hx hxf).le
  · unfold ExactRefs
    rw [hc.ptes]
    exact Cow.Exact.split he h.cow.toCounted hcow hsplit

/-- **The only user left** gets the page. -/
theorem keeps_owned (h : VmInv s) (hcow : s.ptes a v = some (f, .cow)) (hsole : s.ref f ≤ 1)
    (ho : Owned s s' a v f) : Keeps s s' o := by
  have href : s'.ref = s.ref := by
    unfold Vm.ref
    rw [ho.pages]
  have hlive : ∀ x, s.ref x ≠ 0 → s'.ref x ≠ 0 := fun x hx => by rw [href]; exact hx
  refine ⟨h.remap ho.tables ?_ ho.mms ho.tasks ho.ptes (fun mm hmm => ?_) hlive fun x => ?_,
    fun _ he => ?_, hlive, fun b hb => .inl (ho.mms ▸ hb), ho.tableNew, ho.pgdStart,
    ho.archive⟩
  · rw [ho.ptes, href]
    exact h.cow.own hcow hsole
  · obtain ⟨hany, hrw⟩ := h.covered a mm v f .cow hmm hcow
    exact ⟨hany, fun _ => hrw (by decide)⟩
  · rw [href]
    exact .inl le_rfl
  · unfold ExactRefs
    rw [ho.ptes, href]
    exact Cow.Exact.own he hcow

/-- A store to a page that is not a table. -/
theorem keeps_putPage (h : VmInv s) (hf : ∀ a p, ¬ s.Table a p f) (page : ℕ → ℕ) :
    Keeps s (s.putPage f page) o := by
  obtain ⟨ht, hptes, htab⟩ := h.tables.putPage hf page
  refine ⟨⟨ht, ?_, h.bounded, ?_, h.taskLive, h.taskMm, h.own⟩, fun _ he => ?_, fun _ hx => hx,
    fun _ => .inl, fun _ _ _ hx => .inl (htab.1 hx), rfl, rfl⟩
  · rw [hptes]
    exact h.cow
  · rw [hptes]
    exact h.covered
  · unfold ExactRefs
    rw [hptes]
    exact he

/-! ### Effects on the tasks and on the areas -/

section SameTables

variable (h : VmInv s) (hroots : s'.roots = s.roots) (hmem : s'.mem = s.mem) (hpages : s'.pages = s.pages)
  (hpgd : s'.pgdStart = s.pgdStart) (harch : s'.archive = s.archive)

include h hroots hmem hpages hpgd harch

/-- An effect that leaves the tables and the counts alone has to show what `VmInv` says about areas
and tasks. -/
theorem keeps_of_tables
    (hcovered : ∀ a mm v f k, s'.mms a = some mm → s.ptes a v = some (f, k) →
      (∃ vma ∈ mm.mmap, v ∈ vma.pages) ∧
        (k ≠ .readOnly → ∃ vma ∈ mm.mmap, v ∈ vma.pages ∧ vma.writable = true))
    (hlive : ∀ t task, s'.tasks t = some task → s.ref t ≠ 0)
    (hmm : ∀ t task a, s'.tasks t = some task → task.mm = some a → s.mms a ≠ none)
    (hown : ∀ t t' task task' a, s'.tasks t = some task → s'.tasks t' = some task' →
      task.mm = some a → task'.mm = some a → t = t') : Keeps s s' o := by
  have htab : ∀ b p x, s.Table b p x → s'.mem x = s.mem x := fun _ _ _ _ => by rw [hmem]
  have hptes : s'.ptes = s.ptes := ptes_congr hroots htab
  have href : s'.ref = s.ref := by
    funext f
    rw [Vm.ref, Vm.ref, hpages]
  have hnone : ∀ b, s'.mms b ≠ none ↔ s.mms b ≠ none := fun b => by
    rw [← not_iff_not, not_not, not_not, ← roots_eq_none, hroots, roots_eq_none]
  refine ⟨⟨h.tables.congr hroots htab hpgd fun _ hf => href ▸ hf, ?_, ?_, ?_, ?_, ?_, hown⟩,
    fun _ he => ?_, fun _ hf => href ▸ hf, fun b hb => .inl ((hnone b).1 hb),
    fun _ _ _ hx => .inl ((table_congr hroots htab).1 hx), hpgd, harch⟩
  · rw [hptes, href]
    exact h.cow
  · exact h.bounded.step (fun _ hf => href ▸ hf) fun f => .inl (congrFun href f).le
  · rw [hptes]
    exact hcovered
  · rw [href]
    exact hlive
  · exact fun t task a htask ha => (hnone a).2 (hmm t task a htask ha)
  · rw [ExactRefs, hptes, href]
    exact he

end SameTables

/-- What the kernel keeps for itself does not matter. -/
theorem keeps_kernel (h : VmInv s) (bytes : ℕ → Option ℕ) : Keeps s { s with kernel := bytes } o :=
  keeps_of_tables h rfl rfl rfl rfl rfl h.covered h.taskLive h.taskMm h.own

/-- A task gets an address space that nobody else has. -/
theorem keeps_setTask (h : VmInv s) (ht : s.ref t ≠ 0) (task : VmTask)
    (hmm : ∀ a, task.mm = some a → s.mms a ≠ none ∧
      ∀ t' task', t' ≠ t → s.tasks t' = some task' → task'.mm ≠ some a) :
    Keeps s { s with tasks := Function.update s.tasks t (some task) } o := by
  have htask : ∀ t' task', Function.update s.tasks t (some task) t' = some task' →
      t' = t ∧ task' = task ∨ t' ≠ t ∧ s.tasks t' = some task' := by
    intro t' task' ht'
    by_cases htt : t' = t
    · subst htt
      rw [Function.update_self] at ht'
      exact .inl ⟨rfl, (Option.some.inj ht').symm⟩
    · rw [Function.update_of_ne htt] at ht'
      exact .inr ⟨htt, ht'⟩
  refine keeps_of_tables h rfl rfl rfl rfl rfl h.covered ?_ ?_ ?_
  · intro t' task' ht'
    rcases htask t' task' ht' with ⟨rfl, -⟩ | ⟨-, hold⟩
    · exact ht
    · exact h.taskLive t' task' hold
  · intro t' task' a ht' ha
    rcases htask t' task' ht' with ⟨-, rfl⟩ | ⟨-, hold⟩
    · exact (hmm a ha).1
    · exact h.taskMm t' task' a hold ha
  · intro t₁ t₂ task₁ task₂ a h₁ h₂ ha₁ ha₂
    rcases htask t₁ task₁ h₁ with ⟨rfl, rfl⟩ | ⟨hne₁, hold₁⟩ <;>
      rcases htask t₂ task₂ h₂ with ⟨rfl, rfl⟩ | ⟨hne₂, hold₂⟩
    · rfl
    · exact absurd ha₂ ((hmm a ha₁).2 t₂ task₂ hne₂ hold₂)
    · exact absurd ha₁ ((hmm a ha₂).2 t₁ task₁ hne₁ hold₁)
    · exact h.own t₁ t₂ task₁ task₂ a hold₁ hold₂ ha₁ ha₂

/-- The end of a task. -/
theorem keeps_exitSt (h : VmInv s) (t : ℕ) : Keeps s (s.exitSt t) o := by
  unfold exitSt
  cases htask : s.tasks t with
  | none =>
    have hsame : Function.update s.tasks t none = s.tasks := by
      rw [← htask]
      exact Function.update_eq_self t s.tasks
    rw [Option.map_none, hsame]
    exact Keeps.refl h
  | some task =>
    rw [Option.map_some]
    refine keeps_setTask h (h.taskLive t task htask) _ fun a ha => ?_
    refine ⟨h.taskMm t task a htask ha, fun t' task' hne htask' ha' => hne ?_⟩
    exact h.own t' t task' task a htask' htask ha' ha

/-- More areas for an address space. -/
theorem keeps_areas {mm' : MmStruct} (h : VmInv s) (hmm : s.mms a = some mm)
    (hpgd : mm'.pgd = mm.pgd) (hsub : ∀ vma ∈ mm.mmap, vma ∈ mm'.mmap) :
    Keeps s { s with mms := Function.update s.mms a (some mm') } o := by
  have hroots : ({ s with mms := Function.update s.mms a (some mm') } : Vm).roots = s.roots := by
    rw [roots_update, hpgd, ← roots_of_mm hmm]
    exact Function.update_eq_self a s.roots
  refine keeps_of_tables h hroots rfl rfl rfl rfl (fun b mmb v f k hb hk => ?_) h.taskLive h.taskMm h.own
  by_cases hba : b = a
  · subst hba
    have heq : Function.update s.mms b (some mm') b = some mmb := hb
    rw [Function.update_self, Option.some.injEq] at heq
    subst heq
    -- the areas that covered the page are still there
    obtain ⟨⟨vma, hvma, hv⟩, hrw⟩ := h.covered b mm v f k hmm hk
    refine ⟨⟨vma, hsub vma hvma, hv⟩, fun hk' => ?_⟩
    obtain ⟨vma', hvma', hv'⟩ := hrw hk'
    exact ⟨vma', hsub vma' hvma', hv'⟩
  · have hb' : s.mms b = some mmb := (Function.update_of_ne hba ..).symm.trans hb
    exact h.covered b mmb v f k hb' hk

/-- Nothing is mapped where there is no address space. -/
theorem ptes_none (h : s.mms a = none) (v : ℕ) : s.ptes a v = none := by
  unfold ptes pte
  rw [roots_eq_none.2 h]
  split <;> rfl

/-- **A new address space** without pages, under a frame that was free when the step began. -/
theorem Keeps.root (hk : Keeps s₀ s o) (ha₀ : s₀.ref a = 0) (hp₀ : s₀.ref mm.pgd = 0)
    (ha : s.mms a = none)
    (hdir : Directory s mm.pgd) (hg : Spare s mm.pgd) (hun : Cow.Unmapped s.ptes mm.pgd)
    (hlive : s.ref a ≠ 0) : Keeps s₀ { s with mms := Function.update s.mms a (some mm) } o := by
  have h := hk.inv
  have hptes := ptes_root ha hdir
  have htab := h.tables.root ha hdir hg hun hlive
  have hnew : ∀ {b q w}, ({ s with mms := Function.update s.mms a (some mm) } : Vm).Table b q w →
      s.Table b q w ∨ w = mm.pgd := fun hx => ((table_root ha hdir).1 hx).imp_right fun hx => hx.2.2
  obtain ⟨s', hs'⟩ : ∃ s' : Vm, s' = { s with mms := Function.update s.mms a (some mm) } := ⟨_, rfl⟩
  rw [← hs'] at hptes htab hnew ⊢
  have href : s'.ref = s.ref := by rw [hs']; rfl
  have htasks : s'.tasks = s.tasks := by rw [hs']
  have hmms : ∀ b, b ≠ a → s'.mms b = s.mms b := fun b hb => by
    rw [hs']
    exact Function.update_of_ne hb ..
  refine ⟨⟨htab, ?_, ?_, ?_, ?_, ?_, ?_⟩, fun ho he => ?_, fun f hf => ?_, fun b hb => ?_,
    fun b q x hx => ?_, ?_, ?_⟩
  · rw [hptes, href]
    exact h.cow
  · exact h.bounded.step (fun _ hf => href ▸ hf) fun f => .inl (congrFun href f).le
  · intro b mmb v f k hb hv
    rw [hptes] at hv
    have hba : b ≠ a := by
      rintro rfl
      rw [ptes_none ha v] at hv
      simp at hv
    rw [hmms b hba] at hb
    exact h.covered b mmb v f k hb hv
  · rw [htasks, href]
    exact h.taskLive
  · intro t task b htask hb
    rw [htasks] at htask
    have hne := h.taskMm t task b htask hb
    rw [hmms b fun hba => hne (hba ▸ ha)]
    exact hne
  · rw [htasks]
    exact h.own
  · unfold ExactRefs
    rw [hptes, href]
    exact hk.exact ho he
  · rw [href]
    exact hk.live f hf
  · by_cases hba : b = a
    · exact .inr (hba ▸ ha₀)
    · rw [hmms b hba] at hb
      exact hk.spaces b hb
  · rcases hnew hx with hx | rfl
    · exact hk.tableNew b q x hx
    · exact .inr hp₀
  · rw [hs']
    exact hk.pgdStart
  · rw [hs']
    exact hk.archive

/-! ### New address spaces -/

/-- What `alloc_pgd` does. -/
structure NewPgd (s : Vm) (p : ℕ) (s' : Vm) : Prop where
  tables : TableInv s'
  grown : Grown s s'
  free : s.ref p = 0
  live : s'.ref p ≠ 0
  notTable : ∀ a q, ¬ s'.Table a q p
  directory : Directory s' p

theorem allocPgd_spec (h : TableInv s) :
    Yields s.allocPgd (fun x => NewPgd s x.1 x.2) fun _ => True := by
  unfold allocPgd
  refine yields_bind (getZeroPage_spec s) ?_
  rintro ⟨p, s₁⟩ hz
  have h₁ := hz.tableInv h
  have hno := (hz.spare h).notTable
  obtain ⟨page, hpage⟩ : ∃ page, page = Function.update s₁.pgdStart selfRefIndex
    (entry p (pteP + pteRw)) := ⟨_, rfl⟩
  have heq : (s₁.putPage p s₁.pgdStart).putEntry p selfRefIndex p (pteP + pteRw) =
      s₁.putPage p page := by
    refine congrArg (fun m => { s₁ with mem := m }) ?_
    show Function.update (Function.update s₁.mem p s₁.pgdStart) p (Function.update
      (Function.update s₁.mem p s₁.pgdStart p) _ _) = _
    rw [Function.update_self, Function.update_idem, hpage]
  show NewPgd s p ((s₁.putPage p s₁.pgdStart).putEntry p selfRefIndex p (pteP + pteRw))
  rw [heq]
  obtain ⟨h₃, hptes₃, htab₃⟩ := h₁.putPage hno page
  have hgrown := hz.grown h
  have hmem : ∀ x, x ≠ p → (s₁.putPage p page).mem x = s₁.mem x := fun x hx =>
    Function.update_of_ne hx ..
  refine ⟨h₃, ⟨hgrown.mms, hgrown.tasks, hgrown.archive, hgrown.pgdStart,
    hptes₃.trans hgrown.ptes, hgrown.ref, hgrown.one,
    fun a q x hx => htab₃.2 (hgrown.table a q x hx),
    fun a q x hx => hgrown.tableNew a q x (htab₃.1 hx), fun x hx hx' => ?_⟩, hz.free,
    (hz.spare h).live, fun a q hx => hno a q (htab₃.1 hx), ?_⟩
  · rw [hmem x (hz.ne hx)]
    exact hgrown.mem x hx hx'
  · have hself : (s₁.putPage p page).mem p = page := Function.update_self ..
    refine ⟨fun i hi => ?_, fun i _ => ?_⟩
    · rw [hself, hpage, Function.update_of_ne (by unfold selfRefIndex; omega)]
      exact s₁.pgdUser i hi
    · rw [hself, hpage]
      exact Function.update_apply ..

/-- Allocations since `s` have made ready the page `b` of an `mm_struct` and the directory `pgd`. -/
structure Prepared (s s' : Vm) (b pgd : ℕ) : Prop where
  tables : TableInv s'
  grown : Grown s s'
  freeMm : s.ref b = 0
  liveMm : s'.ref b ≠ 0
  freePgd : s.ref pgd = 0
  spare : Spare s' pgd
  directory : Directory s' pgd

theorem NewPgd.prepared {s'' : Vm} {p : ℕ} (hg : Grown s s') (h : NewPgd s' p s'') (hb : s.ref b = 0)
    (hlive : s'.ref b ≠ 0) : Prepared s s'' b p :=
  ⟨h.tables, hg.trans h.grown, hb, h.grown.live hlive, hg.free h.free, ⟨h.live, h.notTable⟩,
    h.directory⟩

/-- Further allocations do not matter. -/
theorem Prepared.grow {s'' : Vm} {p : ℕ} (h : Prepared s s' b p) (ht : TableInv s'')
    (hg : Grown s' s'') : Prepared s s'' b p := by
  have hmem := hg.mem p h.spare.live h.spare.notTable
  have hdata := hg.data (f := p) ⟨h.spare.live, h.spare.notTable⟩
  refine ⟨ht, h.grown.trans hg, h.freeMm, hg.live h.liveMm, h.freePgd, ⟨hdata.1, hdata.2⟩,
    fun i hi => ?_, fun i hi => ?_⟩
  · rw [hmem]
    exact h.directory.user i hi
  · rw [hmem, h.directory.upper i hi]
    unfold upperEntry
    rw [hg.pgdStart]

/-- **The new address space**: nothing that was there before changed. -/
theorem Prepared.root (h : Prepared s s' b mm.pgd) (hs : VmInv s) :
    Keeps s { s' with mms := Function.update s'.mms b (some mm) } o ∧
      ({ s' with mms := Function.update s'.mms b (some mm) } : Vm).ptes = s.ptes ∧
      ∀ f, s.Data f → ({ s' with mms := Function.update s'.mms b (some mm) } : Vm).Data f ∧
        s'.mem f = s.mem f := by
  have hb : s'.mms b = none := by rw [h.grown.mms]; exact hs.mms_none h.freeMm
  have hun : Cow.Unmapped s'.ptes mm.pgd := by
    rw [h.grown.ptes]
    exact fun a v k hk => (hs.tables.frames a v _ k hk).1 h.freePgd
  refine ⟨(keeps_grown hs h.tables h.grown).root h.freeMm h.freePgd hb h.directory h.spare hun h.liveMm,
    (ptes_root hb h.directory).trans h.grown.ptes, fun f hf => ⟨⟨(h.grown.data hf).1, ?_⟩, ?_⟩⟩
  · intro c q ht
    rcases (table_root hb h.directory).1 ht with ht | ⟨-, -, rfl⟩
    · exact (h.grown.data hf).2 c q ht
    · exact hf.1 h.freePgd
  · exact h.grown.mem f hf.1 hf.2

end Vm

end PlumOs
