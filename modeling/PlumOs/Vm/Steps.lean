import PlumOs.Vm.Spaces

/-!
# The steps of the system

Every step keeps the invariant of the address spaces.  A `fork` keeps the counts exact if no page
that the parent has mapped is in two of its areas.

* `fork_spec` : what the child and the parent see after a `fork`;
* `exec_spec`, `brk_spec`, `load_spec`, `store_spec` : the other calls;
* `step_keeps` : all the steps.
-/

namespace PlumOs

open Cow (Mode)

namespace Vm

variable {s s' s₀ : Vm} {a b v w f g r t addr : ℕ} {k : Mode} {mm : MmStruct} {vma : Vma} {o : Prop}

/-! ### `fork` -/

/-- No mapped page of the address space `a` is in two of its areas. -/
def NoOverlap (s : Vm) (a : ℕ) (mm : MmStruct) : Prop :=
  ∀ v, s.ptes a v ≠ none → (mm.mmap.countP fun vma => v ∈ vma.pages) ≤ 1

theorem mem_mmapVisits {areas : List Vma} :
    (v, true) ∈ mmapVisits areas ↔ ∃ vma ∈ areas, v ∈ vma.pages ∧ vma.writable = true := by
  unfold mmapVisits areaVisits
  simp

theorem visits_ne_zero {areas : List Vma} :
    Cow.visits (mmapVisits areas) v ≠ 0 ↔ ∃ vma ∈ areas, v ∈ vma.pages := by
  rw [visits_areas, ← Nat.pos_iff_ne_zero, List.countP_pos_iff]
  simp

section CopyMm

variable (h : VmInv s₀) (hab : a ≠ b) (hold : s₀.mms a = some mm) (hb : ∀ v, s₀.ptes b v = none)
  {new : MmStruct} (hc : Areas s₀ s a b new mm.mmap)

include h hc

theorem bounded_areas : Bounded s := by
  intro f
  have hused := hc.used
  have h₀ := h.bounded f
  by_cases hf : s₀.ref f = 0
  · rcases hc.copying.one f hf with h0 | h1 <;> omega
  · by_cases hmapped : ∃ v k, s₀.ptes a v = some (f, k)
    · obtain ⟨v, k, hv⟩ := hmapped
      have hvis : Cow.visits (mmapVisits mm.mmap) v ≤ mm.mmap.length := by
        rw [visits_areas]
        exact List.countP_le_length
      have href := hc.copying.fork.shared v f k hv
      omega
    · have hno : ∀ v k, s₀.ptes a v ≠ some (f, k) := fun v k hv => hmapped ⟨v, k, hv⟩
      by_cases hmaps : (Cow.mapsTo s₀.ptes f).Nonempty
      · have href := hc.copying.fork.same f hno hmaps
        omega
      · have hun : Cow.Unmapped s₀.ptes f := fun c v k hv => hmaps ⟨(c, v), k, hv⟩
        have href := hc.copying.kernel f hf hun
        omega

include hold

theorem covered_areas (c : ℕ) (mmc : MmStruct) (v f : ℕ) (k : Mode) (hmmc : s.mms c = some mmc)
    (hk : s.ptes c v = some (f, k)) : (∃ vma ∈ mmc.mmap, v ∈ vma.pages) ∧
      (k ≠ .readOnly → ∃ vma ∈ mmc.mmap, v ∈ vma.pages ∧ vma.writable = true) := by
  have hfork := hc.copying.fork
  by_cases hcb : c = b
  · subst hcb
    obtain rfl := Option.some.inj (hc.space.symm.trans hmmc)
    obtain ⟨hvis, hnw, k₀, hk₀⟩ := hfork.child_frame hk
    refine ⟨visits_ne_zero.1 hvis, fun hro => mem_mmapVisits.1 (hfork.cow (f := f) ?_)⟩
    cases k with
    | readOnly => exact absurd rfl hro
    | writable => exact absurd rfl hnw
    | cow => exact hk
  · rw [hc.copying.mms c hcb] at hmmc
    by_cases hca : c = a
    · subst hca
      obtain rfl := Option.some.inj (hold.symm.trans hmmc)
      obtain ⟨k₀, hk₀, hmode⟩ := hfork.parent_frame hk
      obtain ⟨hany, hrw⟩ := h.covered c mm v f k₀ hold hk₀
      refine ⟨hany, fun hro => ?_⟩
      split at hmode
      · next hdone => exact mem_mmapVisits.1 hdone
      · exact hrw (hmode ▸ hro)
    · rw [hfork.others c hca hcb] at hk
      exact h.covered c mmc v f k hmmc hk

include hab hb in
/-- **The copy of the areas** keeps the invariant. -/
theorem keeps_copyMm : Keeps s₀ s (NoOverlap s₀ a mm) := by
  have hfork := hc.copying.fork
  have hnone : ∀ c, s.mms c ≠ none ↔ s₀.mms c ≠ none := fun c => by
    rw [← not_iff_not, not_not, not_not, ← roots_eq_none, hc.copying.roots, roots_eq_none]
  refine ⟨⟨hc.copying.tables, ?_, bounded_areas h hc, covered_areas h hold hc, ?_,
    ?_, ?_⟩, fun honce he => ?_, hc.copying.live, fun c hne => .inl ((hnone c).1 hne),
    hc.copying.tableNew, hc.copying.pgdStart, hc.copying.archive⟩
  · refine hfork.inv hab hb h.cow fun v f hv => mem_mmapVisits.2 ?_
    exact (h.covered a mm v f .writable hold hv).2 (by decide)
  · rw [hc.copying.tasks]
    exact fun t task htask => hc.copying.live t (h.taskLive t task htask)
  · rw [hc.copying.tasks]
    exact fun t task c htask hmm => (hnone c).2 (h.taskMm t task c htask hmm)
  · rw [hc.copying.tasks]
    exact h.own
  · refine hfork.exact hab hb h.cow.toCounted he fun v f k hv => ?_
    rw [visits_areas]
    exact honce v (by rw [hv]; simp)

/-- The child maps the frames that the parent mapped, and nobody's frames changed. -/
theorem frames_copyMm (c v : ℕ) : (s.ptes c v).map Prod.fst =
    if c = b then (s₀.ptes a v).map Prod.fst else (s₀.ptes c v).map Prod.fst := by
  have hfork := hc.copying.fork
  split
  · next hcb =>
    subst hcb
    obtain ⟨k, -, hchild⟩ := hfork.child v
    rw [hchild]
    cases hx : s₀.ptes a v with
    | none => split <;> rfl
    | some x =>
      have hvis : Cow.visits (mmapVisits mm.mmap) v ≠ 0 :=
        visits_ne_zero.2 (h.covered a mm v x.1 x.2 hold hx).1
      rw [if_neg hvis]
      rfl
  · next hcb =>
    by_cases hca : c = a
    · subst hca
      rw [hfork.parent v, Option.map_map]
      rfl
    · rw [hfork.others c hca hcb]

end CopyMm

/-- What a `fork` by a task with the address space `a` does: `b` is the one of the child. -/
structure Forked (s s' : Vm) (a : ℕ) (mm : MmStruct) (child b : ℕ) : Prop where
  /-- The invariant is kept, and exact counts if no mapped page is in two areas. -/
  keeps : Keeps s s' (NoOverlap s a mm)
  /-- The page of the child was no task. -/
  freshTask : s.tasks child = none
  /-- The address space is new. -/
  freshMm : s.mms b = none
  /-- The child has the new address space. -/
  task : s'.tasks child = some { mm := some b, zombie := false }
  /-- The other tasks stay. -/
  tasks : ∀ t, t ≠ child → s'.tasks t = s.tasks t
  /-- The new address space has the areas of the parent and a directory of its own. -/
  space : ∃ pgd, s'.mms b = some { mm with pgd := pgd }
  /-- The other address spaces stay. -/
  spaces : ∀ c, c ≠ b → s'.mms c = s.mms c
  archive : s'.archive = s.archive
  /-- The child has the frames of the parent, and nobody else has others than before. -/
  frames : ∀ c v, (s'.ptes c v).map Prod.fst =
    if c = b then (s.ptes a v).map Prod.fst else (s.ptes c v).map Prod.fst
  /-- The writable pages of the parent are copy-on-write now. -/
  parent : ∀ v, s'.ptes a v = (s.ptes a v).map fun x =>
    (x.1, if (v, true) ∈ mmapVisits mm.mmap then .cow else x.2)
  /-- A page of the child is copy-on-write or read-only, as its area is. -/
  mode : ∀ v f k, s'.ptes b v = some (f, k) → ∃ rw, (v, rw) ∈ mmapVisits mm.mmap ∧ k = Cow.copyMode rw
  /-- The tables stay. -/
  table : ∀ c p f, s.Table c p f → s'.Table c p f
  /-- The memory stays, but for new tables. -/
  mem : ∀ f, s.Data f → s'.mem f = s.mem f

/-- A new address space that is ready for the copy. -/
theorem areas_nil (h : VmInv s) (hb : ∀ v, s.ptes b v = none) {new : MmStruct}
    (hnew : s.mms b = some { new with mmap := [] }) : Areas s s a b new [] where
  copying := ⟨h.tables, Cow.Forking.nil hb, rfl, fun _ _ => rfl, rfl, rfl, rfl, fun _ hf => hf,
    fun _ _ _ => rfl, fun _ hf => .inl hf, fun _ _ _ => id, fun _ _ _ ht => .inl ht, fun _ _ => rfl⟩
  space := hnew
  used := le_rfl

/-- **`fork`** gives the child the pages of the parent. -/
theorem fork_spec (h : VmInv s) (hmm : s.mms a = some mm) :
    Yields (s.fork mm) (fun x => ∃ b, Forked s x.2 a mm x.1 b) fun _ => True := by
  unfold fork
  refine yields_bind (getZeroPage_spec s) ?_
  rintro ⟨tsp, s₁⟩ hz₁
  have k₁ := keeps_zeroPage (o := NoOverlap s a mm) h hz₁
  refine yields_bind (getZeroPage_spec s₁) ?_
  rintro ⟨stack, s₂⟩ hz₂
  have k₂ := k₁.trans (keeps_zeroPage k₁.inv hz₂)
  refine yields_bind (getZeroPage_spec s₂) ?_
  rintro ⟨b, s₃⟩ hz₃
  have k₃ := k₂.trans (keeps_zeroPage k₂.inv hz₃)
  refine yields_bind (allocPgd_spec k₃.inv.tables) ?_
  rintro ⟨pgd, s₄⟩ hp
  have hg₂ : Grown s s₂ := (hz₁.grown h.tables).trans (hz₂.grown k₁.inv.tables)
  have hg₃ : Grown s s₃ := hg₂.trans (hz₃.grown k₂.inv.tables)
  have hready := NewPgd.prepared hg₃ hp (hg₂.free hz₃.free) (hz₃.spare k₂.inv.tables).live
  have hb : s.mms b = none := h.mms_none hready.freeMm
  have hab : a ≠ b := by
    rintro rfl
    exact absurd (hmm.symm.trans hb) (by simp)
  -- the child gets an empty address space
  obtain ⟨new, hnew⟩ : ∃ new : MmStruct, new = { mm with mmap := [], pgd := pgd } := ⟨_, rfl⟩
  have hpgd : new.pgd = pgd := by rw [hnew]
  obtain ⟨k₅, hptes₅, hdata₅⟩ := Prepared.root (o := NoOverlap s a mm) (hpgd ▸ hready) h
  obtain ⟨s₅, hs₅⟩ : ∃ s₅ : Vm, s₅ = { s₄ with mms := Function.update s₄.mms b (some new) } :=
    ⟨_, rfl⟩
  simp only [← hnew, ← hs₅] at k₅ hptes₅ hdata₅ ⊢
  have hmms₅ : ∀ c, c ≠ b → s₅.mms c = s.mms c := fun c hc => by
    rw [hs₅, ← hready.grown.mms]
    exact Function.update_of_ne hc ..
  have hnew₅ : s₅.mms b = some new := by rw [hs₅]; exact Function.update_self ..
  have hold₅ : s₅.mms a = some mm := (hmms₅ a hab).trans hmm
  have hnone₅ : ∀ v, s₅.ptes b v = none := fun v => by rw [hptes₅]; exact ptes_none hb v
  have hareas : Areas s₅ s₅ a b new [] := areas_nil k₅.inv hnone₅ (by rw [hnew₅, hnew])
  -- and the pages of the parent
  refine yields_bind (copyMm_spec k₅.inv.tables k₅.inv.cow.toCounted hab (roots_of_mm hold₅)
    ((roots_of_mm hnew₅).trans (congrArg some hpgd)) k₅.inv.bounded rfl hareas) ?_
  intro s₆ hc
  have hover : NoOverlap s a mm → NoOverlap s₅ a mm := by
    unfold NoOverlap
    rw [hptes₅]
    exact id
  have k₆ := k₅.trans ((keeps_copyMm k₅.inv hab hold₅ hnone₅ hc).weaken hover)
  have htasks₆ : s₆.tasks = s.tasks := by rw [hc.copying.tasks, hs₅]; exact hready.grown.tasks
  have htsp : s.tasks tsp = none := h.tasks_none hz₁.free
  have hlive₆ : s₆.ref tsp ≠ 0 := by
    refine hc.copying.live tsp ?_
    rw [hs₅]
    refine hp.grown.live (hz₃.live (hz₂.live ?_))
    exact (hz₁.spare h.tables).live
  have k₇ := k₆.trans (keeps_setTask k₆.inv hlive₆ { mm := some b, zombie := false }
    fun c hcb => ⟨?_, fun t' task' _ htask' hmm' => ?_⟩)
  · refine ⟨b, k₇, htsp, hb, Function.update_self .., fun t ht => ?_, ?_, fun c hcb => ?_, ?_,
      fun c v => ?_, fun v => ?_, hc.copying.fork.mode, fun c p f hp => ?_, fun f hf => ?_⟩
    · exact (Function.update_of_ne ht ..).trans (congrFun htasks₆ t)
    · exact ⟨pgd, hc.space.trans (by rw [hnew])⟩
    · exact (hc.copying.mms c hcb).trans (hmms₅ c hcb)
    · show s₆.archive = s.archive
      rw [hc.copying.archive, hs₅]
      exact hready.grown.archive
    · rw [← hptes₅]
      exact frames_copyMm k₅.inv hold₅ hc c v
    · rw [← hptes₅]
      exact hc.copying.fork.parent v
    · refine hc.copying.table c p f ?_
      rw [hs₅]
      have hnone : s₄.mms b = none := by rw [hready.grown.mms]; exact hb
      exact (table_root hnone (hpgd ▸ hready.directory)).2 (.inl (hready.grown.table c p f hp))
    · obtain ⟨hf₅, hmem⟩ := hdata₅ f hf
      show s₆.mem f = s.mem f
      rw [hc.copying.mem f hf₅, hs₅]
      exact hmem
  · obtain rfl := Option.some.inj hcb
    rw [hc.space]
    simp
  · obtain rfl := Option.some.inj hcb
    rw [htasks₆] at htask'
    exact h.taskMm t' task' b htask' hmm' hb

/-! ### `exec` and `brk` -/

/-- A call of `map_a_page` for an area of the address space. -/
theorem keeps_mapAPage (h : VmInv s) (hmm : s.mms a = some mm) (hvma : vma ∈ mm.mmap)
    (hv : addr / pgSize ∈ vma.pages) : Yields (s.mapAPage mm.pgd vma addr)
      (fun s' => Keeps s s' o ∧ s'.mms = s.mms ∧ s'.tasks = s.tasks) fun _ => True := by
  refine (mapAPage_spec h.tables (roots_of_mm hmm) (lt_of_mem_pages hv) vma).mono ?_
  rintro s' (⟨-, ht, hg⟩ | ⟨hnone, g, page, hm, -⟩)
  · exact ⟨keeps_grown h ht hg, hg.mms, hg.tasks⟩
  · exact ⟨keeps_mapped h hmm hvma hv hnone hm, hm.mms, hm.tasks⟩

theorem holds_of_searchVma (h : searchVma addr mm = some vma) : vma ∈ mm.mmap ∧ vma.Holds addr :=
  ⟨List.mem_of_find?_eq_some h, by simpa using List.find?_some h⟩

theorem execArgs_spec {old : Option MmStruct} (h : VmInv s)
    (hold : ∀ mm, old = some mm → ∃ a, s.mms a = some mm) (argv : Option ℕ) :
    Yields (s.execArgs old argv)
      (fun s' => Keeps s s' o ∧ s'.mms = s.mms ∧ s'.tasks = s.tasks) fun _ => True := by
  unfold execArgs
  refine yields_bind (getZeroPage_spec s) ?_
  rintro ⟨kbuf, s₁⟩ hz
  have k₁ := keeps_zeroPage (o := o) h hz
  cases argv with
  | none => exact ⟨k₁, hz.mms, hz.tasks⟩
  | some addr =>
    cases old with
    | none => trivial
    | some mm =>
      cases hfind : searchVma addr mm with
      | none => simp only [hfind]; trivial
      | some vma =>
        simp only [hfind]
        obtain ⟨a, ha⟩ := hold mm rfl
        obtain ⟨hvma, hholds⟩ := holds_of_searchVma hfind
        have ha₁ : s₁.mms a = some mm := (congrFun hz.mms a).trans ha
        refine (keeps_mapAPage (o := o) k₁.inv ha₁ hvma (mem_pages_of_holds hholds)).mono ?_
        rintro s₂ ⟨k₂, hmms, htasks⟩
        exact ⟨k₁.trans k₂, hmms.trans hz.mms, htasks.trans hz.tasks⟩

/-- The segments that the loop over the program headers gets to: it stays at the first header that is
not `PT_LOAD`. -/
def loaded : List (Option LoadSegment) → List LoadSegment
  | some seg :: ph => seg :: loaded ph
  | _ => []

theorem exists_segment {ph : List (Option LoadSegment)} (h : loaded ph ≠ []) :
    ∃ seg rest, ph = some seg :: rest := by
  match ph with
  | some seg :: rest => exact ⟨seg, rest, rfl⟩
  | none :: rest => exact absurd rfl h
  | [] => exact absurd rfl h

/-- The end of a segment with the given flags, otherwise `e`. -/
def segmentEnd (seg : Option LoadSegment) (flags e : ℕ) : ℕ :=
  match seg with
  | some seg => if seg.pFlags = flags then seg.pVaddr + seg.pMemsz else e
  | none => e

/-- `user_heap`: above the second segment if that is for data, otherwise above the code. -/
def heapStart (headers : List (Option LoadSegment)) : ℕ :=
  let dataEnd := segmentEnd (loaded headers)[1]? 6 0
  if dataEnd ≠ 0 then pgAlign dataEnd else pgAlign (segmentEnd (loaded headers)[0]? 5 0)

/-- The areas and the heap of the address space that `exec` makes for a program. -/
def Program.Space : Program → MmStruct → Prop
  | .elf file headers, mm => mm.mmap = (loaded headers).map (fun seg => seg.vma file) ++ [stackVma] ∧
      mm.userHeap = heapStart headers ∧ mm.brk = heapStart headers
  | .script interp, mm => interp.Space mm

/-- The loop stays at a header that is not `PT_LOAD`. -/
theorem execSegments_of_loaded_nil {file i n : ℕ} {ph : List (Option LoadSegment)} (h : loaded ph = []) :
    s.execSegments file i (n + 1) ph mm = s.execSegments file (i + 1) n ph mm := by
  match ph with
  | some seg :: ph => exact absurd h (List.cons_ne_nil seg _)
  | none :: ph =>
    rw [execSegments]
    simp
  | [] =>
    rw [execSegments]
    simp

/-- The loop over the program headers takes pages and adds the areas of the segments. -/
theorem execSegments_spec (h : TableInv s) (file i n : ℕ) (ph : List (Option LoadSegment))
    (mm : MmStruct) (hn : n = ph.length ∨ loaded ph = []) : Yields (s.execSegments file i n ph mm)
      (fun x => TableInv x.2 ∧ Grown s x.2 ∧ x.1.pgd = mm.pgd ∧
        x.1.mmap = mm.mmap ++ (loaded ph).map (fun seg => seg.vma file) ∧
        x.1.codeEnd = (if i = 0 then segmentEnd (loaded ph)[0]? 5 mm.codeEnd else mm.codeEnd) ∧
        x.1.dataEnd = if i ≤ 1 then segmentEnd (loaded ph)[1 - i]? 6 mm.dataEnd else mm.dataEnd)
      fun _ => True := by
  induction n generalizing s i ph mm with
  | zero =>
    have hnil : loaded ph = [] := by
      rcases hn with hn | hnil
      · rw [List.length_eq_zero_iff.1 hn.symm]
        rfl
      · exact hnil
    refine ⟨h, Grown.refl s, rfl, ?_, ?_, ?_⟩ <;> simp [hnil, segmentEnd]
  | succ n ih =>
    by_cases hnil : loaded ph = []
    · rw [execSegments_of_loaded_nil hnil]
      refine (ih h (i + 1) ph mm (.inr hnil)).mono ?_
      rintro ⟨mm', s₂⟩ ⟨h₂, hg₂, hpgd, hmmap, hcode, hdata⟩
      exact ⟨h₂, hg₂, hpgd, hmmap, by simpa [hnil, segmentEnd] using hcode,
        by simpa [hnil, segmentEnd] using hdata⟩
    · obtain ⟨seg, ph, rfl⟩ := exists_segment hnil
      rw [execSegments]
      refine yields_bind (getZeroPage_spec s) ?_
      rintro ⟨g, s₁⟩ hz
      have hlen : n = ph.length ∨ loaded ph = [] := .inl (Nat.succ.inj (hn.resolve_right hnil))
      refine (ih (hz.tableInv h) _ ph _ hlen).mono ?_
      rintro ⟨mm', s₂⟩ ⟨h₂, hg₂, hpgd, hmmap, hcode, hdata⟩
      refine ⟨h₂, (hz.grown h).trans hg₂, hpgd, ?_, ?_, ?_⟩
      · rw [hmmap]
        simp [loaded]
      · rw [hcode]
        rcases i with _ | i <;> simp [loaded, segmentEnd]
      · rw [hdata]
        rcases i with _ | _ | i <;> simp [loaded, segmentEnd]

/-- The task `t` gets the new address space `mm`, and no other task or address space changes. -/
def Execed (s s' : Vm) (t : ℕ) (mm : MmStruct) : Prop :=
  ∃ a, s.mms a = none ∧ s'.mms = Function.update s.mms a (some mm) ∧
    s'.tasks = Function.update s.tasks t (some { mm := some a, zombie := false })

/-- The first half of `exec`: the new address space, and the task changes over to it. -/
def newSpace (s : Vm) (t file : ℕ) (headers : List (Option LoadSegment)) :
    Except Stop (ℕ × ℕ × MmStruct × Vm) := do
  let (a, s) ← s.getZeroPage
  let (pgd, s) ← s.allocPgd
  let (mm, s) ← s.execSegments file 0 headers.length headers
    { mmap := [], pgd := pgd, codeEnd := 0, dataEnd := 0, userHeap := 0, brk := 0 }
  let userHeap := if mm.dataEnd ≠ 0 then pgAlign mm.dataEnd else pgAlign mm.codeEnd
  let (_, s) ← s.getZeroPage
  let mm := { mm with userHeap := userHeap, brk := userHeap, mmap := mm.mmap ++ [stackVma] }
  .ok (a, pgd, mm, { s with
    mms := Function.update s.mms a (some mm)
    tasks := Function.update s.tasks t (some { mm := some a, zombie := false }) })

/-- The second half: the arguments go to the first page of the new stack. -/
def storeArgs (s : Vm) (pgd : ℕ) (args : ℕ → ℕ) : Except Stop Vm := do
  let s ← s.mapAPage pgd stackVma (userTop - pgSize)
  match s.translate pgd (userTop - pgSize) true with
  | .granted pfn => do
    let (_, s) ← (s.putPage pfn args).getZeroPage
    .ok s
  | .fault _ => .error (.panic "ERROR: unable to handle this pagefault!")

theorem execLoad_eq (s : Vm) (t file : ℕ) (headers : List (Option LoadSegment)) (args : ℕ → ℕ) :
    s.execLoad t file headers args = s.newSpace t file headers >>= fun x => x.2.2.2.storeArgs x.2.1 args := by
  unfold execLoad newSpace
  simp only [bind_assoc]
  rfl

/-- The task `t` has changed over to the new address space `a`, where no page is mapped; nothing that was
there before changed. -/
structure Enters (s s' : Vm) (t a pgd : ℕ) (mm : MmStruct) : Prop where
  free : s.mms a = none
  pgd : mm.pgd = pgd
  keeps : ∀ o, Keeps s s' o
  mms : s'.mms = Function.update s.mms a (some mm)
  tasks : s'.tasks = Function.update s.tasks t (some { mm := some a, zombie := false })
  archive : s'.archive = s.archive
  ptes : s'.ptes = s.ptes
  mem : ∀ f, s.Data f → s'.Data f ∧ s'.mem f = s.mem f

/-- **The new address space of `exec`** has the areas of the program. -/
theorem newSpace_spec {task : VmTask} (h : VmInv s) (ht : s.tasks t = some task) (file : ℕ)
    (headers : List (Option LoadSegment)) : Yields (s.newSpace t file headers) (fun x =>
      (Program.elf file headers).Space x.2.2.1 ∧ Enters s x.2.2.2 t x.1 x.2.1 x.2.2.1) fun _ => True := by
  unfold newSpace
  refine yields_bind (getZeroPage_spec s) ?_
  rintro ⟨a, s₁⟩ hz₁
  have h₁ := hz₁.tableInv h.tables
  refine yields_bind (allocPgd_spec h₁) ?_
  rintro ⟨pgd, s₂⟩ hp
  have hready := NewPgd.prepared (hz₁.grown h.tables) hp hz₁.free (hz₁.spare h.tables).live
  refine yields_bind (execSegments_spec hp.tables file 0 headers.length headers _ (.inl rfl)) ?_
  rintro ⟨mm₀, s₃⟩ ⟨h₃, hg₃, hpgd, hmmap, hcode, hdata⟩
  refine yields_bind (getZeroPage_spec s₃) ?_
  rintro ⟨vmaPage, s₄⟩ hz₄
  have hready₄ := (hready.grow h₃ hg₃).grow (hz₄.tableInv h₃) (hz₄.grown h₃)
  obtain ⟨heap, hheap⟩ : ∃ heap, heap =
    if mm₀.dataEnd ≠ 0 then pgAlign mm₀.dataEnd else pgAlign mm₀.codeEnd := ⟨_, rfl⟩
  obtain ⟨mm, hmm⟩ : ∃ mm : MmStruct, mm =
    { mm₀ with userHeap := heap, brk := heap, mmap := mm₀.mmap ++ [stackVma] } := ⟨_, rfl⟩
  have hpgd' : mm.pgd = pgd := by rw [hmm]; exact hpgd
  have hspace : (Program.elf file headers).Space mm := by
    have heap_eq : heap = heapStart headers := by
      rw [hheap, hdata, hcode]
      rfl
    rw [hmm]
    exact ⟨by rw [hmmap]; rfl, heap_eq, heap_eq⟩
  have hroot := fun o => Prepared.root (o := o) (hpgd' ▸ hready₄) h
  have ha : s.mms a = none := h.mms_none hz₁.free
  -- the task changes over to the new address space
  have htask : ∀ o, Keeps { s₄ with mms := Function.update s₄.mms a (some mm) }
      { s₄ with
        mms := Function.update s₄.mms a (some mm)
        tasks := Function.update s₄.tasks t (some { mm := some a, zombie := false }) } o := by
    intro o
    obtain ⟨k₅, -, -⟩ := hroot o
    refine keeps_setTask k₅.inv (k₅.live t (h.taskLive t task ht)) { mm := some a, zombie := false }
      fun c hc => ⟨?_, fun t' task' _ htask' hmm' => ?_⟩
    · obtain rfl := Option.some.inj hc
      show Function.update s₄.mms a (some mm) a ≠ none
      rw [Function.update_self]
      exact Option.some_ne_none mm
    · obtain rfl := Option.some.inj hc
      have hold : s.tasks t' = some task' := (congrFun hready₄.grown.tasks t').symm.trans htask'
      exact h.taskMm t' task' a hold hmm' ha
  simp only [← hheap, ← hmm]
  obtain ⟨-, hptes, hmem⟩ := hroot True
  refine ⟨hspace, ha, hpgd', fun o => (hroot o).1.trans (htask o), ?_, ?_, hready₄.grown.archive, hptes, hmem⟩
  · rw [← hready₄.grown.mms]
  · rw [← hready₄.grown.tasks]

/-- A store of the arguments keeps the invariant. -/
theorem storeArgs_keeps (h : VmInv s) (hmm : s.mms a = some mm) (hstack : stackVma ∈ mm.mmap)
    (args : ℕ → ℕ) : Yields (s.storeArgs mm.pgd args)
      (fun s' => Keeps s s' o ∧ s'.mms = s.mms ∧ s'.tasks = s.tasks) fun _ => True := by
  have hholds : stackVma.Holds (userTop - pgSize) := by decide
  unfold storeArgs
  refine yields_bind (keeps_mapAPage (o := o) h hmm hstack (mem_pages_of_holds hholds)) ?_
  rintro s₁ ⟨k₁, hmms, htasks⟩
  have hroot : s₁.roots a = some mm.pgd := roots_of_mm ((congrFun hmms a).trans hmm)
  -- the arguments are stored through the new tables
  cases hacc : s₁.translate mm.pgd (userTop - pgSize) true with
  | fault present => trivial
  | granted f =>
    obtain ⟨k, hpte, -⟩ := k₁.inv.tables.granted hroot (by decide) hacc
    have k₂ := keeps_putPage (o := o) k₁.inv (k₁.inv.tables.data hpte).2 args
    refine yields_bind (getZeroPage_spec _) ?_
    rintro ⟨kstack, s₃⟩ hz₃
    exact ⟨(k₁.trans k₂).trans (keeps_zeroPage k₂.inv hz₃), hz₃.mms.trans hmms, hz₃.tasks.trans htasks⟩

/-- The new address space of `exec`. -/
theorem execLoad_spec {task : VmTask} (h : VmInv s) (ht : s.tasks t = some task) (file : ℕ)
    (headers : List (Option LoadSegment)) (args : ℕ → ℕ) :
    Yields (s.execLoad t file headers args) (fun s' => Keeps s s' o ∧
      ∃ mm, (Program.elf file headers).Space mm ∧ Execed s s' t mm) fun _ => True := by
  rw [execLoad_eq]
  refine yields_bind (newSpace_spec h ht file headers) ?_
  rintro ⟨a, pgd, mm, s₁⟩ ⟨hspace, hnew⟩
  dsimp only at hspace hnew ⊢
  obtain rfl := hnew.pgd
  have hmm₁ : s₁.mms a = some mm := by
    rw [hnew.mms]
    exact Function.update_self ..
  have hstack : stackVma ∈ mm.mmap := by
    rw [hspace.1]
    exact List.mem_append_right _ (List.mem_singleton_self _)
  refine (storeArgs_keeps (o := o) (hnew.keeps o).inv hmm₁ hstack args).mono ?_
  rintro s₂ ⟨k₂, hmms, htasks⟩
  exact ⟨(hnew.keeps o).trans k₂, mm, hspace, a, hnew.free, hmms.trans hnew.mms, htasks.trans hnew.tasks⟩

/-- **`exec`.** -/
theorem exec_spec {old : Option MmStruct} {task : VmTask} (program : Program) (h : VmInv s)
    (hold : ∀ mm, old = some mm → ∃ a, s.mms a = some mm) (ht : s.tasks t = some task)
    (argv : Option ℕ) (args : ℕ → ℕ) :
    Yields (s.exec t old argv args program) (fun s' => Keeps s s' o ∧
      ∃ mm, program.Space mm ∧ Execed s s' t mm) fun _ => True := by
  induction program generalizing s argv with
  | elf file headers =>
    rw [exec]
    refine yields_bind (execArgs_spec (o := o) h hold argv) ?_
    rintro s₁ ⟨k₁, hmms, htasks⟩
    refine (execLoad_spec (o := o) k₁.inv ((congrFun htasks t).trans ht) file headers args).mono ?_
    rintro s₂ ⟨k₂, mm, hspace, hex⟩
    rw [Execed, hmms, htasks] at hex
    exact ⟨k₁.trans k₂, mm, hspace, hex⟩
  | script interp ih =>
    rw [exec]
    refine yields_bind (execArgs_spec (o := o) h hold argv) ?_
    rintro s₁ ⟨k₁, hmms, htasks⟩
    have hold₁ : ∀ mm, old = some mm → ∃ a, s₁.mms a = some mm := fun mm hmm => by
      obtain ⟨a, ha⟩ := hold mm hmm
      exact ⟨a, (congrFun hmms a).trans ha⟩
    refine (ih k₁.inv hold₁ ((congrFun htasks t).trans ht) none).mono ?_
    rintro s₂ ⟨k₂, mm, hspace, hex⟩
    rw [Execed, hmms, htasks] at hex
    exact ⟨k₁.trans k₂, mm, hspace, hex⟩

/-- **`brk`** only ever adds an area: the test for an area to extend compares a flag with 1. -/
theorem brk_spec (h : VmInv s) (hmm : s.mms a = some mm) (newBreak : ℕ) :
    Yields (s.brk a mm newBreak) (fun x => Keeps s x.2 o) fun _ => True := by
  unfold brk
  split
  · exact Keeps.refl h
  · split
    · next hlt =>
      split
      · refine yields_bind (getZeroPage_spec s) ?_
        rintro ⟨page, s₁⟩ hz
        have k₁ := keeps_zeroPage (o := o) h hz
        have hmm₁ : s₁.mms a = some mm := (congrFun hz.mms a).trans hmm
        refine k₁.trans ?_
        unfold insertVma
        rw [hmm₁, Option.map_some]
        exact keeps_areas k₁.inv hmm₁ rfl fun vma hvma => List.mem_append_left _ hvma
      · split
        · next vma _ =>
          rw [if_neg fun hbit => vma.prot.bits_ne_one hbit.1]
          trivial
        · trivial
    · split <;> trivial

/-! ### Loads and stores -/

theorem UserAddr.page_lt (addr : UserAddr) : addr.val / pgSize < userPages := by
  have := addr.isLt
  unfold userTop at this
  unfold pgSize userPages
  omega

/-- What the kernel does after a page fault keeps the invariant. -/
theorem keeps_handled (h : VmInv s) (hmm : s.mms a = some mm) (hh : Handled s t a mm addr s') :
    Keeps s s' o := by
  cases hh with
  | mapped hvma hfind hnone hm hfills =>
    exact keeps_mapped h hmm hvma (mem_pages_of_holds (holds_of_searchVma hfind).2) hnone hm
  | copied hcow hshared hc => exact keeps_copied h hcow hshared hc
  | owned hcow hsole ho => exact keeps_owned h hcow hsole ho
  | exited => exact keeps_exitSt h t

/-- **A load** goes through, or the handler runs. -/
theorem load_spec (h : VmInv s) (hmm : s.mms a = some mm) (addr : UserAddr) :
    Yields (s.load t mm addr) (fun x =>
      (∃ f k, s.ptes a (addr / pgSize) = some (f, k) ∧
        x = (some (pageByte (s.mem f) (addr % pgSize)), s)) ∨
      x.1 = none ∧ Handled s t a mm addr x.2) fun _ => True := by
  unfold load
  cases hacc : s.translate mm.pgd addr false with
  | granted f =>
    obtain ⟨k, hpte, -⟩ := h.tables.granted (roots_of_mm hmm) addr.page_lt hacc
    exact .inl ⟨f, k, hpte, rfl⟩
  | fault present =>
    refine yields_bind ((pageFaultHandler_spec h.tables (roots_of_mm hmm) addr.page_lt h.bounded.lt
      hacc).imp (fun _ hh => hh) fun _ _ => trivial) ?_
    exact fun s' hh => .inr ⟨rfl, hh⟩

/-- What a store does: it goes to a page that is mapped writable, or the handler runs. -/
inductive Stored (s : Vm) (t a : ℕ) (mm : MmStruct) (addr : ℕ) : Vm → Prop
  | written {f : ℕ} (page : ℕ → ℕ) (map : s.ptes a (addr / pgSize) = some (f, .writable)) :
      Stored s t a mm addr (s.putPage f page)
  | faulted {s' : Vm} (handled : Handled s t a mm addr s') : Stored s t a mm addr s'

/-- **A store.** -/
theorem store_spec (h : VmInv s) (hmm : s.mms a = some mm) (addr : UserAddr) (byte : ℕ) :
    Yields (s.store t mm addr byte) (Stored s t a mm addr) fun _ => True := by
  unfold store
  cases hacc : s.translate mm.pgd addr true with
  | granted f =>
    obtain ⟨k, hpte, hk⟩ := h.tables.granted (roots_of_mm hmm) addr.page_lt hacc
    exact .written _ (hk rfl ▸ hpte)
  | fault present =>
    refine (pageFaultHandler_spec h.tables (roots_of_mm hmm) addr.page_lt h.bounded.lt hacc).imp ?_
      fun _ _ => trivial
    exact fun s' hh => .faulted hh

theorem keeps_stored (h : VmInv s) (hmm : s.mms a = some mm) (hs : Stored s t a mm addr s') :
    Keeps s s' o := by
  cases hs with
  | written page hmap => exact keeps_putPage h (h.tables.data hmap).2 page
  | faulted hh => exact keeps_handled h hmm hh

/-- **A store of a system call**: it goes to the page that is mapped, in whatever mode. -/
theorem kernelStore_spec (h : TableInv s) (hr : s.roots a = some r) (addr byte : ℕ) :
    Yields (s.kernelStore r addr byte) (fun s' => ∃ f k, s.ptes a (addr / pgSize) = some (f, k) ∧
      s' = s.putPage f (pageSetByte (s.mem f) (addr % pgSize) byte)) fun e => e = .kernelFault := by
  rw [kernelStore, h.kernelFrame_eq hr]
  cases hmap : s.ptes a (addr / pgSize) with
  | none => rfl
  | some x => exact ⟨x.1, x.2, rfl, rfl⟩

/-! ### All the steps -/

theorem kernelThread_spec (h : VmInv s) :
    Yields s.kernelThread (fun x => Keeps s x.2 o) fun _ => True := by
  unfold kernelThread
  refine yields_bind (getZeroPage_spec s) ?_
  rintro ⟨tsp, s₁⟩ hz₁
  have k₁ := keeps_zeroPage (o := o) h hz₁
  refine yields_bind (getZeroPage_spec s₁) ?_
  rintro ⟨stack, s₂⟩ hz₂
  have k₂ := k₁.trans (keeps_zeroPage k₁.inv hz₂)
  refine k₂.trans (keeps_setTask k₂.inv (hz₂.live (hz₁.spare h.tables).live) _ fun c hc => ?_)
  simp at hc

theorem userMm_eq_some (h : s.userMm t = some (a, mm)) :
    s.mms a = some mm ∧ ∃ task, s.tasks t = some task ∧ task.zombie = false ∧ task.mm = some a := by
  unfold userMm at h
  cases htask : s.tasks t with
  | none => rw [htask] at h; simp at h
  | some task =>
    rw [htask] at h
    simp only at h
    split at h
    · simp at h
    · next hz =>
      obtain ⟨b, hb, hbm⟩ := Option.bind_eq_some_iff.1 h
      obtain ⟨mm', hmm', heq⟩ := Option.map_eq_some_iff.1 hbm
      obtain ⟨rfl, rfl⟩ := Prod.mk.inj heq
      exact ⟨hmm', task, rfl, by simpa using hz, hb⟩

/-- The condition on a step for the counts: a `fork` finds no mapped page in two areas. -/
def Single (s : Vm) : Act → Prop
  | .fork t => ∀ a mm, s.userMm t = some (a, mm) → NoOverlap s a mm
  | _ => True

/-- **Every step** keeps the invariant. -/
theorem step_keeps (h : VmInv s) (act : Act) :
    Yields (s.step act) (fun s' => Keeps s s' (Single s act)) fun _ => True := by
  cases act with
  | kernelThread =>
    rw [step]
    exact yields_bind (kernelThread_spec h) fun x hx => hx
  | exec t argv args program =>
    rw [step]
    cases htask : s.tasks t with
    | none => exact Keeps.refl h
    | some task =>
      simp only
      split
      · exact Keeps.refl h
      · refine (exec_spec program h (fun mm hmm => ?_) htask _ args).mono fun s' hs' => hs'.1
        obtain ⟨a, -, ha⟩ := Option.bind_eq_some_iff.1 hmm
        exact ⟨a, ha⟩
  | fork t =>
    rw [step]
    cases hmm : s.userMm t with
    | none => exact Keeps.refl h
    | some x =>
      obtain ⟨a, mm⟩ := x
      refine yields_bind (fork_spec h (userMm_eq_some hmm).1) ?_
      rintro ⟨child, s'⟩ ⟨b, hf⟩
      exact hf.keeps.weaken fun hs => hs a mm hmm
  | brk t newBreak =>
    rw [step]
    cases hmm : s.userMm t with
    | none => exact Keeps.refl h
    | some x => exact yields_bind (brk_spec h (userMm_eq_some hmm).1 newBreak) fun y hy => hy
  | load t addr =>
    rw [step]
    cases hmm : s.userMm t with
    | none => exact Keeps.refl h
    | some x =>
      obtain ⟨a, mm⟩ := x
      refine yields_bind (load_spec h (userMm_eq_some hmm).1 addr) ?_
      rintro ⟨y, s'⟩ (⟨f, k, -, heq⟩ | ⟨-, hh⟩)
      · obtain ⟨-, rfl⟩ := Prod.mk.inj heq
        exact Keeps.refl h
      · exact keeps_handled h (userMm_eq_some hmm).1 hh
  | store t addr byte =>
    rw [step]
    cases hmm : s.userMm t with
    | none => exact Keeps.refl h
    | some x =>
      refine (store_spec h (userMm_eq_some hmm).1 addr byte).mono fun s' hs => ?_
      exact keeps_stored h (userMm_eq_some hmm).1 hs
  | put t addr byte =>
    rw [step]
    cases hmm : s.userMm t with
    | none => exact Keeps.refl h
    | some x =>
      have hr := roots_of_mm (userMm_eq_some hmm).1
      refine (kernelStore_spec h.tables hr addr byte).imp ?_ fun _ _ => trivial
      rintro s' ⟨f, k, hmap, rfl⟩
      exact keeps_putPage h (h.tables.data hmap).2 _
  | keep bytes => exact keeps_kernel h bytes
  | exit t =>
    rw [step]
    cases s.userMm t with
    | none => exact Keeps.refl h
    | some x => exact keeps_exitSt h t

/-! ### Runs -/

/-- The state that `mm_init` leaves: a frame is in use or not, and there are no tasks yet. -/
structure Start (s : Vm) : Prop where
  /-- No page has more than one reference. -/
  counts : ∀ f, s.ref f = 0 ∨ s.ref f = 1
  /-- There is no address space. -/
  noSpace : ∀ a, s.mms a = none
  /-- There is no task. -/
  noTask : ∀ t, s.tasks t = none

theorem Start.inv (h : Start s) : VmInv s := by
  have hroots : ∀ a, s.roots a = none := fun a => roots_eq_none.2 (h.noSpace a)
  have hnone : ∀ a v, s.ptes a v = none := fun a v => ptes_none (h.noSpace a) v
  have hno : ∀ a p f, ¬ s.Table a p f := by
    rintro a p f ⟨-, r, hr, -⟩
    simp [hroots a] at hr
  have hun : ∀ f, Cow.Unmapped s.ptes f := fun f a v k hk => by simp [hnone a v] at hk
  have hempty : ∀ f, Cow.mapsTo s.ptes f = ∅ := fun f => (hun f).mapsTo_eq
  refine ⟨⟨?_, ?_, ?_, ?_, ?_, ?_, ?_, ?_⟩, ⟨⟨?_, ?_, ?_⟩, ?_⟩, ?_, ?_, ?_, ?_, ?_⟩
  · exact fun a b p q f hx => absurd hx (hno a p f)
  · exact fun a p f i hx => absurd hx (hno a p f)
  · exact fun a p f i hx => absurd hx (hno a p f)
  · exact fun a r i hr => absurd (hr.symm.trans (hroots a)) (by simp)
  · exact fun a p f hx => absurd hx (hno a p f)
  · exact fun a p f hx => absurd hx (hno a p f)
  · exact fun a v f k hk => absurd hk (hun f a v k)
  · exact fun a ha => absurd (h.noSpace a) ha
  · exact fun f => by rw [hempty f]; exact Set.finite_empty
  · exact fun f hf => absurd (hempty f) hf.ne_empty
  · exact fun a b v w f k k' hk => absurd hk (hun f a v k)
  · exact fun a v f hk => absurd hk (hun f a v _)
  · intro f
    rcases h.counts f with h0 | h1 <;> omega
  · exact fun a mm v f k hmm => absurd (hmm.symm.trans (h.noSpace a)) (by simp)
  · exact fun t task ht => absurd (ht.symm.trans (h.noTask t)) (by simp)
  · exact fun t task a ht => absurd (ht.symm.trans (h.noTask t)) (by simp)
  · exact fun t t' task task' a ht => absurd (ht.symm.trans (h.noTask t)) (by simp)

/-- What one step keeps, a run keeps. -/
theorem run_keeps {acts : List Act} (h : Start s₀) (hrun : run step s₀ acts = .ok s) :
    Keeps s₀ s False := by
  refine run_invariant (I := fun s => Keeps s₀ s False) (G := fun _ _ => True) (Keeps.refl h.inv)
    (fun s act s' hs _ hstep => ?_) (along_of_forall (fun _ _ => trivial) s₀ acts) hrun
  exact hs.trans (((step_keeps hs.inv act).of_eq_ok hstep).weaken False.elim)

/-- **The invariant holds in every state that is reached.** -/
theorem run_inv {acts : List Act} (h : Start s₀) (hrun : run step s₀ acts = .ok s) : VmInv s :=
  (run_keeps h hrun).inv

end Vm

end PlumOs
