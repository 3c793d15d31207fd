import PlumOs.Vm.FlatCalls

/-!
# The paged memory is flat

A run of the paged system, seen by the programs, is one of the flat memories: whatever the processes do in
which order, with page faults and shared pages.

* `Flattened` : the flat memories of all the tasks;
* `Flattened.step` : **each step** is an event that the flat memories allow;
* `memory_is_flat` : **every run of the paged system is one of the flat memories**;
* `access_completes` : **an access that is allowed goes through** at the second attempt.
-/

namespace PlumOs

open Cow (Mode)

namespace Vm

variable {s s' s₀ : Vm} {a b c v w f g t q addr : ℕ} {k : Mode} {mm mm' : MmStruct} {vma : Vma}
  {p : Process} {F : Flat} {img : Tarfs} {args : ℕ → ℕ}

/-! ### All the processes -/

/-- The task is a process with this memory, or no process. -/
inductive ShownBy (s : Vm) (t : ℕ) : Option Process → Prop
  | absent (gone : s.userMm t = none) : ShownBy s t none
  | present {a : ℕ} {mm : MmStruct} {p : Process} (space : s.userMm t = some (a, mm))
      (shows : Shows s a mm p) : ShownBy s t (some p)

/-- The flat memories of all the tasks. -/
structure Flattened (img : Tarfs) (s : Vm) (F : Flat) : Prop where
  inv : VmInv s
  archive : s.archive = img
  tasks : ∀ t, s.ShownBy t (F t)

section Flattened

variable {F' : Flat} (h : Flattened img s F)

include h

theorem Flattened.none_of_gone (hgone : s.userMm t = none) : F t = none := by
  have ht := h.tasks t
  generalize F t = x at ht
  cases ht with
  | absent => rfl
  | present space =>
    rw [hgone] at space
    cases space

theorem Flattened.some_of_space (hspace : s.userMm t = some (a, mm)) : ∃ p, F t = some p ∧ Shows s a mm p := by
  have ht := h.tasks t
  generalize F t = x at ht
  cases ht with
  | absent gone =>
    rw [hspace] at gone
    cases gone
  | @present a' mm' p space shows =>
    obtain ⟨rfl, rfl⟩ := Prod.mk.inj (Option.some.inj (hspace.symm.trans space))
    exact ⟨p, rfl, shows⟩

/-- A step that is about one task. -/
theorem Flattened.of_one (hinv : VmInv s') (harch : s'.archive = s.archive)
    (hF : ∀ q, q ≠ t → F' q = F q) (huser : ∀ q, q ≠ t → s'.userMm q = s.userMm q)
    (hspared : ∀ q c mm, q ≠ t → s.userMm q = some (c, mm) → Spared s s' c)
    (hself : s'.ShownBy t (F' t)) : Flattened img s' F' := by
  refine ⟨hinv, harch.trans h.archive, fun q => ?_⟩
  by_cases hqt : q = t
  · rw [hqt]
    exact hself
  · rw [hF q hqt]
    have hq := h.tasks q
    generalize F q = x at hq
    cases hq with
    | absent gone => exact .absent ((huser q hqt).trans gone)
    | present space shows =>
      exact .present ((huser q hqt).trans space) (shows.spared (hspared q _ _ hqt space))

/-- A step that changes nothing for any process. -/
theorem Flattened.of_spared (hinv : VmInv s') (harch : s'.archive = s.archive)
    (huser : ∀ q, s'.userMm q = s.userMm q) (hspared : ∀ c, Spared s s' c) : Flattened img s' F := by
  refine h.of_one (t := 0) hinv harch (fun _ _ => rfl) (fun q _ => huser q) (fun _ c _ _ _ => hspared c) ?_
  have h0 := h.tasks 0
  generalize F 0 = x at h0
  cases h0 with
  | absent gone => exact .absent ((huser 0).trans gone)
  | present space shows => exact .present ((huser 0).trans space) (shows.spared (hspared _))

end Flattened

/-! ### One step -/

theorem userMm_exitSt_self (s : Vm) (t : ℕ) : (s.exitSt t).userMm t = none := by
  have htask : (s.exitSt t).tasks t = (s.tasks t).map fun task => { task with zombie := true } :=
    Function.update_self ..
  rw [userMm, htask]
  cases s.tasks t <;> rfl

/-- A fault of one task leaves the others their address spaces. -/
theorem userMm_of_handled_ne (hh : Handled s t a mm addr s') (hq : q ≠ t) : s'.userMm q = s.userMm q := by
  cases hh with
  | mapped hvma hfind hnone hm hfills => exact userMm_congr hm.mms (congrFun hm.tasks q)
  | copied hcow hshared hc => exact userMm_congr hc.mms (congrFun hc.tasks q)
  | owned hcow hsole ho => exact userMm_congr ho.mms (congrFun ho.tasks q)
  | exited => exact userMm_congr rfl (Function.update_of_ne hq ..)

/-- The page of the address may be written, if the task has it: it is not copy-on-write. -/
def OwnPage (s : Vm) (t addr : ℕ) : Prop :=
  ∀ a mm, s.userMm t = some (a, mm) → ∀ f k, s.ptes a (addr / pgSize) = some (f, k) → k = .writable

section Accepted

variable (h : Flattened img s F)

include h

/-- An access that runs into the handler. -/
theorem Flattened.fault (ht : s.userMm t = some (a, mm)) (addr : UserAddr) {write present : Bool}
    (hfault : s.translate mm.pgd addr write = .fault present)
    (hok : s.pageFaultHandler t mm addr present write = .ok s') :
    ∃ F', F.step img.mem (s'.faulted t addr write) = some F' ∧ Flattened img s' F' := by
  obtain ⟨p, hF, hp⟩ := h.some_of_space ht
  obtain ⟨hmm, -⟩ := userMm_eq_some ht
  have hr := roots_of_mm hmm
  have hh : Handled s t a mm addr s' :=
    (pageFaultHandler_spec h.inv.tables hr addr.page_lt h.inv.bounded.lt hfault).of_eq_ok hok
  have hinv := (keeps_handled (o := True) h.inv hmm hh).inv
  have hspared : ∀ q c mm', q ≠ t → s.userMm q = some (c, mm') → Spared s s' c := fun q c mm' hq hc =>
    spared_of_handled h.inv (h.inv.userMm_ne ht hc hq) hh
  have harch : s'.archive = s.archive := by
    cases hh with
    | mapped hvma hfind hnone hm hfills => exact hm.archive
    | copied hcow hshared hc => exact hc.archive
    | owned hcow hsole ho => exact ho.archive
    | exited => rfl
  rcases hp.handled h.inv ht hh with hexit | ⟨hlive, hp'⟩
  · have hdead : s'.userMm t = none := by rw [hexit]; exact userMm_exitSt_self s t
    have hforbids := forbids_of_killed h.inv ht hp addr.page_lt hfault hok hdead
    refine ⟨Function.update F t none, ?_, ?_⟩
    · rw [faulted, hdead, Option.isNone_none, if_pos rfl, Flat.step, hF, Option.bind_some, if_pos hforbids]
    · refine h.of_one hinv harch (fun q hq => Function.update_of_ne hq ..)
        (fun q hq => userMm_of_handled_ne hh hq) hspared ?_
      rw [Function.update_self]
      exact .absent hdead
  · refine ⟨F, ?_, h.of_one hinv harch (fun _ _ => rfl) (fun q hq => userMm_of_handled_ne hh hq)
      hspared ?_⟩
    · rw [faulted, hlive, Option.isNone_some, if_neg Bool.false_ne_true, Flat.step]
    · rw [hF]
      exact .present hlive hp'

theorem Flattened.load (t : ℕ) (addr : UserAddr) :
    Yields (s.observe (.load t addr)) (fun x => ∃ F', F.step img.mem x.1 = some F' ∧
      Flattened img x.2 F') fun _ => True := by
  rw [observe]
  cases ht : s.userMm t with
  | none => exact ⟨F, rfl, h⟩
  | some x =>
    obtain ⟨a, mm⟩ := x
    obtain ⟨hmm, -⟩ := userMm_eq_some ht
    simp only [Vm.load]
    cases hacc : s.translate mm.pgd addr false with
    | granted f =>
      obtain ⟨k, hmap, -⟩ := h.inv.tables.granted (roots_of_mm hmm) addr.page_lt hacc
      obtain ⟨p, hF, hp⟩ := h.some_of_space ht
      refine ⟨F, ?_, h⟩
      simp only [Flat.step, hF, Option.bind_some]
      exact if_pos (hp.of_mapped h.inv ht hmap).1
    | fault present =>
      cases hok : s.pageFaultHandler t mm addr present false with
      | error e =>
        simp only [hok]
        trivial
      | ok s' =>
        simp only [hok]
        exact h.fault ht addr hacc hok

/-- A byte in a page that may be written. -/
theorem Flattened.written (ht : s.userMm t = some (a, mm))
    (hmap : s.ptes a (addr / pgSize) = some (f, .writable)) (byte : ℕ) :
    ∃ F', F.step img.mem (.stored t addr (byte % 256)) = some F' ∧
      Flattened img (s.putPage f (pageSetByte (s.mem f) (addr % pgSize) byte)) F' := by
  obtain ⟨p, hF, hp⟩ := h.some_of_space ht
  have hwritable := (hp.of_mapped h.inv ht hmap).2 rfl
  refine ⟨Function.update F t (some (p.write addr (byte % 256))), ?_, ?_⟩
  · simp only [Flat.step, hF, Option.bind_some]
    exact if_pos hwritable
  · refine h.of_one (keeps_putPage (o := True) h.inv (h.inv.tables.data hmap).2 _).inv rfl
      (fun q hq => Function.update_of_ne hq ..) (fun _ _ => rfl)
      (fun q c mm' hq hc => spared_stored h.inv hmap _ (h.inv.userMm_ne ht hc hq)) ?_
    rw [Function.update_self]
    exact .present ht (hp.stored h.inv ht hmap byte)

theorem Flattened.store (t : ℕ) (addr : UserAddr) (byte : ℕ) :
    Yields (s.observe (.store t addr byte)) (fun x => ∃ F', F.step img.mem x.1 = some F' ∧
      Flattened img x.2 F') fun _ => True := by
  rw [observe]
  cases ht : s.userMm t with
  | none => exact ⟨F, rfl, h⟩
  | some x =>
    obtain ⟨a, mm⟩ := x
    obtain ⟨hmm, -⟩ := userMm_eq_some ht
    simp only [Vm.store]
    cases hacc : s.translate mm.pgd addr true with
    | granted f =>
      obtain ⟨k, hmap, hk⟩ := h.inv.tables.granted (roots_of_mm hmm) addr.page_lt hacc
      obtain rfl := hk rfl
      exact h.written ht hmap byte
    | fault present =>
      cases hok : s.pageFaultHandler t mm addr present true with
      | error e =>
        simp only [hok]
        trivial
      | ok s' =>
        simp only [hok]
        exact h.fault ht addr hacc hok

/-- A store of a system call. -/
theorem Flattened.put (t : ℕ) (addr : UserAddr) (byte : ℕ) (hown : s.OwnPage t addr) :
    Yields (s.observe (.put t addr byte)) (fun x => ∃ F', F.step img.mem x.1 = some F' ∧
      Flattened img x.2 F') fun _ => True := by
  rw [observe]
  cases ht : s.userMm t with
  | none => exact ⟨F, rfl, h⟩
  | some x =>
    obtain ⟨a, mm⟩ := x
    have hr := roots_of_mm (userMm_eq_some ht).1
    refine yields_bind ((kernelStore_spec h.inv.tables hr addr byte).imp (fun _ hx => hx)
      fun _ _ => trivial) ?_
    rintro s' ⟨f, k, hmap, rfl⟩
    obtain rfl := hown a mm ht f k hmap
    exact h.written ht hmap byte

/-- The kernel keeps other things. -/
theorem Flattened.keep (bytes : ℕ → Option ℕ) :
    Yields (s.observe (.keep bytes)) (fun x => ∃ F', F.step img.mem x.1 = some F' ∧
      Flattened img x.2 F') fun _ => True := by
  refine ⟨F, rfl, h.of_spared (keeps_kernel (o := True) h.inv bytes).inv rfl (fun q => rfl) fun c => ?_⟩
  exact ⟨rfl, fun _ => rfl, fun _ _ _ _ => rfl⟩

theorem Flattened.fork (t : ℕ) :
    Yields (s.observe (.fork t)) (fun x => ∃ F', F.step img.mem x.1 = some F' ∧
      Flattened img x.2 F') fun _ => True := by
  rw [observe]
  cases ht : s.userMm t with
  | none => exact ⟨F, rfl, h⟩
  | some x =>
    obtain ⟨a, mm⟩ := x
    obtain ⟨hmm, -⟩ := userMm_eq_some ht
    obtain ⟨p, hF, hp⟩ := h.some_of_space ht
    refine yields_bind (((fork_spec h.inv hmm).and (fork_others h.inv hmm)).imp (fun _ hx => hx)
      fun _ _ => trivial) ?_
    rintro ⟨n, s'⟩ ⟨⟨b, hf⟩, hothers⟩
    have hgone : s.userMm n = none := by
      rw [userMm, hf.freshTask]
    obtain ⟨⟨pgd, hchild⟩, hsame⟩ := h.inv.userMm_of_forked hf
    have htn : t ≠ n := by
      rintro rfl
      rw [ht] at hgone
      cases hgone
    refine ⟨Function.update F n (some p), ?_, hf.keeps.inv, hf.archive.trans h.archive, fun q => ?_⟩
    · simp only [Flat.step, hF, h.none_of_gone hgone]
    · by_cases hqn : q = n
      · subst hqn
        rw [Function.update_self]
        exact .present hchild (hp.forkedChild hf h.inv.tables pgd)
      · rw [Function.update_of_ne hqn]
        by_cases hqt : q = t
        · subst hqt
          rw [hF]
          exact .present ((hsame q hqn).trans ht) (hp.forked hf h.inv.tables)
        · have hq := h.tasks q
          generalize F q = x at hq
          cases hq with
          | absent gone => exact .absent ((hsame q hqn).trans gone)
          | @present c mmc _ space shows =>
            obtain ⟨hmmc, -⟩ := userMm_eq_some space
            have hca : c ≠ a := h.inv.userMm_ne ht space hqt
            have hptes := hothers c hca (by rw [hmmc]; exact Option.some_ne_none mmc)
            refine .present ((hsame q hqn).trans space) (shows.spared ⟨hf.archive, fun v => ?_, ?_⟩)
            · rw [hptes]
            · exact fun v f k hk => hf.mem f (h.inv.tables.data hk)

theorem Flattened.brk (t newBreak : ℕ) :
    Yields (s.observe (.brk t newBreak)) (fun x => ∃ F', F.step img.mem x.1 = some F' ∧
      Flattened img x.2 F') fun _ => True := by
  rw [observe]
  cases ht : s.userMm t with
  | none => exact ⟨F, rfl, h⟩
  | some x =>
    obtain ⟨a, mm⟩ := x
    obtain ⟨hmm, -⟩ := userMm_eq_some ht
    obtain ⟨p, hF, hp⟩ := h.some_of_space ht
    refine yields_bind (((brk_grows h.inv a mm newBreak).and (brk_spec (o := True) h.inv hmm newBreak)).imp
      (fun _ hx => hx) fun _ _ => trivial) ?_
    rintro ⟨ret, s'⟩ ⟨⟨rfl, heq⟩ | ⟨h0, hlt, hret, s₁, hg, heq⟩, hkeeps⟩
    · obtain ⟨rfl, rfl⟩ := Prod.mk.inj heq
      refine ⟨F, ?_, h⟩
      simp only [Flat.step, hF, Option.bind_some, if_true, hp.brk]
    · simp only at hret heq hkeeps
      subst hret heq
      have hlt' : p.brk < ret ∧ ret < heapLimit := by rw [hp.brk]; exact hlt
      have hptes : (s₁.insertVma a (heapVma mm.brk ret hlt)).ptes = s.ptes :=
        (ptes_congr (roots_insertVma s₁ a _) fun _ _ _ _ => rfl).trans hg.ptes
      have hmem : ∀ c v f k, s.ptes c v = some (f, k) →
          (s₁.insertVma a (heapVma mm.brk ret hlt)).mem f = s.mem f := fun c v f k hk =>
        hg.mem f (h.inv.tables.data hk).1 (h.inv.tables.data hk).2
      have hmms : (s₁.insertVma a (heapVma mm.brk ret hlt)).mms =
          Function.update s.mms a ((s.mms a).map fun mm' =>
            { mm' with mmap := mm'.mmap ++ [heapVma mm.brk ret hlt] }) := by
        rw [← hg.mms]
        rfl
      have htasks : (s₁.insertVma a (heapVma mm.brk ret hlt)).tasks = s.tasks := hg.tasks
      have huser := fun q => userMm_of_added (t := q) h.inv ht htasks hmms
      refine ⟨Function.update F t (some (p.grow ret hlt')), ?_, ?_⟩
      · simp only [Flat.step, hF, Option.bind_some, if_neg h0, dif_pos hlt', if_true]
      · refine h.of_one hkeeps.inv hg.archive (fun q hq => Function.update_of_ne hq ..)
          (fun q hq => (huser q).trans (if_neg hq))
          (fun q c mm' _ _ => ⟨hg.archive, fun v => by rw [hptes], hmem c⟩) ?_
        rw [Function.update_self]
        exact .present ((huser t).trans (if_pos rfl))
          (hp.grow h.inv hmm hlt hlt' hg.archive (by rw [hptes]) (hmem a))

theorem Flattened.exec (t : ℕ) (argv : Option UserAddr) (args : ℕ → ℕ) (program : Program)
    (hpaged : program.Paged) (hin : program.InArchive s.archive) :
    Yields (s.observe (.exec t argv args program)) (fun x => ∃ F', F.step img.mem x.1 = some F' ∧
      Flattened img x.2 F') fun _ => True := by
  rw [observe]
  cases htask : s.tasks t with
  | none => exact ⟨F, rfl, h⟩
  | some task =>
    simp only
    split
    · exact ⟨F, rfl, h⟩
    · have hold : ∀ mm, task.mm.bind s.mms = some mm → ∃ a, s.mms a = some mm := fun mm hmm => by
        obtain ⟨a, -, ha⟩ := Option.bind_eq_some_iff.1 hmm
        exact ⟨a, ha⟩
      refine yields_bind (((exec_spec (o := True) program h.inv hold htask (argv.map Fin.val) args).and
        (exec_shows program h.inv htask (argv.map Fin.val) hpaged hin)).imp (fun _ hx => hx)
        fun _ _ => trivial) ?_
      rintro s' ⟨⟨hkeeps, mm', -, hex⟩, harch, ⟨b, mm, hspace, hshows⟩, hspared⟩
      refine ⟨Function.update F t (some (Process.start img.mem args program)), rfl, ?_⟩
      refine h.of_one hkeeps.inv harch (fun q hq => Function.update_of_ne hq ..)
        (h.inv.userMm_of_execed hex).2 (fun q c mmq hq hc => ?_) ?_
      · obtain ⟨hmmq, task', htask', -, hc'⟩ := userMm_eq_some hc
        refine hspared c (fun hown => hq ?_) (by rw [hmmq]; exact Option.some_ne_none mmq)
        exact h.inv.own q t task' task c htask' htask hc' hown
      · rw [Function.update_self, ← h.archive]
        exact .present hspace hshows

theorem Flattened.kernelThread :
    Yields (s.observe .kernelThread) (fun x => ∃ F', F.step img.mem x.1 = some F' ∧
      Flattened img x.2 F') fun _ => True := by
  rw [observe]
  have hspared : Yields s.kernelThread (fun x => x.2.archive = s.archive ∧
      (∀ q, x.2.userMm q = s.userMm q) ∧ ∀ c, Spared s x.2 c) fun _ => True := by
    unfold Vm.kernelThread
    refine yields_bind (getZeroPage_spec s) ?_
    rintro ⟨tsp, s₁⟩ hz₁
    refine yields_bind (getZeroPage_spec s₁) ?_
    rintro ⟨stack, s₂⟩ hz₂
    have hg : Grown s s₂ := (hz₁.grown h.inv.tables).trans (hz₂.grown (hz₁.tableInv h.inv.tables))
    obtain ⟨s₃, hs₃⟩ : ∃ s₃ : Vm, s₃ = { s₂ with
      tasks := Function.update s₂.tasks tsp (some { mm := none, zombie := false }) } := ⟨_, rfl⟩
    simp only [← hs₃]
    have hmms : s₃.mms = s.mms := by rw [hs₃]; exact hg.mms
    refine ⟨by rw [hs₃]; exact hg.archive, fun q => ?_, fun c => ?_⟩
    · by_cases hq : q = tsp
      · -- the new task has no address space
        have htask : s₃.tasks q = some { mm := none, zombie := false } := by
          rw [hs₃, hq]
          exact Function.update_self ..
        rw [userMm, userMm, htask, hq, h.inv.tasks_none hz₁.free]
        rfl
      · have htask : s₃.tasks q = s₂.tasks q := by
          rw [hs₃]
          exact Function.update_of_ne hq ..
        exact userMm_congr hmms (htask.trans (congrFun hg.tasks q))
    · obtain ⟨harch, hptes, hmem⟩ := hg.spared h.inv.tables c
      rw [hs₃]
      exact ⟨harch, hptes, hmem⟩
  refine yields_bind (((kernelThread_spec (o := True) h.inv).and hspared).imp (fun _ hx => hx)
    fun _ _ => trivial) ?_
  rintro ⟨tsp, s'⟩ ⟨hkeeps, harch, huser, hspared'⟩
  exact ⟨F, rfl, h.of_spared hkeeps.inv harch huser hspared'⟩

theorem Flattened.exit (t : ℕ) :
    Yields (s.observe (.exit t)) (fun x => ∃ F', F.step img.mem x.1 = some F' ∧
      Flattened img x.2 F') fun _ => True := by
  rw [observe]
  cases ht : s.userMm t with
  | none => exact ⟨F, rfl, h⟩
  | some x =>
    obtain ⟨p, hF, -⟩ := h.some_of_space (show s.userMm t = some (x.1, x.2) from ht)
    refine ⟨Function.update F t none, ?_, ?_⟩
    · simp only [Flat.step, hF, Option.map_some]
    · refine h.of_one (keeps_exitSt (o := True) h.inv t).inv rfl
        (fun q hq => Function.update_of_ne hq ..)
        (fun q hq => userMm_congr rfl (Function.update_of_ne hq ..))
        (fun _ _ _ _ _ => ⟨rfl, fun _ => rfl, fun _ _ _ _ => rfl⟩) ?_
      rw [Function.update_self]
      exact .absent (userMm_exitSt_self s t)

end Accepted

/-- An action that keeps to the memory of the process: the programs that are run are in the archive and share
no page between two areas, and a system call stores to pages that are not copy-on-write. -/
def Plain (s : Vm) : Act → Prop
  | .exec _ _ _ program => program.Paged ∧ program.InArchive s.archive
  | .put t addr _ => s.OwnPage t addr
  | _ => True

/-- **One step** of the paged system is one of the flat memories. -/
theorem Flattened.step (h : Flattened img s F) {act : Act} (hact : s.Plain act) :
    Yields (s.observe act) (fun x => ∃ F', F.step img.mem x.1 = some F' ∧ Flattened img x.2 F')
      fun _ => True := by
  cases act with
  | kernelThread => exact h.kernelThread
  | exec t argv args program => exact h.exec t argv args program hact.1 hact.2
  | fork t => exact h.fork t
  | brk t newBreak => exact h.brk t newBreak
  | load t addr => exact h.load t addr
  | store t addr b => exact h.store t addr b
  | put t addr b => exact h.put t addr b hact
  | keep bytes => exact h.keep bytes
  | exit t => exact h.exit t

/-! ### Runs -/

theorem Start.flattened (h : Start s₀) : Flattened s₀.archive s₀ fun _ => none :=
  ⟨h.inv, rfl, fun t => .absent (by rw [userMm, h.noTask t])⟩

theorem flattened_of_run {acts : List Act} (h : Start s₀) (hplain : Along step Plain s₀ acts) :
    ∃ F, (answers observe s₀ acts).1.foldlM (Flat.step s₀.archive.mem) (fun _ => none) = some F ∧
      ∀ s, run step s₀ acts = .ok s → Flattened s₀.archive s F := by
  rw [← follow_observe] at hplain ⊢
  exact answers_accepted (fun s F act ev s' hs hact hstep => (hs.step hact).of_eq_ok hstep) h.flattened
    hplain

/-- What a process reads is in its flat memory, at all the addresses it has asked for. -/
theorem Shows.userByte_eq (hp : Shows s a mm p) (ht : s.userMm t = some (a, mm)) (hvma : vma ∈ mm.mmap)
    (hholds : vma.Holds addr) : s.userByte t addr = p.byte addr := by
  have hv := mem_pages_of_holds hholds
  cases hpte : s.ptes a (addr / pgSize) with
  | none =>
    obtain ⟨vma', hfind⟩ : ∃ vma', searchVma addr mm = some vma' := by
      cases hfind : searchVma addr mm with
      | none => exact absurd hholds (by simpa using List.find?_eq_none.1 hfind vma hvma)
      | some vma' => exact ⟨vma', rfl⟩
    obtain ⟨hvma', hholds'⟩ := holds_of_searchVma hfind
    rw [userByte_unmapped ht hpte hfind (hp.agreed.inArchive vma' hvma' _ (mem_pages_of_holds hholds')),
      hp.unused addr vma' hpte hvma' (mem_pages_of_holds hholds')]
  | some x =>
    obtain ⟨f, k⟩ := x
    rw [userByte_mapped ht hpte, hp.mapped addr f k hpte]

/-- **The paged memory is flat.**  The flat memories allow all the events of a run, also of one that
stops, and in a state that is reached they are what the processes read. -/
theorem memory_is_flat {acts : List Act} (h : Start s₀) (hplain : Along step Plain s₀ acts) :
    ∃ F, (answers observe s₀ acts).1.foldlM (Flat.step s₀.archive.mem) (fun _ => none) = some F ∧
      ∀ s, run step s₀ acts = .ok s →
        (∀ t, s.userMm t = none → F t = none) ∧
        ∀ t a mm, s.userMm t = some (a, mm) → ∃ p, F t = some p ∧ p.areas = mm.mmap ∧
          ∀ vma ∈ mm.mmap, ∀ x, vma.Holds x → s.userByte t x = p.byte x := by
  obtain ⟨F, hF, hflat⟩ := flattened_of_run h hplain
  refine ⟨F, hF, fun s hrun => ⟨fun t => (hflat s hrun).none_of_gone, fun t a mm ht => ?_⟩⟩
  obtain ⟨p, hp, hshows⟩ := (hflat s hrun).some_of_space ht
  exact ⟨p, hp, hshows.areas, fun vma hvma x hx => hshows.userByte_eq ht hvma hx⟩

/-- A test for `Plain`, of an action that is no system call's store. -/
def plainB (s : Vm) : Act → Bool
  | .exec _ _ _ program => decide (program.Paged ∧ program.InArchive s.archive)
  | .put _ _ _ => false
  | _ => true

theorem plain_of_plainB {act : Act} (h : s.plainB act = true) : s.Plain act := by
  cases act with
  | exec t argv args program =>
    have hboth : program.Paged ∧ program.InArchive s.archive := of_decide_eq_true h
    exact hboth
  | put t addr b => cases h
  | _ => trivial

theorem heapActs_plain : Along step Plain smallVm heapActs :=
  along_of_alongB (I := fun _ => True) trivial (fun _ _ _ htest => plain_of_plainB htest)
    (fun _ _ _ _ _ _ => trivial) (by decide +kernel : alongB step plainB smallVm heapActs = true)

/-- A process that forks, and a store of the child after the one of the parent. -/
theorem memory_is_flat_heap : ∃ F,
    (answers observe smallVm heapActs).1.foldlM (Flat.step smallVm.archive.mem) (fun _ => none) = some F ∧
      ∀ s, run step smallVm heapActs = .ok s →
        (∀ t, s.userMm t = none → F t = none) ∧
        ∀ t a mm, s.userMm t = some (a, mm) → ∃ p, F t = some p ∧ p.areas = mm.mmap ∧
          ∀ vma ∈ mm.mmap, ∀ x, vma.Holds x → s.userByte t x = p.byte x :=
  memory_is_flat smallVm_start heapActs_plain

/-! ### Accesses that are allowed -/

/-- A fault that the areas allow is one after which the access goes through, if there is a page for it. -/
theorem Shows.completes (h : VmInv s) (ht : s.userMm t = some (a, mm)) (hp : Shows s a mm p)
    (hvma : vma ∈ mm.mmap) (hholds : vma.Holds addr) {write present : Bool}
    (hwrite : write = true → vma.prot = .readWrite)
    (hfault : s.translate mm.pgd addr write = .fault present) :
    Yields (s.pageFaultHandler t mm addr present write)
      (fun s' => s'.userMm t = some (a, mm) ∧ ∃ f, s'.translate mm.pgd addr write = .granted f)
      fun e => e = .outOfMemory := by
  obtain ⟨hmm, -⟩ := userMm_eq_some ht
  have hr := roots_of_mm hmm
  have hv := mem_pages_of_holds hholds
  have hlt := lt_of_mem_pages hv
  have hspec := pageFaultHandler_spec (t := t) h.tables hr hlt h.bounded.lt hfault
  cases hok : s.pageFaultHandler t mm addr present write with
  | error e =>
    refine hspec.of_eq_error hok fun vma' hfind => ?_
    obtain ⟨hvma', hholds'⟩ := holds_of_searchVma hfind
    exact hp.agreed.inArchive vma' hvma' _ (mem_pages_of_holds hholds')
  | ok s' =>
    have hh : Handled s t a mm addr s' := hspec.of_eq_ok hok
    have hallowed : ¬p.Forbids addr write := fun hno => by
      obtain ⟨hw, hro⟩ := hno vma (by rw [hp.areas]; exact hvma) hholds
      rw [hwrite hw] at hro
      cases hro
    have hlive : s'.userMm t = some (a, mm) := by
      rcases hp.handled h ht hh with hexit | ⟨hlive, -⟩
      · have hdead : s'.userMm t = none := by rw [hexit]; exact userMm_exitSt_self s t
        exact absurd (forbids_of_killed h ht hp hlt hfault hok hdead) hallowed
      · exact hlive
    refine ⟨hlive, ?_⟩
    have hr' := roots_of_mm (userMm_eq_some hlive).1
    -- by what the handler did, the page is mapped now
    cases hh with
    | @mapped _ vma' g page hvma' hfind hnone hm hfills =>
      have hv' := mem_pages_of_holds (holds_of_searchVma hfind).2
      refine ⟨g, ?_⟩
      rw [hm.tables.translate_eq hr' hlt, hm.ptes, Cow.set_self]
      refine if_pos ?_
      cases write with
      | false => exact .inr rfl
      | true =>
        refine .inl ?_
        rw [(hp.agreed.shared vma' hvma' vma hvma _ hv' hv).1, hwrite rfl]
        rfl
    | @copied _ f g hcow hshared hc =>
      refine ⟨g, ?_⟩
      rw [hc.tables.translate_eq hr' hlt, hc.ptes, Cow.set_self]
      exact if_pos (.inl rfl)
    | @owned _ f hcow hsole ho =>
      refine ⟨f, ?_⟩
      rw [ho.tables.translate_eq hr' hlt, ho.ptes, Cow.set_self]
      exact if_pos (.inl rfl)
    | exited =>
      rw [userMm_exitSt_self] at hlive
      cases hlive

/-- **An access that is allowed goes through** when it is made again: after the fault the process goes on,
and the page is there, unless the kernel stops because it has no page left. -/
theorem access_completes {acts : List Act} (h : Start s₀) (hplain : Along step Plain s₀ acts)
    (hrun : run step s₀ acts = .ok s) (ht : s.userMm t = some (a, mm)) (hvma : vma ∈ mm.mmap)
    (hholds : vma.Holds addr) {write present : Bool} (hwrite : write = true → vma.prot = .readWrite)
    (hfault : s.translate mm.pgd addr write = .fault present) :
    Yields (s.pageFaultHandler t mm addr present write)
      (fun s' => s'.userMm t = some (a, mm) ∧ ∃ f, s'.translate mm.pgd addr write = .granted f)
      fun e => e = .outOfMemory := by
  obtain ⟨F, -, hflat⟩ := flattened_of_run h hplain
  obtain ⟨p, -, hshows⟩ := (hflat s hrun).some_of_space ht
  exact hshows.completes (hflat s hrun).inv ht hvma hholds hwrite hfault

/-- A store of a process that has forked, to its heap. -/
theorem access_completes_heap : ∃ s a mm, run step smallVm heapActs = .ok s ∧
    s.userMm 700 = some (a, mm) ∧ s.translate mm.pgd 0x401000 true = .fault true ∧
    Yields (s.pageFaultHandler 700 mm 0x401000 true true)
      (fun s' => s'.userMm 700 = some (a, mm) ∧ ∃ f, s'.translate mm.pgd 0x401000 true = .granted f)
      fun e => e = .outOfMemory := by
  have hrun : reaches (run step smallVm heapActs) (fun s => (s.userMm 700).any fun x =>
      (x.2.mmap.any fun vma => decide (vma.Holds 0x401000 ∧ vma.prot = .readWrite)) &&
        decide (s.translate x.2.pgd 0x401000 true = .fault true)) = true := by decide +kernel
  obtain ⟨s, hs, htest⟩ := exists_of_reaches hrun
  simp only [Option.any_eq_true, Bool.and_eq_true, List.any_eq_true, decide_eq_true_eq] at htest
  obtain ⟨⟨a, mm⟩, ht, ⟨vma, hvma, hholds, hprot⟩, hfault⟩ := htest
  exact ⟨s, a, mm, hs, ht, hfault,
    access_completes smallVm_start heapActs_plain hs ht hvma hholds (fun _ => hprot) hfault⟩

end Vm

end PlumOs
