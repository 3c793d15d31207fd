import PlumOs.Vm.Isolation

/-!
# Page tables form disjoint trees

The tables below the user half of a page directory are pages of their own: each is there for one
entry of one process, and none of them is a page of a user or a directory.  What two directories
have in common are the entries of the kernel.

* `Refers` : an entry of a table refers to a frame;
* `DisjointTrees` : what a state promises;
* `disjointTrees_of_run` : **every reached state does**.
-/

namespace PlumOs

open Cow (Mode)

/-- Every path of four indices is the path of a page. -/
theorem exists_page {q : List ℕ} {j : ℕ} (hq : userPath q) (hlen : q.length = 3)
    (hlt : ∀ i ∈ j :: q, i < 512) : ∃ v, v < userPages ∧ path v = q ∧ getPteOff v = j := by
  obtain ⟨x, y, z, rfl⟩ := List.length_eq_three.1 hlen
  have hz : z < 256 := hq.2 z (by simp)
  simp only [List.mem_cons, List.not_mem_nil, or_false, forall_eq_or_imp, forall_eq] at hlt
  obtain ⟨hj, hx, hy, -⟩ := hlt
  refine ⟨((z * 512 + y) * 512 + x) * 512 + j, by unfold userPages; omega, ?_, ?_⟩
  · simp only [path, getPgdOff_eq, getPudOff_eq, getPmdOff_eq, List.cons.injEq, and_true]
    omega
  · rw [getPteOff_eq]
    omega

namespace Vm

variable {s s' s₀ : Vm} {a b v f g i j r addr : ℕ} {p q : List ℕ} {mm : MmStruct}

/-- The entry `j` of the table at the path `q` of the address space `b` refers to the frame `f`.  A
page has room for 512 entries; of those of a directory this is about the ones of the user half. -/
def Refers (s : Vm) (b : ℕ) (q : List ℕ) (j f : ℕ) : Prop :=
  (∀ i ∈ j :: q, i < 512) ∧ (q = [] → j < 256) ∧
    ∃ g, s.Table b q g ∧ s.mem g j ≠ 0 ∧ frameOf (s.mem g j) = f

/-- What a state promises about the page tables; `kernel` is the directory at `pgd_start`. -/
structure DisjointTrees (s : Vm) (kernel : ℕ → ℕ) : Prop where
  /-- A `pud`, `pmd` or `pte` table is referred to by exactly one entry of one process. -/
  single : ∀ a i p f, s.Table a (i :: p) f → (∀ j ∈ i :: p, j < 512) → ∀ b q j,
    s.Refers b q j f ↔ b = a ∧ q = p ∧ j = i
  /-- No table is mapped as a page of a user. -/
  unmapped : ∀ a p f, s.Table a p f → ∀ b v k, s.ptes b v ≠ some (f, k)
  /-- No table below a directory is a directory. -/
  notPgd : ∀ a i p f, s.Table a (i :: p) f → ∀ b, s.roots b ≠ some f
  /-- The entries that two directories share are entries of the kernel. -/
  shared : ∀ a b r r' i, a ≠ b → s.roots a = some r → s.roots b = some r' → s.mem r i ≠ 0 →
    s.mem r i = s.mem r' i → 256 ≤ i ∧ i ≠ selfRefIndex ∧ s.mem r i = kernel i
  /-- A new entry for a page of one process does not change a translation of another. -/
  install : ∀ a v f e, v < userPages → s.Table a (path v) f → ∀ b mm, b ≠ a → s.mms b = some mm →
    ∀ (addr : UserAddr) write,
      ({ s with mem := Radix.write s.mem f (getPteOff v) e } : Vm).translate mm.pgd addr write =
        s.translate mm.pgd addr write

/-- An entry above the last tables leads to the next table. -/
theorem Refers.table (h : s.Refers b q j f) (hlen : q.length ≤ 2) : s.Table b (j :: q) f := by
  obtain ⟨-, huser, g, ht, hne, rfl⟩ := h
  refine ht.next ?_ hne
  cases q with
  | nil => exact ⟨by simp, fun i hi => by simp at hi; exact hi ▸ huser rfl⟩
  | cons x q => exact userPath_cons ht.1 hlen (by simp)

/-- An entry of a last table leads to a page of a user. -/
theorem Refers.mapped (h : s.Refers b q j f) (hlen : q.length = 3) : ∃ v k, s.ptes b v = some (f, k) := by
  obtain ⟨hlt, -, g, ht, hne, rfl⟩ := h
  obtain ⟨v, hv, rfl, rfl⟩ := exists_page ht.1 hlen hlt
  refine ⟨v, modeOf (s.mem g (getPteOff v)), ?_⟩
  rw [ht.ptes_eq hv, decode, if_neg hne]

theorem TableInv.single (h : TableInv s) (ht : s.Table a (i :: p) f) (hlt : ∀ j ∈ i :: p, j < 512) :
    s.Refers b q j f ↔ b = a ∧ q = p ∧ j = i := by
  constructor
  · intro href
    have hlen : q.length ≤ 3 := by
      obtain ⟨-, -, g, hg, -⟩ := href
      exact hg.1.1
    by_cases hlast : q.length = 3
    · obtain ⟨v, k, hk⟩ := href.mapped hlast
      exact absurd hk (h.unmapped a (i :: p) f ht b v k)
    · obtain ⟨rfl, heq⟩ := h.separate b a (j :: q) (i :: p) f (href.table (by omega)) ht
      obtain ⟨rfl, rfl⟩ := List.cons.inj heq
      exact ⟨rfl, rfl, rfl⟩
  · rintro ⟨rfl, rfl, rfl⟩
    obtain ⟨hpath, r, hr, hn⟩ := id ht
    refine ⟨hlt, ?_, ?_⟩
    · rintro rfl
      exact hpath.2 j (by simp)
    · rw [Radix.node] at hn
      obtain ⟨g, hg, hgf⟩ := Option.bind_eq_some_iff.1 hn
      split at hgf
      · simp at hgf
      · next hne => exact ⟨g, ⟨userPath_tail j q hpath, r, hr, hg⟩, hne, Option.some.inj hgf⟩

theorem TableInv.notPgd (h : TableInv s) (ht : s.Table a (i :: p) f) : s.roots b ≠ some f := by
  intro hr
  obtain ⟨-, heq⟩ := h.separate b a [] (i :: p) f (Table.root hr) ht
  simp at heq

theorem TableInv.shared {r' : ℕ} (h : TableInv s) (hab : a ≠ b) (hr : s.roots a = some r)
    (hr' : s.roots b = some r') (hne : s.mem r i ≠ 0) (heq : s.mem r i = s.mem r' i) :
    256 ≤ i ∧ i ≠ selfRefIndex ∧ s.mem r i = s.pgdStart i := by
  have hupper : 256 ≤ i := by
    by_contra hlt
    have hi : userPath [i] := ⟨by simp, fun j hj => by simp at hj; omega⟩
    have ht := (Table.root hr).next hi hne
    have ht' := (Table.root hr').next hi (heq ▸ hne)
    rw [heq] at ht
    exact hab (h.separate a b [i] [i] _ ht ht').1
  have hself : i ≠ selfRefIndex := by
    rintro rfl
    rw [h.upper a r _ hr hupper, h.upper b r' _ hr' hupper, upperEntry, upperEntry, if_pos rfl,
      if_pos rfl] at heq
    have hrr : r = r' := by
      have hframe := congrArg frameOf heq
      rwa [frameOf_entry (by decide), frameOf_entry (by decide)] at hframe
    subst hrr
    exact hab (h.separate a b [] [] r (Table.root hr) (Table.root hr')).1
  refine ⟨hupper, hself, ?_⟩
  rw [h.upper a r i hr hupper, upperEntry, if_neg hself]

/-! ### A new entry -/

/-- A walk is the same in two memories that have the tables on its way in common. -/
theorem mmuWalk_step {m : ℕ → ℕ → ℕ} {is : List ℕ} (hm : m g = s.mem g)
    (hrest : s.mem g i ≠ 0 →
      mmuWalk m (frameOf (s.mem g i)) is = mmuWalk s.mem (frameOf (s.mem g i)) is) :
    mmuWalk m g (i :: is) = mmuWalk s.mem g (i :: is) := by
  rw [mmuWalk, mmuWalk, hm]
  by_cases h0 : s.mem g i = 0
  · simp [h0]
  · rw [hrest h0]

theorem mmuWalk_congr {m : ℕ → ℕ → ℕ} (hm : ∀ q g, s.Table b q g → m g = s.mem g)
    (hr : s.roots b = some r) (hv : v < userPages) :
    mmuWalk m r [getPgdOff v, getPudOff v, getPmdOff v, getPteOff v] =
      mmuWalk s.mem r [getPgdOff v, getPudOff v, getPmdOff v, getPteOff v] := by
  have ht₀ : s.Table b [] r := Table.root hr
  refine mmuWalk_step (hm _ _ ht₀) fun h0 => ?_
  have ht₁ := ht₀.next (userPath_pgd hv) h0
  refine mmuWalk_step (hm _ _ ht₁) fun h1 => ?_
  have ht₂ := ht₁.next (userPath_pud hv) h1
  refine mmuWalk_step (hm _ _ ht₂) fun h2 => ?_
  have ht₃ := ht₂.next (userPath_path hv) h2
  exact mmuWalk_step (hm _ _ ht₃) fun _ => rfl

/-- **Installing an entry** for one process. -/
theorem TableInv.install (h : TableInv s) (ht : s.Table a p f) (hab : b ≠ a)
    (hmm : s.mms b = some mm) (e : ℕ) (addr : UserAddr) (write : Bool) :
    ({ s with mem := Radix.write s.mem f j e } : Vm).translate mm.pgd addr write =
      s.translate mm.pgd addr write := by
  have hm : ∀ q g, s.Table b q g → Radix.write s.mem f j e g = s.mem g := by
    intro q g hg
    refine Function.update_of_ne ?_ ..
    rintro rfl
    exact hab (h.separate b a q p g hg ht).1
  unfold translate
  simp only [mmuWalk_congr hm (roots_of_mm hmm) addr.page_lt]

/-! ### Runs -/

/-- **Page tables form disjoint trees**, and if the pages that the entries of the kernel refer to are
in use at the start, then no entry of the kernel refers to a table of a process. -/
theorem disjointTrees_of_run {acts : List Act} (h : Start s₀) (hrun : run step s₀ acts = .ok s) :
    DisjointTrees s s₀.pgdStart ∧
      ((∀ j, s₀.pgdStart j ≠ 0 → s₀.ref (frameOf (s₀.pgdStart j)) ≠ 0) →
        ∀ a i p f, s.Table a (i :: p) f → ∀ b r j, s.roots b = some r → 256 ≤ j → s.mem r j ≠ 0 →
          frameOf (s.mem r j) ≠ f) := by
  have hkeep := run_keeps h hrun
  have ht := hkeep.inv.tables
  refine ⟨⟨fun a i p f hf hlt b q j => ht.single hf hlt, fun a p f hf b v k => ht.unmapped a p f hf b v k,
    fun a i p f hf b => ht.notPgd hf, fun a b r r' i hab hr hr' hne heq => ?_,
    fun a v f e _ hf b mm hab hmm addr write => ht.install hf hab hmm e addr write⟩,
    fun hkernel a i p f hf b r j hr hj hne heq => ?_⟩
  · obtain ⟨hupper, hself, hentry⟩ := ht.shared hab hr hr' hne heq
    exact ⟨hupper, hself, hentry.trans (congrFun hkeep.pgdStart i)⟩
  · rw [ht.upper b r j hr hj] at hne heq
    unfold upperEntry at hne heq
    split at heq
    · rw [frameOf_entry (by decide)] at heq
      exact ht.notPgd hf (heq ▸ hr)
    · next hself =>
      rw [if_neg hself] at hne
      rw [hkeep.pgdStart] at hne heq
      -- a table is a page that was free at the start
      rcases hkeep.tableNew a (i :: p) f hf with ⟨-, r₀, hr₀, -⟩ | h0
      · rw [roots_eq_none.2 (h.noSpace a)] at hr₀
        simp at hr₀
      · exact hkernel j hne (heq ▸ h0)

/-- Two processes, the second a child of the first, whose page tables are trees of this kind. -/
theorem disjointTrees_onceActs : ∃ s, run step smallVm onceActs = .ok s ∧
    DisjointTrees s smallVm.pgdStart ∧
    ∀ a i p f, s.Table a (i :: p) f → ∀ b r j, s.roots b = some r → 256 ≤ j → s.mem r j ≠ 0 →
      frameOf (s.mem r j) ≠ f := by
  have hrun : reaches (run step smallVm onceActs) (fun _ => true) = true := by decide +kernel
  obtain ⟨s, hs, -⟩ := exists_of_reaches hrun
  obtain ⟨htrees, hkernel⟩ := disjointTrees_of_run smallVm_start hs
  refine ⟨s, hs, htrees, hkernel fun j hj => ?_⟩
  show (if 700 ≤ frameOf (smallVm.pgdStart j) ∧ frameOf (smallVm.pgdStart j) < 800 then (0 : ℤ)
    else 1) ≠ 0
  have hcase : smallVm.pgdStart j = entry 601 (pteP + pteRw) ∨
      smallVm.pgdStart j = entry 600 (pteP + pteRw) := by
    unfold smallVm at hj ⊢
    simp only at hj ⊢
    split
    · exact .inl rfl
    · next h1 =>
      rw [if_neg h1] at hj
      split
      · exact .inr rfl
      · next h2 => exact absurd (if_neg h2) hj
  rcases hcase with heq | heq <;> rw [heq] <;> decide

end Vm

end PlumOs
