import PlumOs.Lib.Cow
import PlumOs.Vm.Paging

/-!
# The page tables as trees

The tables of an address space form a tree under its page directory, and the entries of the last
tables are what a page is mapped to.  `Vm.ptes` reads these entries, for all the address spaces that
were ever made; it is the abstract view that `Lib.Cow` is about.

* `TableInv` : the tables are separate, no table is a page of a user, and the entries have the flags
  the kernel gives them;
* `TableInv.congr` : only the tables matter;
* `TableInv.link`, `TableInv.put`, `TableInv.root` : a new table, a new entry, a new directory;
* `Grown` : what an allocation may change;
* `nextTable_spec`, `translate_eq`, `pteTableTrick_eq` : the walks of the kernel and of the processor
  find the entry.
-/

namespace PlumOs

open Cow (Mode Ptes)

/-! ### Arithmetic of entries and offsets -/

theorem getPgdOff_eq (v : ℕ) : getPgdOff v = v / 2 ^ 27 % 512 := by unfold getPgdOff; omega

theorem getPudOff_eq (v : ℕ) : getPudOff v = v / 2 ^ 18 % 512 := by unfold getPudOff; omega

theorem getPmdOff_eq (v : ℕ) : getPmdOff v = v / 2 ^ 9 % 512 := by unfold getPmdOff; omega

theorem getPteOff_eq (v : ℕ) : getPteOff v = v % 512 := by unfold getPteOff; omega

theorem testBit_eq (e i : ℕ) : e.testBit i = decide (e / 2 ^ i % 2 = 1) :=
  Nat.testBit_eq_decide_div_mod_eq

@[simp] theorem frameOf_entry {f fl : ℕ} (h : fl < pgSize) : frameOf (entry f fl) = f := by
  unfold frameOf entry
  rw [Nat.mul_comm, Nat.mul_add_div (by decide), Nat.div_eq_of_lt h, Nat.add_zero]

theorem entry_ne_zero {f fl : ℕ} (h : 0 < fl) : entry f fl ≠ 0 := by
  unfold entry
  omega

theorem entry_mod {f fl : ℕ} (h : fl < pgSize) : entry f fl % pgSize = fl := by
  unfold entry
  rw [Nat.mul_comm, Nat.mul_add_mod, Nat.mod_eq_of_lt h]

/-- The flags of an entry for a page: read-only, writable or copy-on-write. -/
def PageFlags (e : ℕ) : Prop :=
  e % pgSize = pteP + pteUs ∨ e % pgSize = pteP + pteRw + pteUs ∨ e % pgSize = pteP + pteCow + pteUs

theorem PageFlags.present {e : ℕ} (h : PageFlags e) : e.testBit 0 = true ∧ e.testBit 2 = true := by
  simp only [testBit_eq, decide_eq_true_eq]
  unfold PageFlags pgSize pteP pteRw pteUs pteCow at h
  rcases h with h | h | h <;> omega

theorem PageFlags.ne_zero {e : ℕ} (h : PageFlags e) : e ≠ 0 := by
  rintro rfl
  simpa using h.present.1

/-! ### The user's part of the trees -/

/-- The paths to the tables of the user half. -/
def userPath (p : List ℕ) : Prop := p.length ≤ 3 ∧ ∀ i ∈ p.getLast?, i < 256

/-- The number of the pages of the user half. -/
abbrev userPages : ℕ := 2 ^ 35

/-- The path to the last table for a page. -/
def path (v : ℕ) : List ℕ := [getPmdOff v, getPudOff v, getPgdOff v]

theorem userPath_nil : userPath [] := ⟨by simp, by simp⟩

theorem userPath_tail (i : ℕ) (p : List ℕ) (h : userPath (i :: p)) : userPath p := by
  refine ⟨by have := h.1; simp only [List.length_cons] at this; omega, fun j hj => h.2 j ?_⟩
  cases p with
  | nil => simp at hj
  | cons x p => rwa [List.getLast?_cons_cons]

theorem userPath_cons {i : ℕ} {p : List ℕ} (h : userPath p) (hlen : p.length ≤ 2) (hne : p ≠ []) :
    userPath (i :: p) := by
  refine ⟨by simp only [List.length_cons]; omega, ?_⟩
  cases p with
  | nil => exact absurd rfl hne
  | cons x p => rw [List.getLast?_cons_cons]; exact h.2

section Path

variable {v : ℕ} (hv : v < userPages)

include hv

theorem userPath_pgd : userPath [getPgdOff v] := by
  refine ⟨by simp, fun i hi => ?_⟩
  simp only [List.getLast?_singleton, Option.mem_some_iff] at hi
  rw [← hi, getPgdOff_eq]
  unfold userPages at hv
  omega

theorem userPath_pud : userPath [getPudOff v, getPgdOff v] :=
  userPath_cons (userPath_pgd hv) (by simp) (by simp)

theorem userPath_path : userPath (path v) := userPath_cons (userPath_pud hv) (by simp) (by simp)

theorem path_inj {w : ℕ} (hw : w < userPages) (hp : path v = path w)
    (ho : getPteOff v = getPteOff w) : v = w := by
  simp only [path, List.cons.injEq, and_true] at hp
  simp only [getPgdOff_eq, getPudOff_eq, getPmdOff_eq, getPteOff_eq] at hp ho
  unfold userPages at hv hw
  omega

end Path

theorem not_userPath_leaf (i v : ℕ) : ¬ userPath (i :: path v) := by
  rintro ⟨hlen, -⟩
  simp [path] at hlen

namespace Vm

/-- The page directories. -/
def roots (s : Vm) (a : ℕ) : Option ℕ := (s.mms a).map MmStruct.pgd

/-- The frame `f` is the table at the path `p` of the address space `a`. -/
def Table (s : Vm) (a : ℕ) (p : List ℕ) (f : ℕ) : Prop :=
  Radix.Tree 0 frameOf userPath s.mem s.roots a p f

/-- The entry for a page, 0 if there is none. -/
def pte (s : Vm) (a v : ℕ) : ℕ :=
  (s.roots a).elim 0 fun r => Radix.leaf 0 frameOf s.mem r (path v) (getPteOff v)

/-- The mode that the flags of an entry stand for. -/
def modeOf (e : ℕ) : Mode :=
  if e.testBit 1 then .writable else if e.testBit 9 then .cow else .readOnly

/-- What an entry says. -/
def decode (e : ℕ) : Option (ℕ × Mode) := if e = 0 then none else some (frameOf e, modeOf e)

/-- **The mappings** of all the address spaces made so far. -/
def ptes (s : Vm) : Ptes ℕ ℕ ℕ := fun a v => if v < userPages then decode (s.pte a v) else none

/-- The entries of the kernel half of the page directory `r`: those of the kernel, apart from the
reference to itself. -/
def upperEntry (s : Vm) (r i : ℕ) : ℕ :=
  if i = selfRefIndex then entry r (pteP + pteRw) else s.pgdStart i

/-- What holds of the tables. -/
structure TableInv (s : Vm) : Prop where
  /-- No two address spaces share a table, and no table is reached twice. -/
  separate : Radix.Separate 0 frameOf userPath s.mem s.roots
  /-- The flags of the upper entries. -/
  interior : ∀ a p f i, s.Table a p f → userPath (i :: p) → s.mem f i ≠ 0 →
    s.mem f i % pgSize = pteP + pteRw + pteUs
  /-- The flags of the entries for pages. -/
  flags : ∀ a p f i, s.Table a p f → p.length = 3 → s.mem f i ≠ 0 → PageFlags (s.mem f i)
  /-- The half for the kernel is the same in every directory. -/
  upper : ∀ a r i, s.roots a = some r → 256 ≤ i → s.mem r i = s.upperEntry r i
  /-- A table is in use. -/
  live : ∀ a p f, s.Table a p f → s.ref f ≠ 0
  /-- A table is not mapped. -/
  unmapped : ∀ a p f, s.Table a p f → Cow.Unmapped s.ptes f
  /-- A frame that is mapped is in use. -/
  frames : ∀ a v f k, s.ptes a v = some (f, k) → s.ref f ≠ 0 ∧ f < pageArraySize
  /-- The page of an `mm_struct` is in use. -/
  mmLive : ∀ a, s.mms a ≠ none → s.ref a ≠ 0

variable {s s' : Vm} {a b v w f g i r off : ℕ} {p q : List ℕ} {k : Mode} {mm : MmStruct}

/-! ### Reading the trees -/

theorem roots_eq_none : s.roots a = none ↔ s.mms a = none := by
  unfold roots
  exact Option.map_eq_none_iff

theorem roots_of_mm (h : s.mms a = some mm) : s.roots a = some mm.pgd := by
  unfold roots
  rw [h]
  rfl

theorem Table.root (h : s.roots a = some r) : s.Table a [] r := ⟨userPath_nil, r, h, rfl⟩

/-- One step down. -/
theorem Table.next (h : s.Table a p f) (hi : userPath (i :: p)) (he : s.mem f i ≠ 0) :
    s.Table a (i :: p) (frameOf (s.mem f i)) := by
  obtain ⟨-, r, hr, hn⟩ := h
  refine ⟨hi, r, hr, ?_⟩
  rw [Radix.node, hn]
  exact if_neg he

theorem Table.node_null (h : s.Table a p f) (he : s.mem f i = 0) (hr : s.roots a = some r)
    (hq : (i :: p) <:+ q) : Radix.node 0 frameOf s.mem r q = none := by
  obtain ⟨-, r', hr', hn⟩ := h
  obtain rfl := Option.some.inj (hr.symm.trans hr')
  refine Radix.node_none_of_suffix ?_ hq
  rw [Radix.node, hn]
  exact if_pos he

/-- Nothing is mapped behind a null entry. -/
theorem Table.ptes_null (h : s.Table a p f) (he : s.mem f i = 0) (hq : (i :: p) <:+ path v) :
    s.ptes a v = none := by
  obtain ⟨-, r, hr, -⟩ := id h
  have hpte : s.pte a v = 0 := by
    unfold pte
    rw [hr]
    show Radix.leaf 0 frameOf s.mem r (path v) (getPteOff v) = 0
    unfold Radix.leaf
    rw [h.node_null he hr hq]
    rfl
  unfold ptes
  rw [hpte]
  split <;> rfl

/-- The entry for a page is in the last table. -/
theorem Table.pte_eq (h : s.Table a (path v) f) : s.pte a v = s.mem f (getPteOff v) := by
  obtain ⟨-, r, hr, hn⟩ := h
  unfold pte
  rw [hr]
  show Radix.leaf 0 frameOf s.mem r (path v) (getPteOff v) = _
  unfold Radix.leaf
  rw [hn]
  rfl

theorem Table.ptes_eq (h : s.Table a (path v) f) (hv : v < userPages) :
    s.ptes a v = decode (s.mem f (getPteOff v)) := by
  unfold ptes
  rw [if_pos hv, h.pte_eq]

theorem decode_eq_none {e : ℕ} : decode e = none ↔ e = 0 := by
  unfold decode
  split <;> simp_all

/-- A page that is mapped has a last table. -/
theorem exists_table_of_ptes (h : s.ptes a v = some (g, k)) :
    v < userPages ∧ ∃ f, s.Table a (path v) f ∧ s.mem f (getPteOff v) ≠ 0 ∧
      g = frameOf (s.mem f (getPteOff v)) ∧ k = modeOf (s.mem f (getPteOff v)) := by
  unfold ptes at h
  split at h
  · next hv =>
    refine ⟨hv, ?_⟩
    have hne : s.pte a v ≠ 0 := by
      intro h0
      rw [h0] at h
      simp [decode] at h
    cases hr : s.roots a with
    | none => simp [pte, hr] at hne
    | some r =>
      cases hn : Radix.node 0 frameOf s.mem r (path v) with
      | none => simp [pte, hr, Radix.leaf, hn] at hne
      | some f =>
        have ht : s.Table a (path v) f := ⟨userPath_path hv, r, hr, hn⟩
        rw [ht.pte_eq] at h hne
        rw [decode, if_neg hne, Option.some.injEq, Prod.mk.injEq] at h
        exact ⟨f, ht, hne, h.1.symm, h.2.symm⟩
  · simp at h

/-! ### Changes outside of the tables -/

section Congr

variable (hroots : s'.roots = s.roots) (hmem : ∀ a p f, s.Table a p f → s'.mem f = s.mem f)

include hroots hmem

theorem table_congr : s'.Table a p f ↔ s.Table a p f := by
  unfold Table
  rw [hroots]
  exact Radix.tree_congr userPath_tail fun b q f i ht _ => by rw [hmem b q f ht]

theorem ptes_congr : s'.ptes = s.ptes := by
  funext a v
  unfold ptes
  split
  · next hv =>
    unfold pte
    rw [hroots]
    cases hr : s.roots a with
    | none => rfl
    | some r =>
      show decode (Radix.leaf 0 frameOf s'.mem r (path v) (getPteOff v)) = decode _
      rw [Radix.leaf_congr userPath_tail (fun b q f i ht => by rw [hmem b q f ht]) hr
        (userPath_path hv)]
      rfl
  · rfl

/-- **Only the tables matter** for what holds of the tables. -/
theorem TableInv.congr (h : TableInv s) (hpgd : s'.pgdStart = s.pgdStart)
    (href : ∀ f, s.ref f ≠ 0 → s'.ref f ≠ 0) : TableInv s' := by
  have ht : ∀ {a p f}, s'.Table a p f ↔ s.Table a p f := table_congr hroots hmem
  have hp : s'.ptes = s.ptes := ptes_congr hroots hmem
  refine ⟨fun a b p q f h₁ h₂ => ?_, fun a p f i h₁ hi he => ?_, fun a p f i h₁ hl he => ?_,
    fun a r i hr hi => ?_, fun a p f h₁ => ?_, fun a p f h₁ => ?_, fun a v f k hk => ?_,
    fun a ha => ?_⟩
  · exact h.separate a b p q f (ht.1 h₁) (ht.1 h₂)
  · rw [hmem a p f (ht.1 h₁)] at he ⊢
    exact h.interior a p f i (ht.1 h₁) hi he
  · rw [hmem a p f (ht.1 h₁)] at he ⊢
    exact h.flags a p f i (ht.1 h₁) hl he
  · rw [hroots] at hr
    rw [hmem a [] r (Table.root hr), h.upper a r i hr hi]
    unfold upperEntry
    rw [hpgd]
  · exact href f (h.live a p f (ht.1 h₁))
  · rw [hp]
    exact h.unmapped a p f (ht.1 h₁)
  · rw [hp] at hk
    exact ⟨href f (h.frames a v f k hk).1, (h.frames a v f k hk).2⟩
  · refine href a (h.mmLive a fun hnone => ha ?_)
    rw [← roots_eq_none, hroots, roots_eq_none]
    exact hnone

end Congr

/-! ### Assignments to tables -/

theorem testBit_entry {fl : ℕ} (h : fl < pgSize) (j : ℕ) (hj : j < 12) :
    (entry f fl).testBit j = fl.testBit j := by
  have hmod := Nat.testBit_mod_two_pow (entry f fl) 12 j
  rw [show (2 : ℕ) ^ 12 = pgSize from rfl, entry_mod h] at hmod
  rw [hmod, decide_eq_true hj, Bool.true_and]

theorem modeOf_entry {fl : ℕ} (h : fl < pgSize) : modeOf (entry f fl) = modeOf fl := by
  unfold modeOf
  rw [testBit_entry h 1 (by decide), testBit_entry h 9 (by decide)]

theorem decode_entry {fl : ℕ} (h : fl < pgSize) (hpos : 0 < fl) :
    decode (entry f fl) = some (f, modeOf fl) := by
  rw [decode, if_neg (entry_ne_zero hpos), frameOf_entry h, modeOf_entry h]

/-- A frame that may become a table or a page of a user. -/
structure Spare (s : Vm) (g : ℕ) : Prop where
  live : s.ref g ≠ 0
  notTable : ∀ b q, ¬ s.Table b q g

section Link

variable (h : TableInv s) (ht : s.Table a p f) (hi : userPath (i :: p)) (hnull : s.mem f i = 0)
  (hg : Spare s g) (hun : Cow.Unmapped s.ptes g) (hzero : ∀ j, s.mem g j = 0)

include h ht hi hnull hg hzero

theorem table_link : (s.putEntry f i g (pteP + pteRw + pteUs)).Table b q w ↔
    s.Table b q w ∨ b = a ∧ q = i :: p ∧ w = g :=
  Radix.tree_link userPath_tail h.separate ht hnull hi hg.notTable (fun j _ => hzero j)
    (entry_ne_zero (by decide)) (frameOf_entry (by decide))

theorem ptes_link : (s.putEntry f i g (pteP + pteRw + pteUs)).ptes = s.ptes := by
  funext b v
  unfold ptes
  split
  · next hv =>
    unfold pte
    show decode ((s.roots b).elim 0 fun r => Radix.leaf 0 frameOf (Radix.write s.mem f i _) r _ _) = _
    cases hr : s.roots b with
    | none => rfl
    | some r =>
      refine congrArg decode (Radix.leaf_link userPath_tail h.separate ht hnull hi hg.notTable ?_ ?_
        hzero hr (userPath_path hv) (not_userPath_leaf _ v))
      · exact entry_ne_zero (by decide)
      · exact frameOf_entry (by decide)
  · rfl

include hun in
/-- **A new table** in the place of a null entry. -/
theorem TableInv.link : TableInv (s.putEntry f i g (pteP + pteRw + pteUs)) := by
  have htab : ∀ {b q w}, (s.putEntry f i g (pteP + pteRw + pteUs)).Table b q w ↔
      s.Table b q w ∨ b = a ∧ q = i :: p ∧ w = g := table_link h ht hi hnull hg hzero
  have hptes := ptes_link h ht hi hnull hg hzero
  have hgf : g ≠ f := by
    rintro rfl
    exact hg.notTable a p ht
  have hnew : (s.putEntry f i g (pteP + pteRw + pteUs)).mem f i = entry g (pteP + pteRw + pteUs) :=
    Radix.write_self
  have hold : ∀ x j, ¬ (x = f ∧ j = i) →
      (s.putEntry f i g (pteP + pteRw + pteUs)).mem x j = s.mem x j := fun x j hx =>
    Radix.write_of_ne hx
  refine ⟨?_, fun b q x j hx hj he => ?_, fun b q x j hx hl he => ?_, fun b r j hr hj => ?_,
    fun b q x hx => ?_, fun b q x hx => ?_, fun b v x k hk => ?_, h.mmLive⟩
  · exact Radix.separate_link userPath_tail h.separate ht hnull hi hg.notTable (fun j _ => hzero j)
      (entry_ne_zero (by decide)) (frameOf_entry (by decide))
  · by_cases hxf : x = f ∧ j = i
    · obtain ⟨rfl, rfl⟩ := hxf
      rw [hnew, entry_mod (by decide)]
    · rw [hold x j hxf] at he ⊢
      rcases htab.1 hx with hx | ⟨-, -, rfl⟩
      · exact h.interior b q x j hx hj he
      · exact absurd (hzero j) he
  · have hxf : ¬ (x = f ∧ j = i) := by
      rintro ⟨rfl, rfl⟩
      rcases htab.1 hx with hx | ⟨-, -, rfl⟩
      · obtain ⟨-, rfl⟩ := h.separate b a q p x hx ht
        have := hi.1
        simp only [List.length_cons] at this
        omega
      · exact hgf rfl
    rw [hold x j hxf] at he ⊢
    rcases htab.1 hx with hx | ⟨-, -, rfl⟩
    · exact h.flags b q x j hx hl he
    · exact absurd (hzero j) he
  · refine (hold r j ?_).trans (h.upper b r j hr hj)
    -- an entry of a directory that leads to a table is in the user half
    rintro ⟨rfl, rfl⟩
    obtain ⟨rfl, rfl⟩ := h.separate b a [] p r (Table.root hr) ht
    exact absurd (hi.2 j (by simp)) (by omega)
  · rcases htab.1 hx with hx | ⟨-, -, rfl⟩
    · exact h.live b q x hx
    · exact hg.live
  · rw [hptes]
    rcases htab.1 hx with hx | ⟨-, -, rfl⟩
    · exact h.unmapped b q x hx
    · exact hun
  · rw [hptes] at hk
    exact h.frames b v x k hk

end Link

section Put

variable (h : TableInv s) (hv : v < userPages) (ht : s.Table a (path v) f) (hg : Spare s g)
  (hsize : g < pageArraySize) {fl : ℕ} (hfl : PageFlags fl) (hlt : fl < pgSize)

include h ht

theorem table_put : (s.putEntry f (getPteOff v) g fl).Table b q w ↔ s.Table b q w :=
  Radix.tree_put userPath_tail h.separate ht (not_userPath_leaf _ v)

include hv hfl hlt

theorem ptes_put :
    (s.putEntry f (getPteOff v) g fl).ptes = Cow.set s.ptes a v (some (g, modeOf fl)) := by
  have hpos : 0 < fl := Nat.pos_of_ne_zero hfl.ne_zero
  have htab : (s.putEntry f (getPteOff v) g fl).Table a (path v) f := (table_put h ht).2 ht
  funext b w
  by_cases hbw : b = a ∧ w = v
  · obtain ⟨rfl, rfl⟩ := hbw
    rw [htab.ptes_eq hv, Cow.set_self]
    show decode (Radix.write s.mem f (getPteOff w) (entry g fl) f (getPteOff w)) = _
    rw [Radix.write_self, decode_entry hlt hpos]
  · rw [Cow.set_of_ne hbw]
    unfold ptes
    split
    · next hw =>
      unfold pte
      show decode ((s.roots b).elim 0 fun r => Radix.leaf 0 frameOf (Radix.write s.mem f _ _) r _ _) = _
      cases hr : s.roots b with
      | none => rfl
      | some r =>
        refine congrArg decode ((Radix.leaf_put userPath_tail h.separate ht (not_userPath_leaf _ v)
          hr (userPath_path hw)).trans (if_neg ?_))
        rintro ⟨rfl, hp, ho⟩
        exact hbw ⟨rfl, path_inj hw hv hp ho⟩
    · rfl

include hg hsize in
/-- **A new entry for a page.** -/
theorem TableInv.put : TableInv (s.putEntry f (getPteOff v) g fl) := by
  have htab : ∀ {b q w}, (s.putEntry f (getPteOff v) g fl).Table b q w ↔ s.Table b q w :=
    table_put h ht
  have hptes := ptes_put h hv ht (g := g) hfl hlt
  have hold : ∀ x j, ¬ (x = f ∧ j = getPteOff v) →
      (s.putEntry f (getPteOff v) g fl).mem x j = s.mem x j := fun x j hx => Radix.write_of_ne hx
  have hmapped : ∀ b w x k, (s.putEntry f (getPteOff v) g fl).ptes b w = some (x, k) →
      x = g ∨ ∃ k', s.ptes b w = some (x, k') := by
    intro b w x k hk
    rw [hptes] at hk
    rcases Cow.set_eq_some hk with ⟨-, -, hx⟩ | ⟨-, hk⟩
    · exact .inl (congrArg Prod.fst (Option.some.inj hx)).symm
    · exact .inr ⟨k, hk⟩
  refine ⟨fun b c q q' x hx hx' => ?_, fun b q x j hx hj he => ?_, fun b q x j hx hl he => ?_,
    fun b r j hr hj => ?_, fun b q x hx => ?_, fun b q x hx c w k hk => ?_, fun b w x k hk => ?_,
    h.mmLive⟩
  · exact h.separate b c q q' x (htab.1 hx) (htab.1 hx')
  · have hxf : ¬ (x = f ∧ j = getPteOff v) := by
      rintro ⟨rfl, rfl⟩
      obtain ⟨-, rfl⟩ := h.separate b a q (path v) x (htab.1 hx) ht
      exact not_userPath_leaf _ v hj
    rw [hold x j hxf] at he ⊢
    exact h.interior b q x j (htab.1 hx) hj he
  · by_cases hxf : x = f ∧ j = getPteOff v
    · obtain ⟨rfl, rfl⟩ := hxf
      show PageFlags (Radix.write s.mem x (getPteOff v) (entry g fl) x (getPteOff v))
      rw [Radix.write_self]
      unfold PageFlags at hfl ⊢
      rw [Nat.mod_eq_of_lt hlt] at hfl
      rw [entry_mod hlt]
      exact hfl
    · rw [hold x j hxf] at he ⊢
      exact h.flags b q x j (htab.1 hx) hl he
  · refine (hold r j ?_).trans (h.upper b r j hr hj)
    rintro ⟨rfl, -⟩
    obtain ⟨-, hp⟩ := h.separate b a [] (path v) r (Table.root hr) ht
    simp [path] at hp
  · exact h.live b q x (htab.1 hx)
  · rcases hmapped c w x k hk with rfl | ⟨k', hk'⟩
    · exact hg.notTable b q (htab.1 hx)
    · exact h.unmapped b q x (htab.1 hx) c w k' hk'
  · rcases hmapped b w x k hk with rfl | ⟨k', hk'⟩
    · exact ⟨hg.live, hsize⟩
    · exact h.frames b w x k' hk'

end Put

/-! ### A new address space -/

section Root

variable (ha : s.mms a = none)

theorem roots_update : ({ s with mms := Function.update s.mms a (some mm) } : Vm).roots =
    Function.update s.roots a (some mm.pgd) := by
  funext b
  show (Function.update s.mms a (some mm) b).map MmStruct.pgd = _
  by_cases hb : b = a
  · subst hb
    rw [Function.update_self, Function.update_self]
    rfl
  · rw [Function.update_of_ne hb, Function.update_of_ne hb]
    rfl

/-- A page that can serve as a directory: nothing is mapped in the user half. -/
structure Directory (s : Vm) (r : ℕ) : Prop where
  user : ∀ i, i < 256 → s.mem r i = 0
  upper : ∀ i, 256 ≤ i → s.mem r i = s.upperEntry r i

theorem Directory.user_zero (hdir : Directory s r) (i : ℕ) (h : userPath [i]) : s.mem r i = 0 :=
  hdir.user i (h.2 i (by simp))

variable (hdir : Directory s mm.pgd)

include ha hdir

theorem table_root : ({ s with mms := Function.update s.mms a (some mm) } : Vm).Table b q w ↔
    s.Table b q w ∨ b = a ∧ q = [] ∧ w = mm.pgd := by
  unfold Table
  rw [roots_update]
  exact Radix.tree_root (m := s.mem) userPath_tail userPath_nil (roots_eq_none.2 ha) hdir.user_zero

theorem ptes_root : ({ s with mms := Function.update s.mms a (some mm) } : Vm).ptes = s.ptes := by
  funext b v
  unfold ptes
  split
  · next hv =>
    refine congrArg decode ?_
    unfold pte
    rw [roots_update]
    by_cases hb : b = a
    · subst hb
      rw [Function.update_self, roots_eq_none.2 ha]
      show Radix.leaf 0 frameOf s.mem mm.pgd (path v) (getPteOff v) = 0
      unfold Radix.leaf
      rw [Radix.node_root userPath_tail hdir.user_zero (userPath_path hv)]
      rfl
    · rw [Function.update_of_ne hb]
  · rfl

/-- **A new address space** without pages. -/
theorem TableInv.root (h : TableInv s) (hg : Spare s mm.pgd) (hun : Cow.Unmapped s.ptes mm.pgd)
    (hlive : s.ref a ≠ 0) : TableInv { s with mms := Function.update s.mms a (some mm) } := by
  have htab : ∀ {b q w}, ({ s with mms := Function.update s.mms a (some mm) } : Vm).Table b q w ↔
      s.Table b q w ∨ b = a ∧ q = [] ∧ w = mm.pgd := table_root ha hdir
  have hptes := ptes_root ha hdir
  refine ⟨?_, fun b q x j hx hj he => ?_, fun b q x j hx hl he => ?_, fun b r j hr hj => ?_,
    fun b q x hx => ?_, fun b q x hx => ?_, fun b v x k hk => ?_, fun b hb => ?_⟩
  · show Radix.Separate 0 frameOf userPath s.mem _
    rw [roots_update]
    exact Radix.separate_root userPath_tail userPath_nil (roots_eq_none.2 ha) hdir.user_zero
      h.separate hg.notTable
  · rcases htab.1 hx with hx | ⟨-, rfl, rfl⟩
    · exact h.interior b q x j hx hj he
    · exact absurd (hdir.user_zero j hj) he
  · rcases htab.1 hx with hx | ⟨-, rfl, -⟩
    · exact h.flags b q x j hx hl he
    · simp at hl
  · rw [roots_update] at hr
    by_cases hb : b = a
    · subst hb
      rw [Function.update_self, Option.some.injEq] at hr
      subst hr
      exact hdir.upper j hj
    · rw [Function.update_of_ne hb] at hr
      exact h.upper b r j hr hj
  · rcases htab.1 hx with hx | ⟨-, -, rfl⟩
    · exact h.live b q x hx
    · exact hg.live
  · rw [hptes]
    rcases htab.1 hx with hx | ⟨-, -, rfl⟩
    · exact h.unmapped b q x hx
    · exact hun
  · rw [hptes] at hk
    exact h.frames b v x k hk
  · by_cases hba : b = a
    · exact hba ▸ hlive
    · exact h.mmLive b fun hnone => hb ((Function.update_of_ne hba ..).trans hnone)

end Root

/-! ### Allocation -/

/-- What `get_zero_page` does. -/
structure ZeroPage (s : Vm) (g : ℕ) (s' : Vm) : Prop where
  free : s.ref g = 0
  lo : normalPfnStart ≤ g
  hi : g < normalPfnEnd
  ref : s'.ref = Function.update s.ref g 1
  mem : s'.mem = Function.update s.mem g fun _ => 0
  mms : s'.mms = s.mms
  tasks : s'.tasks = s.tasks
  archive : s'.archive = s.archive
  pgdStart : s'.pgdStart = s.pgdStart

theorem getZeroPage_spec (s : Vm) :
    Yields s.getZeroPage (fun x => ZeroPage s x.1 x.2) fun _ => True := by
  unfold getZeroPage
  cases hget : s.pages.getFreePage with
  | error e => trivial
  | ok x =>
    obtain ⟨pfn, pages⟩ := x
    obtain ⟨hfind, hpages⟩ := getFreePage_eq_ok hget
    obtain ⟨hlo, hhi, hfree, -⟩ := findFree_spec hfind
    exact ⟨hfree, hlo, hhi, hpages, rfl, rfl, rfl, rfl, rfl⟩

/-- What an allocation of pages and tables may change. -/
structure Grown (s s' : Vm) : Prop where
  mms : s'.mms = s.mms
  tasks : s'.tasks = s.tasks
  archive : s'.archive = s.archive
  pgdStart : s'.pgdStart = s.pgdStart
  ptes : s'.ptes = s.ptes
  ref : ∀ f, s.ref f ≠ 0 → s'.ref f = s.ref f
  one : ∀ f, s.ref f = 0 → s'.ref f = 0 ∨ s'.ref f = 1
  table : ∀ a p f, s.Table a p f → s'.Table a p f
  tableNew : ∀ a p f, s'.Table a p f → s.Table a p f ∨ s.ref f = 0
  mem : ∀ f, s.ref f ≠ 0 → (∀ a p, ¬ s.Table a p f) → s'.mem f = s.mem f

theorem Grown.refl (s : Vm) : Grown s s :=
  ⟨rfl, rfl, rfl, rfl, rfl, fun _ _ => rfl, fun _ h => .inl h, fun _ _ _ h => h,
    fun _ _ _ h => .inl h, fun _ _ _ => rfl⟩

theorem Grown.live (h : Grown s s') (hf : s.ref f ≠ 0) : s'.ref f ≠ 0 := by
  rw [h.ref f hf]
  exact hf

theorem Grown.trans {s'' : Vm} (h : Grown s s') (h' : Grown s' s'') : Grown s s'' where
  mms := h'.mms.trans h.mms
  tasks := h'.tasks.trans h.tasks
  archive := h'.archive.trans h.archive
  pgdStart := h'.pgdStart.trans h.pgdStart
  ptes := h'.ptes.trans h.ptes
  ref f hf := (h'.ref f (h.live hf)).trans (h.ref f hf)
  one f hf := by
    rcases h.one f hf with h0 | h1
    · exact h'.one f h0
    · exact .inr ((h'.ref f (by rw [h1]; decide)).trans h1)
  table a p f ht := h'.table a p f (h.table a p f ht)
  tableNew a p f ht := by
    rcases h'.tableNew a p f ht with ht | h0
    · exact h.tableNew a p f ht
    · by_contra hno
      rw [not_or] at hno
      exact h.live hno.2 h0
  mem f hf ht := by
    refine (h'.mem f (h.live hf) fun a p hp => ?_).trans (h.mem f hf ht)
    rcases h.tableNew a p f hp with hp | h0
    · exact ht a p hp
    · exact hf h0

theorem Grown.roots (h : Grown s s') : s'.roots = s.roots := by
  funext a
  unfold Vm.roots
  rw [h.mms]

section ZeroPage

variable (h : TableInv s) (hz : ZeroPage s g s')

include hz

theorem ZeroPage.ref_of_ne (hf : f ≠ g) : s'.ref f = s.ref f := by
  rw [hz.ref, Function.update_of_ne hf]

theorem ZeroPage.ref_self : s'.ref g = 1 := by rw [hz.ref, Function.update_self]

theorem ZeroPage.ne (hf : s.ref f ≠ 0) : f ≠ g := by
  rintro rfl
  exact hf hz.free

theorem ZeroPage.mem_of_ne (hf : f ≠ g) : s'.mem f = s.mem f := by
  rw [hz.mem, Function.update_of_ne hf]

theorem ZeroPage.mem_self (j : ℕ) : s'.mem g j = 0 := by rw [hz.mem, Function.update_self]

theorem ZeroPage.live (hf : s.ref f ≠ 0) : s'.ref f ≠ 0 := by
  rw [hz.ref_of_ne (hz.ne hf)]
  exact hf

theorem ZeroPage.roots : s'.roots = s.roots := by
  funext a
  unfold Vm.roots
  rw [hz.mms]

include h

theorem ZeroPage.notTable (a : ℕ) (p : List ℕ) : ¬ s.Table a p g := fun ht =>
  h.live a p g ht hz.free

theorem ZeroPage.unmapped : Cow.Unmapped s.ptes g := fun a v k hk =>
  (h.frames a v g k hk).1 hz.free

theorem ZeroPage.mem_table (ht : s.Table a p f) : s'.mem f = s.mem f :=
  hz.mem_of_ne (hz.ne (h.live a p f ht))

theorem ZeroPage.table_iff : s'.Table a p f ↔ s.Table a p f :=
  table_congr hz.roots fun _ _ _ ht => hz.mem_table h ht

theorem ZeroPage.ptes : s'.ptes = s.ptes := ptes_congr hz.roots fun _ _ _ ht => hz.mem_table h ht

theorem ZeroPage.tableInv : TableInv s' :=
  h.congr hz.roots (fun _ _ _ ht => hz.mem_table h ht) hz.pgdStart fun _ => hz.live

theorem ZeroPage.grown : Grown s s' where
  mms := hz.mms
  tasks := hz.tasks
  archive := hz.archive
  pgdStart := hz.pgdStart
  ptes := hz.ptes h
  ref f hf := hz.ref_of_ne (hz.ne hf)
  one f hf := by
    by_cases hfg : f = g
    · exact .inr (hfg ▸ hz.ref_self)
    · exact .inl ((hz.ref_of_ne hfg).trans hf)
  table a p f ht := (hz.table_iff h).2 ht
  tableNew a p f ht := .inl ((hz.table_iff h).1 ht)
  mem f hf _ := hz.mem_of_ne (hz.ne hf)

/-- The new page may become a table or a page of a user. -/
theorem ZeroPage.spare : Spare s' g where
  live := by rw [hz.ref_self]; decide
  notTable a p ht := hz.notTable h a p ((hz.table_iff h).1 ht)

end ZeroPage

/-! ### The walks -/

/-- **The next table** is there, and nothing else changed. -/
theorem nextTable_spec (h : TableInv s) (ht : s.Table a p f) (hi : userPath (i :: p)) :
    Yields (s.nextTable f i)
      (fun x => TableInv x.2 ∧ Grown s x.2 ∧ x.2.Table a (i :: p) x.1) fun _ => True := by
  unfold nextTable
  split
  · next hnull =>
    refine yields_bind (getZeroPage_spec s) ?_
    rintro ⟨g, s₁⟩ hz
    have h₁ := hz.tableInv h
    have ht₁ := (hz.table_iff h).2 ht
    have hnull₁ : s₁.mem f i = 0 := by rw [hz.mem_table h ht]; exact hnull
    have hun : Cow.Unmapped s₁.ptes g := by rw [hz.ptes h]; exact hz.unmapped h
    have hlink := h₁.link ht₁ hi hnull₁ (hz.spare h) hun hz.mem_self
    have htab : ∀ {b q w}, (s₁.putEntry f i g (pteP + pteRw + pteUs)).Table b q w ↔
        s₁.Table b q w ∨ b = a ∧ q = i :: p ∧ w = g :=
      table_link h₁ ht₁ hi hnull₁ (hz.spare h) hz.mem_self
    have hgrown := hz.grown h
    refine ⟨hlink, ⟨hgrown.mms, hgrown.tasks, hgrown.archive, hgrown.pgdStart, ?_, hgrown.ref,
      hgrown.one,
      fun b q x hx => htab.2 (.inl (hgrown.table b q x hx)), fun b q x hx => ?_, fun x hx hno => ?_⟩,
      htab.2 (.inr ⟨rfl, rfl, rfl⟩)⟩
    · exact (ptes_link h₁ ht₁ hi hnull₁ (hz.spare h) hz.mem_self).trans hgrown.ptes
    · rcases htab.1 hx with hx | ⟨-, -, rfl⟩
      · exact hgrown.tableNew b q x hx
      · exact .inr hz.free
    · have hxf : x ≠ f := by
        rintro rfl
        exact hno a p ht
      exact (Function.update_of_ne hxf ..).trans (hgrown.mem x hx hno)
  · next hne => exact ⟨h, Grown.refl s, ht.next hi hne⟩

theorem testBit_interior {e : ℕ} (h : e % pgSize = pteP + pteRw + pteUs) :
    e.testBit 0 = true ∧ e.testBit 1 = true ∧ e.testBit 2 = true := by
  simp only [testBit_eq, decide_eq_true_eq]
  unfold pgSize pteP pteRw pteUs at h
  omega

theorem modeOf_writable {e : ℕ} : modeOf e = .writable ↔ e.testBit 1 = true := by
  unfold modeOf
  split
  · next h => simp [h]
  · next h => split <;> simp [h]

theorem modeOf_cow {e : ℕ} (h : PageFlags e) : modeOf e = .cow ↔ e.testBit 9 = true := by
  have hno : e.testBit 9 = true → e.testBit 1 = false := by
    simp only [testBit_eq, decide_eq_true_eq, decide_eq_false_iff_not]
    unfold PageFlags pgSize pteP pteRw pteUs pteCow at h
    omega
  unfold modeOf
  split
  · next h1 => simp [h1] at hno; simp [hno]
  · split
    · next h9 => simp [h9]
    · next h9 => simp [h9]

/-- The processor's step through a table of the user half. -/
theorem TableInv.mmuWalk_cons (h : TableInv s) (ht : s.Table a p f) (hi : userPath (i :: p))
    (is : List ℕ) : mmuWalk s.mem f (i :: is) =
      if s.mem f i = 0 then none else mmuWalk s.mem (frameOf (s.mem f i)) is := by
  show (if (s.mem f i).testBit 0 then _ else none) = _
  by_cases h0 : s.mem f i = 0
  · rw [if_pos h0, h0]
    rfl
  · obtain ⟨hp, h1, h2⟩ := testBit_interior (h.interior a p f i ht hi h0)
    rw [if_pos hp, if_neg h0, h1, h2]
    cases mmuWalk s.mem (frameOf (s.mem f i)) is <;> rfl

theorem TableInv.mmuWalk_last (h : TableInv s) (ht : s.Table a (path v) f) (hv : v < userPages) :
    mmuWalk s.mem f [getPteOff v] = (s.ptes a v).map fun x => (x.1, true, decide (x.2 = .writable)) := by
  rw [ht.ptes_eq hv]
  unfold mmuWalk mmuWalk decode
  by_cases h0 : s.mem f (getPteOff v) = 0
  · rw [h0]
    rfl
  · obtain ⟨hp, hu⟩ := (h.flags a (path v) f (getPteOff v) ht rfl h0).present
    rw [if_pos hp, if_neg h0]
    simp only [Option.map_some, Bool.and_true, hu, modeOf_writable, Bool.decide_eq_true]

/-- The walk of the processor finds the entry. -/
theorem TableInv.mmuWalk_eq (h : TableInv s) (hr : s.roots a = some r) (hv : v < userPages) :
    mmuWalk s.mem r [getPgdOff v, getPudOff v, getPmdOff v, getPteOff v] =
      (s.ptes a v).map fun x => (x.1, true, decide (x.2 = .writable)) := by
  have ht₀ : s.Table a [] r := Table.root hr
  rw [h.mmuWalk_cons ht₀ (userPath_pgd hv)]
  split
  · next h0 => rw [ht₀.ptes_null h0 (List.suffix_append [_, _] _)]; rfl
  · next h0 =>
    have ht₁ := ht₀.next (userPath_pgd hv) h0
    rw [h.mmuWalk_cons ht₁ (userPath_pud hv)]
    split
    · next h1 => rw [ht₁.ptes_null h1 (List.suffix_append [_] _)]; rfl
    · next h1 =>
      have ht₂ := ht₁.next (userPath_pud hv) h1
      rw [h.mmuWalk_cons ht₂ (userPath_path hv)]
      split
      · next h2 => rw [ht₂.ptes_null h2 List.suffix_rfl]; rfl
      · next h2 => exact h.mmuWalk_last (ht₂.next (userPath_path hv) h2) hv

/-- **The translation of an address** is what the mapping of its page says. -/
theorem TableInv.translate_eq {addr : ℕ} (h : TableInv s) (hr : s.roots a = some r)
    (hv : addr / pgSize < userPages) (write : Bool) : s.translate r addr write =
      match s.ptes a (addr / pgSize) with
      | none => .fault false
      | some (frame, k) => if k = .writable ∨ write = false then .granted frame else .fault true := by
  unfold translate
  simp only [h.mmuWalk_eq hr hv]
  cases s.ptes a (addr / pgSize) with
  | none => rfl
  | some x =>
    obtain ⟨frame, k⟩ := x
    simp only [Option.map_some, Bool.true_and, Bool.or_eq_true, decide_eq_true_eq,
      Bool.not_eq_true']

/-- An access that goes through is one to the frame of its page. -/
theorem TableInv.granted {addr : ℕ} {write : Bool} (h : TableInv s) (hr : s.roots a = some r)
    (hv : addr / pgSize < userPages) (hacc : s.translate r addr write = .granted f) :
    ∃ k, s.ptes a (addr / pgSize) = some (f, k) ∧ (write = true → k = .writable) := by
  rw [h.translate_eq hr hv] at hacc
  cases hpte : s.ptes a (addr / pgSize) with
  | none => rw [hpte] at hacc; cases hacc
  | some x =>
    obtain ⟨g, k⟩ := x
    rw [hpte] at hacc
    simp only at hacc
    split at hacc
    · next hk =>
      obtain rfl := Access.granted.inj hacc
      exact ⟨k, rfl, fun hw => hk.resolve_right (by simp [hw])⟩
    · cases hacc

/-- The way down to a table that is there. -/
theorem Table.walk (ht : s.Table a (path v) f) (hr : s.roots a = some r) (hv : v < userPages) :
    ∃ pud pmd, s.mem r (getPgdOff v) ≠ 0 ∧ frameOf (s.mem r (getPgdOff v)) = pud ∧
      s.Table a [getPgdOff v] pud ∧ s.mem pud (getPudOff v) ≠ 0 ∧
      frameOf (s.mem pud (getPudOff v)) = pmd ∧ s.Table a [getPudOff v, getPgdOff v] pmd ∧
      s.mem pmd (getPmdOff v) ≠ 0 ∧ frameOf (s.mem pmd (getPmdOff v)) = f := by
  have hne : ∀ {p i g}, s.Table a p g → (i :: p) <:+ path v → s.mem g i ≠ 0 := by
    intro p i g hg hsuf h0
    obtain ⟨-, r', hr', hn⟩ := ht
    rw [hg.node_null h0 hr' hsuf] at hn
    simp at hn
  have ht₀ : s.Table a [] r := Table.root hr
  have h0 := hne ht₀ (List.suffix_append [_, _] _)
  have ht₁ := ht₀.next (userPath_pgd hv) h0
  have h1 := hne ht₁ (List.suffix_append [_] _)
  have ht₂ := ht₁.next (userPath_pud hv) h1
  have h2 := hne ht₂ List.suffix_rfl
  refine ⟨_, _, h0, rfl, ht₁, h1, rfl, ht₂, h2, ?_⟩
  obtain ⟨-, r', hr', hn⟩ := ht
  obtain ⟨-, r'', hr'', hn'⟩ := ht₂.next (userPath_path hv) h2
  obtain rfl := Option.some.inj (hr'.symm.trans hr'')
  exact Option.some.inj (hn'.symm.trans hn)

theorem TableInv.mmuWalk_self (h : TableInv s) (hr : s.roots a = some r) (is : List ℕ) :
    mmuWalk s.mem r (selfRefIndex :: is) =
      (mmuWalk s.mem r is).map fun x => (x.1, false, x.2.2) := by
  show (if (s.mem r selfRefIndex).testBit 0 then _ else none) = _
  have hbits : ∀ j, j < 12 → (entry r (pteP + pteRw)).testBit j = (pteP + pteRw).testBit j :=
    fun j => testBit_entry (by decide) j
  rw [h.upper a r selfRefIndex hr (by decide), upperEntry, if_pos rfl, hbits 0 (by decide),
    hbits 1 (by decide), hbits 2 (by decide), frameOf_entry (by decide)]
  rfl

/-- The entry of the directory that refers to itself leads the walk to the last table. -/
theorem TableInv.pteTableTrick_eq {addr : ℕ} (h : TableInv s) (hr : s.roots a = some r)
    (hv : addr / pgSize < userPages) (ht : s.Table a (path (addr / pgSize)) f) :
    s.pteTableTrick r addr = .ok f := by
  obtain ⟨v, hva⟩ : ∃ v, v = addr / pgSize := ⟨_, rfl⟩
  rw [← hva] at hv ht
  obtain ⟨pud, pmd, h0, rfl, ht₁, h1, rfl, ht₂, h2, rfl⟩ := ht.walk hr hv
  unfold pteTableTrick
  simp only [← hva, h.mmuWalk_self hr, h.mmuWalk_cons (Table.root hr) (userPath_pgd hv), if_neg h0,
    h.mmuWalk_cons ht₁ (userPath_pud hv), if_neg h1, h.mmuWalk_cons ht₂ (userPath_path hv),
    if_neg h2]
  rfl

end Vm

end PlumOs
