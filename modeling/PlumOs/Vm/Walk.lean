import PlumOs.Vm.NewTables
import PlumOs.Vm.Trick

/-!
# The walks through the tables

The kernel and the processor go down from a directory to the entry of a page.  What they find is the
same in two states that have the tables on the way in common.

* `walkEntry` : the entry that the walk finds for a page number;
* `TableInv.walkEntry_eq` : for a page of the user half it is the one in the tree;
* `KernelTables` : the tables of the kernel half are in use, and are not tables of the user half;
* `SameTables` : an address space has the same tables, `SameTables.walkEntry_eq` : **then the walks to the
  tables themselves**, behind the entry 0x1fe, are the same.
-/

namespace PlumOs

open Cow (Mode)

namespace Vm

variable {s s' : Vm} {a f g i r v w : ℕ} {p : List ℕ} {k : Mode}

/-! ### Entries -/

/-- The flags of an entry for a page. -/
def flagsOf : Mode → ℕ
  | .readOnly => pteP + pteUs
  | .writable => pteP + pteRw + pteUs
  | .cow => pteP + pteCow + pteUs

theorem flagsOf_lt (k : Mode) : 0 < flagsOf k ∧ flagsOf k < pgSize := by cases k <;> decide

/-- The frame and the mode determine the entry. -/
theorem entry_of_pageFlags {e : ℕ} (h : PageFlags e) : e = entry (frameOf e) (flagsOf (modeOf e)) := by
  have hflags : flagsOf (modeOf e) = e % pgSize := by
    have hmod : modeOf e = modeOf (e % pgSize) := by
      have heq : e = entry (frameOf e) (e % pgSize) := by
        unfold entry frameOf
        rw [Nat.mul_comm]
        exact (Nat.div_add_mod e pgSize).symm
      conv_lhs => rw [heq]
      exact modeOf_entry (Nat.mod_lt _ (by decide))
    rw [hmod]
    rcases h with h | h | h <;> rw [h] <;> rfl
  rw [hflags]
  unfold entry frameOf
  rw [Nat.mul_comm]
  exact (Nat.div_add_mod e pgSize).symm

theorem pte_of_none (hv : v < userPages) (h : s.ptes a v = none) : s.pte a v = 0 := by
  unfold ptes at h
  rw [if_pos hv] at h
  exact decode_eq_none.1 h

theorem TableInv.pte_of_some (h : TableInv s) (hv : s.ptes a v = some (f, k)) :
    s.pte a v = entry f (flagsOf k) := by
  obtain ⟨-, table, ht, hne, rfl, rfl⟩ := exists_table_of_ptes hv
  rw [ht.pte_eq]
  exact entry_of_pageFlags (h.flags a (path v) table _ ht rfl hne)

theorem ptes_of_ne_zero (hv : v < userPages) (h : s.pte a v ≠ 0) :
    s.ptes a v = some (frameOf (s.pte a v), modeOf (s.pte a v)) := by
  unfold ptes
  rw [if_pos hv, decode, if_neg h]

/-! ### The walk -/

/-- The entry that the walk finds for a page, if this entry and all those on the way are present. -/
def walkEntry (s : Vm) (pgd pfn : ℕ) : Option ℕ :=
  (walkFrame s.mem pgd [getPgdOff pfn, getPudOff pfn, getPmdOff pfn]).bind fun table =>
    if (s.mem table (getPteOff pfn)).testBit 0 then some (s.mem table (getPteOff pfn)) else none

theorem walkFrame_cons (m : ℕ → ℕ → ℕ) (table i : ℕ) (is : List ℕ) :
    walkFrame m table (i :: is) =
      if (m table i).testBit 0 then walkFrame m (frameOf (m table i)) is else none := by
  rw [walkFrame, mmuWalk]
  split
  · rw [Option.map_map]
    rfl
  · rfl

theorem walkFrame_append (m : ℕ → ℕ → ℕ) (f : ℕ) (is js : List ℕ) :
    walkFrame m f (is ++ js) = (walkFrame m f is).bind fun g => walkFrame m g js := by
  induction is generalizing f with
  | nil => rfl
  | cons i is ih =>
    rw [List.cons_append, walkFrame_cons, walkFrame_cons]
    split
    · exact ih _
    · rfl

/-- A walk is the same in two memories that have the tables on its way in common. -/
theorem walkFrame_congr {m m' : ℕ → ℕ → ℕ} {P : ℕ → Prop} (hm : ∀ f, P f → m' f = m f) {table : ℕ}
    {is : List ℕ} (hP : ∀ js f, js.length < is.length → walkFrame m table js = some f → P f) :
    walkFrame m' table is = walkFrame m table is := by
  induction is generalizing table with
  | nil => rfl
  | cons i is ih =>
    have htable : P table := hP [] table (Nat.zero_lt_succ _) rfl
    rw [walkFrame_cons, walkFrame_cons, hm table htable]
    split
    · next hbit =>
      refine ih fun js f hlen hjs => hP (i :: js) f (Nat.succ_lt_succ hlen) ?_
      rw [walkFrame_cons, if_pos hbit]
      exact hjs
    · rfl

/-- **The walk to a page of the user half** finds its entry in the tree. -/
theorem TableInv.walkEntry_eq (h : TableInv s) (hr : s.roots a = some r) (hv : v < userPages) :
    s.walkEntry r v = if s.pte a v = 0 then none else some (s.pte a v) := by
  have hnull : ∀ {p i f}, s.Table a p f → s.mem f i = 0 → (i :: p) <:+ path v → s.pte a v = 0 :=
    fun ht h0 hq => pte_of_none hv (ht.ptes_null h0 hq)
  have ht₀ : s.Table a [] r := Table.root hr
  unfold walkEntry walkFrame
  rw [h.mmuWalk_cons ht₀ (userPath_pgd hv)]
  by_cases h0 : s.mem r (getPgdOff v) = 0
  · rw [if_pos h0, if_pos (hnull ht₀ h0 (List.suffix_append [_, _] _))]
    rfl
  have ht₁ := ht₀.next (userPath_pgd hv) h0
  rw [if_neg h0, h.mmuWalk_cons ht₁ (userPath_pud hv)]
  by_cases h1 : s.mem (frameOf (s.mem r (getPgdOff v))) (getPudOff v) = 0
  · rw [if_pos h1, if_pos (hnull ht₁ h1 (List.suffix_append [_] _))]
    rfl
  have ht₂ := ht₁.next (userPath_pud hv) h1
  rw [if_neg h1, h.mmuWalk_cons ht₂ (userPath_path hv)]
  by_cases h2 : s.mem (frameOf (s.mem (frameOf (s.mem r (getPgdOff v))) (getPudOff v)))
      (getPmdOff v) = 0
  · rw [if_pos h2, if_pos (hnull ht₂ h2 List.suffix_rfl)]
    rfl
  have ht₃ := ht₂.next (userPath_path hv) h2
  rw [if_neg h2, ht₃.pte_eq]
  simp only [mmuWalk, Option.map_some, Option.bind_some]
  by_cases h3 : s.mem (frameOf (s.mem (frameOf (s.mem (frameOf (s.mem r (getPgdOff v)))
      (getPudOff v))) (getPmdOff v))) (getPteOff v) = 0
  · rw [h3]
    rfl
  · rw [if_pos (h.flags a (path v) _ _ ht₃ rfl h3).present.1, if_neg h3]

/-- The entry of a page is the same if it is mapped in the same way. -/
theorem TableInv.pte_congr (h : TableInv s) (h' : TableInv s') (hw : w < userPages)
    (hsame : s'.ptes a w = s.ptes a w) : s'.pte a w = s.pte a w := by
  cases hpte : s.ptes a w with
  | none =>
    rw [hpte] at hsame
    rw [pte_of_none hw hpte, pte_of_none hw hsame]
  | some x =>
    obtain ⟨f, k⟩ := x
    rw [hpte] at hsame
    rw [h.pte_of_some hpte, h'.pte_of_some hsame]

/-! ### The kernel half -/

/-- The tables behind the kernel's entries of a directory are in use, and are not tables of the user
half. -/
def KernelTables (s : Vm) (r : ℕ) : Prop :=
  ∀ i is f, 256 ≤ i → i ≠ selfRefIndex → is.length ≤ 2 → walkFrame s.mem r (i :: is) = some f →
    s.Data f

/-- **The walks in the kernel half** do not change. -/
theorem KernelTables.walkEntry_eq (hk : s.KernelTables r) (h : TableInv s) (h' : TableInv s')
    (hr : s.roots a = some r) (hr' : s'.roots a = some r) (hpgd : s'.pgdStart = s.pgdStart)
    (hmem : ∀ f, s.Data f → s'.mem f = s.mem f) (hupper : 256 ≤ getPgdOff w)
    (hself : getPgdOff w ≠ selfRefIndex) : s'.walkEntry r w = s.walkEntry r w := by
  have hroot : s'.mem r (getPgdOff w) = s.mem r (getPgdOff w) := by
    rw [h'.upper a r _ hr' hupper, h.upper a r _ hr hupper, upperEntry, upperEntry, hpgd]
  unfold walkEntry
  rw [walkFrame_cons s'.mem r, walkFrame_cons s.mem r, hroot]
  by_cases hbit : (s.mem r (getPgdOff w)).testBit 0 = true
  · have hdata : ∀ is f, is.length ≤ 2 →
        walkFrame s.mem (frameOf (s.mem r (getPgdOff w))) is = some f → s.Data f := by
      intro is f hlen hf
      refine hk (getPgdOff w) is f hupper hself hlen ?_
      rw [walkFrame_cons, if_pos hbit]
      exact hf
    have hrest : walkFrame s'.mem (frameOf (s.mem r (getPgdOff w))) [getPudOff w, getPmdOff w] =
        walkFrame s.mem (frameOf (s.mem r (getPgdOff w))) [getPudOff w, getPmdOff w] :=
      walkFrame_congr hmem fun js f hlen => hdata js f (Nat.le_of_lt hlen)
    rw [if_pos hbit, if_pos hbit, hrest]
    cases hf : walkFrame s.mem (frameOf (s.mem r (getPgdOff w))) [getPudOff w, getPmdOff w] with
    | none => rfl
    | some f =>
      have hsame := hmem f (hdata _ f (Nat.le_refl _) hf)
      simp only [Option.bind_some, hsame]
  · rw [if_neg hbit, if_neg hbit]
    rfl

/-! ### The same tables -/

/-- The address space has the same tables. -/
def SameTables (s s' : Vm) (a : ℕ) : Prop := ∀ p f, s'.Table a p f ↔ s.Table a p f

/-- The entry that leads to a table. -/
theorem Table.entry (ht : s.Table a p f) (hn : s.Table a (i :: p) g) :
    s.mem f i ≠ 0 ∧ frameOf (s.mem f i) = g := by
  obtain ⟨-, r, hr, hf⟩ := ht
  obtain ⟨-, r', hr', hg⟩ := hn
  obtain rfl := Option.some.inj (hr.symm.trans hr')
  rw [Radix.node, hf, Option.bind_some] at hg
  split at hg
  · cases hg
  · next hne => exact ⟨hne, Option.some.inj hg⟩

/-- The entries above the last tables are the same. -/
theorem SameTables.mem_eq (hsame : SameTables s s' a) (h : TableInv s) (h' : TableInv s')
    (ht : s.Table a p f) (hi : userPath (i :: p)) : s'.mem f i = s.mem f i := by
  have ht' := (hsame p f).2 ht
  by_cases h0 : s.mem f i = 0
  · by_contra hne
    have hn := (hsame _ _).1 (ht'.next hi (h0 ▸ hne))
    exact (ht.entry hn).1 h0
  · obtain ⟨hne, hframe⟩ := ht'.entry ((hsame _ _).2 (ht.next hi h0))
    have hflags := (h'.interior a p f i ht' hi hne).trans (h.interior a p f i ht hi h0).symm
    unfold frameOf at hframe
    rw [← Nat.div_add_mod (s'.mem f i) pgSize, hframe, hflags, Nat.div_add_mod]

/-- The tables that a walk of `d` steps from `f` comes through, and the one at its end, are the same. -/
def SameDown (m m' : ℕ → ℕ → ℕ) : ℕ → ℕ → Prop
  | 0, f => m' f = m f
  | d + 1, f => m' f = m f ∧ ∀ i, (m f i).testBit 0 = true → SameDown m m' d (frameOf (m f i))

theorem SameDown.here {m m' : ℕ → ℕ → ℕ} {d : ℕ} (h : SameDown m m' d f) : m' f = m f := by
  cases d with
  | zero => exact h
  | succ d => exact h.1

/-- **A walk through the same tables.** -/
theorem SameDown.walk {m m' : ℕ → ℕ → ℕ} {d : ℕ} {is : List ℕ} (h : SameDown m m' d f) (hlen : is.length ≤ d) :
    walkFrame m' f is = walkFrame m f is ∧ ∀ g, walkFrame m f is = some g → m' g = m g := by
  induction is generalizing d f with
  | nil =>
    refine ⟨rfl, fun g hg => ?_⟩
    obtain rfl : f = g := Option.some.inj hg
    exact h.here
  | cons i is ih =>
    obtain ⟨d, rfl⟩ : ∃ e, d = e + 1 := Nat.exists_eq_succ_of_ne_zero (by rw [List.length_cons] at hlen; omega)
    rw [List.length_cons, Nat.succ_le_succ_iff] at hlen
    rw [walkFrame_cons, walkFrame_cons, h.here]
    by_cases hbit : (m f i).testBit 0 = true
    · rw [if_pos hbit, if_pos hbit]
      exact ih (h.2 i hbit) hlen
    · rw [if_neg hbit, if_neg hbit]
      exact ⟨rfl, fun g hg => by cases hg⟩

section Same

variable (hsame : SameTables s s' a) (h : TableInv s) (h' : TableInv s')

include hsame h h'

/-- In the user half. -/
theorem SameTables.down_user {d : ℕ} (ht : s.Table a p f) (hp : p ≠ []) (hd : p.length + d ≤ 2) :
    SameDown s.mem s'.mem d f := by
  induction d generalizing p f with
  | zero => exact funext fun i => hsame.mem_eq h h' ht (userPath_cons ht.1 hd hp)
  | succ d ih =>
    have hlen : p.length ≤ 2 := by omega
    refine ⟨funext fun i => hsame.mem_eq h h' ht (userPath_cons ht.1 hlen hp), fun i hbit => ?_⟩
    have hne : s.mem f i ≠ 0 := fun h0 => by
      rw [h0, Nat.zero_testBit] at hbit
      cases hbit
    refine ih (ht.next (userPath_cons ht.1 hlen hp) hne) (List.cons_ne_nil i p) ?_
    rw [List.length_cons]
    omega

end Same

theorem userPath_singleton (hi : i < 256) : userPath [i] := by
  refine ⟨Nat.le_add_left 1 2, fun j hj => ?_⟩
  rw [List.getLast?_singleton, Option.mem_some_iff] at hj
  omega

/-- In the kernel half. -/
theorem KernelTables.down {d : ℕ} {is : List ℕ} (hk : s.KernelTables r)
    (hmem : ∀ f, s.Data f → s'.mem f = s.mem f) (hupper : 256 ≤ i) (hself : i ≠ selfRefIndex)
    (hf : walkFrame s.mem r (i :: is) = some f) (hd : is.length + d ≤ 2) : SameDown s.mem s'.mem d f := by
  have hhere : ∀ is f, is.length ≤ 2 → walkFrame s.mem r (i :: is) = some f → s'.mem f = s.mem f :=
    fun is f hlen hf => hmem f (hk i is f hupper hself hlen hf)
  induction d generalizing is f with
  | zero => exact hhere is f hd hf
  | succ d ih =>
    refine ⟨hhere is f (by omega) hf, fun j hbit => ?_⟩
    have hnext : walkFrame s.mem r (i :: (is ++ [j])) = some (frameOf (s.mem f j)) := by
      rw [← List.cons_append, walkFrame_append, hf, Option.bind_some, walkFrame_cons, if_pos hbit]
      rfl
    refine ih hnext ?_
    rw [List.length_append, List.length_singleton]
    omega

/-- From the directory. -/
theorem SameTables.down {d : ℕ} (hsame : SameTables s s' a) (h : TableInv s) (h' : TableInv s')
    (hk : s.KernelTables r) (hr : s.roots a = some r) (hr' : s'.roots a = some r)
    (hpgd : s'.pgdStart = s.pgdStart) (hmem : ∀ f, s.Data f → s'.mem f = s.mem f) (hd : d ≤ 2) :
    SameDown s.mem s'.mem d r := by
  have hroot : s'.mem r = s.mem r := by
    funext i
    by_cases hupper : 256 ≤ i
    · rw [h'.upper a r i hr' hupper, h.upper a r i hr hupper, upperEntry, upperEntry, hpgd]
    · exact hsame.mem_eq h h' (Table.root hr) (userPath_singleton (Nat.lt_of_not_le hupper))
  induction d with
  | zero => exact hroot
  | succ d ih =>
    refine ⟨hroot, fun i hbit => ?_⟩
    have hne : s.mem r i ≠ 0 := fun h0 => by
      rw [h0, Nat.zero_testBit] at hbit
      cases hbit
    by_cases hupper : 256 ≤ i
    · by_cases hself : i = selfRefIndex
      · have hframe : frameOf (s.mem r i) = r := by
          rw [h.upper a r i hr hupper, upperEntry, if_pos hself, frameOf_entry (by decide)]
        rw [hframe]
        exact ih (by omega)
      · have hfirst : walkFrame s.mem r [i] = some (frameOf (s.mem r i)) := by
          rw [walkFrame_cons, if_pos hbit]
          rfl
        exact hk.down hmem hupper hself hfirst (by rw [List.length_nil]; omega)
    · have ht := (Table.root hr).next (userPath_singleton (Nat.lt_of_not_le hupper)) hne
      exact hsame.down_user h h' ht (List.cons_ne_nil i []) (by rw [List.length_singleton]; omega)

/-- **The walks to the tables**, behind the entry 0x1fe. -/
theorem SameTables.walkEntry_eq (hsame : SameTables s s' a) (h : TableInv s) (h' : TableInv s')
    (hk : s.KernelTables r) (hr : s.roots a = some r) (hr' : s'.roots a = some r)
    (hpgd : s'.pgdStart = s.pgdStart) (hmem : ∀ f, s.Data f → s'.mem f = s.mem f)
    (hself : getPgdOff w = selfRefIndex) : s'.walkEntry r w = s.walkEntry r w := by
  have hlen : [getPudOff w, getPmdOff w].length ≤ 2 := le_rfl
  obtain ⟨hwalk, hend⟩ := (hsame.down h h' hk hr hr' hpgd hmem le_rfl).walk hlen
  unfold walkEntry
  rw [hself, h'.walkFrame_self hr', h.walkFrame_self hr, hwalk]
  cases hf : walkFrame s.mem r [getPudOff w, getPmdOff w] with
  | none => rfl
  | some g => rw [Option.bind_some, Option.bind_some, hend g hf]

end Vm

end PlumOs
