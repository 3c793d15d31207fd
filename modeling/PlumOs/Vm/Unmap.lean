import PlumOs.Vm.Mapping
import PlumOs.Vm.NewTables
import PlumOs.Vm.Trees

/-!
# Giving up an address space (`sys/mm.c`)

`unmap_mm` goes over the areas of a task four times: first for the pages, then for the tables of each
level.  `free_vma` finds an entry through the entry 0x1fe of the directory, frees the page that it refers
to and clears it, so that no entry is freed twice; but it has no look at the levels above an entry, and
the loop for the pages goes on by two.

* `Vm.unmapMm` : the function of the source, which nobody calls;
* `Vm.releaseAll` : slots of tables are cleared, and the pages they refer to freed;
* `Vm.TableInv.foldlM_freeEntry` : **the four passes clear the slots that are there at first**;
* `Vm.Released` : what `unmap_mm` is for;
* `Vm.unmapMm_releases_iff` : **it does it exactly if** the mapped pages are at even distances from the
  first pages of the areas, and no table is missing;
* `Vm.unmapMm_releases_fails` : the last page of a stack.
-/

namespace PlumOs

/-! ### The function -/

/-- The levels that `unmap_mm` goes over: `PG_FRAME`, `PTE`, `PMD`, `PUD`. -/
inductive Level where
  | pgFrame
  | pte
  | pmd
  | pud
  deriving DecidableEq, Repr

namespace Level

/-- The levels in their order. -/
def all : List Level := [.pgFrame, .pte, .pmd, .pud]

/-- The bits of an address below the number of its block. -/
def shift : Level → ℕ
  | .pgFrame => 12
  | .pte => 12 + 9
  | .pmd => 12 + 9 + 9
  | .pud => 12 + 9 + 9 + 9

/-- The address of the entry that refers to the page, or to the table, of the level. -/
def entryAddr : Level → ℕ → ℕ
  | .pgFrame => getPteEntryAddrTrick
  | .pte => getPmdEntryAddrTrick
  | .pmd => getPudEntryAddrTrick
  | .pud => getPgdEntryAddrTrick

/-- How far a turn of the loop goes on: the case of `PG_FRAME` has an `i++` of its own. -/
def stride : Level → ℕ
  | .pgFrame => 2
  | _ => 1

end Level

/-- The values of `i` in the loop of `free_vma`, from `pfn_start` to `pfn_end`. -/
def Vma.turns (vma : Vma) (tag : Level) : List ℕ :=
  let pfnStart := vma.vmStart >>> tag.shift
  let pfnEnd := (vma.vmEnd - 1) >>> tag.shift
  List.range' pfnStart ((pfnEnd + 1 - pfnStart + (tag.stride - 1)) / tag.stride) tag.stride

namespace Vm

/-- An entry of a table is cleared, and the page that it refers to freed. -/
def release (s : Vm) (x : ℕ × ℕ) : Vm :=
  if s.mem x.1 x.2 ≠ 0 then
    { s with
      pages := s.pages.freePage (frameOf (s.mem x.1 x.2))
      mem := Radix.write s.mem x.1 x.2 0 }
  else s

/-- One turn of the loop of `free_vma`.  The processor finds the entry, or there is a page fault in the
kernel. -/
def freeEntry (s : Vm) (pgd : ℕ) (tag : Level) (addr : ℕ) : Except Stop Vm :=
  match s.hardwareWalk pgd (tag.entryAddr addr) with
  | some pgFrame => .ok (s.release (pgFrame / pgSize, pgFrame % pgSize / 8))
  | none => .error (.panic "ERROR: unable to handle this pagefault!")

/-- `free_vma`. -/
def freeVma (s : Vm) (pgd : ℕ) (vmap : Vma) (tag : Level) : Except Stop Vm :=
  (vmap.turns tag).foldlM (fun s i => s.freeEntry pgd tag (i <<< tag.shift)) s

/-- The loop of `unmap_mm` over the levels. -/
def freeLevels (s : Vm) (mm : MmStruct) : Except Stop Vm :=
  Level.all.foldlM (fun s tag => mm.mmap.foldlM (fun s vmap => s.freeVma mm.pgd vmap tag) s) s

/-- `unmap_mm` for the task at `tsp`, whose tables are the current ones; `structs` are the pages of its
`vma_struct`s.  The call of `flush_tlb` at the end, which stores nothing, is left out. -/
def unmapMm (s : Vm) (tsp : ℕ) (task : VmTask) (structs : List ℕ) : Except Stop Vm :=
  match task.mm.bind fun a => (s.mms a).map fun mm => (a, mm) with
  | none => .ok s
  | some (a, mm) => do
    let s ← s.freeLevels mm
    let pages := structs.foldl PageState.freePage s.pages
    .ok { s with
      pages := (pages.freePage mm.pgd).freePage a
      tasks := Function.update s.tasks tsp (some { task with mm := none }) }

variable {s s' s₁ : Vm} {a r f g i v addr : ℕ} {p q : List ℕ} {tag : Level} {vma : Vma} {mm : MmStruct}
  {x : ℕ × ℕ} {slots : List (ℕ × ℕ)}

/-! ### Walks to tables -/

/-- The last step of a walk. -/
theorem walkFrame_snoc (m : ℕ → ℕ → ℕ) (table i : ℕ) (p : List ℕ) :
    walkFrame m table (i :: p).reverse = (walkFrame m table p.reverse).bind fun f =>
      if (m f i).testBit 0 then some (frameOf (m f i)) else none := by
  rw [List.reverse_cons, walkFrame_append]
  refine congrArg _ (funext fun f => ?_)
  rw [walkFrame_cons]
  rfl

/-- **The walk along a path** ends at the table of the path. -/
theorem TableInv.walkFrame_path (h : TableInv s) (hr : s.roots a = some r) (hp : userPath p) :
    walkFrame s.mem r p.reverse = some f ↔ s.Table a p f := by
  have hnode : walkFrame s.mem r p.reverse = Radix.node 0 frameOf s.mem r p := by
    induction p with
    | nil => rfl
    | cons i p ih =>
      have hp' := userPath_tail i p hp
      rw [walkFrame_snoc, Radix.node, ih hp']
      cases hn : Radix.node 0 frameOf s.mem r p with
      | none => rfl
      | some g =>
        have ht : s.Table a p g := ⟨hp', r, hr, hn⟩
        rw [Option.bind_some, Option.bind_some]
        by_cases h0 : s.mem g i = 0
        · rw [h0]
          rfl
        · rw [if_pos (testBit_interior (h.interior a p g i ht hp h0)).1, if_neg h0]
  rw [hnode]
  constructor
  · exact fun hn => ⟨hp, r, hr, hn⟩
  · rintro ⟨-, r', hr', hn⟩
    obtain rfl := Option.some.inj (hr.symm.trans hr')
    exact hn

/-- A walk is the same if the entries on its way are. -/
theorem walkFrame_congr_path {m m' : ℕ → ℕ → ℕ} (hm : ∀ i q f, (i :: q) <:+ p →
    walkFrame m r q.reverse = some f → m' f i = m f i) :
    walkFrame m' r p.reverse = walkFrame m r p.reverse := by
  induction p with
  | nil => rfl
  | cons i p ih =>
    rw [walkFrame_snoc, walkFrame_snoc, ih fun j q g hq => hm j q g (hq.trans (List.suffix_cons i p))]
    cases hw : walkFrame m r p.reverse with
    | none => rfl
    | some g => rw [Option.bind_some, Option.bind_some, hm i p g List.suffix_rfl hw]

/-- Steps through the entry that refers to the directory itself. -/
theorem walkFrame_self (hself : s.mem r selfRefIndex = entry r (pteP + pteRw)) (n : ℕ) (is : List ℕ) :
    walkFrame s.mem r (List.replicate n selfRefIndex ++ is) = walkFrame s.mem r is := by
  have hbit : (entry r (pteP + pteRw)).testBit 0 = true := by
    rw [testBit_entry (by decide) 0 (by decide)]
    decide
  induction n with
  | zero => rfl
  | succ n ih =>
    rw [List.replicate_succ, List.cons_append, walkFrame_cons, hself, if_pos hbit,
      frameOf_entry (by decide), ih]

end Vm

/-! ### The entries -/

namespace Level

/-- The path to the table with the entry for a page. -/
def path : Level → ℕ → List ℕ
  | .pgFrame, v => PlumOs.path v
  | .pte, v => [getPudOff v, getPgdOff v]
  | .pmd, v => [getPgdOff v]
  | .pud, _ => []

/-- The offset of the entry. -/
def off : Level → ℕ → ℕ
  | .pgFrame => getPteOff
  | .pte => getPmdOff
  | .pmd => getPudOff
  | .pud => getPgdOff

/-- The length of the paths. -/
def depth : Level → ℕ
  | .pgFrame => 3
  | .pte => 2
  | .pmd => 1
  | .pud => 0

theorem length_path (tag : Level) (v : ℕ) : (tag.path v).length = tag.depth := by
  cases tag <;> rfl

theorem userPath_path (tag : Level) {v : ℕ} (hv : v < userPages) : userPath (tag.path v) := by
  cases tag with
  | pgFrame => exact PlumOs.userPath_path hv
  | pte => exact userPath_pud hv
  | pmd => exact userPath_pgd hv
  | pud => exact userPath_nil

theorem off_lt (tag : Level) {v : ℕ} (hv : v < userPages) :
    (∀ i ∈ tag.off v :: tag.path v, i < 512) ∧ (tag.path v = [] → tag.off v < 256) := by
  have hpgd := getPgdOff_eq v
  have hpud := getPudOff_eq v
  have hpmd := getPmdOff_eq v
  have hpte := getPteOff_eq v
  unfold userPages at hv
  cases tag <;> simp [path, off, PlumOs.path] <;> omega

/-- **The address of an entry** leads some times through the directory, and then along the path. -/
theorem walkIndices_entryAddr (tag : Level) {addr : ℕ} (h : addr < userTop) : ∃ n,
    walkIndices (tag.entryAddr addr) =
        List.replicate n selfRefIndex ++ (tag.path (addr / pgSize)).reverse ∧
      tag.entryAddr addr % pgSize = 8 * tag.off (addr / pgSize) := by
  cases tag with
  | pgFrame => exact ⟨1, walkIndices_pte h⟩
  | pte => exact ⟨2, walkIndices_pmd h⟩
  | pmd => exact ⟨3, walkIndices_pud h⟩
  | pud => exact ⟨4, walkIndices_pgd h⟩

end Level

namespace Vm

variable {s s' s₁ : Vm} {a r f g i v addr n : ℕ} {p q : List ℕ} {tag : Level} {vma : Vma}
  {mm : MmStruct} {x y : ℕ × ℕ} {L : List (ℕ × ℕ)}

/-- The table and the offset of the entry of an address. -/
def entrySlot (s : Vm) (r : ℕ) (tag : Level) (addr : ℕ) : Option (ℕ × ℕ) :=
  (walkFrame s.mem r (tag.path (addr / pgSize)).reverse).map fun f => (f, tag.off (addr / pgSize))

/-- The place of an entry of the user half, in the table at the path `p`. -/
structure SlotAt (s : Vm) (a : ℕ) (p : List ℕ) (x : ℕ × ℕ) : Prop where
  table : s.Table a p x.1
  index : ∀ i ∈ x.2 :: p, i < 512
  user : p = [] → x.2 < 256

theorem page_lt (h : addr < userTop) : addr / pgSize < userPages := by
  unfold userTop at h
  unfold pgSize userPages
  omega

theorem TableInv.slotAt (h : TableInv s) (hr : s.roots a = some r) (haddr : addr < userTop)
    (hx : s.entrySlot r tag addr = some x) : s.SlotAt a (tag.path (addr / pgSize)) x := by
  have hv := page_lt haddr
  obtain ⟨f, hf, rfl⟩ := Option.map_eq_some_iff.1 hx
  exact ⟨(h.walkFrame_path hr (tag.userPath_path hv)).1 hf, (tag.off_lt hv).1, (tag.off_lt hv).2⟩

/-- No slot is at two places. -/
theorem SlotAt.path_eq (h : TableInv s) (hx : s.SlotAt a p x) (hy : s.Table a q x.1) : p = q :=
  (h.separate a a p q x.1 hx.table hy).2

/-- The table and the offset from the physical address of an entry. -/
theorem slot_parts (f : ℕ) (hi : i < 512) : slot f i / pgSize = f ∧ slot f i % pgSize / 8 = i := by
  show (f * 4096 + 8 * i) / 4096 = f ∧ (f * 4096 + 8 * i) % 4096 / 8 = i
  omega

/-- **One turn** clears the slot of the address, or there is none. -/
theorem freeEntry_eq (tag : Level) (hself : s.mem r selfRefIndex = entry r (pteP + pteRw))
    (haddr : addr < userTop) : s.freeEntry r tag addr =
      match s.entrySlot r tag addr with
      | some x => .ok (s.release x)
      | none => .error (.panic "ERROR: unable to handle this pagefault!") := by
  obtain ⟨n, hwalk, hoff⟩ := tag.walkIndices_entryAddr haddr
  have hlt : tag.off (addr / pgSize) < 512 := (tag.off_lt (page_lt haddr)).1 _ List.mem_cons_self
  have hself' := walkFrame_self hself n (tag.path (addr / pgSize)).reverse
  rw [← hwalk] at hself'
  rw [freeEntry, entrySlot, ← hself']
  cases hf : walkFrame s.mem r (walkIndices (tag.entryAddr addr)) with
  | none =>
    have hnone : s.hardwareWalk r (tag.entryAddr addr) = none := by
      rw [walkFrame, Option.map_eq_none_iff] at hf
      rw [hardwareWalk, hf]
      rfl
    rw [hnone]
    rfl
  | some f =>
    obtain ⟨htable, hindex⟩ := slot_parts f hlt
    rw [hardwareWalk_eq ⟨rfl, hoff⟩ hf]
    simp only [htable, hindex, Option.map_some]

/-! ### Slots that are cleared -/

/-- Slots are cleared, one after the other. -/
def releaseAll (s : Vm) (L : List (ℕ × ℕ)) : Vm := L.foldl release s

theorem releaseAll_snoc (s : Vm) (L : List (ℕ × ℕ)) (x : ℕ × ℕ) :
    s.releaseAll (L ++ [x]) = (s.releaseAll L).release x := by
  rw [releaseAll, List.foldl_append]
  rfl

theorem release_mem (s : Vm) (x : ℕ × ℕ) (f i : ℕ) :
    (s.release x).mem f i = if (f, i) = x then 0 else s.mem f i := by
  obtain ⟨g, j⟩ := x
  by_cases heq : (f, i) = (g, j)
  · obtain ⟨rfl, rfl⟩ := Prod.mk.inj heq
    rw [if_pos rfl, release]
    split_ifs with h0
    · exact Radix.write_self
    · exact not_not.1 h0
  · have hne : ¬(f = g ∧ i = j) := fun hboth => heq (Prod.ext hboth.1 hboth.2)
    rw [if_neg heq, release]
    split_ifs
    · exact Radix.write_of_ne hne
    · rfl

theorem releaseAll_mem (s : Vm) (L : List (ℕ × ℕ)) (f i : ℕ) :
    (s.releaseAll L).mem f i = if (f, i) ∈ L then 0 else s.mem f i := by
  induction L using List.reverseRecOn with
  | nil => rw [if_neg List.not_mem_nil]; rfl
  | append_singleton L x ih =>
    rw [releaseAll_snoc, release_mem, ih]
    simp only [List.mem_append, List.mem_singleton]
    split_ifs <;> simp_all

/-- The slots of a list are in tables at paths of a length from `n` on. -/
def Deep (s : Vm) (a n : ℕ) (L : List (ℕ × ℕ)) : Prop :=
  ∀ x ∈ L, ∃ p, s.SlotAt a p x ∧ n ≤ p.length

section Deep

variable (h : TableInv s) (hr : s.roots a = some r) (hL : s.Deep a n L)

include h hr hL

/-- The reference of the directory to itself is not cleared. -/
theorem Deep.self : (s.releaseAll L).mem r selfRefIndex = entry r (pteP + pteRw) := by
  have hnot : (r, selfRefIndex) ∉ L := fun hmem => by
    obtain ⟨p, hp, -⟩ := hL _ hmem
    obtain rfl := hp.path_eq h (Table.root hr)
    have hlt : selfRefIndex < 256 := hp.user rfl
    exact absurd hlt (by decide)
  rw [releaseAll_mem, if_neg hnot, h.upper a r _ hr (by decide), upperEntry, if_pos rfl]

/-- **The way to an entry** is not cleared. -/
theorem Deep.entrySlot (haddr : addr < userTop) (htag : tag.depth ≤ n) :
    (s.releaseAll L).entrySlot r tag addr = s.entrySlot r tag addr := by
  have hpath := tag.userPath_path (page_lt haddr)
  rw [Vm.entrySlot, Vm.entrySlot, walkFrame_congr_path fun i q f hq hf => ?_]
  have hlen : q.length < n := by
    have hle := hq.length_le
    rw [List.length_cons, tag.length_path] at hle
    omega
  have hq' : userPath q := Radix.closed_suffix userPath_tail hpath ((List.suffix_cons i q).trans hq)
  have ht := (h.walkFrame_path hr hq').1 hf
  have hnot : (f, i) ∉ L := fun hmem => by
    obtain ⟨p, hp, hn⟩ := hL _ hmem
    obtain rfl := hp.path_eq h ht
    omega
  rw [releaseAll_mem, if_neg hnot]

end Deep

/-! ### The four passes -/

/-- The entries that the loops come to, each with an address. -/
def reads (mm : MmStruct) : List (Level × ℕ) :=
  Level.all.flatMap fun tag => mm.mmap.flatMap fun vma =>
    (vma.turns tag).map fun i => (tag, i <<< tag.shift)

theorem foldlM_flatMap {α β σ : Type} {ε : Type} (step : σ → β → Except ε σ) (g : α → List β)
    (l : List α) (s : σ) :
    (l.flatMap g).foldlM step s = l.foldlM (fun s a => (g a).foldlM step s) s := by
  induction l generalizing s with
  | nil => rfl
  | cons a l ih =>
    rw [List.flatMap_cons, List.foldlM_append, List.foldlM_cons]
    exact congrArg _ (funext ih)

theorem freeLevels_eq (s : Vm) (mm : MmStruct) :
    s.freeLevels mm = (reads mm).foldlM (fun s x => s.freeEntry mm.pgd x.1 x.2) s := by
  rw [reads, foldlM_flatMap, freeLevels]
  simp only [foldlM_flatMap, freeVma, List.foldlM_map]

/-- **Passes over entries**, the deeper ones first, clear the slots that were there at first. -/
theorem TableInv.foldlM_freeEntry (h : TableInv s) (hr : s.roots a = some r) {rs : List (Level × ℕ)}
    (haddr : ∀ x ∈ rs, x.2 < userTop) (hord : rs.Pairwise fun x y => y.1.depth ≤ x.1.depth) :
    rs.foldlM (fun s x => s.freeEntry r x.1 x.2) s = .ok s' ↔
      (∀ x ∈ rs, s.entrySlot r x.1 x.2 ≠ none) ∧
        s' = s.releaseAll (rs.filterMap fun x => s.entrySlot r x.1 x.2) := by
  induction rs using List.reverseRecOn generalizing s' with
  | nil =>
    rw [List.foldlM_nil]
    constructor
    · rintro ⟨⟩
      exact ⟨by simp, rfl⟩
    · rintro ⟨-, rfl⟩
      rfl
  | append_singleton rs x ih =>
    obtain ⟨hordered, -, hlast⟩ := List.pairwise_append.1 hord
    have hx := haddr x (by simp)
    have hfront : ∀ y ∈ rs, y.2 < userTop := fun y hy => haddr y (List.mem_append_left _ hy)
    obtain ⟨L, hL⟩ : ∃ L, L = rs.filterMap fun x => s.entrySlot r x.1 x.2 := ⟨_, rfl⟩
    -- what was cleared is as deep as the last entry
    have hdeep : s.Deep a x.1.depth L := fun z hz => by
      rw [hL] at hz
      obtain ⟨y, hy, hslot⟩ := List.mem_filterMap.1 hz
      refine ⟨_, h.slotAt hr (hfront y hy) hslot, ?_⟩
      rw [y.1.length_path]
      exact hlast y hy x (List.mem_singleton_self x)
    have hturn := freeEntry_eq x.1 (hdeep.self h hr) hx
    rw [hdeep.entrySlot h hr hx le_rfl] at hturn
    have hfirst : ∀ {s₁}, rs.foldlM (fun s x => s.freeEntry r x.1 x.2) s = .ok s₁ ↔
        (∀ y ∈ rs, s.entrySlot r y.1 y.2 ≠ none) ∧ s₁ = s.releaseAll L := by
      rw [hL]
      exact ih hfront hordered
    simp only [List.foldlM_append, List.foldlM_cons, List.foldlM_nil, bind_pure, List.filterMap_append,
      List.filterMap_cons, List.filterMap_nil, ← hL, List.forall_mem_append, List.forall_mem_singleton]
    rw [bind_eq_ok]
    cases hslot : s.entrySlot r x.1 x.2 with
    | none =>
      refine iff_of_false ?_ fun hboth => hboth.1.2 rfl
      rintro ⟨s₁, hs₁, hstep⟩
      obtain ⟨-, rfl⟩ := hfirst.1 hs₁
      rw [hturn, hslot] at hstep
      cases hstep
    | some y =>
      have hstep : (s.releaseAll L).freeEntry r x.1 x.2 = .ok (s.releaseAll (L ++ [y])) := by
        rw [hturn, hslot, releaseAll_snoc]
      constructor
      · rintro ⟨s₁, hs₁, hs'⟩
        obtain ⟨hall, rfl⟩ := hfirst.1 hs₁
        exact ⟨⟨hall, Option.some_ne_none y⟩, Except.ok.inj (hs'.symm.trans hstep)⟩
      · rintro ⟨⟨hall, -⟩, rfl⟩
        exact ⟨_, hfirst.2 ⟨hall, rfl⟩, hstep⟩

/-! ### The turns of the loops -/

theorem bounds_of_turn (hi : i ∈ vma.turns tag) :
    vma.vmStart / 2 ^ tag.shift ≤ i ∧ i ≤ (vma.vmEnd - 1) / 2 ^ tag.shift := by
  rw [Vma.turns] at hi
  simp only [Nat.shiftRight_eq_div_pow] at hi
  obtain ⟨k, hk, rfl⟩ := List.mem_range'.1 hi
  generalize vma.vmStart / 2 ^ tag.shift = first, (vma.vmEnd - 1) / 2 ^ tag.shift = last at hk
  cases tag <;> simp only [Level.stride] at hk ⊢ <;> omega

/-- The loops over the tables come to every block of an area. -/
theorem mem_turns (htag : tag ≠ .pgFrame) : i ∈ vma.turns tag ↔
    vma.vmStart / 2 ^ tag.shift ≤ i ∧ i ≤ (vma.vmEnd - 1) / 2 ^ tag.shift := by
  refine ⟨bounds_of_turn, fun ⟨hlo, hhi⟩ => ?_⟩
  have hstride : tag.stride = 1 := by
    cases tag <;> first | rfl | exact absurd rfl htag
  rw [Vma.turns]
  simp only [Nat.shiftRight_eq_div_pow, hstride]
  refine List.mem_range'.2 ⟨i - vma.vmStart / 2 ^ tag.shift, ?_, ?_⟩ <;> omega

theorem turn_lt (hi : i ∈ vma.turns tag) : i <<< tag.shift < userTop := by
  have hle := (bounds_of_turn hi).2
  have hpos := vma.pos
  have htop := vma.inUser
  rw [Nat.shiftLeft_eq]
  have hmul := Nat.div_mul_le_self (vma.vmEnd - 1) (2 ^ tag.shift)
  have hmono := Nat.mul_le_mul_right (2 ^ tag.shift) hle
  omega

theorem mem_reads {x : Level × ℕ} : x ∈ reads mm ↔
    ∃ vma ∈ mm.mmap, ∃ i ∈ vma.turns x.1, i <<< x.1.shift = x.2 := by
  obtain ⟨tag, addr⟩ := x
  have hall : tag ∈ Level.all := by
    cases tag <;> decide
  simp only [reads, List.mem_flatMap, List.mem_map, Prod.mk.injEq]
  constructor
  · rintro ⟨tag', -, vma, hvma, i, hi, rfl, haddr⟩
    exact ⟨vma, hvma, i, hi, haddr⟩
  · rintro ⟨vma, hvma, i, hi, haddr⟩
    exact ⟨tag, hall, vma, hvma, i, hi, rfl, haddr⟩

theorem reads_lt {x : Level × ℕ} (hx : x ∈ reads mm) : x.2 < userTop := by
  obtain ⟨vma, -, i, hi, haddr⟩ := mem_reads.1 hx
  exact haddr ▸ turn_lt hi

theorem reads_ordered (mm : MmStruct) : (reads mm).Pairwise fun x y => y.1.depth ≤ x.1.depth := by
  have hlevel : ∀ (tag : Level), ∀ x ∈ mm.mmap.flatMap fun vma =>
      (vma.turns tag).map fun i => (tag, i <<< tag.shift), x.1 = tag := fun tag x hx => by
    obtain ⟨vma, -, hx⟩ := List.mem_flatMap.1 hx
    obtain ⟨i, -, rfl⟩ := List.mem_map.1 hx
    rfl
  rw [reads, List.pairwise_flatMap]
  refine ⟨fun tag _ => List.pairwise_of_forall_mem_list ?_, ?_⟩
  · intro x hx y hy
    rw [hlevel tag x hx, hlevel tag y hy]
  · have hdepth : Level.all.Pairwise fun t u => u.depth ≤ t.depth := by decide
    refine hdepth.imp fun {t u} hle x hx y hy => ?_
    rw [hlevel t x hx, hlevel u y hy]
    exact hle

/-! ### Counts -/

theorem release_ref (s : Vm) (x : ℕ × ℕ) (f : ℕ) :
    (s.release x).ref f = if s.mem x.1 x.2 ≠ 0 ∧ frameOf (s.mem x.1 x.2) = f then wrap32 (s.ref f - 1)
      else s.ref f := by
  rw [release]
  by_cases h0 : s.mem x.1 x.2 = 0
  · rw [if_neg (not_not_intro h0), if_neg fun hboth => hboth.1 h0]
  · rw [if_pos h0]
    show Function.update s.pages.pageArray (frameOf (s.mem x.1 x.2)) _ f = _
    by_cases hf : frameOf (s.mem x.1 x.2) = f
    · rw [if_pos ⟨h0, hf⟩, hf, Function.update_self]
      rfl
    · rw [if_neg fun hboth => hf hboth.2, Function.update_of_ne (Ne.symm hf)]
      rfl

/-- A page that no slot refers to keeps its count. -/
theorem releaseAll_ref_of_none (hnone : ∀ x ∈ L, s.mem x.1 x.2 ≠ 0 → frameOf (s.mem x.1 x.2) ≠ f) :
    (s.releaseAll L).ref f = s.ref f := by
  induction L using List.reverseRecOn with
  | nil => rfl
  | append_singleton L x ih =>
    have hL : (s.releaseAll L).ref f = s.ref f := ih fun y hy => hnone y (List.mem_append_left _ hy)
    rw [releaseAll_snoc, release_ref, releaseAll_mem, hL, if_neg]
    rintro ⟨hne, hf⟩
    split_ifs at hne hf
    · exact hne rfl
    · exact hnone x (by simp) hne hf

/-- **A page that one slot refers to** is freed once. -/
theorem releaseAll_ref_of_one (hx : x ∈ L) (h0 : s.mem x.1 x.2 ≠ 0) (hf : frameOf (s.mem x.1 x.2) = f)
    (hone : ∀ y ∈ L, s.mem y.1 y.2 ≠ 0 → frameOf (s.mem y.1 y.2) = f → y = x)
    (hpos : 0 < s.ref f) (hlt : s.ref f < 2 ^ 31) : (s.releaseAll L).ref f = s.ref f - 1 := by
  have hwrap : wrap32 (s.ref f - 1) = s.ref f - 1 := wrap32_of_mem (by omega) (by omega)
  induction L using List.reverseRecOn with
  | nil => exact absurd hx List.not_mem_nil
  | append_singleton L y ih =>
    have honeL : ∀ z ∈ L, s.mem z.1 z.2 ≠ 0 → frameOf (s.mem z.1 z.2) = f → z = x := fun z hz =>
      hone z (List.mem_append_left _ hz)
    rw [releaseAll_snoc, release_ref, releaseAll_mem]
    by_cases hxL : x ∈ L
    · -- the slot is cleared by now
      rw [ih hxL honeL, if_neg]
      rintro ⟨hne, hyf⟩
      split_ifs at hne hyf with hyL
      · exact hne rfl
      · exact hyL (hone y (by simp) hne hyf ▸ hxL)
    · obtain rfl : x = y := by simpa [hxL] using hx
      have hnone : (s.releaseAll L).ref f = s.ref f := releaseAll_ref_of_none fun z hz hne hzf =>
        hxL (honeL z hz hne hzf ▸ hz)
      rw [if_neg hxL, if_pos ⟨h0, hf⟩, hnone, hwrap]

/-! ### What `unmap_mm` is for -/

/-- The entries above that of the level are present. -/
def Reached (s : Vm) (pgd : ℕ) : Level → ℕ → Prop
  | .pgFrame, v => s.PresentPmd pgd v
  | .pte, v => s.PresentPud pgd v
  | .pmd, v => s.Present pgd (getPgdOff v)
  | .pud, _ => True

/-- The loops come to every mapped page, and to no entry that is not there. -/
structure Visited (s : Vm) (a : ℕ) (mm : MmStruct) : Prop where
  mapped : ∀ v, s.ptes a v ≠ none → ∃ vma ∈ mm.mmap, v ∈ vma.turns .pgFrame
  reached : ∀ (tag : Level), ∀ vma ∈ mm.mmap, ∀ i ∈ vma.turns tag,
    s.Reached mm.pgd tag (i <<< tag.shift / pgSize)

/-- Everything below the directory was given up; `own` are the pages of the structs and the directory. -/
structure Released (s s' : Vm) (a : ℕ) (own : List ℕ) : Prop where
  /-- A frame loses a reference for each page that had it. -/
  frames : ∀ v f k, s.ptes a v = some (f, k) → f ∉ own →
    s'.ref f = s.ref f - ({w | ∃ k, s.ptes a w = some (f, k)}.ncard : ℤ)
  /-- A table loses a reference. -/
  tables : ∀ p f, p ≠ [] → s.Table a p f → f ∉ own → s'.ref f = s.ref f - 1
  /-- The entries are cleared. -/
  entries : ∀ p x, s.SlotAt a p x → s'.mem x.1 x.2 = 0
  /-- The other counts stay. -/
  others : ∀ f, f ∉ own → (∀ v k, s.ptes a v ≠ some (f, k)) → (∀ p, p ≠ [] → ¬s.Table a p f) →
    s'.ref f = s.ref f

theorem walkFrame_ne_none {m : ℕ → ℕ → ℕ} {is : List ℕ} : walkFrame m f (i :: is) ≠ none ↔
    (m f i).testBit 0 = true ∧ walkFrame m (frameOf (m f i)) is ≠ none := by
  rw [walkFrame_cons]
  split_ifs with hbit <;> simp [hbit]

theorem reached_iff : s.Reached r tag (addr / pgSize) ↔ s.entrySlot r tag addr ≠ none := by
  have hnil : ∀ f, walkFrame s.mem f [] ≠ none ↔ True := fun f => iff_true_intro (Option.some_ne_none f)
  rw [entrySlot, Ne, Option.map_eq_none_iff, ← Ne]
  cases tag with
  | pgFrame =>
    show _ ↔ walkFrame s.mem r [_, _, _] ≠ none
    simp only [walkFrame_ne_none, hnil, and_true, Reached, PresentPmd, PresentPud, Present, and_assoc]
    rfl
  | pte =>
    show _ ↔ walkFrame s.mem r [_, _] ≠ none
    simp only [walkFrame_ne_none, hnil, and_true, Reached, PresentPud, Present]
    rfl
  | pmd =>
    show _ ↔ walkFrame s.mem r [_] ≠ none
    simp only [walkFrame_ne_none, hnil, and_true, Reached, Present]
  | pud => exact iff_of_true trivial (Option.some_ne_none r)

/-- The slots that the loops come to. -/
def readSlots (s : Vm) (mm : MmStruct) : List (ℕ × ℕ) :=
  (reads mm).filterMap fun x => s.entrySlot mm.pgd x.1 x.2

/-- **The four passes**, if no table is missing. -/
theorem TableInv.freeLevels_eq_ok (h : TableInv s) (hmm : s.mms a = some mm) :
    s.freeLevels mm = .ok s' ↔ (∀ (tag : Level), ∀ vma ∈ mm.mmap, ∀ i ∈ vma.turns tag,
      s.Reached mm.pgd tag (i <<< tag.shift / pgSize)) ∧ s' = s.releaseAll (s.readSlots mm) := by
  rw [freeLevels_eq, h.foldlM_freeEntry (roots_of_mm hmm) (fun x hx => reads_lt hx) (reads_ordered mm)]
  refine and_congr_left fun _ => ⟨fun hall tag vma hvma i hi => ?_, fun hall x hx => ?_⟩
  · have hread : (tag, i <<< tag.shift) ∈ reads mm := mem_reads.2 ⟨vma, hvma, i, hi, rfl⟩
    exact reached_iff.2 (hall _ hread)
  · obtain ⟨tag, addr⟩ := x
    obtain ⟨vma, hvma, i, hi, haddr⟩ := mem_reads.1 hx
    simp only at haddr hi
    exact reached_iff.1 (haddr ▸ hall tag vma hvma i hi)

/-! ### The slots that the loops come to -/

section Slots

variable (h : TableInv s) (hmm : s.mms a = some mm)

include h hmm

/-- A slot that is read is that of an address. -/
theorem TableInv.exists_of_mem_readSlots (hx : x ∈ s.readSlots mm) : ∃ tag, ∃ vma ∈ mm.mmap,
    ∃ i ∈ vma.turns tag, i <<< tag.shift < userTop ∧
      s.SlotAt a (tag.path (i <<< tag.shift / pgSize)) x ∧
        x.2 = tag.off (i <<< tag.shift / pgSize) := by
  obtain ⟨⟨tag, addr⟩, hread, hslot⟩ := List.mem_filterMap.1 hx
  obtain ⟨vma, hvma, i, hi, haddr⟩ := mem_reads.1 hread
  obtain rfl : i <<< tag.shift = addr := haddr
  refine ⟨tag, vma, hvma, i, hi, turn_lt hi, h.slotAt (roots_of_mm hmm) (turn_lt hi) hslot, ?_⟩
  obtain ⟨f, -, rfl⟩ := Option.map_eq_some_iff.1 hslot
  rfl

/-- The slot of an address that the loops come to is read. -/
theorem TableInv.mem_readSlots (hvma : vma ∈ mm.mmap) (hi : i ∈ vma.turns tag)
    (hx : s.Table a (tag.path (i <<< tag.shift / pgSize)) x.1)
    (hoff : x.2 = tag.off (i <<< tag.shift / pgSize)) : x ∈ s.readSlots mm := by
  obtain ⟨f, j⟩ := x
  refine List.mem_filterMap.2 ⟨(tag, i <<< tag.shift), mem_reads.2 ⟨vma, hvma, i, hi, rfl⟩, ?_⟩
  have hpath := tag.userPath_path (page_lt (turn_lt hi))
  obtain rfl : j = _ := hoff
  rw [entrySlot, (h.walkFrame_path (roots_of_mm hmm) hpath).2 hx]
  rfl

end Slots

/-- What an entry in use is: that of a page, or of a table. -/
theorem SlotAt.use (hx : s.SlotAt a p x) (h0 : s.mem x.1 x.2 ≠ 0) :
    (∃ v k, v < userPages ∧ s.ptes a v = some (frameOf (s.mem x.1 x.2), k) ∧ p = path v ∧
        x.2 = getPteOff v) ∨
      p.length ≤ 2 ∧ s.Table a (x.2 :: p) (frameOf (s.mem x.1 x.2)) := by
  have hlen : p.length ≤ 3 := hx.table.1.1
  by_cases hlast : p.length = 3
  · obtain ⟨v, hv, rfl, hoff⟩ := exists_page hx.table.1 hlast hx.index
    refine .inl ⟨v, modeOf (s.mem x.1 x.2), hv, ?_, rfl, hoff.symm⟩
    rw [hx.table.ptes_eq hv, hoff, decode, if_neg h0]
  · have href : s.Refers a p x.2 (frameOf (s.mem x.1 x.2)) :=
      ⟨hx.index, hx.user, x.1, hx.table, h0, rfl⟩
    exact .inr ⟨by omega, href.table (by omega)⟩

/-- A path on the way to a page is that of an entry for a table. -/
theorem exists_level (hp : i :: p <:+ path v) : ∃ tag ≠ Level.pgFrame, p = tag.path v ∧ i = tag.off v := by
  rw [path, List.suffix_cons_iff, List.suffix_cons_iff, List.suffix_cons_iff] at hp
  obtain heq | heq | heq | hnil := hp
  · exact ⟨.pte, by decide, (List.cons.inj heq).2, (List.cons.inj heq).1⟩
  · exact ⟨.pmd, by decide, (List.cons.inj heq).2, (List.cons.inj heq).1⟩
  · exact ⟨.pud, by decide, (List.cons.inj heq).2, (List.cons.inj heq).1⟩
  · exact absurd (List.suffix_nil.1 hnil) (List.cons_ne_nil i p)

/-- The loop comes to the block of a page of an area, and the entry is that of the page. -/
theorem exists_turn (htag : tag ≠ .pgFrame) (hv : v ∈ vma.pages) : ∃ i ∈ vma.turns tag,
    tag.path (i <<< tag.shift / pgSize) = tag.path v ∧
      tag.off (i <<< tag.shift / pgSize) = tag.off v := by
  obtain ⟨hlo, hhi⟩ := mem_pages.1 hv
  unfold pgSize at hlo hhi
  refine ⟨v * 4096 / 2 ^ tag.shift, (mem_turns htag).2 ?_, ?_⟩
  · cases tag <;> simp only [Level.shift] <;> omega
  · rw [Nat.shiftLeft_eq]
    unfold pgSize
    cases tag with
    | pgFrame => exact absurd rfl htag
    | pte =>
      simp only [Level.path, Level.off, Level.shift, getPgdOff_eq, getPudOff_eq, getPmdOff_eq,
        List.cons.injEq, and_true]
      omega
    | pmd =>
      simp only [Level.path, Level.off, Level.shift, getPgdOff_eq, getPudOff_eq, List.cons.injEq, and_true]
      omega
    | pud =>
      simp only [Level.path, Level.off, Level.shift, getPgdOff_eq, true_and]
      omega

/-- A page that the loop for the pages comes to. -/
theorem page_of_turn (v : ℕ) : v <<< Level.pgFrame.shift / pgSize = v := by
  rw [Nat.shiftLeft_eq]
  exact Nat.mul_div_cancel v (by decide)

/-- **All the entries in use are read**, if the loops come to all the mapped pages. -/
theorem Visited.mem_readSlots (hc : s.Visited a mm) (h : TableInv s) (hon : s.OnAreas)
    (hmm : s.mms a = some mm) (hx : s.SlotAt a p x) (h0 : s.mem x.1 x.2 ≠ 0) :
    x ∈ s.readSlots mm := by
  obtain ⟨v, k, hv, hmap, rfl, hoff⟩ | ⟨hlen, ht⟩ := hx.use h0
  · obtain ⟨vma, hvma, hturn⟩ := hc.mapped v (by rw [hmap]; simp)
    have hpage := page_of_turn v
    exact h.mem_readSlots hmm hvma hturn (by rw [hpage]; exact hx.table) (by rw [hpage]; exact hoff)
  · obtain ⟨v, ⟨mm', hmm', vma, hvma, hv⟩, hsuf⟩ := (hon a _ _ ht).2 (List.cons_ne_nil _ _)
    obtain rfl := Option.some.inj (hmm.symm.trans hmm')
    obtain ⟨tag, htag, rfl, hoff⟩ := exists_level hsuf
    obtain ⟨i, hi, hpath, hoff'⟩ := exists_turn htag hv
    exact h.mem_readSlots hmm hvma hi (by rw [hpath]; exact hx.table) (by rw [hoff']; exact hoff)

/-! ### What is released -/

theorem Table.unique (hf : s.Table a p f) (hg : s.Table a p g) : f = g := by
  obtain ⟨-, r, hr, hn⟩ := hf
  obtain ⟨-, r', hr', hn'⟩ := hg
  obtain rfl := Option.some.inj (hr.symm.trans hr')
  exact Option.some.inj (hn.symm.trans hn')

theorem index_lt_of_suffix (hp : p <:+ path v) (hi : i ∈ p) : i < 512 := by
  have hmem := hp.subset hi
  have hpgd := getPgdOff_eq v
  have hpud := getPudOff_eq v
  have hpmd := getPmdOff_eq v
  simp only [path, List.mem_cons, List.not_mem_nil, or_false] at hmem
  omega

/-- The slot of a page that is mapped. -/
theorem exists_slot_of_ptes {k : Cow.Mode} (hv : s.ptes a v = some (f, k)) : ∃ x, s.SlotAt a (path v) x ∧
    s.mem x.1 x.2 ≠ 0 ∧ frameOf (s.mem x.1 x.2) = f ∧ x.2 = getPteOff v := by
  obtain ⟨hlt, table, ht, h0, rfl, -⟩ := exists_table_of_ptes hv
  exact ⟨(table, getPteOff v), ⟨ht, (Level.pgFrame.off_lt hlt).1, fun hnil => absurd hnil (by simp [path])⟩,
    h0, rfl, rfl⟩

/-- No other slot refers to the page. -/
theorem VmInv.slot_unique_of_ptes {k : Cow.Mode} (h : VmInv s) (hv : s.ptes a v = some (f, k))
    (hx : s.SlotAt a (path v) x) (hoff : x.2 = getPteOff v) (hy : s.SlotAt a p y)
    (h0 : s.mem y.1 y.2 ≠ 0) (hf : frameOf (s.mem y.1 y.2) = f) : y = x := by
  obtain ⟨w, k', -, hw, rfl, hoff'⟩ | ⟨-, ht⟩ := hy.use h0
  · obtain rfl := h.cow.aligned a a w v f k' k (hf ▸ hw) hv
    exact Prod.ext (hy.table.unique hx.table) (hoff'.trans hoff.symm)
  · exact absurd hv (h.tables.unmapped a _ f (hf ▸ ht) a v k)

/-- No other slot refers to a table. -/
theorem TableInv.slot_unique_of_table (h : TableInv s) (ht : s.Table a (i :: q) f)
    (hlt : ∀ j ∈ i :: q, j < 512) (hx : s.SlotAt a q x) (hi : x.2 = i) (hy : s.SlotAt a p y)
    (h0 : s.mem y.1 y.2 ≠ 0) (hf : frameOf (s.mem y.1 y.2) = f) : y = x := by
  have href : s.Refers a p y.2 f := ⟨hy.index, hy.user, y.1, hy.table, h0, hf⟩
  obtain ⟨-, rfl, hoff⟩ := (h.single ht hlt).1 href
  exact Prod.ext (hy.table.unique hx.table) (hoff.trans hi.symm)

theorem VmInv.ref_pos {k : Cow.Mode} (h : VmInv s) (hv : s.ptes a v = some (f, k)) : 0 < s.ref f := by
  have hle := h.cow.le f ⟨_, Cow.mem_mapsTo hv⟩
  have hcard := (Set.ncard_pos (h.cow.finite f)).2 ⟨_, Cow.mem_mapsTo hv⟩
  omega

/-- A page is mapped once in an address space. -/
theorem VmInv.ncard_pages {k : Cow.Mode} (h : VmInv s) (hv : s.ptes a v = some (f, k)) :
    {w | ∃ k, s.ptes a w = some (f, k)}.ncard = 1 := by
  have hset : {w | ∃ k, s.ptes a w = some (f, k)} = {v} := by
    ext w
    refine ⟨fun ⟨k', hw⟩ => h.cow.aligned a a w v f k' k hw hv, ?_⟩
    rintro rfl
    exact ⟨k, hv⟩
  rw [hset, Set.ncard_singleton]

section Visited

variable {own : List ℕ} (hc : s.Visited a mm) (h : VmInv s) (hon : s.OnAreas)
  (hmm : s.mms a = some mm) (hmem : s'.mem = (s.releaseAll (s.readSlots mm)).mem)
  (href : ∀ f ∉ own, s'.ref f = (s.releaseAll (s.readSlots mm)).ref f)

include hc h hon hmm hmem href

/-- **Everything is released** if the loops come to all of it. -/
theorem Visited.released : Released s s' a own where
  frames v f k hv hf := by
    obtain ⟨x, hx, h0, hxf, hoff⟩ := exists_slot_of_ptes hv
    rw [href f hf, h.ncard_pages hv, Nat.cast_one]
    refine releaseAll_ref_of_one (hc.mem_readSlots h.tables hon hmm hx h0) h0 hxf (fun y hy hy0 hyf => ?_)
      (h.ref_pos hv) (h.bounded.lt f)
    obtain ⟨tag, -, -, i, -, -, hslot, -⟩ := h.tables.exists_of_mem_readSlots hmm hy
    exact h.slot_unique_of_ptes hv hx hoff hslot hy0 hyf
  tables p f hne ht hf := by
    cases p with
    | nil => exact absurd rfl hne
    | cons i q =>
      obtain ⟨hone, hway⟩ := hon a _ f ht
      obtain ⟨v, -, hsuf⟩ := hway hne
      have hlt : ∀ j ∈ i :: q, j < 512 := fun j hj => index_lt_of_suffix hsuf hj
      obtain ⟨hindex, huser, g, hg, h0, hgf⟩ := (h.tables.single ht hlt).2 ⟨rfl, rfl, rfl⟩
      have hx : s.SlotAt a q (g, i) := ⟨hg, hindex, huser⟩
      rw [href f hf]
      refine releaseAll_ref_of_one (hc.mem_readSlots h.tables hon hmm hx h0) h0 hgf
        (fun y hy hy0 hyf => ?_) (by rw [hone]; decide) (h.bounded.lt f)
      obtain ⟨tag, -, -, i, -, -, hslot, -⟩ := h.tables.exists_of_mem_readSlots hmm hy
      exact h.tables.slot_unique_of_table ht hlt hx rfl hslot hy0 hyf
  entries p x hx := by
    rw [hmem, releaseAll_mem]
    split_ifs with hread
    · rfl
    · by_contra h0
      exact hread (hc.mem_readSlots h.tables hon hmm hx h0)
  others f hf hpage htable := by
    rw [href f hf]
    refine releaseAll_ref_of_none fun y hy hy0 hyf => ?_
    obtain ⟨tag, -, -, i, -, -, hslot, -⟩ := h.tables.exists_of_mem_readSlots hmm hy
    obtain ⟨w, k, -, hw, -, -⟩ | ⟨-, ht⟩ := hslot.use hy0
    · exact hpage w k (hyf ▸ hw)
    · exact htable _ (List.cons_ne_nil _ _) (hyf ▸ ht)

end Visited

/-- **The loops come to all the mapped pages** if all the entries are cleared. -/
theorem TableInv.mapped_of_entries (h : TableInv s) (hmm : s.mms a = some mm)
    (hmem : s'.mem = (s.releaseAll (s.readSlots mm)).mem)
    (hentries : ∀ p x, s.SlotAt a p x → s'.mem x.1 x.2 = 0) (hv : s.ptes a v ≠ none) :
    ∃ vma ∈ mm.mmap, v ∈ vma.turns .pgFrame := by
  obtain ⟨⟨f, k⟩, hfk⟩ := Option.ne_none_iff_exists'.1 hv
  obtain ⟨x, hx, h0, -, hoff⟩ := exists_slot_of_ptes hfk
  have hread : x ∈ s.readSlots mm := by
    by_contra hnot
    have hzero := hentries _ x hx
    rw [hmem, releaseAll_mem, if_neg hnot] at hzero
    exact h0 hzero
  obtain ⟨tag, vma, hvma, i, hi, hlt, hslot, hoff'⟩ := h.exists_of_mem_readSlots hmm hread
  -- the slot is that of the page only
  have hpath := hslot.path_eq h hx.table
  have hlen := congrArg List.length hpath
  rw [tag.length_path] at hlen
  obtain rfl : tag = .pgFrame := by
    cases tag <;> first | rfl | cases hlen
  have hvu := (exists_table_of_ptes hfk).1
  have hpage := page_of_turn i
  have hiu : i < userPages := hpage ▸ page_lt hlt
  rw [hpage] at hpath hoff'
  obtain rfl : i = v := path_inj hiu hvu hpath (hoff'.symm.trans hoff)
  exact ⟨vma, hvma, hi⟩

/-! ### The whole function -/

theorem foldl_freePage {l : List ℕ} (hf : f ∉ l) (pages : PageState) :
    (l.foldl PageState.freePage pages).pageArray f = pages.pageArray f := by
  induction l generalizing pages with
  | nil => rfl
  | cons g l ih =>
    have hfg : f ≠ g := List.ne_of_not_mem_cons hf
    have hfl : f ∉ l := List.not_mem_of_not_mem_cons hf
    rw [List.foldl_cons, ih hfl, freePage_pageArray, Function.update_of_ne hfg]

/-- `unmap_mm` after the four passes. -/
theorem unmapMm_spec (tsp : ℕ) {task : VmTask} (structs : List ℕ) (htask : task.mm = some a)
    (hmm : s.mms a = some mm) :
    Yields (s.unmapMm tsp task structs) (fun s' => ∃ s₁, s.freeLevels mm = .ok s₁ ∧ s'.mem = s₁.mem ∧
      ∀ f ∉ structs ++ [mm.pgd, a], s'.ref f = s₁.ref f) fun e => s.freeLevels mm = .error e := by
  have hspace : task.mm.bind (fun a => (s.mms a).map fun mm => (a, mm)) = some (a, mm) := by
    rw [htask, Option.bind_some, hmm]
    rfl
  rw [unmapMm, hspace]
  cases hfree : s.freeLevels mm with
  | error e =>
    simp only [hfree]
    rfl
  | ok s₁ =>
    simp only [hfree]
    refine ⟨s₁, rfl, rfl, fun f hf => ?_⟩
    simp only [List.mem_append, List.mem_cons, List.not_mem_nil, or_false, not_or] at hf
    obtain ⟨hstructs, hpgd, hspace⟩ := hf
    show (((structs.foldl PageState.freePage s₁.pages).freePage mm.pgd).freePage a).pageArray f = _
    rw [freePage_pageArray, Function.update_of_ne hspace, freePage_pageArray, Function.update_of_ne hpgd,
      foldl_freePage hstructs]
    rfl

/-- **`unmap_mm` releases an address space exactly if** the loops come to all the mapped pages, and to no
entry that is not there. -/
theorem VmInv.released_iff (tsp : ℕ) {task : VmTask} (h : VmInv s) (hon : s.OnAreas) (structs : List ℕ)
    (htask : task.mm = some a) (hmm : s.mms a = some mm) :
    (∃ s', s.unmapMm tsp task structs = .ok s' ∧ Released s s' a (structs ++ [mm.pgd, a])) ↔
      s.Visited a mm := by
  have hspec := unmapMm_spec tsp structs htask hmm
  constructor
  · rintro ⟨s', hs', hreleased⟩
    obtain ⟨s₁, hs₁, hmem, -⟩ := hspec.of_eq_ok hs'
    obtain ⟨hreached, rfl⟩ := (h.tables.freeLevels_eq_ok hmm).1 hs₁
    exact ⟨fun v => h.tables.mapped_of_entries hmm hmem hreleased.entries, hreached⟩
  · intro hc
    have hfree := (h.tables.freeLevels_eq_ok hmm).2 ⟨hc.reached, rfl⟩
    cases hs' : s.unmapMm tsp task structs with
    | error e =>
      rw [hs', hfree] at hspec
      cases hspec
    | ok s' =>
      obtain ⟨s₁, hs₁, hmem, href⟩ := hspec.of_eq_ok hs'
      obtain rfl := Except.ok.inj (hfree.symm.trans hs₁)
      exact ⟨s', rfl, hc.released h hon hmm hmem href⟩

/-! ### Which pages the loops come to -/

/-- Every mapped page is at an even distance from the first page of an area, and the tables are there
wherever an area has pages. -/
structure Complete (s : Vm) (a : ℕ) (mm : MmStruct) : Prop where
  mapped : ∀ v, s.ptes a v ≠ none → ∃ vma ∈ mm.mmap, v ∈ vma.pages ∧ Even (v - vma.vmStart / pgSize)
  /-- The last table of every second page. -/
  pages : ∀ vma ∈ mm.mmap, ∀ v ∈ vma.pages, Even (v - vma.vmStart / pgSize) → s.PresentPmd mm.pgd v
  /-- The `pmd` table of every 2 MB. -/
  blocks : ∀ vma ∈ mm.mmap, ∀ i, vma.vmStart / 2 ^ 21 ≤ i → i ≤ (vma.vmEnd - 1) / 2 ^ 21 →
    s.PresentPud mm.pgd (512 * i)
  /-- The `pud` table of every 1 GB. -/
  regions : ∀ vma ∈ mm.mmap, ∀ i, vma.vmStart / 2 ^ 30 ≤ i → i ≤ (vma.vmEnd - 1) / 2 ^ 30 →
    s.Present mm.pgd (getPgdOff (512 * 512 * i))

/-- The loop for the pages comes to every second one. -/
theorem mem_turns_pgFrame : v ∈ vma.turns .pgFrame ↔ v ∈ vma.pages ∧ Even (v - vma.vmStart / pgSize) := by
  rw [mem_pages, Vma.turns]
  simp only [Nat.shiftRight_eq_div_pow, Level.shift, Level.stride, List.mem_range', pgSize, Nat.even_iff]
  generalize vma.vmStart / 4096 = first, (vma.vmEnd - 1) / 4096 = last
  constructor
  · rintro ⟨k, hk, rfl⟩
    omega
  · rintro ⟨⟨hfirst, hlast⟩, heven⟩
    exact ⟨(v - first) / 2, by omega, by omega⟩

theorem visited_iff : s.Visited a mm ↔ s.Complete a mm := by
  have hpage : ∀ i, i <<< 12 / pgSize = i := page_of_turn
  have hblock : ∀ i, i <<< (12 + 9) / pgSize = 512 * i := fun i => by
    rw [Nat.shiftLeft_eq]
    unfold pgSize
    omega
  have hregion : ∀ i, i <<< (12 + 9 + 9) / pgSize = 512 * 512 * i := fun i => by
    rw [Nat.shiftLeft_eq]
    unfold pgSize
    omega
  constructor
  · rintro ⟨hmapped, hreached⟩
    refine ⟨fun v hv => ?_, fun vma hvma v hv heven => ?_, fun vma hvma i hlo hhi => ?_,
      fun vma hvma i hlo hhi => ?_⟩
    · obtain ⟨vma, hvma, hturn⟩ := hmapped v hv
      exact ⟨vma, hvma, mem_turns_pgFrame.1 hturn⟩
    · have hlast := hreached .pgFrame vma hvma v (mem_turns_pgFrame.2 ⟨hv, heven⟩)
      rw [Reached, Level.shift, hpage] at hlast
      exact hlast
    · have hpmd := hreached .pte vma hvma i ((mem_turns (by decide)).2 ⟨hlo, hhi⟩)
      rw [Reached, Level.shift, hblock] at hpmd
      exact hpmd
    · have hpud := hreached .pmd vma hvma i ((mem_turns (by decide)).2 ⟨hlo, hhi⟩)
      rw [Reached, Level.shift, hregion] at hpud
      exact hpud
  · rintro ⟨hmapped, hpages, hblocks, hregions⟩
    refine ⟨fun v hv => ?_, fun tag vma hvma i hi => ?_⟩
    · obtain ⟨vma, hvma, hturn⟩ := hmapped v hv
      exact ⟨vma, hvma, mem_turns_pgFrame.2 hturn⟩
    · cases tag with
      | pgFrame =>
        obtain ⟨hv, heven⟩ := mem_turns_pgFrame.1 hi
        rw [Reached, Level.shift, hpage]
        exact hpages vma hvma i hv heven
      | pte =>
        obtain ⟨hlo, hhi⟩ := (mem_turns (by decide)).1 hi
        rw [Reached, Level.shift, hblock]
        exact hblocks vma hvma i hlo hhi
      | pmd =>
        obtain ⟨hlo, hhi⟩ := (mem_turns (by decide)).1 hi
        rw [Reached, Level.shift, hregion]
        exact hregions vma hvma i hlo hhi
      | pud => trivial

/-- **`unmap_mm` gives up all the pages and tables of a task exactly if** the mapped pages are at even
distances from the first pages of the areas, and no table is missing. -/
theorem unmapMm_releases_iff {acts : List Act} {task : VmTask} (h : Start s₁)
    (hrun : run step s₁ acts = .ok s) (ha : task.mm = some a) (hmm : s.mms a = some mm) (t : ℕ)
    (structs : List ℕ) :
    (∃ s', s.unmapMm t task structs = .ok s' ∧ Released s s' a (structs ++ [mm.pgd, a])) ↔
      s.Complete a mm := by
  rw [← visited_iff]
  exact (run_inv h hrun).released_iff t (onAreas_of_run h hrun) structs ha hmm

/-- The first task runs a program and reads its code. -/
def codeActs : List Act := programActs ++ [.load 700 ⟨0x400000, by decide⟩]

/-- The last page of the stack, which `exec` maps. -/
abbrev topPage : ℕ := userTop / pgSize - 1

/-- The last page of the stack is not freed: fifteen pages lie below it in its area. -/
theorem exists_codeActs : ∃ s task a mm f k s', run step bareVm codeActs = .ok s ∧
    s.tasks 700 = some task ∧ task.mm = some a ∧ s.mms a = some mm ∧
    (mm.mmap.Pairwise fun x y => x.vmEnd ≤ y.vmStart ∨ y.vmEnd ≤ x.vmStart) ∧
    s.ptes a topPage = some (f, k) ∧ f ∉ [705, 706] ++ [mm.pgd, a] ∧
    s.unmapMm 700 task [705, 706] = .ok s' ∧ s'.ref f = s.ref f := by
  have hrun : reaches (run step bareVm codeActs) (fun s => (s.userMm 700).any fun x =>
      decide (x.2.mmap.Pairwise fun x y => x.vmEnd ≤ y.vmStart ∨ y.vmEnd ≤ x.vmStart) &&
        (s.ptes x.1 topPage).any fun y => decide (y.1 ∉ [705, 706] ++ [x.2.pgd, x.1]) &&
          reaches (s.unmapMm 700 { mm := some x.1, zombie := false } [705, 706]) fun s' =>
            decide (s'.ref y.1 = s.ref y.1)) = true := by
    decide +kernel
  obtain ⟨s, hs, htest⟩ := exists_of_reaches hrun
  obtain ⟨⟨a, mm⟩, hmm, hboth⟩ := (Option.any_eq_true _ _).1 htest
  obtain ⟨hapart, hany⟩ := Bool.and_eq_true_iff.1 hboth
  obtain ⟨⟨f, k⟩, hmap, hpage⟩ := (Option.any_eq_true _ _).1 hany
  obtain ⟨hown, hunmap⟩ := Bool.and_eq_true_iff.1 hpage
  obtain ⟨s', hs', href⟩ := exists_of_reaches hunmap
  obtain ⟨hspace, ⟨_, zombie⟩, htask, rfl, rfl⟩ := userMm_eq_some hmm
  exact ⟨s, _, a, mm, f, k, s', hs, htask, rfl, hspace, of_decide_eq_true hapart, hmap,
    of_decide_eq_true hown, hs', of_decide_eq_true href⟩

theorem unmapMm_releases_iff_code : ∃ s task a mm, run step bareVm codeActs = .ok s ∧
    s.tasks 700 = some task ∧
    ((∃ s', s.unmapMm 700 task [705, 706] = .ok s' ∧ Released s s' a ([705, 706] ++ [mm.pgd, a])) ↔
      s.Complete a mm) := by
  obtain ⟨s, task, a, mm, f, k, s', hs, htask, ha, hmm, -⟩ := exists_codeActs
  exact ⟨s, task, a, mm, hs, htask, unmapMm_releases_iff bareVm_start hs ha hmm 700 [705, 706]⟩

/-- Of a program that has read its code, all the tables are there, and one page is left. -/
theorem unmapMm_releases_fails : ¬∀ (s₀ : Vm) (acts : List Act) (s : Vm) (t a : ℕ) (task : VmTask)
    (mm : MmStruct) (structs : List ℕ), Start s₀ → run step s₀ acts = .ok s → s.tasks t = some task →
      task.mm = some a → s.mms a = some mm →
      (mm.mmap.Pairwise fun x y => x.vmEnd ≤ y.vmStart ∨ y.vmEnd ≤ x.vmStart) →
      ∃ s', s.unmapMm t task structs = .ok s' ∧ Released s s' a (structs ++ [mm.pgd, a]) := by
  intro hall
  obtain ⟨s, task, a, mm, f, k, s', hs, htask, ha, hmm, hapart, hmap, hown, hs', href⟩ := exists_codeActs
  obtain ⟨s₁, hs₁, hreleased⟩ :=
    hall bareVm codeActs s 700 a task mm [705, 706] bareVm_start hs htask ha hmm hapart
  obtain rfl := Except.ok.inj (hs'.symm.trans hs₁)
  have hless := hreleased.frames topPage f k hmap hown
  rw [(run_inv bareVm_start hs).ncard_pages hmap, href, Nat.cast_one] at hless
  omega

end Vm

end PlumOs
