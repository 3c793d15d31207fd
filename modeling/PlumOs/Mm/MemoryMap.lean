import PlumOs.Lib.Ram
import PlumOs.Mm.Exclusive

/-!
# The memory map of the boot loader (`start` of `sys/main.c`)

The boot loader leaves a list of modules in memory.  The module of type `0x9001` holds the memory map,
in packed entries of 20 bytes.  `start` walks to it, as if the lengths of the modules in front were in
32-bit words, and stores the entries for usable memory in `pmb_array`.

* `findMap`, `smapLoop`, `bootInfo` : the two loops, and what `start` stores before it calls `mm_init`;
* `bootInfo_entries` : **the usable entries are stored in their order**, and nothing else;
* `pages_in_memory_map` : **a page that is handed out is usable memory**, after any run of the allocator.
-/

namespace PlumOs

/-- `struct smap_t`. -/
structure SmapEntry where
  /-- The first address of the block. -/
  base : ℕ
  /-- Its length. -/
  length : ℕ
  /-- 1 for memory that can be used. -/
  type : ℕ
  deriving DecidableEq, Repr

/-- The size of an entry, which is packed. -/
abbrev sizeofSmap : ℕ := 20

/-- The entry at an address. -/
def smapAt (mem : ℕ → ℕ) (a : ℕ) : SmapEntry where
  base := load mem 8 a
  length := load mem 8 (a + 8)
  type := load mem 4 (a + 16)

namespace SmapEntry

variable (e : SmapEntry)

/-- The entry is stored: it is memory, and not empty. -/
def Usable : Prop := e.type = 1 ∧ e.length ≠ 0

instance decidableUsable : Decidable e.Usable := inferInstanceAs (Decidable (_ ∧ _))

def block : PhymemBlock := ⟨e.base, e.length⟩

def bytes : List ℕ := wordBytes 8 e.base ++ wordBytes 8 e.length ++ wordBytes 4 e.type

/-- The fields have the widths of the source. -/
structure Fits : Prop where
  base : e.base < 256 ^ 8
  length : e.length < 256 ^ 8
  type : e.type < 256 ^ 4

/-- The byte of physical memory is in the entry. -/
def Holds (x : ℕ) : Prop := e.base ≤ x ∧ x < e.base + e.length

end SmapEntry

/-- `pmb_array` with what is in memory behind it, and `pmb_count`. -/
structure PmbArray where
  block : ℕ → PhymemBlock
  count : ℕ

/-- The stores for one entry. -/
def PmbArray.push (p : PmbArray) (b : PhymemBlock) : PmbArray :=
  ⟨Function.update p.block p.count b, (p.count + 1) % 2 ^ 32⟩

section Model

variable (mem : ℕ → ℕ)

/-- The walk to the module with the memory map. -/
def findMap : ℕ → ℕ → Option ℕ
  | 0, _ => none
  | fuel + 1, modulep =>
    if load mem 4 modulep = 0x9001 then some modulep
    else findMap fuel (modulep + 4 * ((load mem 4 (modulep + 4) + 2) % 2 ^ 32))

/-- The loop over the memory map, from the entry at `smap` on. -/
def smapLoop (stop : ℕ) : ℕ → ℕ → PmbArray → PmbArray
  | 0, _, p => p
  | fuel + 1, smap, p =>
    if smap < stop then
      smapLoop stop fuel (smap + sizeofSmap)
        (if (smapAt mem smap).Usable then p.push (smapAt mem smap).block else p)
    else p

/-- What `start(modulep, physbase, physfree)` stores before it calls `mm_init`; `behind` is what was in
`pmb_array` and behind it. -/
def bootInfo (fuel : ℕ) (behind : ℕ → PhymemBlock) (modulep physbase physfree : ℕ) : Option BootInfo :=
  (findMap mem fuel modulep).map fun p =>
    let length := load mem 4 (p + 4)
    let pmb := smapLoop mem (p + length + 8) (length + 1) (p + 8) ⟨behind, 0⟩
    { pmbArray := pmb.block
      pmbCount := pmb.count
      physbase := physbase
      physfree := physfree }

end Model

/-! ### What the boot loader leaves -/

/-- A module in front of the memory map. -/
structure LoaderModule where
  /-- The first word. -/
  type : ℕ
  /-- The words behind the length. -/
  words : List ℕ

namespace LoaderModule

variable (m : LoaderModule)

def bytes : List ℕ := wordBytes 4 m.type ++ wordBytes 4 m.words.length ++ m.words.flatMap (wordBytes 4)

/-- The walk goes on behind the module. -/
structure Skipped : Prop where
  type : m.type < 256 ^ 4
  other : m.type ≠ 0x9001
  short : m.words.length + 2 < 256 ^ 4

theorem length_bytes : m.bytes.length = 4 * (m.words.length + 2) := by
  have hwords : ∀ ws : List ℕ, (ws.flatMap (wordBytes 4)).length = 4 * ws.length := by
    intro ws
    induction ws with
    | nil => rfl
    | cons w ws ih =>
      rw [List.flatMap_cons, List.length_append, ih, length_wordBytes, List.length_cons]
      omega
  simp only [bytes, List.length_append, length_wordBytes, hwords]
  omega

end LoaderModule

/-- The module with the memory map. -/
def mapModule (entries : List SmapEntry) : List ℕ :=
  wordBytes 4 0x9001 ++ wordBytes 4 (sizeofSmap * entries.length) ++ entries.flatMap SmapEntry.bytes

/-- The modules that the boot loader leaves at `modulep`. -/
structure Loaded (mem : ℕ → ℕ) (modulep : ℕ) (front : List LoaderModule) (entries : List SmapEntry) :
    Prop where
  /-- The modules in front, and the map. -/
  bytes : BytesAt mem modulep (front.flatMap LoaderModule.bytes ++ mapModule entries)
  /-- The walk passes the modules in front. -/
  front : ∀ m ∈ front, m.Skipped
  /-- The fields of the entries are stored whole. -/
  fits : ∀ e ∈ entries, e.Fits
  /-- The length of the map is stored whole. -/
  short : sizeofSmap * entries.length < 256 ^ 4

/-- The entries for usable memory. -/
def usable (entries : List SmapEntry) : List SmapEntry := entries.filter fun e => e.Usable

variable {mem : ℕ → ℕ} {a fuel modulep physbase physfree : ℕ} {front : List LoaderModule}
  {entries : List SmapEntry} {behind : ℕ → PhymemBlock} {b : BootInfo}

/-! ### The loops -/

theorem smapAt_bytes {e : SmapEntry} (he : e.Fits) (hmem : BytesAt mem a e.bytes) : smapAt mem a = e := by
  obtain ⟨hleft, htype⟩ := bytesAt_append.1 hmem
  obtain ⟨hbase, hlength⟩ := bytesAt_append.1 hleft
  simp only [length_wordBytes, List.length_append] at hlength htype
  rw [smapAt, hbase.load_eq he.base, hlength.load_eq he.length, htype.load_eq he.type]

theorem length_entry (e : SmapEntry) : e.bytes.length = sizeofSmap := by
  simp [SmapEntry.bytes]

/-- The loop stores the usable entries. -/
theorem smapLoop_eq {p : PmbArray} {stop : ℕ} (hmem : BytesAt mem a (entries.flatMap SmapEntry.bytes))
    (hfits : ∀ e ∈ entries, e.Fits) (hstop : stop = a + sizeofSmap * entries.length)
    (hfuel : entries.length < fuel) :
    smapLoop mem stop fuel a p = (usable entries).foldl (fun p e => p.push e.block) p := by
  induction entries generalizing a fuel p with
  | nil =>
    obtain ⟨fuel, rfl⟩ : ∃ k, fuel = k + 1 := ⟨fuel - 1, by omega⟩
    rw [smapLoop, if_neg (by simp at hstop; omega)]
    rfl
  | cons e entries ih =>
    obtain ⟨fuel, rfl⟩ : ∃ k, fuel = k + 1 := ⟨fuel - 1, by omega⟩
    rw [List.flatMap_cons] at hmem
    obtain ⟨he, hrest⟩ := bytesAt_append.1 hmem
    rw [length_entry] at hrest
    rw [List.length_cons] at hstop hfuel
    have hsize : sizeofSmap = 20 := rfl
    rw [hsize] at hstop hrest
    rw [smapLoop, if_pos (by omega), smapAt_bytes (hfits e List.mem_cons_self) he,
      ih hrest (fun e' h' => hfits e' (List.mem_cons_of_mem _ h')) (by rw [hsize]; omega) (by omega)]
    by_cases hu : e.Usable
    · rw [if_pos hu, usable, usable, List.filter_cons_of_pos (by simpa using hu), List.foldl_cons]
    · rw [if_neg hu, usable, usable, List.filter_cons_of_neg (by simpa using hu)]

/-- What the stores leave in the array. -/
theorem foldl_push {es : List SmapEntry} {p : PmbArray} (hcount : p.count + es.length < 2 ^ 32) :
    (es.foldl (fun p e => p.push e.block) p).count = p.count + es.length ∧
      ∀ i, (es.foldl (fun p e => p.push e.block) p).block i =
        if i < p.count then p.block i else ((es[i - p.count]?).map SmapEntry.block).getD (p.block i) := by
  induction es generalizing p with
  | nil => simp
  | cons e es ih =>
    rw [List.length_cons] at hcount
    have hpush : (p.push e.block).count = p.count + 1 := Nat.mod_eq_of_lt (by omega)
    obtain ⟨hc, hblock⟩ := @ih (p.push e.block) (by rw [hpush]; omega)
    rw [List.foldl_cons, List.length_cons]
    refine ⟨by rw [hc, hpush]; omega, fun i => ?_⟩
    rw [hblock, hpush]
    rcases Nat.lt_trichotomy i p.count with hlt | rfl | hgt
    · have hne : i ≠ p.count := by omega
      rw [if_pos (by omega), if_pos hlt]
      exact Function.update_of_ne hne ..
    · simp [PmbArray.push]
    · have hne : i ≠ p.count := by omega
      have hkept : (p.push e.block).block i = p.block i := Function.update_of_ne hne ..
      rw [if_neg (by omega), if_neg (by omega), hkept, show i - p.count = i - (p.count + 1) + 1 by omega,
        List.getElem?_cons_succ]

/-- The walk stops at the module with the memory map. -/
theorem findMap_eq {rest : List ℕ} (hfront : ∀ m ∈ front, m.Skipped) (hfuel : front.length < fuel)
    (hmem : BytesAt mem a (front.flatMap LoaderModule.bytes ++ (wordBytes 4 0x9001 ++ rest))) :
    findMap mem fuel a = some (a + (front.flatMap LoaderModule.bytes).length) := by
  induction front generalizing a fuel with
  | nil =>
    obtain ⟨fuel, rfl⟩ : ∃ k, fuel = k + 1 := ⟨fuel - 1, by omega⟩
    have htype : load mem 4 a = 0x9001 := (bytesAt_append.1 (bytesAt_append.1 hmem).2).1.load_eq (by decide)
    rw [findMap, if_pos htype]
    rfl
  | cons m front ih =>
    obtain ⟨fuel, rfl⟩ : ∃ k, fuel = k + 1 := ⟨fuel - 1, by omega⟩
    have hm := hfront m List.mem_cons_self
    rw [List.flatMap_cons, List.append_assoc] at hmem
    obtain ⟨hbytes, hrest⟩ := bytesAt_append.1 hmem
    obtain ⟨hleft, -⟩ := bytesAt_append.1 hbytes
    obtain ⟨htype, hlength⟩ := bytesAt_append.1 hleft
    rw [length_wordBytes] at hlength
    have htype := htype.load_eq hm.type
    have hlength := hlength.load_eq (Nat.lt_of_le_of_lt (Nat.le_add_right _ 2) hm.short)
    have hlt : m.words.length + 2 < 2 ^ 32 := hm.short
    rw [m.length_bytes] at hrest
    rw [List.length_cons] at hfuel
    rw [findMap, htype, if_neg hm.other, hlength, Nat.mod_eq_of_lt hlt,
      ih (fun m' h' => hfront m' (List.mem_cons_of_mem _ h')) (by omega) hrest, List.flatMap_cons,
      List.length_append, m.length_bytes]
    congr 1
    omega

/-- **The usable entries are stored in their order**, and nothing behind them. -/
theorem bootInfo_entries (h : Loaded mem modulep front entries) (hfuel : front.length < fuel) :
    ∃ b, bootInfo mem fuel behind modulep physbase physfree = some b ∧
      b.pmbCount = (usable entries).length ∧ b.physbase = physbase ∧ b.physfree = physfree ∧
      ∀ i, b.pmbArray i = (((usable entries)[i]?).map SmapEntry.block).getD (behind i) := by
  have hbytes := h.bytes
  rw [mapModule, List.append_assoc] at hbytes
  have hfind := findMap_eq h.front hfuel hbytes
  obtain ⟨-, hmap⟩ := bytesAt_append.1 hbytes
  obtain ⟨-, hmap⟩ := bytesAt_append.1 hmap
  obtain ⟨hlength, hentries⟩ := bytesAt_append.1 hmap
  simp only [length_wordBytes] at hlength hentries
  have hlength := hlength.load_eq h.short
  have hsize : sizeofSmap = 20 := rfl
  have hloop := @smapLoop_eq mem _ (sizeofSmap * entries.length + 1) entries ⟨behind, 0⟩
    (modulep + (front.flatMap LoaderModule.bytes).length + sizeofSmap * entries.length + 8) hentries h.fits
    (by omega) (by rw [hsize]; omega)
  have hle : (usable entries).length ≤ entries.length := List.length_filter_le ..
  have hshort : 20 * entries.length < 2 ^ 32 := h.short
  obtain ⟨hcount, hblock⟩ := @foldl_push (usable entries) ⟨behind, 0⟩ (by simp only; omega)
  refine ⟨_, by rw [bootInfo, hfind]; rfl, ?_, rfl, rfl, fun i => ?_⟩
  all_goals
    simp only [hlength]
    rw [hloop]
  · rw [hcount, Nat.zero_add]
  · rw [hblock, if_neg (Nat.not_lt_zero _)]
    rfl

/-! ### Pages -/

/-- A page that is neither in the hole nor in the padding is in one of the two blocks. -/
theorem in_blocks_of_not_reserved {pfn x : ℕ} (htwo : b.TwoBlock)
    (hlow : (b.pmbArray 0).base ≤ normalPfnStart * pgSize) (hres : ¬ b.Reserved pfn)
    (hstart : normalPfnStart ≤ pfn) (hend : pfn < normalPfnEnd) (hx : x / pgSize = pfn) :
    ∃ i < 2, (b.pmbArray i).base ≤ x ∧ x < (b.pmbArray i).base + (b.pmbArray i).length := by
  simp only [BootInfo.Reserved, Touches, not_or] at hres
  obtain ⟨hhole, -, -, -, -, hpadding⟩ := hres
  rw [htwo.memEnd_eq] at hpadding
  have hphys : phymemSize = 134217728 := rfl
  have hlast : normalPfnEnd = 32766 := rfl
  simp only [pgSize, normalPfnStart] at hlow hstart hhole hpadding hx
  rcases Nat.lt_or_ge x ((b.pmbArray 0).base + (b.pmbArray 0).length) with hlt | hge
  · exact ⟨0, by decide, by omega, hlt⟩
  · refine ⟨1, by decide, ?_, ?_⟩
    · by_contra hbelow
      exact hhole ⟨by omega, by omega, by omega⟩
    · by_contra habove
      exact hpadding ⟨by omega, by omega, by omega⟩

/-- A block of the array is one of the usable entries. -/
theorem exists_entry {i : ℕ} (hi : i < (usable entries).length)
    (hblock : b.pmbArray i = (((usable entries)[i]?).map SmapEntry.block).getD (behind i)) :
    ∃ e ∈ entries, e.Usable ∧ b.pmbArray i = e.block := by
  rw [List.getElem?_eq_getElem hi, Option.map_some, Option.getD_some] at hblock
  have hmem : (usable entries)[i] ∈ usable entries := List.getElem_mem hi
  obtain ⟨hentry, husable⟩ := List.mem_filter.1 hmem
  exact ⟨_, hentry, of_decide_eq_true husable, hblock⟩

/-- **A page that is handed out is usable memory.**  `start` reads the memory map.  If what it stores is
the layout of two blocks, and the first of them reaches below the pages for use, then after any balanced
run of the allocator each byte of a page that `get_free_page` returns is in an entry for usable memory,
and the page is free and not in the kernel. -/
theorem pages_in_memory_map (h : Loaded mem modulep front entries) (hfuel : front.length < fuel)
    (hb : bootInfo mem fuel behind modulep physbase physfree = some b) (htwo : b.TwoBlock)
    (hlow : (b.pmbArray 0).base ≤ normalPfnStart * pgSize) {ops : List PageOp} {s : Ledger}
    (hal : Along Ledger.step (fun s op => s.Balanced op ∧ Ledger.Bounded b s op) (Ledger.boot b) ops)
    (hrun : run Ledger.step (Ledger.boot b) ops = .ok s) {pfn : ℕ} {pages : PageState}
    (hget : s.pages.getFreePage = .ok (pfn, pages)) :
    (∀ x, x / pgSize = pfn → ∃ e ∈ entries, e.Usable ∧ e.Holds x) ∧ s.held pfn = 0 ∧
      ¬ Touches pfn physbase physfree := by
  have hinv : Ledger.RefInv b s :=
    run_invariant (Ledger.refInv_boot b) (fun _ _ _ h hg hs => Ledger.refInv_step h hg hs) hal hrun
  obtain ⟨hstart, hend, hzero, -⟩ := findFree_spec (getFreePage_eq_ok hget).1
  obtain ⟨hfree, hheld⟩ := hinv.eq_zero hzero
  have hres : ¬ b.Reserved pfn := fun hres => by
    rw [pageArray_mmInit_of_reserved htwo hres] at hfree
    exact one_ne_zero hfree
  obtain ⟨b', hb', hcount, hbase, hpfree, hblock⟩ := @bootInfo_entries _ _ _ _ _ _ _ behind h hfuel
  obtain rfl := Option.some.inj (hb.symm.trans hb')
  have hlength : (usable entries).length = 2 := hcount.symm.trans htwo.count
  refine ⟨fun x hx => ?_, hheld, ?_⟩
  · obtain ⟨i, hi, hx⟩ := in_blocks_of_not_reserved htwo hlow hres hstart hend hx
    obtain ⟨e, he, hu, heq⟩ := exists_entry (by omega) (hblock i)
    rw [heq] at hx
    exact ⟨e, he, hu, hx⟩
  · intro htouch
    rw [← hbase, ← hpfree] at htouch
    exact hres (.inr (.inl htouch))

/-- The memory map of the picture above `setup_bitmap`, with the hole as a reserved entry. -/
def docEntries : List SmapEntry := [⟨0, 0x9fc00, 1⟩, ⟨0x9fc00, 0x60400, 2⟩, ⟨0x100000, 0x7efe000, 1⟩]

/-- A memory with the map at 0, behind one other module. -/
def docMemory (x : ℕ) : ℕ := ((LoaderModule.mk 1 [7]).bytes ++ mapModule docEntries).getD x 0

theorem loaded_docMemory : Loaded docMemory 0 [⟨1, [7]⟩] docEntries where
  bytes := by decide +kernel
  front := by
    intro m hm
    rw [List.mem_singleton.1 hm]
    exact ⟨by decide, by decide, by decide⟩
  fits := by
    intro e he
    simp only [docEntries, List.mem_cons, List.not_mem_nil, or_false] at he
    rcases he with rfl | rfl | rfl <;> exact ⟨by decide, by decide, by decide⟩
  short := by decide

/-- `start` finds the addresses of the picture. -/
theorem bootInfo_docMemory :
    bootInfo docMemory 2 (fun _ => ⟨0x100000, 0x7efe000⟩) 0 0x200000 0x23b000 =
      some (docLayout 0x23b000) := by
  obtain ⟨b, hb, hcount, hbase, hfree, hblock⟩ :=
    @bootInfo_entries _ 2 0 0x200000 0x23b000 _ _ (fun _ => ⟨0x100000, 0x7efe000⟩) loaded_docMemory
      (by decide)
  have hlayout : b = docLayout 0x23b000 := by
    obtain ⟨array, count, base, free⟩ := b
    simp only at hcount hbase hfree hblock
    have harray : array = (docLayout 0x23b000).pmbArray := by
      funext i
      rw [hblock]
      rcases i with - | - | i <;> rfl
    rw [harray, hcount, hbase, hfree]
    rfl
  rw [hb, hlayout]

theorem pages_in_memory_map_doc :
    ∃ pages, (Ledger.boot (docLayout 0x23b000)).pages.getFreePage = .ok (normalPfnStart, pages) ∧
      (∀ x, x / pgSize = normalPfnStart → ∃ e ∈ docEntries, e.Usable ∧ e.Holds x) ∧
      (Ledger.boot (docLayout 0x23b000)).held normalPfnStart = 0 ∧
      ¬ Touches normalPfnStart 0x200000 0x23b000 := by
  obtain ⟨pages, hget, -⟩ := getFreePage_start mmInit_docLayout_start
  have htwo : (docLayout 0x23b000).TwoBlock := docLayout_twoBlock (by decide) (by decide) (by decide)
  have hrun : run Ledger.step (Ledger.boot (docLayout 0x23b000)) [] =
      .ok (Ledger.boot (docLayout 0x23b000)) := rfl
  have hal : Along Ledger.step
      (fun s op => s.Balanced op ∧ Ledger.Bounded (docLayout 0x23b000) s op)
      (Ledger.boot (docLayout 0x23b000)) [] := trivial
  exact ⟨pages, hget,
    pages_in_memory_map loaded_docMemory (by decide) bootInfo_docMemory htwo (by decide) hal hrun hget⟩

end PlumOs
