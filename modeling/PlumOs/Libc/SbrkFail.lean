import PlumOs.Libc.Allocator
import PlumOs.Libc.Undo

/-!
# `malloc` when `sbrk` fails

The calls of `sbrk` that a process makes are numbered, and a predicate `fails` says which of them return
`NULL` with the break unchanged (`libc/sbrk.c`); the others do what `sbrk` does, which refuses bytes above
the limit by itself.  `extend_heap` compares the result with `NULL`, `minit` with `-1`.

* `SbrkHeap` : the heap with the number of `sbrk` calls made, and `SbrkHeap.allocator`, the allocator over it;
* `SbrkState.step_never` : without failures it is the allocator of `MallocState`;
* `SbrkHeap.mallocInit_spec` : the three outcomes of a call on an initialised heap;
* `SbrkState.survives_of_run` : in every run in which `minit` gets its 16 bytes, a call whose `sbrk` fails
  returns `NULL` and harms nothing, and the calls after it work again.
-/

namespace PlumOs

variable {h h' : Heap} {live : List (ℕ × ℕ)} {full : List Blk} {n words : ℕ}

/-- A heap with the number of `sbrk` calls made so far and of those that returned `NULL`. -/
structure SbrkHeap where
  /-- The heap. -/
  heap : Heap
  /-- How often `sbrk` was called. -/
  calls : ℕ
  /-- How often it has refused; only for stating results. -/
  nulls : ℕ

namespace SbrkHeap

section Model

variable (fails : ℕ → Bool) (e : SbrkHeap)

/-- A call of `sbrk` has returned `NULL`. -/
def refuse : SbrkHeap := { e with calls := e.calls + 1, nulls := e.nulls + 1 }

/-- A call of `sbrk` has given this answer. -/
def count : Except Crash (Option ℕ × Heap) → Except Crash (Option ℕ × SbrkHeap)
  | .error x => .error x
  | .ok (none, h) => .ok (none, ⟨h, e.calls + 1, e.nulls + 1⟩)
  | .ok (some p, h) => .ok (some p, ⟨h, e.calls + 1, e.nulls⟩)

/-- `sbrk(incr)`. -/
def sbrk (incr : ℕ) : Except Crash (Option ℕ × SbrkHeap) :=
  if fails e.calls then .ok (none, e.refuse) else e.count (e.heap.sbrk incr)

/-- The allocator over these calls of `sbrk`. -/
def allocator : Allocator SbrkHeap Crash where
  heap e := e.heap
  setHeap e h := { e with heap := h }
  sbrk e incr := e.sbrk fails incr
  crash x := x

end Model

variable {fails : ℕ → Bool} {e : SbrkHeap}

@[simp] theorem allocator_heap : (allocator fails).heap e = e.heap := rfl

@[simp] theorem allocator_sbrk (incr : ℕ) : (allocator fails).sbrk e incr = e.sbrk fails incr := rfl

theorem extendHeap_of_fails (hf : fails e.calls = true) :
    (allocator fails).extendHeap e words = .ok (none, e.refuse) := by
  rw [Allocator.extendHeap]
  simp only [allocator, sbrk, hf, if_true]
  rfl

/-- Where `sbrk` is not made to fail, `extend_heap` does what it does. -/
theorem extendHeap_of_not (hf : fails e.calls = false) :
    (allocator fails).extendHeap e words = e.count (e.heap.extendHeap words) := by
  rw [Allocator.extendHeap, Heap.extendHeap_def]
  simp only [allocator, sbrk, hf, Bool.false_eq_true, if_false]
  generalize (if words % 2 = 1 then (words + 1) * 4 else words * 4) % wordRange = size
  rcases e.heap.sbrk size with x | ⟨_ | bp, h⟩
  · rfl
  · rfl
  · rfl

/-! ### Without failures -/

/-- Where no call of `sbrk` is made to fail, each does what it does on the heap alone. -/
theorem faithful_never (hf : ∀ k, fails k = false) :
    (allocator fails).Faithful (fun _ => True) fun _ => False where
  heap_setHeap _ _ := rfl
  setHeap _ _ _ _ := trivial
  sbrk e incr _ := by
    show Allocator.Agrees _ _ _ (e.heap.sbrk incr) (e.sbrk fails incr)
    rw [sbrk, hf, if_neg Bool.false_ne_true]
    rcases e.heap.sbrk incr with x | ⟨_ | p, h⟩
    · exact .inr ⟨x, rfl, rfl⟩
    · exact ⟨rfl, trivial⟩
    · exact ⟨rfl, trivial⟩

/-- Without failures `malloc` is that of the heap alone. -/
theorem malloc_never (hf : ∀ k, fails k = false) :
    ((allocator fails).malloc e n).map (fun x => (x.1, x.2.heap)) = e.heap.malloc n := by
  have hagrees : Allocator.Agrees _ _ _ (e.heap.malloc n) ((allocator fails).malloc e n) :=
    (faithful_never hf).malloc trivial
  cases hok : (allocator fails).malloc e n with
  | error x =>
    rw [hok] at hagrees
    obtain ⟨c, hc, rfl⟩ := hagrees.resolve_left id
    exact hc.symm
  | ok x =>
    rw [hok] at hagrees
    exact hagrees.1.symm

/-! ### The calls -/

/-- `minit` when `sbrk` gives it its first 16 bytes. -/
theorem minit_of_room (hB : Blank e.heap) (hf : fails e.calls = false)
    (h16 : e.heap.curbrk + 16 ≤ maxAddr) :
    (allocator fails).minit e = match (allocator fails).extendHeap
        ⟨e.heap.prologued, e.calls + 1, e.nulls⟩ (chunkSize / 4) with
      | .error x => .error x
      | .ok (none, e) => .ok (false, e)
      | .ok (some _, e) => .ok (true, { e with heap := { e.heap with uninitialized := false } }) := by
  have hlim : maxAddr < wordRange := by decide
  have hlow := hB.low
  have hs := Heap.sbrk_spec (h := e.heap) (show 0 < 16 by decide) (by omega) (by omega)
  rw [if_neg (by omega)] at hs
  have hsbrk : e.sbrk fails 16 =
      .ok (some e.heap.curbrk, ⟨{ e.heap with curbrk := e.heap.curbrk + 16 }, e.calls + 1, e.nulls⟩) := by
    rw [sbrk, hf, if_neg Bool.false_ne_true, hs, count]
  rw [Allocator.minit, allocator_sbrk, hsbrk]
  generalize chunkSize / 4 = words
  show ((allocator fails).extendHeap ⟨e.heap.prologued, e.calls + 1, e.nulls⟩ words >>= _) = _
  rcases (allocator fails).extendHeap _ words with x | ⟨_ | bp, e'⟩
  · rfl
  · rfl
  · rfl

/-- `minit` when the first chunk is refused: it leaves an empty heap behind. -/
theorem minit_no_chunk (hB : Blank e.heap) (hf : fails e.calls = false)
    (h16 : e.heap.curbrk + 16 ≤ maxAddr)
    (hno : fails (e.calls + 1) = true ∨ maxAddr < e.heap.curbrk + 4112) :
    (allocator fails).minit e = .ok (false, ⟨e.heap.prologued, e.calls + 2, e.nulls + 1⟩) := by
  rw [minit_of_room hB hf h16]
  cases hc : fails (e.calls + 1) with
  | true => rw [extendHeap_of_fails hc, refuse]
  | false =>
    have hmax := hno.resolve_left (by rw [hc]; exact Bool.false_ne_true)
    rw [extendHeap_of_not hc, extendHeap_prologued_none hB h16 hmax, count]

/-- `minit` when it gets the first chunk. -/
theorem minit_chunk (hB : Blank e.heap) (hf : fails e.calls = false) (hc : fails (e.calls + 1) = false)
    (hmax : e.heap.curbrk + 4112 ≤ maxAddr) :
    ∃ h', (allocator fails).minit e = .ok (true, ⟨h', e.calls + 2, e.nulls⟩) ∧ h'.uninitialized = false ∧
      h'.curbrk = e.heap.curbrk + 4112 ∧ Ready h' [] [prologue, ⟨4096, false⟩] ∧
      ∀ x, x < e.heap.curbrk ∨ h'.curbrk ≤ x → h'.mem x = e.heap.mem x := by
  obtain ⟨bp, h', heq, hcur, hR, hmem⟩ := extendHeap_prologued hB hmax
  rw [minit_of_room hB hf (by omega), extendHeap_of_not hc, heq, count]
  exact ⟨_, rfl, rfl, hcur, hR, hmem⟩

/-- The extension that `malloc(n)` asks for is refused: `sbrk` fails, or does not have the bytes. -/
def ExtensionRefused (fails : ℕ → Bool) (calls n brk : ℕ) : Prop := fails calls = true ∨ Refused n brk

instance (fails : ℕ → Bool) (calls n brk : ℕ) : Decidable (ExtensionRefused fails calls n brk) :=
  inferInstanceAs (Decidable (_ ∨ _))

/-- **The outcomes of a call** on an initialised heap: nothing was asked for, the extension was refused, or
the request was placed. -/
theorem mallocInit_spec (hR : Ready e.heap live full)
    (hn : NoWrap n e.heap.curbrk ∨
      e.heap.findFit (asizeOf n) = .ok none ∧ ExtensionRefused fails e.calls n e.heap.curbrk) :
    (n = 0 ∧ (allocator fails).mallocInit e n = .ok (none, e)) ∨
      (allocator fails).mallocInit e n = .ok (none, e.refuse) ∨
      ∃ p e', (allocator fails).mallocInit e n = .ok (some p, e') ∧ e'.nulls = e.nulls ∧
        e'.heap.uninitialized = e.heap.uninitialized ∧ ∃ full', Ready e'.heap ((p, n) :: live) full' := by
  rw [Allocator.mallocInit]
  by_cases h0 : n = 0
  · exact .inl ⟨h0, by rw [if_pos h0]⟩
  refine .inr ?_
  rw [if_neg h0, allocator_heap]
  rcases hR.findFit (asizeOf n) with ⟨hnone, -⟩ | ⟨pre, b, post, rfl, -, hsome⟩
  · simp only [hnone]
    cases hf : fails e.calls with
    | true => exact .inl (by rw [extendHeap_of_fails hf]; rfl)
    | false =>
      rw [extendHeap_of_not hf]
      rcases hn with hw | ⟨-, href⟩
      · by_cases hmax : e.heap.curbrk + max (asizeOf n) chunkSize * 4 ≤ maxAddr
        · obtain ⟨bp, h', heq, hun, hR'⟩ := hR.place_extended hw.1 hmax
          rw [heq, count]
          exact .inr ⟨bp, _, rfl, rfl, hun, hR'⟩
        · rw [hR.extendHeap_none hw hmax, count]
          exact .inl rfl
      · have hmod := asizeOf_mod n
        have hc : chunkSize = 4096 := rfl
        have href := href.resolve_left (by rw [hf]; exact Bool.false_ne_true)
        rw [Heap.extendHeap_refused (by omega) href, count]
        exact .inl rfl
  · -- a request that wraps around finds no block
    have hw : NoWrap n e.heap.curbrk := hn.resolve_right fun h => by
      rw [hsome] at h
      cases h.1
    simp only [hsome]
    exact .inr ⟨_, _, rfl, rfl, hR.place_found hw.1 hsome⟩

end SbrkHeap

/-! ### Runs -/

/-- A process: its heap, and the allocations that were returned and not yet freed. -/
structure SbrkState where
  heap : SbrkHeap
  live : List (ℕ × ℕ)

namespace SbrkState

/-- The process without the numbers of `sbrk` calls. -/
def state (s : SbrkState) : MallocState := ⟨s.heap.heap, s.live⟩

/-- One call or store. -/
def step (fails : ℕ → Bool) (s : SbrkState) : MallocOp → Except Crash SbrkState
  | .malloc n =>
    match (SbrkHeap.allocator fails).malloc s.heap n with
    | .error x => .error x
    | .ok (r, e) => .ok ⟨e, addLive r n s.live⟩
  | .free p => .ok ⟨{ s.heap with heap := s.heap.heap.free p }, s.live.filter fun x => x.1 ≠ p⟩
  | .store x v => .ok ⟨{ s.heap with heap := s.heap.heap.put x v }, s.live⟩

/-- A process that has not called `malloc` yet. -/
def start (userHeap : ℕ) : SbrkState := ⟨⟨freshHeap userHeap, 0, 0⟩, []⟩

variable {fails : ℕ → Bool} {s : SbrkState} {op : MallocOp}

/-- Without failures a step is one of the allocator alone. -/
theorem step_never (hf : ∀ k, fails k = false) : (s.step fails op).map state = s.state.step op := by
  cases op with
  | malloc n =>
    simp only [step, MallocState.step, state]
    rw [← SbrkHeap.malloc_never hf]
    rcases (SbrkHeap.allocator fails).malloc s.heap n with x | ⟨r, e⟩
    · rfl
    · rfl
  | free p => rfl
  | store x v => rfl

/-- The requests that break nothing: `minit` gets its 16 bytes, and no sum wraps around, unless `sbrk`
refuses the bytes that were asked for. -/
def Survivable (fails : ℕ → Bool) (e : SbrkHeap) (n : ℕ) : Prop :=
  if e.heap.uninitialized then
    (fails e.calls = false ∧ e.heap.curbrk + 16 ≤ maxAddr) ∧
      ((fails (e.calls + 1) = true ∨ maxAddr < e.heap.curbrk + 4112) ∨
        NoWrap n (e.heap.curbrk + 4112) ∨ chunkSize < asizeOf n ∧
          SbrkHeap.ExtensionRefused fails (e.calls + 2) n (e.heap.curbrk + 4112))
  else NoWrap n e.heap.curbrk ∨ e.heap.findFit (asizeOf n) = .ok none ∧
    SbrkHeap.ExtensionRefused fails e.calls n e.heap.curbrk

instance (fails : ℕ → Bool) (e : SbrkHeap) (n : ℕ) : Decidable (Survivable fails e n) := by
  unfold Survivable
  infer_instance

/-- Only requests that break nothing. -/
def Fair (fails : ℕ → Bool) (s : SbrkState) (op : MallocOp) : Prop :=
  s.state.Legal op ∧ ∀ n, op = .malloc n → Survivable fails s.heap n

instance (fails : ℕ → Bool) (s : SbrkState) (op : MallocOp) : Decidable (s.Fair fails op) :=
  inferInstanceAs (Decidable (_ ∧ _))

/-- A call has not harmed the heap: it changed no word outside, no word of a live allocation, and not the
blocks, and what it leaves is in order.  A heap that is not initialised has no blocks yet. -/
structure Unharmed (h h' : Heap) (live : List (ℕ × ℕ)) : Prop where
  /-- Nothing is stored outside the heap. -/
  outside : ∀ x, x < h.userHeap ∨ h'.curbrk ≤ x → h'.mem x = h.mem x
  /-- What was handed out stays. -/
  kept : ∀ y ∈ live, ∀ x, InBlock h y.1 x → h'.mem x = h.mem x
  /-- The blocks stay well formed. -/
  blocks : h.uninitialized = false → ∀ bs, WellFormed h bs → WellFormed h' bs
  /-- What was handed out is still inside blocks of its own. -/
  inOrder : ∃ bs, HeapOk h' live bs

/-- What a call of `malloc(n)` may answer: `NULL` and no harm done when an `sbrk` call has failed in it, a
payload of `n` bytes in a heap in order when none has. -/
structure Answers (s : SbrkState) (n : ℕ) (r : Option ℕ) (e : SbrkHeap) : Prop where
  refused : s.heap.nulls < e.nulls → r = none ∧ Unharmed s.heap.heap e.heap s.live
  served : e.nulls = s.heap.nulls → 0 < n →
    ∃ p bs, r = some p ∧ p % 8 = 0 ∧ HeapOk e.heap ((p, n) :: s.live) bs

/-- The call of `malloc(n)` comes back with such an answer. -/
def Survives (fails : ℕ → Bool) (s : SbrkState) (n : ℕ) : Prop :=
  ∃ r e, (SbrkHeap.allocator fails).malloc s.heap n = .ok (r, e) ∧ Answers s n r e

theorem unharmed_refl {s : SbrkState} (hR : Ready s.heap.heap s.live full) :
    Unharmed s.heap.heap s.heap.heap s.live :=
  ⟨fun _ _ => rfl, fun _ _ _ _ => rfl, fun _ _ hw => hw, by
    obtain ⟨bs, -, hok⟩ := hR.heapOk
    exact ⟨bs, hok⟩⟩

theorem answers_placed {s : SbrkState} {e : SbrkHeap} {p : ℕ} (hnulls : e.nulls = s.heap.nulls)
    (hR : Ready e.heap ((p, n) :: s.live) full) : Answers s n (some p) e := by
  obtain ⟨bs, -, hok⟩ := hR.heapOk
  refine ⟨fun hlt => ?_, fun _ _ => ⟨p, bs, rfl, (hR.answer List.mem_cons_self).1, hok⟩⟩
  rw [hnulls] at hlt
  exact absurd hlt (Nat.lt_irrefl _)

theorem answers_refused {s : SbrkState} {e : SbrkHeap} (hnulls : e.nulls = s.heap.nulls + 1)
    (hh : Unharmed s.heap.heap e.heap s.live) : Answers s n none e :=
  ⟨fun _ => ⟨rfl, hh⟩, fun heq => absurd (hnulls.symm.trans heq) (Nat.succ_ne_self _)⟩

theorem answers_zero {s : SbrkState} {e : SbrkHeap} (hnulls : e.nulls = s.heap.nulls) (h0 : n = 0) :
    Answers s n none e := by
  refine ⟨fun hlt => ?_, fun _ hpos => absurd h0 (Nat.ne_of_gt hpos)⟩
  rw [hnulls] at hlt
  exact absurd hlt (Nat.lt_irrefl _)

/-- A call on an initialised heap. -/
theorem survives_of_ready (hun : s.heap.heap.uninitialized = false)
    (hR : Ready s.heap.heap s.live full) (hn : Survivable fails s.heap n) :
    ∃ r e, (SbrkHeap.allocator fails).malloc s.heap n = .ok (r, e) ∧ (state ⟨e, addLive r n s.live⟩).Inv ∧
      Answers s n r e := by
  rw [Survivable, hun, if_neg Bool.false_ne_true] at hn
  rw [Allocator.malloc, SbrkHeap.allocator_heap, if_neg (by rw [hun]; exact Bool.false_ne_true)]
  rcases SbrkHeap.mallocInit_spec hR hn with ⟨h0, heq⟩ | heq | ⟨p, e, heq, hnulls, hun', full', hR'⟩
  · exact ⟨none, _, heq, .inl ⟨hun, full, hR⟩, answers_zero rfl h0⟩
  · exact ⟨none, _, heq, .inl ⟨hun, full, hR⟩, answers_refused rfl (unharmed_refl hR)⟩
  · exact ⟨some p, e, heq, .inl ⟨hun'.trans hun, full', hR'⟩, answers_placed hnulls hR'⟩

/-- A call on a heap that is not initialised. -/
theorem survives_of_blank (hB : Blank s.heap.heap) (hl : s.live = []) (hn : Survivable fails s.heap n) :
    ∃ r e, (SbrkHeap.allocator fails).malloc s.heap n = .ok (r, e) ∧ (state ⟨e, addLive r n s.live⟩).Inv ∧
      Answers s n r e := by
  have hun := hB.uninit
  have hlow := hB.low
  rw [Survivable, hun, if_pos rfl] at hn
  obtain ⟨⟨hf, h16⟩, hn⟩ := hn
  -- what the call stores lies between the old break and the new one
  have hharm : ∀ h' : Heap, (∀ x, x < s.heap.heap.curbrk ∨ h'.curbrk ≤ x → h'.mem x = s.heap.heap.mem x) →
      (∃ bs, HeapOk h' [] bs) → Unharmed s.heap.heap h' s.live := by
    intro h' hmem hok
    rw [hl]
    refine ⟨fun x hx => hmem x (by omega), fun _ hy => absurd hy List.not_mem_nil, fun hinit => ?_, hok⟩
    rw [hun] at hinit
    cases hinit
  rw [Allocator.malloc, SbrkHeap.allocator_heap, if_pos hun]
  by_cases hno : fails (s.heap.calls + 1) = true ∨ maxAddr < s.heap.heap.curbrk + 4112
  · rw [SbrkHeap.minit_no_chunk hB hf h16 hno]
    refine ⟨none, _, rfl, .inr ⟨blank_prologued hB h16, hl⟩, answers_refused rfl (hharm _ ?_ ?_)⟩
    · exact fun x hx => Heap.prologued_mem hx
    · exact ⟨[], heapOk_prologued hB h16⟩
  · rw [not_or, Bool.not_eq_true, Nat.not_lt] at hno
    obtain ⟨hc, hmax⟩ := hno
    have hn := hn.resolve_left fun h => h.elim (by rw [hc]; exact Bool.false_ne_true)
      (Nat.not_lt.2 hmax)
    obtain ⟨h', heq, hun', hcur, hR, hmem⟩ := SbrkHeap.minit_chunk hB hf hc hmax
    rw [← hcur, ← hR.findFit_chunk] at hn
    rw [heq]
    simp only
    have hR₀ : Ready h' s.live [prologue, ⟨4096, false⟩] := by rw [hl]; exact hR
    obtain ⟨bs, -, hok⟩ := hR.heapOk
    have hcases := @SbrkHeap.mallocInit_spec _ _ n fails ⟨h', s.heap.calls + 2, s.heap.nulls⟩ hR₀ hn
    rcases hcases with ⟨h0, heq'⟩ | heq' | ⟨p, e, heq', hnulls, hun'', full', hR'⟩
    · exact ⟨none, _, heq', .inl ⟨hun', _, hR₀⟩, answers_zero rfl h0⟩
    · exact ⟨none, _, heq', .inl ⟨hun', _, hR₀⟩, answers_refused rfl (hharm h' hmem ⟨bs, hok⟩)⟩
    · exact ⟨some p, e, heq', .inl ⟨hun''.trans hun', full', hR'⟩, answers_placed hnulls hR'⟩

/-- **A survivable call** comes back with a good answer and leaves the heap in order. -/
theorem survives (hI : s.state.Inv) (hn : Survivable fails s.heap n) :
    ∃ r e, (SbrkHeap.allocator fails).malloc s.heap n = .ok (r, e) ∧
      (state ⟨e, addLive r n s.live⟩).Inv ∧ Answers s n r e := by
  rcases hI with ⟨hun, full, hR⟩ | ⟨hB, hl⟩
  · exact survives_of_ready hun hR hn
  · exact survives_of_blank hB hl hn

/-- A step that breaks nothing goes through and keeps the invariant. -/
theorem inv_step (hI : s.state.Inv) (hop : s.Fair fails op) :
    ∃ t, s.step fails op = .ok t ∧ t.state.Inv := by
  cases op with
  | malloc n =>
    obtain ⟨r, e, heq, hI', -⟩ := survives hI (hop.2 n rfl)
    exact ⟨⟨e, addLive r n s.live⟩, by rw [step, heq], hI'⟩
  | free p =>
    obtain ⟨t, ht, hset⟩ := hI.step (⟨hop.1, fun n hn => by cases hn⟩ : s.state.Fair (.free p))
    cases ht
    exact ⟨_, rfl, hset.inv⟩
  | store x v =>
    obtain ⟨t, ht, hset⟩ := hI.step (⟨hop.1, fun n hn => by cases hn⟩ : s.state.Fair (.store x v))
    cases ht
    exact ⟨_, rfl, hset.inv⟩

/-- **`malloc` survives failing `sbrk` calls.**  Whatever calls of `sbrk` fail: after every run whose
requests are survivable, a survivable request comes back, with `NULL` and no harm done if an `sbrk` call
has failed in it, and with a payload if none has. -/
theorem survives_of_run {u : ℕ} {ops : List MallocOp} (hu : u % 4096 = 0) (hr : u < wordRange)
    (hfair : Along (step fails) (Fair fails) (start u) ops)
    (hrun : run (step fails) (start u) ops = .ok s) (hn : Survivable fails s.heap n) :
    Survives fails s n := by
  have hI : s.state.Inv := run_invariant (I := fun s => s.state.Inv)
    (MallocState.inv_start hu hr) (fun s op t hI hop heq => by
      obtain ⟨t', ht', hI'⟩ := inv_step hI hop
      rw [heq, Except.ok.injEq] at ht'
      rw [ht']; exact hI') hfair hrun
  obtain ⟨r, e, heq, -, hans⟩ := survives hI hn
  exact ⟨r, e, heq, hans⟩

/-- The call of `sbrk` for the first chunk fails, and the next `malloc` works. -/
theorem survives_of_run_retry : ∃ s, run (step fun k => k == 1) (start 0x602000) [.malloc 8] = .ok s ∧
    Survives (fun k => k == 1) s 24 := by
  obtain ⟨s, hrun, htest⟩ := exists_of_reaches (show reaches
    (run (step fun k => k == 1) (start 0x602000) [.malloc 8])
    (fun s => decide (Survivable (fun k => k == 1) s.heap 24)) = true by decide +kernel)
  have hfair : Along (step fun k => k == 1) (Fair fun k => k == 1) (start 0x602000) [.malloc 8] :=
    along_of_decide (by decide +kernel)
  exact ⟨s, hrun, survives_of_run (by decide) (by decide) hfair hrun (of_decide_eq_true htest)⟩

/-- The very first call of `sbrk` fails, and `minit` stores through the null pointer. -/
theorem survives_fails : ¬ ∀ (fails : ℕ → Bool) (u : ℕ) (ops : List MallocOp) (s : SbrkState) (n : ℕ),
    u % 4096 = 0 → u < wordRange → Along (step fails) (fun s op => s.state.Legal op) (start u) ops →
    run (step fails) (start u) ops = .ok s → n < wordRange → Survives fails s n := by
  intro hall
  obtain ⟨r, e, heq, -⟩ := hall (fun k => k == 0) 0x602000 [] _ 8 (by decide) (by decide) trivial rfl
    (by decide)
  cases heq

end SbrkState

end PlumOs
