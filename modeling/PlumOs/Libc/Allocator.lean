import PlumOs.Libc.Malloc

/-!
# The allocator in a system

The functions of `libc/malloc.c` reach the rest of a system through `sbrk` alone.  Where `sbrk` answers as
that of the heap alone does, or ends the call for a reason of its own, so does each of them.

* `Allocator.Agrees` : the outcome of a function is that of the heap alone;
* `Allocator.Faithful` : what is asked of a system and of its `sbrk`;
* `Allocator.Faithful.malloc` : **`malloc` does in the system what it does alone**.
-/

namespace PlumOs

/-- Neither end of the heap moved. -/
def SameEnds (h h' : Heap) : Prop := h'.userHeap = h.userHeap ∧ h'.curbrk = h.curbrk

namespace Heap

theorem sameEnds_coalesce (h : Heap) (bp : ℕ) : SameEnds h (h.coalesce bp).2 := by
  simp only [Heap.coalesce]
  split_ifs <;> exact ⟨rfl, rfl⟩

theorem sameEnds_addBlock (h : Heap) (bp size : ℕ) : SameEnds h (h.addBlock bp size).2 :=
  sameEnds_coalesce _ bp

theorem sameEnds_addPrologue (h : Heap) (p : ℕ) : SameEnds h (h.addPrologue p) := by
  unfold Heap.addPrologue
  exact ⟨rfl, rfl⟩

theorem sameEnds_free (h : Heap) (p : ℕ) : SameEnds h (h.free p) := sameEnds_coalesce _ p

theorem sameEnds_place (h : Heap) (bp rsize : ℕ) : SameEnds h (h.place bp rsize) := by
  simp only [Heap.place]
  split_ifs <;> exact ⟨rfl, rfl⟩

end Heap

namespace Allocator

variable {σ ε α β : Type} {w : Allocator σ ε} {I : σ → Prop} {stop : ε → Prop}

/-- The outcome of a function is that of the heap alone: the same answer with the same heap, in a state that
keeps the invariant, or the same crash.  `stop` says which errors are the system's own. -/
def Agrees (w : Allocator σ ε) (I : σ → Prop) (stop : ε → Prop) (own : Except Crash (α × Heap)) :
    Except ε (α × σ) → Prop
  | .ok x => own = .ok (x.1, w.heap x.2) ∧ I x.2
  | .error e => stop e ∨ ∃ c, own = .error c ∧ e = w.crash c

/-- A system whose `sbrk` is that of the heap alone, as long as it keeps an invariant. -/
structure Faithful (w : Allocator σ ε) (I : σ → Prop) (stop : ε → Prop) : Prop where
  /-- The heap that was stored is there. -/
  heap_setHeap : ∀ s h, w.heap (w.setHeap s h) = h
  /-- Only the ends of the heap matter to the system. -/
  setHeap : ∀ s h, I s → SameEnds (w.heap s) h → I (w.setHeap s h)
  /-- The answers of `sbrk`. -/
  sbrk : ∀ s n, I s → w.Agrees I stop ((w.heap s).sbrk n) (w.sbrk s n)

/-- Outcomes that agree go on to outcomes that agree. -/
theorem Agrees.bind {own : Except Crash (α × Heap)} {r : Except ε (α × σ)}
    {f : α × Heap → Except Crash (β × Heap)} {g : α × σ → Except ε (β × σ)}
    (h : w.Agrees I stop own r) (hfg : ∀ a s, I s → w.Agrees I stop (f (a, w.heap s)) (g (a, s))) :
    w.Agrees I stop (own >>= f) (r >>= g) := by
  cases r with
  | error e =>
    rcases h with hstop | ⟨c, rfl, rfl⟩
    · exact .inl hstop
    · exact .inr ⟨c, rfl, rfl⟩
  | ok x =>
    obtain ⟨a, s⟩ := x
    obtain ⟨rfl, hs⟩ := h
    exact hfg a s hs

namespace Faithful

variable {s : σ} {n words : ℕ}

/-- A function ends with a heap that has the ends of the one before. -/
theorem agrees_setHeap (hw : w.Faithful I stop) (hs : I s) {h : Heap} (a : α)
    (hends : SameEnds (w.heap s) h) :
    w.Agrees I stop (.ok (a, h)) (.ok (a, w.setHeap s h)) := by
  refine ⟨?_, hw.setHeap s h hs hends⟩
  rw [hw.heap_setHeap]

theorem extendHeap (hw : w.Faithful I stop) (hs : I s) :
    w.Agrees I stop ((w.heap s).extendHeap words) (w.extendHeap s words) := by
  rw [Heap.extendHeap, Allocator.extendHeap, Allocator.extendHeap]
  generalize (if words % 2 = 1 then (words + 1) * 4 else words * 4) % wordRange = size
  refine (hw.sbrk s size hs).bind fun bp s hs => ?_
  cases bp with
  | none => exact ⟨rfl, hs⟩
  | some bp => exact hw.agrees_setHeap hs _ ((w.heap s).sameEnds_addBlock bp size)

theorem minit (hw : w.Faithful I stop) (hs : I s) :
    w.Agrees I stop (w.heap s).minit (w.minit s) := by
  rw [Heap.minit, Allocator.minit, Allocator.minit]
  generalize chunkSize / 4 = words
  refine (hw.sbrk s 16 hs).bind fun p s hs => ?_
  cases p with
  | none => exact .inr ⟨.segfault, rfl, rfl⟩
  | some p =>
    have hends := (w.heap s).sameEnds_addPrologue p
    have hext : w.Agrees I stop (Heap.extendHeap _ words) _ := hw.extendHeap (hw.setHeap s _ hs hends)
    rw [hw.heap_setHeap] at hext
    refine hext.bind fun bp s hs => ?_
    cases bp with
    | none => exact ⟨rfl, hs⟩
    | some bp =>
      have hends : SameEnds (w.heap s) { w.heap s with uninitialized := false } := ⟨rfl, rfl⟩
      exact hw.agrees_setHeap hs true hends

theorem mallocInit (hw : w.Faithful I stop) (hs : I s) :
    w.Agrees I stop ((w.heap s).mallocInit n) (w.mallocInit s n) := by
  rw [Heap.mallocInit, Allocator.mallocInit, Allocator.mallocInit]
  generalize asizeOf n = asize
  by_cases h0 : n = 0
  · rw [if_pos h0, if_pos h0]
    exact ⟨rfl, hs⟩
  rw [if_neg h0, if_neg h0]
  simp only [Heap.alone_heap]
  rcases (w.heap s).findFit asize with e | _ | bp
  · exact .inr ⟨e, rfl, rfl⟩
  · refine (hw.extendHeap hs).bind fun bp s hs => ?_
    cases bp with
    | none => exact ⟨rfl, hs⟩
    | some bp => exact hw.agrees_setHeap hs _ ((w.heap s).sameEnds_place bp asize)
  · exact hw.agrees_setHeap hs _ ((w.heap s).sameEnds_place bp asize)

/-- **`malloc` in a system** does what it does with the heap alone. -/
theorem malloc (hw : w.Faithful I stop) (hs : I s) :
    w.Agrees I stop ((w.heap s).malloc n) (w.malloc s n) := by
  rw [Heap.malloc, Allocator.malloc, Allocator.malloc]
  by_cases hun : (w.heap s).uninitialized = true
  · have hun' : (Heap.alone.heap (w.heap s)).uninitialized = true := hun
    rw [if_pos hun', if_pos hun]
    refine (hw.minit hs).bind fun ready s hs => ?_
    cases ready with
    | false => exact ⟨rfl, hs⟩
    | true => exact hw.mallocInit hs
  · have hun' : ¬ (Heap.alone.heap (w.heap s)).uninitialized = true := hun
    rw [if_neg hun', if_neg hun]
    exact hw.mallocInit hs

end Faithful

end Allocator

end PlumOs
