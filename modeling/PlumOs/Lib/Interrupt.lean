import PlumOs.Lib.X86

/-!
# Interrupts and the words they leave on the stack

What the processor does to take an interrupt and to come back from it, over the registers and the memory
of `Lib.X86`.

* `RegFile` : a processor without the memory;
* `Grown` : a stack with some words more, and the rest as it was;
* `Machine` : a processor with its segments, `Machine.deliver` and `Machine.iretq`;
* `Machine.deliver_grown` : the words that an interrupt leaves on the stack;
* `Machine.resumes` : **a handler that finds its frame as it left it** brings back the processor.
-/

namespace PlumOs

namespace X86

/-- A processor without the memory. -/
structure RegFile where
  regs : Reg → ℕ
  rflags : ℕ
  rip : ℕ

/-- The processor of a state. -/
def State.cpu (s : State) : RegFile := ⟨s.regs, s.rflags, s.rip⟩

/-- The registers are words. -/
structure State.Fits (s : State) : Prop where
  regs : ∀ r, s.regs r < 2 ^ 64
  rflags : s.rflags < 2 ^ 64
  rip : s.rip < 2 ^ 64

theorem setIf_lt {rflags : ℕ} (h : rflags < 2 ^ 64) (on : Bool) : setIf rflags on < 2 ^ 64 := by
  unfold setIf
  cases on <;> simp only [Bool.toNat_true, Bool.toNat_false] <;> omega

theorem setIf_setIf (rflags : ℕ) (on on' : Bool) : setIf (setIf rflags on) on' = setIf rflags on' := by
  unfold setIf
  cases on <;> cases on' <;> simp only [Bool.toNat_true, Bool.toNat_false] <;> omega

/-! ### Words on the stack -/

/-- A stack with some words more, the last one pushed in front. -/
structure Grown (s s' : State) (ws : List ℕ) : Prop where
  rsp : s'.regs .rsp + 8 * ws.length = s.regs .rsp
  regs : ∀ q, q ≠ .rsp → s'.regs q = s.regs q
  words : WordsAt s'.mem (s'.regs .rsp) ws
  mem : ∀ x, x < s'.regs .rsp ∨ s.regs .rsp ≤ x → s'.mem x = s.mem x

section Grown

variable {s s' s'' : State} {ws vs : List ℕ} {rs : List Reg} {w : ℕ}

theorem Grown.refl (s : State) : Grown s s [] := ⟨rfl, fun _ _ => rfl, trivial, fun _ _ => rfl⟩

theorem grown_push (hw : w < 2 ^ 64) (hlo : 8 ≤ s.regs .rsp) (hhi : s.regs .rsp < 2 ^ 64) :
    Grown s (s.push w) [w] := by
  have hrsp : (s.push w).regs .rsp = s.regs .rsp - 8 := State.push_rsp hlo hhi
  refine ⟨?_, fun q hq => State.push_of_ne hq, ⟨?_, trivial⟩, fun x hx => ?_⟩
  · rw [hrsp, List.length_singleton]
    omega
  · rw [hrsp, State.push_mem hlo hhi]
    exact readWord_writeWord hw
  · rw [hrsp] at hx
    rw [State.push_mem hlo hhi, writeWord_of_out (by omega)]

/-- **Words in front of words.** -/
theorem Grown.trans (h : Grown s s' ws) (h' : Grown s' s'' vs) : Grown s s'' (vs ++ ws) := by
  have hrsp := h.rsp
  have hrsp' := h'.rsp
  refine ⟨?_, fun q hq => (h'.regs q hq).trans (h.regs q hq), ?_, fun x hx => ?_⟩
  · rw [List.length_append]
    omega
  · rw [wordsAt_append, hrsp']
    exact ⟨h'.words, h.words.congr fun x hlo _ => h'.mem x (.inr hlo)⟩
  · rw [h'.mem x (by omega), h.mem x (by omega)]

theorem Grown.push (h : Grown s s' ws) (hw : w < 2 ^ 64) (hlo : 8 ≤ s'.regs .rsp)
    (hhi : s'.regs .rsp < 2 ^ 64) : Grown s (s'.push w) (w :: ws) := h.trans (grown_push hw hlo hhi)

theorem grown_foldl_push (hws : ∀ w ∈ ws, w < 2 ^ 64) (hlo : 8 * ws.length ≤ s.regs .rsp)
    (hhi : s.regs .rsp < 2 ^ 64) : Grown s (ws.foldl State.push s) ws.reverse := by
  induction ws generalizing s with
  | nil => exact Grown.refl s
  | cons w ws ih =>
    obtain ⟨hw, hws⟩ := List.forall_mem_cons.1 hws
    rw [List.length_cons] at hlo
    have hhead : Grown s (s.push w) [w] := grown_push hw (by omega) hhi
    have hrsp := hhead.rsp
    rw [List.length_singleton] at hrsp
    rw [List.foldl_cons, List.reverse_cons]
    exact hhead.trans (ih hws (by omega) (by omega))

theorem foldl_push_of_ne (s : State) (ws : List ℕ) {q : Reg} (hq : q ≠ .rsp) :
    (ws.foldl State.push s).regs q = s.regs q := by
  induction ws generalizing s with
  | nil => rfl
  | cons w ws ih => exact (ih (s.push w)).trans (State.push_of_ne hq)

theorem foldl_push_rflags (s : State) (ws : List ℕ) : (ws.foldl State.push s).rflags = s.rflags := by
  induction ws generalizing s with
  | nil => rfl
  | cons w ws ih => exact ih (s.push w)

theorem foldl_push_rip (s : State) (ws : List ℕ) : (ws.foldl State.push s).rip = s.rip := by
  induction ws generalizing s with
  | nil => rfl
  | cons w ws ih => exact ih (s.push w)

/-- Registers are pushed as words. -/
theorem runBlock_pushes_eq (s : State) (hrsp : .rsp ∉ rs) :
    runBlock s (rs.map .push) = (rs.map s.regs).foldl State.push s := by
  induction rs generalizing s with
  | nil => rfl
  | cons r rs ih =>
    rw [List.mem_cons, not_or] at hrsp
    have hsame : rs.map (s.push (s.regs r)).regs = rs.map s.regs :=
      List.map_congr_left fun q hq => State.push_of_ne fun heq => hrsp.2 (heq ▸ hq)
    rw [List.map_cons, runBlock_cons, List.map_cons, List.foldl_cons, ← hsame]
    exact ih (s.push (s.regs r)) hrsp.2

theorem Grown.pushes (h : Grown s s' ws) (rs : List Reg) (hlt : ∀ r ∈ rs, s.regs r < 2 ^ 64) (hrsp : .rsp ∉ rs)
    (hlo : 8 * rs.length ≤ s'.regs .rsp) (hhi : s'.regs .rsp < 2 ^ 64) :
    Grown s (runBlock s' (rs.map .push)) (rs.reverse.map s.regs ++ ws) := by
  have hsame : rs.map s'.regs = rs.map s.regs :=
    List.map_congr_left fun q hq => h.regs q fun heq => hrsp (heq ▸ hq)
  rw [runBlock_pushes_eq s' hrsp, hsame, List.map_reverse]
  refine h.trans (grown_foldl_push (fun w hw => ?_) (by rw [List.length_map]; exact hlo) hhi)
  obtain ⟨r, hr, rfl⟩ := List.mem_map.1 hw
  exact hlt r hr

/-- Other changes of the registers than that of the stack pointer. -/
theorem Grown.congr (h : Grown s s' ws) (hregs : s''.regs .rsp = s'.regs .rsp) (hmem : s''.mem = s'.mem)
    (hother : ∀ q, q ≠ .rsp → s''.regs q = s'.regs q) : Grown s s'' ws := by
  refine ⟨hregs ▸ h.rsp, fun q hq => (hother q hq).trans (h.regs q hq), ?_, fun x hx => ?_⟩
  · rw [hregs, hmem]
    exact h.words
  · rw [hregs] at hx
    rw [hmem]
    exact h.mem x hx

theorem runBlock_pops_rflags (s : State) (rs : List Reg) : (runBlock s (rs.map .pop)).rflags = s.rflags := by
  induction rs generalizing s with
  | nil => rfl
  | cons r rs ih => exact ih (exec s (.pop r))

end Grown

/-! ### Interrupts -/

/-- A processor with its segments and its memory. -/
structure Machine extends State where
  cs : ℕ
  ss : ℕ

namespace Machine

/-- The stack that an interrupt is taken on: that of the interrupted code, unless it is code of a user. -/
def base (m : Machine) (rsp0 : ℕ) : ℕ := (if m.cs % 4 = 0 then m.regs .rsp else rsp0) / 16 * 16

/-- The five words that an interrupt leaves. -/
def words (m : Machine) : List ℕ := [m.rip, m.cs, m.rflags, m.regs .rsp, m.ss]

/-- The words of an interrupt, and the error code of an exception in front of them. -/
def stacked (m : Machine) (rsp0 : ℕ) (error : Option ℕ) : State :=
  error.toList.foldl State.push (m.words.reverse.foldl State.push (m.toState.setReg .rsp (m.base rsp0)))

/-- **An interrupt is taken.**  An exception comes with an error code; a gate of an interrupt clears the
interrupt flag, a gate of a trap does not. -/
def deliver (m : Machine) (rsp0 selector handler : ℕ) (trap : Bool) (error : Option ℕ) : Machine :=
  { regs := (m.stacked rsp0 error).regs
    rflags := if trap then m.rflags else setIf m.rflags false
    rip := handler
    mem := (m.stacked rsp0 error).mem
    cs := selector
    ss := if m.cs % 4 = 0 then m.ss else 0 }

/-- `iretq`, without its checks. -/
def iretq (m : Machine) : Machine :=
  { regs := Function.update m.regs .rsp (readWord m.mem (above (m.regs .rsp) 24))
    rflags := readWord m.mem (above (m.regs .rsp) 16)
    rip := m.top
    mem := m.mem
    cs := readWord m.mem (above (m.regs .rsp) 8)
    ss := readWord m.mem (above (m.regs .rsp) 32) }

section Deliver

variable {m m' : Machine} {s s' : State} {rsp0 selector handler k : ℕ} {trap : Bool} {error : Option ℕ}
  {ws : List ℕ} {rs : List Reg}

/-- The registers and the segments are words. -/
structure Fits (m : Machine) : Prop extends State.Fits m.toState where
  cs : m.cs < 2 ^ 64
  ss : m.ss < 2 ^ 64

theorem Fits.words (h : m.Fits) : ∀ w ∈ m.words, w < 2 ^ 64 := by
  intro w hw
  simp only [Machine.words, List.mem_cons, List.not_mem_nil, or_false] at hw
  rcases hw with rfl | rfl | rfl | rfl | rfl
  · exact h.rip
  · exact h.cs
  · exact h.rflags
  · exact h.regs .rsp
  · exact h.ss

theorem stacked_grown (h : m.Fits) (herror : ∀ e ∈ error, e < 2 ^ 64) (hlo : 48 ≤ m.base rsp0)
    (hhi : m.base rsp0 < 2 ^ 64) :
    Grown (m.toState.setReg .rsp (m.base rsp0)) (m.stacked rsp0 error) (error.toList ++ m.words) := by
  have hrsp : (m.toState.setReg .rsp (m.base rsp0)).regs .rsp = m.base rsp0 := State.setReg_self
  have hlen : m.words.reverse.length = 5 := rfl
  have hfive := grown_foldl_push (s := m.toState.setReg .rsp (m.base rsp0))
    (fun w hw => h.words w (List.mem_reverse.1 hw)) (by rw [hlen, hrsp]; omega) (by rw [hrsp]; exact hhi)
  rw [List.reverse_reverse] at hfive
  have hend := hfive.rsp
  rw [hrsp, ← List.length_reverse, hlen] at hend
  obtain ⟨s, hs⟩ : ∃ s, s = m.words.reverse.foldl State.push (m.toState.setReg .rsp (m.base rsp0)) := ⟨_, rfl⟩
  rw [stacked, ← hs]
  rw [← hs] at hfive hend
  cases error with
  | none => exact hfive
  | some e => exact hfive.push (herror e rfl) (by omega) (by omega)

/-- **The words that an interrupt leaves on the stack.** -/
theorem deliver_grown (h : m.Fits) (herror : ∀ e ∈ error, e < 2 ^ 64) (hlo : 48 ≤ m.base rsp0)
    (hhi : m.base rsp0 < 2 ^ 64) (selector handler : ℕ) (trap : Bool) :
    Grown (m.toState.setReg .rsp (m.base rsp0)) (m.deliver rsp0 selector handler trap error).toState
      (error.toList ++ m.words) :=
  (stacked_grown h herror hlo hhi).congr rfl rfl fun _ _ => rfl

/-- What `iretq` finds. -/
theorem iretq_eq (hwords : WordsAt m'.mem (m'.regs .rsp) m.words) (hhi : m'.regs .rsp + 40 ≤ 2 ^ 64)
    (hregs : ∀ q, q ≠ .rsp → m'.regs q = m.regs q) : m'.iretq = { m with mem := m'.mem } := by
  obtain ⟨hrip, hcs, hrflags, hrsp, hss, -⟩ := hwords
  have hsame : Function.update m'.regs .rsp (m.regs .rsp) = m.regs := by
    funext q
    by_cases hq : q = .rsp
    · rw [hq, Function.update_self]
    · rw [Function.update_of_ne hq, hregs q hq]
  have hoff : ∀ off ≤ 32, above (m'.regs .rsp) off = m'.regs .rsp + off := fun off hoff => above_eq (by omega)
  rw [iretq, hoff 8 (by decide), hoff 16 (by decide), hoff 24 (by decide), hoff 32 (by decide)]
  rw [Nat.add_assoc] at hrflags
  rw [Nat.add_assoc, Nat.add_assoc] at hrsp
  rw [Nat.add_assoc, Nat.add_assoc, Nat.add_assoc] at hss
  rw [hrsp, hsame, State.top, hrip, hcs, hrflags, hss]

/-- **Back from an interrupt.**  All registers but the stack pointer are popped from a frame as it was
pushed, the error code is dropped, and `iretq` brings back the processor that was interrupted. -/
theorem resumes (hall : ∀ r, r ≠ .rsp → r ∈ rs) (hrsp : .rsp ∉ rs)
    (hwords : WordsAt s.mem (s.regs .rsp) (rs.map m.regs ++ (error.toList ++ m.words)))
    (hhi : s.regs .rsp + 8 * rs.length + 48 ≤ 2 ^ 64) (cs ss rflags : ℕ) :
    let popped := runBlock s (rs.map .pop)
    let dropped := if error.isSome then popped.drop else popped
    iretq ⟨{ dropped with rflags := rflags }, cs, ss⟩ = { m with mem := s.mem } := by
  rw [wordsAt_append, List.length_map] at hwords
  obtain ⟨hframe, hrest⟩ := hwords
  have hp := runBlock_pops hframe hrsp (by omega)
  obtain ⟨p, hpop⟩ : ∃ p, p = runBlock s (rs.map .pop) := ⟨_, rfl⟩
  rw [← hpop] at hp ⊢
  rw [← hp.rsp, ← hp.mem] at hrest
  have hregs : ∀ q, q ≠ .rsp → p.regs q = m.regs q := fun q hq => hp.regs q (hall q hq)
  have hend := hp.rsp
  cases error with
  | none =>
    refine (iretq_eq (m := m) hrest ?_ hregs).trans (by rw [← hp.mem]; rfl)
    show p.regs .rsp + 40 ≤ 2 ^ 64
    omega
  | some e =>
    have hdrop : p.drop.regs .rsp = p.regs .rsp + 8 := State.drop_rsp (by omega)
    refine (iretq_eq (m := m) ?_ ?_ fun q hq => ?_).trans (by rw [← hp.mem]; rfl)
    · show WordsAt p.mem (p.drop.regs .rsp) m.words
      rw [hdrop]
      exact hrest.2
    · show p.drop.regs .rsp + 40 ≤ 2 ^ 64
      omega
    · exact (State.drop_of_ne hq).trans (hregs q hq)

end Deliver

end Machine

end X86

end PlumOs
