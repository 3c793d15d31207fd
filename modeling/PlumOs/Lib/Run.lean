import Mathlib.Data.List.Basic
import PlumOs.Lib.Outcome

/-!
# Runs of a machine that may stop

A machine is a function `step : S → A → Except ε S`: in state `s` the action `a` either leads to
the next state or stops the machine for a reason in `ε`.  A run is a list of actions.

* `run step s as` : the state after the actions `as`, or the reason the run stopped;
* `Along step G s as` : every action of the run meets the guard `G` in the state it is taken in;
* `Along.congr_kept`, `Along.congr` : two guards that come to the same;
* `run_invariant` : what one guarded step preserves, a whole guarded run preserves;
* `run_yields` : the same for steps that may stop, with the reasons they stop for;
* `run_progress` : a run whose guarded steps all go through does not stop;
* `Always step P s as`, `always_iff_along` : a property of every state that the run passes, and the
  guard that it comes down to;
* `reaches`, `alongB` : tests of the state that a run on fixed actions ends in, and of its guard.
-/

namespace PlumOs

variable {S A ε : Type*}

/-- The state a list of actions leads to, or the reason the machine stopped on the way. -/
def run (step : S → A → Except ε S) : S → List A → Except ε S
  | s, [] => .ok s
  | s, a :: as =>
    match step s a with
    | .ok s' => run step s' as
    | .error e => .error e

/-- Every action of the run meets the guard `G` in the state it is taken in. -/
def Along (step : S → A → Except ε S) (G : S → A → Prop) : S → List A → Prop
  | _, [] => True
  | s, a :: as => G s a ∧ ∀ s', step s a = .ok s' → Along step G s' as

variable {step : S → A → Except ε S} {G : S → A → Prop}

@[simp] theorem run_nil (s : S) : run step s [] = .ok s := rfl

theorem run_cons_eq_ok {s s' : S} {a : A} {as : List A} :
    run step s (a :: as) = .ok s' ↔ ∃ t, step s a = .ok t ∧ run step t as = .ok s' := by
  simp only [run]
  cases step s a <;> simp

theorem run_cons_ok {s t : S} {a : A} (h : step s a = .ok t) (as : List A) :
    run step s (a :: as) = run step t as := by
  simp only [run, h]

theorem run_append_ok {s t : S} {as : List A} (h : run step s as = .ok t) (bs : List A) :
    run step s (as ++ bs) = run step t bs := by
  induction as generalizing s with
  | nil => simp only [run_nil, Except.ok.injEq] at h; subst h; rfl
  | cons a as ih =>
    obtain ⟨u, hu, hrun⟩ := run_cons_eq_ok.1 h
    rw [List.cons_append, run_cons_ok hu]
    exact ih hrun

/-- A guard that holds everywhere holds along every run. -/
theorem along_of_forall (h : ∀ s a, G s a) (s : S) (as : List A) : Along step G s as := by
  induction as generalizing s with
  | nil => trivial
  | cons a as ih => exact ⟨h s a, fun s' _ => ih s'⟩

theorem along_replicate {a : A} (h : ∀ s, G s a) (s : S) (k : ℕ) :
    Along step G s (List.replicate k a) := by
  induction k generalizing s with
  | zero => trivial
  | succ k ih => exact ⟨h s, fun s' _ => ih s'⟩

theorem Along.mono {G' : S → A → Prop} (hG : ∀ s a, G s a → G' s a) {s : S} {as : List A}
    (h : Along step G s as) : Along step G' s as := by
  induction as generalizing s with
  | nil => trivial
  | cons a as ih => exact ⟨hG _ _ h.1, fun s' hs' => ih (h.2 s' hs')⟩

theorem Along.and {G' : S → A → Prop} {s : S} {as : List A} (h : Along step G s as)
    (h' : Along step G' s as) : Along step (fun s a => G s a ∧ G' s a) s as := by
  induction as generalizing s with
  | nil => trivial
  | cons a as ih => exact ⟨⟨h.1, h'.1⟩, fun t ht => ih (h.2 t ht) (h'.2 t ht)⟩

theorem Along.and_of_mem {Q : A → Prop} {s : S} {as : List A} (h : Along step G s as)
    (hQ : ∀ a ∈ as, Q a) : Along step (fun s a => Q a ∧ G s a) s as := by
  induction as generalizing s with
  | nil => trivial
  | cons a as ih =>
    obtain ⟨ha, has⟩ := List.forall_mem_cons.1 hQ
    exact ⟨⟨ha, h.1⟩, fun t ht => ih (h.2 t ht) has⟩

/-- The guard of a step that the run takes. -/
theorem Along.of_run {s t : S} {as bs : List A} {a : A} (h : Along step G s (as ++ a :: bs))
    (hrun : run step s as = .ok t) : G t a := by
  induction as generalizing s with
  | nil =>
    simp only [run_nil, Except.ok.injEq] at hrun
    exact hrun ▸ h.1
  | cons b as ih =>
    obtain ⟨u, hu, hrest⟩ := run_cons_eq_ok.1 hrun
    exact ih (h.2 u hu) hrest

/-- Two guards that come to the same where the invariant holds, in runs that meet another guard.  The
invariant is kept by the steps that meet them. -/
theorem Along.congr_kept {I : S → Prop} {H G' : S → A → Prop} {s : S} {as : List A}
    (hal : Along step H s as) (h₀ : I s) (hiff : ∀ s a, I s → H s a → (G s a ↔ G' s a))
    (hstep : ∀ s a s', I s → H s a → G' s a → step s a = .ok s' → I s') :
    Along step G s as ↔ Along step G' s as := by
  induction as generalizing s with
  | nil => exact Iff.rfl
  | cons a as ih =>
    have hrest : ∀ t, step s a = .ok t → G' s a → (Along step G t as ↔ Along step G' t as) :=
      fun t ht hG => ih (hal.2 t ht) (hstep s a t h₀ hal.1 hG ht)
    have hhead := hiff s a h₀ hal.1
    constructor
    · rintro ⟨hG, htail⟩
      have hG' := hhead.1 hG
      exact ⟨hG', fun t ht => (hrest t ht hG').1 (htail t ht)⟩
    · rintro ⟨hG', htail⟩
      exact ⟨hhead.2 hG', fun t ht => (hrest t ht hG').2 (htail t ht)⟩

/-- The same with an invariant that every step of these runs keeps. -/
theorem Along.congr {I : S → Prop} {H G' : S → A → Prop} {s : S} {as : List A}
    (hal : Along step H s as) (h₀ : I s) (hiff : ∀ s a, I s → H s a → (G s a ↔ G' s a))
    (hstep : ∀ s a s', I s → H s a → step s a = .ok s' → I s') :
    Along step G s as ↔ Along step G' s as :=
  hal.congr_kept h₀ hiff fun s a s' hs hH _ ht => hstep s a s' hs hH ht

/-- In runs that meet a guard, another guard holds that it gives wherever the invariant does. -/
theorem Along.of_invariant {I : S → Prop} {H : S → A → Prop} {s : S} {as : List A}
    (hal : Along step H s as) (h₀ : I s) (hG : ∀ s a, I s → H s a → G s a)
    (hstep : ∀ s a s', I s → H s a → step s a = .ok s' → I s') : Along step G s as := by
  induction as generalizing s with
  | nil => trivial
  | cons a as ih =>
    exact ⟨hG s a h₀ hal.1, fun t ht => ih (hal.2 t ht) (hstep s a t h₀ hal.1 ht)⟩

/-- A guard holds along every run if it holds wherever the invariant does. -/
theorem along_of_invariant {I : S → Prop} {s : S} (h₀ : I s) (hG : ∀ s a, I s → G s a)
    (hstep : ∀ s a s', I s → step s a = .ok s' → I s') (as : List A) : Along step G s as :=
  (along_of_forall (G := fun _ _ => True) (fun _ _ => trivial) s as).of_invariant h₀
    (fun s a hs _ => hG s a hs) fun s a s' hs _ => hstep s a s' hs

/-- **The invariant rule.**  What holds initially and is preserved by every step that meets the
guard holds after every run whose steps all meet the guard. -/
theorem run_invariant {I : S → Prop} {s s' : S} {as : List A} (h₀ : I s)
    (hstep : ∀ s a s', I s → G s a → step s a = .ok s' → I s')
    (hal : Along step G s as) (hrun : run step s as = .ok s') : I s' := by
  induction as generalizing s with
  | nil => simp only [run_nil, Except.ok.injEq] at hrun; exact hrun ▸ h₀
  | cons a as ih =>
    obtain ⟨t, ht, hrest⟩ := run_cons_eq_ok.1 hrun
    exact ih (hstep s a t h₀ hal.1 ht) (hal.2 t ht) hrest

/-- The invariant rule with the reasons for which a run may stop. -/
theorem run_yields {I : S → Prop} {E : ε → Prop} {s : S} {as : List A} (h₀ : I s)
    (hstep : ∀ s a, I s → G s a → Yields (step s a) I E) (hal : Along step G s as) :
    Yields (run step s as) I E := by
  induction as generalizing s with
  | nil => exact h₀
  | cons a as ih =>
    have hs := hstep s a h₀ hal.1
    cases hsa : step s a with
    | ok t =>
      rw [run_cons_ok hsa]
      exact ih (hs.of_eq_ok hsa) (hal.2 t hsa)
    | error e =>
      simp only [run, hsa]
      exact hs.of_eq_error hsa

/-- When the invariant also lets every guarded step through, the run does not stop. -/
theorem run_progress {I : S → Prop} {s : S} {as : List A} (h₀ : I s)
    (hstep : ∀ s a, I s → G s a → ∃ s', step s a = .ok s' ∧ I s') (hal : Along step G s as) :
    ∃ s', run step s as = .ok s' ∧ I s' := by
  induction as generalizing s with
  | nil => exact ⟨s, rfl, h₀⟩
  | cons a as ih =>
    obtain ⟨t, ht, hI⟩ := hstep s a h₀ hal.1
    rw [run_cons_ok ht]
    exact ih hI (hal.2 t ht)

/-! ### Properties of every state of a run -/

/-- Every state that the run passes, the first one and the last one included, has `P`. -/
def Always (step : S → A → Except ε S) (P : S → Prop) : S → List A → Prop
  | s, [] => P s
  | s, a :: as => P s ∧ ∀ s', step s a = .ok s' → Always step P s' as

theorem Always.head {P : S → Prop} {s : S} {as : List A} (h : Always step P s as) : P s := by
  cases as with
  | nil => exact h
  | cons a as => exact h.1

/-- What always holds holds at the end. -/
theorem Always.of_run {P : S → Prop} {s s' : S} {as : List A} (h : Always step P s as)
    (hrun : run step s as = .ok s') : P s' := by
  induction as generalizing s with
  | nil => simp only [run_nil, Except.ok.injEq] at hrun; exact hrun ▸ h
  | cons a as ih =>
    obtain ⟨t, ht, hrest⟩ := run_cons_eq_ok.1 hrun
    exact ih (h.2 t ht) hrest

/-- What every state with the invariant has holds always. -/
theorem always_of_along {I P : S → Prop} {s : S} {as : List A} (h₀ : I s) (hP : ∀ s, I s → P s)
    (hstep : ∀ s a s', I s → G s a → step s a = .ok s' → I s') (hal : Along step G s as) :
    Always step P s as := by
  induction as generalizing s with
  | nil => exact hP s h₀
  | cons a as ih => exact ⟨hP s h₀, fun t ht => ih (hstep s a t h₀ hal.1 ht) (hal.2 t ht)⟩

/-- The exact guard of a property: a step that meets `G` keeps the invariant, and a step that does
not leads to a state without the property.  `H` is what the runs in question meet anyway. -/
theorem always_iff_along {H : S → A → Prop} {I P : S → Prop} {s : S} {as : List A} (h₀ : I s)
    (hP : ∀ s, I s → P s)
    (hgood : ∀ s a s', I s → H s a → G s a → step s a = .ok s' → I s')
    (hbad : ∀ s a, I s → H s a → ¬ G s a → ∃ s', step s a = .ok s' ∧ ¬ P s')
    (hH : Along step H s as) : Always step P s as ↔ Along step G s as := by
  constructor
  · intro h
    induction as generalizing s with
    | nil => trivial
    | cons a as ih =>
      have hG : G s a := by
        by_contra hG
        obtain ⟨t, ht, hnot⟩ := hbad s a h₀ hH.1 hG
        exact hnot (h.2 t ht).head
      exact ⟨hG, fun t ht => ih (hgood s a t h₀ hH.1 hG ht) (hH.2 t ht) (h.2 t ht)⟩
  · intro h
    exact always_of_along h₀ hP (fun s a t hI hHG => hgood s a t hI hHG.1 hHG.2) (hH.and h)

/-! ### Evaluating a run -/

/-- The run goes through and ends in a state that passes the test. -/
def reaches (r : Except ε S) (test : S → Bool) : Bool :=
  match r with
  | .ok s => test s
  | .error _ => false

/-- Test a guard along a run. -/
def alongB (step : S → A → Except ε S) (test : S → A → Bool) : S → List A → Bool
  | _, [] => true
  | s, a :: as =>
    test s a && match step s a with
      | .ok s' => alongB step test s' as
      | .error _ => true

/-- A test that decides the guard where the invariant holds. -/
theorem along_of_alongB {I : S → Prop} {test : S → A → Bool} {s : S} {as : List A} (h₀ : I s)
    (hG : ∀ s a, I s → test s a = true → G s a)
    (hstep : ∀ s a s', I s → G s a → step s a = .ok s' → I s')
    (h : alongB step test s as = true) : Along step G s as := by
  induction as generalizing s with
  | nil => trivial
  | cons a as ih =>
    rw [alongB, Bool.and_eq_true] at h
    refine ⟨hG s a h₀ h.1, fun t ht => ih (hstep s a t h₀ (hG s a h₀ h.1) ht) ?_⟩
    rw [ht] at h
    exact h.2

/-- A decidable guard is tested by evaluating it. -/
theorem along_of_decide [∀ s a, Decidable (G s a)] {s : S} {as : List A}
    (h : alongB step (fun s a => decide (G s a)) s as = true) : Along step G s as := by
  refine along_of_alongB (I := fun _ => True) trivial ?_ (fun _ _ _ _ _ _ => trivial) h
  exact fun s a _ hs => of_decide_eq_true hs

theorem exists_of_reaches {r : Except ε S} {test : S → Bool} (h : reaches r test = true) :
    ∃ s, r = .ok s ∧ test s = true := by
  cases r with
  | ok s => exact ⟨s, rfl, h⟩
  | error e => exact absurd h Bool.false_ne_true

end PlumOs
