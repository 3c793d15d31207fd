import PlumOs.Lib.Run

/-!
# Machines that answer

A machine that answers is a function `step : S → A → Except ε (R × S)`: in state `s` the call `a` has an
answer and leads to the next state, or it stops the machine for a reason in `ε`.

* `follow step` : the machine without its answers;
* `answers step s as` : the answers to some calls, up to the one that stops the machine, and the reason;
* `answers_history` : what each answer keeps of the calls and the answers so far;
* `Simulates` : two machines that answer each guarded call the same, and stay related;
* `Simulates.answers_eq` : **they give the same answers** to all guarded calls;
* `answers_accepted` : **a specification that takes each answer takes them all**.
-/

namespace PlumOs

variable {S T A R ε : Type*}

/-- The states of the machine. -/
def follow (step : S → A → Except ε (R × S)) (s : S) (a : A) : Except ε S := (step s a).map Prod.snd

/-- The answers to some calls, and why the machine stopped in the end, if it did. -/
def answers (step : S → A → Except ε (R × S)) : S → List A → List R × Option ε
  | _, [] => ([], none)
  | s, a :: as =>
    match step s a with
    | .ok (r, s') =>
      let (rest, stop) := answers step s' as
      (r :: rest, stop)
    | .error e => ([], some e)

/-- The answers are the same and the states after them are related, or the reasons to stop are the
same. -/
def SameAnswer (Rel : S → T → Prop) : Except ε (R × S) → Except ε (R × T) → Prop
  | .ok (r, s), .ok (r', t) => r = r' ∧ Rel s t
  | .error e, .error e' => e = e'
  | .ok _, .error _ => False
  | .error _, .ok _ => False

/-- From related states, a call that meets the guard has the same answer. -/
def Simulates (conc : S → A → Except ε (R × S)) (abst : T → A → Except ε (R × T))
    (G : T → A → Prop) (Rel : S → T → Prop) : Prop :=
  ∀ s t a, Rel s t → G t a → SameAnswer Rel (conc s a) (abst t a)

variable {step : S → A → Except ε (R × S)} {conc : S → A → Except ε (R × S)}
  {abst : T → A → Except ε (R × T)} {G : T → A → Prop} {Rel : S → T → Prop}

theorem follow_ok {s s' : S} {a : A} {r : R} (h : step s a = .ok (r, s')) : follow step s a = .ok s' := by
  rw [follow, h]
  rfl

theorem exists_of_follow_ok {s s' : S} {a : A} (h : follow step s a = .ok s') :
    ∃ r, step s a = .ok (r, s') := by
  unfold follow at h
  cases hstep : step s a with
  | error e =>
    rw [hstep] at h
    cases h
  | ok x =>
    rw [hstep] at h
    cases h
    exact ⟨x.1, rfl⟩

theorem answers_cons_ok {s s' : S} {a : A} {r : R} (h : step s a = .ok (r, s')) (as : List A) :
    answers step s (a :: as) = (r :: (answers step s' as).1, (answers step s' as).2) := by
  rw [answers, h]

theorem answers_cons_error {s : S} {a : A} {e : ε} (h : step s a = .error e) (as : List A) :
    answers step s (a :: as) = ([], some e) := by
  rw [answers, h]

/-- **Two machines, one of which simulates the other, give the same answers.** -/
theorem Simulates.answers_eq (h : Simulates conc abst G Rel) {s : S} {t : T} {as : List A}
    (hrel : Rel s t) (hal : Along (follow abst) G t as) : answers conc s as = answers abst t as := by
  induction as generalizing s t with
  | nil => rfl
  | cons a as ih =>
    have hstep := h s t a hrel hal.1
    cases hc : conc s a with
    | error e =>
      cases ha : abst t a with
      | error e' =>
        rw [hc, ha] at hstep
        rw [answers_cons_error hc, answers_cons_error ha, show e = e' from hstep]
      | ok x =>
        rw [hc, ha] at hstep
        exact hstep.elim
    | ok x =>
      obtain ⟨r, s'⟩ := x
      cases ha : abst t a with
      | error e' =>
        rw [hc, ha] at hstep
        exact hstep.elim
      | ok y =>
        obtain ⟨r', t'⟩ := y
        rw [hc, ha] at hstep
        obtain ⟨rfl, hrel'⟩ := hstep
        rw [answers_cons_ok hc, answers_cons_ok ha, ih hrel' (hal.2 t' (follow_ok ha))]

/-- **The invariant rule for the calls and the answers so far.** -/
theorem answers_history {I : List (A × R) → T → Prop} {t : T} {as : List A} {log : List (A × R)}
    (h₀ : I log t)
    (hstep : ∀ log t a r t', I log t → G t a → abst t a = .ok (r, t') → I (log ++ [(a, r)]) t')
    (hal : Along (follow abst) G t as) : ∃ t', I (log ++ as.zip (answers abst t as).1) t' := by
  induction as generalizing t log with
  | nil =>
    rw [List.zip_nil_left, List.append_nil]
    exact ⟨t, h₀⟩
  | cons a as ih =>
    cases ha : abst t a with
    | error e =>
      rw [answers_cons_error ha, List.zip_nil_right, List.append_nil]
      exact ⟨t, h₀⟩
    | ok x =>
      obtain ⟨r, t'⟩ := x
      have hnext := ih (hstep log t a r t' h₀ hal.1 ha) (hal.2 t' (follow_ok ha))
      rw [List.append_assoc] at hnext
      rw [answers_cons_ok ha, List.zip_cons_cons]
      exact hnext

/-- **The rule for specifications that take the answers one after the other.** -/
theorem answers_accepted {spec : T → R → Option T} {K : S → A → Prop}
    (hstep : ∀ s t a r s', Rel s t → K s a → step s a = .ok (r, s') →
      ∃ t', spec t r = some t' ∧ Rel s' t')
    {s : S} {t : T} {as : List A} (hrel : Rel s t) (hal : Along (follow step) K s as) :
    ∃ t', (answers step s as).1.foldlM spec t = some t' ∧
      ∀ s', run (follow step) s as = .ok s' → Rel s' t' := by
  induction as generalizing s t with
  | nil =>
    refine ⟨t, rfl, fun s' hrun => ?_⟩
    obtain rfl := Except.ok.inj hrun
    exact hrel
  | cons a as ih =>
    cases ha : step s a with
    | error e =>
      rw [answers_cons_error ha]
      refine ⟨t, rfl, fun s' hrun => ?_⟩
      obtain ⟨s₁, hs₁, -⟩ := run_cons_eq_ok.1 hrun
      rw [follow, ha] at hs₁
      cases hs₁
    | ok x =>
      obtain ⟨r, s₁⟩ := x
      obtain ⟨t₁, ht₁, hrel₁⟩ := hstep s t a r s₁ hrel hal.1 ha
      obtain ⟨t', ht', hrest⟩ := ih hrel₁ (hal.2 s₁ (follow_ok ha))
      rw [answers_cons_ok ha, List.foldlM_cons, ht₁]
      refine ⟨t', ht', fun s' hrun => ?_⟩
      rw [run_cons_ok (follow_ok ha)] at hrun
      exact hrest s' hrun

end PlumOs
