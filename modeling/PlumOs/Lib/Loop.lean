import Mathlib.Data.Nat.Basic
import Mathlib.Logic.Relation

/-!
# Loops

A loop is a function `turn : S → Turn S R`: from a state it ends with a result, or goes on from
another state.

* `loop turn fuel s` : the result of the loop, if it takes no more than `fuel` turns;
* `Visits turn s t` : the loop from `s` comes to `t`;
* `visits_invariant` : what one turn keeps holds in all states that are visited;
* `exists_loop` : **a loop ends** if there is a measure that decreases with each turn it takes;
* `exists_done_of_loop` : the result of a loop is that of its last turn.
-/

namespace PlumOs

universe u v

/-- What a turn of a loop comes to. -/
inductive Turn (S : Type u) (R : Type v) where
  | done (res : R)
  | next (s : S)

variable {S : Type u} {R : Type v} {turn : S → Turn S R} {s t : S}

/-- The result of the loop, with at most `fuel` turns. -/
def loop (turn : S → Turn S R) : ℕ → S → Option R
  | 0, _ => none
  | fuel + 1, s =>
    match turn s with
    | .done res => some res
    | .next t => loop turn fuel t

/-- The loop from one state comes to another. -/
def Visits (turn : S → Turn S R) : S → S → Prop := Relation.ReflTransGen fun s t => turn s = .next t

theorem visits_refl (s : S) : Visits turn s s := Relation.ReflTransGen.refl

theorem Visits.next {u : S} (h : Visits turn s t) (ht : turn t = .next u) : Visits turn s u :=
  Relation.ReflTransGen.tail h ht

theorem Visits.of_next {u : S} (hs : turn s = .next t) (h : Visits turn t u) : Visits turn s u :=
  Relation.ReflTransGen.head hs h

/-- The states behind a turn that goes on. -/
theorem visits_iff_of_next {u : S} (hs : turn s = .next t) :
    Visits turn s u ↔ u = s ∨ Visits turn t u := by
  constructor
  · intro h
    rcases Relation.ReflTransGen.cases_head h with rfl | ⟨t', ht', hrest⟩
    · exact .inl rfl
    · rw [hs, Turn.next.injEq] at ht'
      exact .inr (ht' ▸ hrest)
  · rintro (rfl | h)
    · exact visits_refl _
    · exact h.of_next hs

/-- A loop that ends at once visits nothing else. -/
theorem visits_iff_of_done {u : S} {res : R} (hs : turn s = .done res) :
    Visits turn s u ↔ u = s := by
  constructor
  · intro h
    rcases Relation.ReflTransGen.cases_head h with rfl | ⟨t', ht', -⟩
    · rfl
    · rw [hs] at ht'
      cases ht'
  · rintro rfl
    exact visits_refl _

/-- What one turn keeps. -/
theorem visits_invariant {I : S → Prop} (h₀ : I s)
    (hstep : ∀ t u, Visits turn s t → I t → turn t = .next u → I u) (h : Visits turn s t) : I t := by
  induction h with
  | refl => exact h₀
  | tail hvisit hnext ih => exact hstep _ _ hvisit ih hnext

/-- **A loop ends** if each of its turns decreases the measure. -/
theorem exists_loop (μ : S → ℕ)
    (h : ∀ t u, Visits turn s t → turn t = .next u → μ u < μ t) :
    ∃ fuel res, loop turn fuel s = some res := by
  induction hn : μ s using Nat.strongRecOn generalizing s with
  | _ n ih =>
    cases hs : turn s with
    | done res => exact ⟨1, res, by rw [loop, hs]⟩
    | next t =>
      subst hn
      obtain ⟨fuel, res, hres⟩ := ih (μ t) (h s t (visits_refl s) hs)
        (fun u v hu hv => h u v (hu.of_next hs) hv) rfl
      refine ⟨fuel + 1, res, ?_⟩
      rw [loop, hs]
      exact hres

/-- The result of a loop that ends is that of its last turn. -/
theorem exists_done_of_loop {fuel : ℕ} {res : R} (h : loop turn fuel s = some res) :
    ∃ t, Visits turn s t ∧ turn t = .done res := by
  induction fuel generalizing s with
  | zero => cases h
  | succ fuel ih =>
    rw [loop] at h
    cases hs : turn s with
    | done res' =>
      rw [hs] at h
      cases h
      exact ⟨s, visits_refl s, hs⟩
    | next t =>
      rw [hs] at h
      obtain ⟨u, hu, hdone⟩ := ih h
      exact ⟨u, hu.of_next hs, hdone⟩

end PlumOs
