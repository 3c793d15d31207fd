import Mathlib.Data.List.Basic
import PlumOs.Lib.Outcome

/-!
# Calls that leave a trace

A call that may stop is a value of `Except ε α`.  `Traced ε ι α` is such a call together with what it
used on the way, in order: memory cells, slots of a table, resources.  The trace is there however
the call ends.

* `Traced.use`, `Traced.trace`, `Traced.lift` : a use, some of them, and a call without one;
* `Traced.after` : a call behind some uses;
* `result_bind`, `mem_uses_bind` : the result of a composed call and what it used;
* `uses_bind_ok`, `uses_bind_error` : its trace, where the outcome of the first part is known;
* `checked`, `checked_bind` : the call where uses of some kind stop it.
-/

namespace PlumOs

universe u v w

/-- A call that may stop, and what it has used. -/
structure Traced (ε : Type u) (ι : Type w) (α : Type v) where
  /-- The calls, in order. -/
  uses : List ι
  /-- How it ends. -/
  result : Except ε α

namespace Traced

variable {ε : Type u} {ι : Type w} {α β : Type v}

/-- One call after another: the second one takes place if the first one returns. -/
def andThen (x : Traced ε ι α) (f : α → Traced ε ι β) : Traced ε ι β :=
  match x.result with
  | .ok a => ⟨x.uses ++ (f a).uses, (f a).result⟩
  | .error e => ⟨x.uses, .error e⟩

instance : Monad (Traced ε ι) where
  pure a := ⟨[], .ok a⟩
  bind := andThen

/-- A use that goes through. -/
def use (i : ι) (a : α) : Traced ε ι α := ⟨[i], .ok a⟩

/-- Some uses that go through. -/
def trace (is : List ι) : Traced ε ι PUnit := ⟨is, .ok ⟨⟩⟩

/-- A call that uses nothing. -/
def lift (x : Except ε α) : Traced ε ι α := ⟨[], x⟩

/-- A call behind some uses. -/
def after (is : List ι) (x : Traced ε ι α) : Traced ε ι α := ⟨is ++ x.uses, x.result⟩

variable {x : Traced ε ι α} {f : α → Traced ε ι β} {a : α} {i : ι}

@[simp] theorem uses_pure (a : α) : (pure a : Traced ε ι α).uses = [] := rfl

@[simp] theorem result_pure (a : α) : (pure a : Traced ε ι α).result = .ok a := rfl

@[simp] theorem uses_use (i : ι) (a : α) : (use i a : Traced ε ι α).uses = [i] := rfl

@[simp] theorem result_use (i : ι) (a : α) : (use i a : Traced ε ι α).result = .ok a := rfl

@[simp] theorem uses_lift (x : Except ε α) : (lift x : Traced ε ι α).uses = [] := rfl

@[simp] theorem result_lift (x : Except ε α) : (lift x : Traced ε ι α).result = x := rfl

theorem uses_bind_ok (h : x.result = .ok a) : (x >>= f).uses = x.uses ++ (f a).uses := by
  change (andThen x f).uses = _
  rw [andThen, h]

theorem uses_bind_error {e : ε} (h : x.result = .error e) : (x >>= f).uses = x.uses := by
  change (andThen x f).uses = _
  rw [andThen, h]

@[simp] theorem result_bind : (x >>= f).result = x.result >>= fun a => (f a).result := by
  change (andThen x f).result = _
  rw [andThen]
  cases x.result <;> rfl

@[simp] theorem uses_after (is : List ι) (x : Traced ε ι α) : (x.after is).uses = is ++ x.uses := rfl

@[simp] theorem result_after (is : List ι) (x : Traced ε ι α) : (x.after is).result = x.result := rfl

theorem after_after (is js : List ι) (x : Traced ε ι α) : (x.after is).after js = x.after (js ++ is) :=
  congrArg (Traced.mk · _) (List.append_assoc js is x.uses).symm

theorem use_bind (i : ι) (a : α) (f : α → Traced ε ι β) : use i a >>= f = (f a).after [i] := rfl

theorem trace_bind (is : List ι) (f : PUnit → Traced ε ι β) : trace is >>= f = (f ⟨⟩).after is := rfl

theorem bind_pure (x : Traced ε ι α) : x >>= pure = x := by
  change andThen x pure = x
  obtain ⟨uses, result⟩ := x
  cases result with
  | ok a => exact congrArg (Traced.mk · _) (List.append_nil uses)
  | error e => rfl

/-- What a composed call has used. -/
theorem mem_uses_bind : i ∈ (x >>= f).uses ↔
    i ∈ x.uses ∨ ∃ a, x.result = .ok a ∧ i ∈ (f a).uses := by
  cases h : x.result with
  | ok a => simp [uses_bind_ok h]
  | error e => simp [uses_bind_error h]

/-! ### A check of the uses -/

section Checked

variable (Q : ι → Prop) [DecidablePred Q] (e : ε)

/-- The call where a use without `Q` stops it. -/
def checked (x : Traced ε ι α) : Except ε α := if ∀ i ∈ x.uses, Q i then x.result else .error e

@[simp] theorem checked_lift (x : Except ε α) : (lift x : Traced ε ι α).checked Q e = x := by
  rw [checked, if_pos]
  · rfl
  · exact fun i hi => absurd hi List.not_mem_nil

@[simp] theorem checked_pure (a : α) : (pure a : Traced ε ι α).checked Q e = .ok a := checked_lift Q e _

/-- **A composed call** is checked part by part. -/
@[simp] theorem checked_bind : (x >>= f).checked Q e = x.checked Q e >>= fun a => (f a).checked Q e := by
  have hsplit : (∀ i ∈ (x >>= f).uses, Q i) ↔
      (∀ i ∈ x.uses, Q i) ∧ ∀ a, x.result = .ok a → ∀ i ∈ (f a).uses, Q i := by
    simp only [mem_uses_bind, or_imp, forall_and, forall_exists_index, and_imp]
    exact and_congr_right fun _ => ⟨fun h a ha i hi => h i a ha hi, fun h i a ha hi => h a ha i hi⟩
  by_cases hx : ∀ i ∈ x.uses, Q i
  · cases hres : x.result with
    | error e' =>
      have hall : ∀ i ∈ (x >>= f).uses, Q i := hsplit.2 ⟨hx, fun a ha => by rw [hres] at ha; cases ha⟩
      rw [checked, if_pos hall, result_bind, checked, if_pos hx, hres]
      rfl
    | ok a =>
      rw [checked, result_bind, checked, if_pos hx, hres]
      simp only [ok_bind, checked]
      refine if_congr (hsplit.trans ⟨fun h => h.2 a hres, fun h => ⟨hx, fun b hb => ?_⟩⟩) rfl rfl
      rw [hres, Except.ok.injEq] at hb
      rwa [← hb]
  · rw [checked, if_neg (fun h => hx (hsplit.1 h).1), checked, if_neg hx]
    rfl

end Checked

end Traced

end PlumOs
