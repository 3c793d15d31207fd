import PlumOs.Proc.TaskLists

/-!
# What `remove_from_tasklist` says

The comment of `remove_from_tasklist` (`sys/process.c`) says that it returns 0 on success and -1 if it
fails, and `sleep` tests the result.  Its loop ends in front of the task only.

* `Honours` : what a call shall do, by the comment;
* `removeResult_ret` : -1 is never returned, whatever the lists are;
* `honours_iff` : **it does this exactly if the task is on the list**.
-/

namespace PlumOs

namespace Kernel

variable {s s' : Kernel} {l : ListId} {xs : List ℕ} {p fuel : ℕ}

/-- The task is taken from the list and 0 is returned, or -1 is returned and nothing has changed.  A call
that follows a null pointer does neither. -/
def Honours (s : Kernel) (l : ListId) (xs : List ℕ) (p : ℕ) : Except Halt (ℤ × Kernel) → Prop
  | .ok (ret, s') => if p ∈ xs then ret = 0 ∧ Unlinked s l xs p s' else ret = -1 ∧ s' = s
  | .error _ => False

/-- **The result is never -1**, so that `sleep` never comes to its `panic`. -/
theorem removeResult_ret {ret : ℤ} (h : s.removeResult fuel l p = .ok (ret, s')) : ret = 0 := by
  unfold removeResult at h
  split at h
  · obtain ⟨t, -, h⟩ := bind_eq_ok.1 h
    obtain ⟨s₁, -, h⟩ := bind_eq_ok.1 h
    cases h
    rfl
  · obtain ⟨y, hprev, h⟩ := bind_eq_ok.1 h
    obtain ⟨u, hu, hnext⟩ := findPrev_next hprev
    rw [hu, ok_bind, if_pos hnext] at h
    obtain ⟨t, -, h⟩ := bind_eq_ok.1 h
    obtain ⟨s₁, -, h⟩ := bind_eq_ok.1 h
    obtain ⟨s₂, -, h⟩ := bind_eq_ok.1 h
    cases h
    rfl

/-- **`remove_from_tasklist` does what its comment says exactly if the task is on the list**, for every
list without a cycle and every task. -/
theorem honours_iff (hl : ListOf s l xs) (hp : p ≠ 0) (hfuel : xs.length < fuel) :
    Honours s l xs p (s.removeResult fuel l p) ↔ p ∈ xs := by
  constructor
  · intro h
    by_contra hmem
    rw [removeResult_null hl hp hmem hfuel] at h
    exact h
  · intro hmem
    obtain ⟨s', hs', hun⟩ := removeResult_ok hl hmem hfuel
    rw [hs', Honours, if_pos hmem]
    exact ⟨rfl, hun⟩

/-- The tasks 1 and 2 are active, the task 3 is on no list. -/
def twoActive : Kernel where
  current := 1
  clearZombie := 0
  zombieCount := 0
  pidCount := 3
  made := 3
  bufReady := false
  exitLog := []
  waitLog := []
  tasks p :=
    if p = 1 ∨ p = 2 ∨ p = 3 then
      some ⟨⟨p, 0, false, false, false, 0, false, .active, []⟩, if p = 1 then 2 else 0⟩
    else none
  head l := if l = .taskHeadp then 1 else 0

theorem listOf_twoActive : ListOf twoActive .taskHeadp [1, 2] := by
  refine ⟨⟨rfl, by decide, rfl, by decide, rfl⟩, fun p hp => ?_⟩
  simp only [List.mem_cons, List.not_mem_nil, or_false] at hp
  rcases hp with rfl | rfl <;> exact ⟨_, rfl⟩

/-- The task behind the first one is taken from the list. -/
theorem honours_iff_second :
    Honours twoActive .taskHeadp [1, 2] 2 (twoActive.removeResult 3 .taskHeadp 2) :=
  (honours_iff listOf_twoActive (by decide) (by decide)).2 (by decide)

/-- The task 3 is not on the list of the active tasks, and no task is on the list of the sleeping ones. -/
theorem honours_fails :
    ¬ Honours twoActive .taskHeadp [1, 2] 3 (twoActive.removeResult 3 .taskHeadp 3) ∧
      ¬ Honours twoActive .sleepTaskList [] 1 (twoActive.removeResult 1 .sleepTaskList 1) := by
  have hempty : ListOf twoActive .sleepTaskList [] := ⟨rfl, fun _ h => absurd h List.not_mem_nil⟩
  constructor
  · rw [removeResult_null listOf_twoActive (by decide) (by decide) (by decide)]
    exact not_false
  · rw [removeResult_null hempty (by decide) (by decide) (by decide)]
    exact not_false

end Kernel

end PlumOs
