import PlumOs.Lib.Linked
import PlumOs.Lib.Outcome
import PlumOs.Proc.Task

/-!
# What the list operations do

`Lists s L` reads the four intrusive lists of the kernel state `s` as the lists `L`.  The
operations of `process.c` are then removal, insertion and search in `L`, and none of them changes
anything else of a task (`SameInfo`).

* `Unlinked`, `removeResult_ok` : removal from one list, whatever the others are;
* `removeFromTasklist_ok`, `removeFromTasklist_null` : removal, and the null pointer that stops
  it when the task is not on the list;
* `addToTasklist_ok` : insertion in front;
* `findProcessByPid_spec` : the search by pid;
* `Lists.short` : there are no more tasks on the lists than were made, so that every walk ends within
  the bound;
* `Pids` : pids are distinct and were given out.
-/

namespace PlumOs

namespace Kernel

/-- The `next` field of the task at `p`. -/
def nextOf (s : Kernel) (p : ℕ) : ℕ := (s.tasks p).elim 0 Task.next

/-- The task at `p` without its `next` field. -/
def info (s : Kernel) (p : ℕ) : Option TaskInfo := (s.tasks p).map Task.toTaskInfo

/-- The same tasks and globals, except for the lists. -/
def SameInfo (s s' : Kernel) : Prop := s'.toGlobals = s.toGlobals ∧ s'.info = s.info

theorem SameInfo.trans {s₁ s₂ s₃ : Kernel} (h : s₁.SameInfo s₂) (h' : s₂.SameInfo s₃) :
    s₁.SameInfo s₃ :=
  ⟨h'.1.trans h.1, h'.2.trans h.2⟩

/-- How many tasks are on the lists. -/
def total (L : ListId → List ℕ) : ℕ :=
  (L .taskHeadp).length + (L .sleepTaskList).length + (L .waitStdinList).length +
    (L .zombieList).length

/-- The four lists. -/
structure Lists (s : Kernel) (L : ListId → List ℕ) : Prop where
  /-- The links of a list are those of its tasks, in order. -/
  linked : ∀ l, Linked 0 s.nextOf (s.head l) (L l)
  /-- What is on a list is a task. -/
  alloc : ∀ l, ∀ p ∈ L l, ∃ t, s.info p = some t
  /-- No task is on two lists. -/
  disjoint : ∀ l l' p, p ∈ L l → p ∈ L l' → l = l'
  /-- There are no more of them than tasks that were made. -/
  few : total L ≤ s.made

variable {s s' : Kernel} {L : ListId → List ℕ} {p q : ℕ} {t : TaskInfo} {l : ListId}

theorem info_eq_some : s.info p = some t ↔ ∃ n, s.tasks p = some ⟨t, n⟩ := by
  unfold info
  constructor
  · intro h
    obtain ⟨u, hu, rfl⟩ := Option.map_eq_some_iff.1 h
    exact ⟨u.next, hu⟩
  · rintro ⟨n, hn⟩
    rw [hn]
    rfl

theorem info_of_tasks {u : Task} (h : s.tasks p = some u) : s.info p = some u.toTaskInfo := by
  rw [info, h]
  rfl

theorem info_eq_none : s.info p = none ↔ s.tasks p = none := Option.map_eq_none_iff

theorem get_eq_ok {u : Task} (h : s.get p = .ok u) : s.tasks p = some u := by
  rw [get] at h
  split at h
  · cases h
  · split at h
    · cases h
    · next hu => rw [hu, Except.ok.inj h]

theorem get_of_info (hp : p ≠ 0) (ht : s.info p = some t) : s.get p = .ok ⟨t, s.nextOf p⟩ := by
  obtain ⟨n, hn⟩ := info_eq_some.1 ht
  simp [get, nextOf, hp, hn]

@[simp] theorem get_zero : s.get 0 = .error .nullDeref := rfl

/-! ### Assignments -/

/-- The state after an assignment to `next`. -/
def link (s : Kernel) (p q : ℕ) : Kernel :=
  { s with tasks := Function.update s.tasks p ((s.tasks p).map fun t => { t with next := q }) }

/-- The state after an assignment to other fields. -/
def assign (s : Kernel) (p : ℕ) (t : TaskInfo) : Kernel :=
  { s with tasks := Function.update s.tasks p (some ⟨t, s.nextOf p⟩) }

theorem setNext_ok (hp : p ≠ 0) (ht : s.info p = some t) : s.setNext p q = .ok (s.link p q) := by
  obtain ⟨n, hn⟩ := info_eq_some.1 ht
  simp only [setNext, get_of_info hp ht, ok_bind, link, hn, nextOf]
  rfl

theorem modify_ok (hp : p ≠ 0) (ht : s.info p = some t) (f : TaskInfo → TaskInfo) :
    s.modify p f = .ok (s.assign p (f t)) := by
  simp only [modify, get_of_info hp ht, ok_bind, assign]
  rfl

/-- What `newTask` does when it returns. -/
theorem newTask_eq_ok {page : ℕ} (hs : s.newTask page t = .ok s') :
    page ≠ 0 ∧ s.tasks page = none ∧ s.made < pageArraySize ∧ s' = { s with
      tasks := Function.update s.tasks page (some ⟨t, 0⟩)
      pidCount := wrap32 (s.pidCount + 1)
      made := s.made + 1 } := by
  rw [newTask] at hs
  split at hs
  · cases hs
  · next hfree =>
    split at hs
    · cases hs
    · next hroom =>
      rw [not_or, Bool.not_eq_true, Option.isSome_eq_false_iff, Option.isNone_iff_eq_none] at hfree
      exact ⟨hfree.1, hfree.2, Nat.lt_of_not_le hroom, (Except.ok.inj hs).symm⟩

theorem link_info : (s.link p q).info = s.info := by
  funext x
  simp only [info, link, Function.update_apply]
  split
  · next h => subst h; cases s.tasks x <;> rfl
  · rfl

theorem nextOf_link (ht : s.info p = some t) : (s.link p q).nextOf = Function.update s.nextOf p q := by
  obtain ⟨n, hn⟩ := info_eq_some.1 ht
  funext x
  simp only [nextOf, link, Function.update_apply]
  split
  · next h => subst h; simp [hn]
  · rfl

theorem assign_info : (s.assign p t).info = Function.update s.info p (some t) := by
  funext x
  simp only [info, assign, Function.update_apply]
  split <;> rfl

theorem assign_nextOf : (s.assign p t).nextOf = s.nextOf := by
  funext x
  simp only [nextOf, assign, Function.update_apply]
  split
  · next h => subst h; rfl
  · rfl

/-- Assignments to other fields leave the lists alone. -/
theorem Lists.assign (h : Lists s L) : Lists (s.assign p t) L where
  linked l := by rw [assign_nextOf]; exact h.linked l
  alloc l x hx := by
    rw [assign_info, Function.update_apply]
    split
    · exact ⟨t, rfl⟩
    · exact h.alloc l x hx
  disjoint := h.disjoint
  few := h.few

theorem Lists.ne_zero (h : Lists s L) (hp : p ∈ L l) : p ≠ 0 := (h.linked l).ne_null hp

/-- The other globals do not matter for the lists. -/
theorem Lists.globals (h : Lists s L) {g : Globals} (hmade : s.made ≤ g.made) :
    Lists { toGlobals := g, tasks := s.tasks, head := s.head } L :=
  ⟨h.linked, h.alloc, h.disjoint, h.few.trans hmade⟩

/-- Nor does a task that is on none of them. -/
theorem Lists.elsewhere (h : Lists s L) (hp : ∀ l, p ∉ L l) (hhead : s'.head = s.head)
    (hmade : s.made ≤ s'.made) (htasks : ∀ q, q ≠ p → s'.tasks q = s.tasks q) : Lists s' L := by
  have hne : ∀ l, ∀ q ∈ L l, s'.tasks q = s.tasks q := by
    intro l q hq
    refine htasks q ?_
    rintro rfl
    exact hp l hq
  refine ⟨fun l => ?_, fun l q hq => ?_, h.disjoint, h.few.trans hmade⟩
  · rw [hhead]
    exact (h.linked l).congr fun q hq => by rw [nextOf, nextOf, hne l q hq]
  · rw [info, hne l q hq]
    exact h.alloc l q hq

theorem length_le_total (L : ListId → List ℕ) (l : ListId) : (L l).length ≤ total L := by
  unfold total
  cases l <;> omega

theorem total_update (L : ListId → List ℕ) (l : ListId) (xs : List ℕ) :
    total (Function.update L l xs) + (L l).length = total L + xs.length := by
  unfold total
  cases l <;> simp <;> omega

/-- No list is longer than the number of tasks that were made. -/
theorem Lists.short (h : Lists s L) (l : ListId) : (L l).length < s.fuel :=
  Nat.lt_succ_of_le ((length_le_total L l).trans h.few)

/-! ### Insertion -/

/-- **`add_to_tasklist`** of a task that is on no list. -/
theorem addToTasklist_ok (h : Lists s L) (hp : p ≠ 0) (ht : s.info p = some t)
    (hfree : ∀ l, p ∉ L l) (hroom : total L < s.made) : ∃ s', s.addToTasklist l p = .ok s' ∧ s.SameInfo s' ∧
      Lists s' (Function.update L l (p :: L l)) := by
  refine ⟨(s.link p (s.head l)).setHead l p, ?_, ⟨rfl, link_info⟩, ?_, ?_, ?_, ?_⟩
  · simp only [addToTasklist, setNext_ok hp ht, ok_bind]
    rfl
  · intro l'
    have hnext : ((s.link p (s.head l)).setHead l p).nextOf = Function.update s.nextOf p (s.head l) :=
      nextOf_link ht
    have hother : ∀ l', ∀ y ∈ L l', Function.update s.nextOf p (s.head l) y = s.nextOf y := by
      intro l' y hy
      refine Function.update_of_ne ?_ _ _
      rintro rfl
      exact hfree l' hy
    rw [hnext]
    show Linked 0 _ (Function.update s.head l p l') _
    rw [Function.update_apply, Function.update_apply]
    split
    · exact (h.linked l).push hp (Function.update_self ..) (hother l)
    · exact (h.linked l').congr (hother l')
  · intro l' x hx
    show ∃ u, (s.link p (s.head l)).info x = some u
    rw [link_info]
    rw [Function.update_apply] at hx
    split at hx
    · rcases List.mem_cons.1 hx with rfl | hx
      · exact ⟨t, ht⟩
      · exact h.alloc l x hx
    · exact h.alloc l' x hx
  · have hone : ∀ l₁ x, x ∈ Function.update L l (p :: L l) l₁ → x = p ∧ l₁ = l ∨ x ∈ L l₁ := by
      intro l₁ x hx
      rw [Function.update_apply] at hx
      split at hx
      · next hl =>
        rcases List.mem_cons.1 hx with hx | hx
        · exact .inl ⟨hx, hl⟩
        · exact .inr (hl ▸ hx)
      · exact .inr hx
    intro l₁ l₂ x h₁ h₂
    rcases hone l₁ x h₁ with ⟨rfl, rfl⟩ | h₁ <;> rcases hone l₂ x h₂ with ⟨hx, hl⟩ | h₂
    · exact hl.symm
    · exact absurd h₂ (hfree l₂)
    · exact absurd (hx ▸ h₁) (hfree l₁)
    · exact h.disjoint l₁ l₂ x h₁ h₂
  · have htotal := total_update L l (p :: L l)
    rw [List.length_cons] at htotal
    show total _ ≤ s.made
    omega

/-! ### Removal -/

/-- The loop of `remove_from_tasklist` stops at the task in front of `q`. -/
theorem findPrev_ok {x : ℕ} {pre post : List ℕ}
    (h : Linked 0 s.nextOf x (pre ++ p :: q :: post))
    (halloc : ∀ y ∈ pre ++ p :: q :: post, ∃ t, s.info y = some t) {fuel : ℕ}
    (hfuel : pre.length < fuel) : s.findPrev q fuel x = .ok p := by
  obtain ⟨fuel, rfl⟩ : ∃ k, fuel = k + 1 := ⟨fuel - 1, by omega⟩
  induction pre generalizing x fuel with
  | nil =>
    obtain ⟨rfl, hx, hrest⟩ := h
    obtain ⟨t, ht⟩ := halloc x List.mem_cons_self
    simp only [findPrev, get_of_info hx ht, ok_bind, hrest.1, if_true]
    rfl
  | cons y pre ih =>
    obtain ⟨rfl, hx, hrest⟩ := h
    obtain ⟨t, ht⟩ := halloc x List.mem_cons_self
    have hne : s.nextOf x ≠ q := by
      -- the cell behind `x` is in front of `q`
      intro heq
      have hnd := hrest.nodup
      rw [heq] at hrest
      cases pre with
      | nil =>
        have hqp : q = p := hrest.1
        rw [hqp] at hnd
        simp at hnd
      | cons z pre =>
        have hz : q = z := hrest.1
        rw [hz] at hnd
        simp at hnd
    simp only [findPrev, get_of_info hx ht, ok_bind, if_neg hne]
    obtain ⟨fuel, rfl⟩ : ∃ k, fuel = k + 1 := ⟨fuel - 1, by simp at hfuel; omega⟩
    exact ih hrest (fun z hz => halloc z (List.mem_cons_of_mem _ hz)) fuel (by simp at hfuel; omega)

/-- On a list without `q` the loop runs into the null pointer. -/
theorem findPrev_null {x : ℕ} {xs : List ℕ} (h : Linked 0 s.nextOf x xs)
    (halloc : ∀ y ∈ xs, ∃ t, s.info y = some t) (hq : q ≠ 0) (hx : x ≠ q) (hqxs : q ∉ xs)
    {fuel : ℕ} (hfuel : xs.length < fuel) : s.findPrev q fuel x = .error .nullDeref := by
  obtain ⟨fuel, rfl⟩ : ∃ k, fuel = k + 1 := ⟨fuel - 1, by omega⟩
  induction xs generalizing x fuel with
  | nil =>
    rw [Linked.nil_iff] at h
    rw [h]
    rfl
  | cons y xs ih =>
    obtain ⟨rfl, hx, hrest⟩ := h
    obtain ⟨t, ht⟩ := halloc x List.mem_cons_self
    have hne : s.nextOf x ≠ q := by
      intro heq
      rw [heq] at hrest
      cases xs with
      | nil => exact hq hrest
      | cons z xs => exact hqxs (by rw [hrest.1]; simp)
    simp only [findPrev, get_of_info hx ht, ok_bind, if_neg hne]
    obtain ⟨fuel, rfl⟩ : ∃ k, fuel = k + 1 := ⟨fuel - 1, by simp at hfuel; omega⟩
    exact ih hrest (fun z hz => halloc z (List.mem_cons_of_mem _ hz)) hne
      (fun hmem => hqxs (List.mem_cons_of_mem _ hmem)) fuel (by simp at hfuel; omega)

/-- The tasks `xs` are on the list `l`, which ends. -/
structure ListOf (s : Kernel) (l : ListId) (xs : List ℕ) : Prop where
  linked : Linked 0 s.nextOf (s.head l) xs
  alloc : ∀ p ∈ xs, ∃ t, s.info p = some t

/-- The task `p` was taken from the list `l` with the tasks `xs`: the others are on the list in the same
order, `p->next` is null, and nothing else was changed. -/
structure Unlinked (s : Kernel) (l : ListId) (xs : List ℕ) (p : ℕ) (s' : Kernel) : Prop where
  same : s.SameInfo s'
  linked : Linked 0 s'.nextOf (s'.head l) (xs.erase p)
  cleared : s'.nextOf p = 0
  heads : ∀ l', l' ≠ l → s'.head l' = s.head l'
  elsewhere : ∀ q, q ∉ xs → s'.tasks q = s.tasks q

theorem Lists.listOf (h : Lists s L) (l : ListId) : ListOf s l (L l) := ⟨h.linked l, h.alloc l⟩

theorem link_tasks_of_ne {x : ℕ} (hx : x ≠ p) : (s.link p q).tasks x = s.tasks x :=
  Function.update_of_ne hx _ _

/-- The removal of the first task. -/
theorem ListOf.unlinked_head {xs : List ℕ} (h : ListOf s l (p :: xs)) :
    Unlinked s l (p :: xs) p ((s.setHead l (s.nextOf p)).link p 0) := by
  obtain ⟨t, ht⟩ := h.alloc p List.mem_cons_self
  have ht' : (s.setHead l (s.nextOf p)).info p = some t := ht
  refine ⟨⟨rfl, link_info⟩, ?_, ?_, fun l' hl' => Function.update_of_ne hl' _ _, fun x hx => ?_⟩
  · have hhead : ((s.setHead l (s.nextOf p)).link p 0).head l = s.nextOf p := Function.update_self ..
    rw [hhead, List.erase_cons_head, nextOf_link ht']
    refine h.linked.pop fun x hx => Function.update_of_ne ?_ _ _
    rintro rfl
    exact (List.nodup_cons.1 h.linked.nodup).1 hx
  · rw [nextOf_link ht', Function.update_self]
  · exact link_tasks_of_ne fun hxp => hx (hxp ▸ List.mem_cons_self)

/-- The removal of the task behind `y`. -/
theorem ListOf.unlinked_behind {pre post : List ℕ} {y : ℕ} (h : ListOf s l (pre ++ y :: p :: post)) :
    Unlinked s l (pre ++ y :: p :: post) p ((s.link y (s.nextOf p)).link p 0) := by
  obtain ⟨t, ht⟩ := h.alloc p (by simp)
  obtain ⟨u, hu⟩ := h.alloc y (by simp)
  have ht' : (s.link y (s.nextOf p)).info p = some t := by rw [link_info]; exact ht
  have hnd := h.linked.nodup
  have hnext : ((s.link y (s.nextOf p)).link p 0).nextOf =
      Function.update (Function.update s.nextOf y (s.nextOf p)) p 0 := by
    rw [nextOf_link ht', nextOf_link hu]
  have hyp : y ≠ p := by
    rintro rfl
    exact (List.nodup_cons.1 (List.nodup_append.1 hnd).2.1).1 List.mem_cons_self
  have hpre : p ∉ pre := fun hmem => (List.nodup_append.1 hnd).2.2 p hmem p (by simp) rfl
  have herase : (pre ++ y :: p :: post).erase p = pre ++ y :: post := by
    rw [List.erase_append_right _ hpre, List.erase_cons_tail (by simpa using hyp), List.erase_cons_head]
  refine ⟨⟨rfl, link_info.trans link_info⟩, ?_, ?_, fun _ _ => rfl, fun x hx => ?_⟩
  · show Linked 0 _ (s.head l) _
    rw [herase]
    refine h.linked.unlink ?_ fun z hz => ?_
    · rw [hnext, Function.update_of_ne hyp, Function.update_self]
    · have hzp : z ≠ p := by
        rintro rfl
        simp only [List.nodup_append, List.nodup_cons, List.mem_cons] at hnd
        grind
      have hzy : z ≠ y := by
        rintro rfl
        simp only [List.nodup_append, List.nodup_cons, List.mem_cons] at hnd
        grind
      rw [hnext, Function.update_of_ne hzp, Function.update_of_ne hzy]
  · rw [hnext, Function.update_self]
  · have hxp : x ≠ p := fun hxp => hx (by rw [hxp]; simp)
    have hxy : x ≠ y := fun hxy => hx (by rw [hxy]; simp)
    rw [link_tasks_of_ne hxp, link_tasks_of_ne hxy]

/-- **`remove_from_tasklist`** of a task that is on the list returns 0. -/
theorem removeResult_ok {xs : List ℕ} (h : ListOf s l xs) (hp : p ∈ xs) {fuel : ℕ}
    (hfuel : xs.length < fuel) :
    ∃ s', s.removeResult fuel l p = .ok (0, s') ∧ Unlinked s l xs p s' := by
  have hp0 := h.linked.ne_null hp
  obtain ⟨t, ht⟩ := h.alloc p hp
  obtain ⟨pre, post, rfl⟩ := List.append_of_mem hp
  unfold removeResult
  rcases List.eq_nil_or_concat pre with rfl | ⟨pre, y, rfl⟩
  · have ht' : (s.setHead l (s.nextOf p)).info p = some t := ht
    refine ⟨_, ?_, h.unlinked_head⟩
    rw [if_pos h.linked.1, get_of_info hp0 ht, ok_bind, setNext_ok hp0 ht', ok_bind]
    rfl
  · rw [List.concat_eq_append, List.append_assoc, List.singleton_append] at h hfuel ⊢
    have hnd := h.linked.nodup
    have hy0 : y ≠ 0 := h.linked.ne_null (by simp)
    obtain ⟨u, hu⟩ := h.alloc y (by simp)
    have hhead : s.head l ≠ p := by
      intro heq
      have hfirst := h.linked.head_eq
      rw [heq] at hfirst
      cases pre with
      | nil =>
        have hpy : p = y := hfirst
        rw [hpy] at hnd
        simp at hnd
      | cons z pre =>
        have hpz : p = z := hfirst
        rw [hpz] at hnd
        simp at hnd
    have hprev : s.findPrev p fuel (s.head l) = .ok y := by
      refine findPrev_ok h.linked h.alloc ?_
      simp only [List.length_append, List.length_cons] at hfuel
      omega
    have hlink : s.nextOf y = p := h.linked.next_eq_head
    have ht' : (s.link y (s.nextOf p)).info p = some t := by rw [link_info]; exact ht
    refine ⟨_, ?_, h.unlinked_behind⟩
    rw [if_neg hhead, hprev, ok_bind, get_of_info hy0 hu, ok_bind, if_pos hlink, get_of_info hp0 ht,
      ok_bind, setNext_ok hy0 hu, ok_bind, setNext_ok hp0 ht', ok_bind]
    rfl

/-- Removing a task from a list it is not on follows the null pointer. -/
theorem removeResult_null {xs : List ℕ} (h : ListOf s l xs) (hp0 : p ≠ 0) (hp : p ∉ xs) {fuel : ℕ}
    (hfuel : xs.length < fuel) : s.removeResult fuel l p = .error .nullDeref := by
  have hhead : s.head l ≠ p := by
    intro heq
    have hfirst := h.linked.head_eq
    rw [heq] at hfirst
    cases xs with
    | nil => exact hp0 hfirst
    | cons y xs => exact hp (by rw [hfirst]; simp)
  rw [removeResult, if_neg hhead, findPrev_null h.linked h.alloc hp0 hhead hp hfuel]
  rfl

/-- The loop of `remove_from_tasklist` ends only in front of `q`. -/
theorem findPrev_next {fuel x : ℕ} (h : s.findPrev q fuel x = .ok p) :
    ∃ u, s.get p = .ok u ∧ u.next = q := by
  induction fuel generalizing x with
  | zero => cases h
  | succ fuel ih =>
    rw [findPrev] at h
    cases hx : s.get x with
    | error e => rw [hx] at h; cases h
    | ok u =>
      rw [hx, ok_bind] at h
      split at h
      · next hu => exact ⟨u, by rw [← Except.ok.inj h]; exact hx, hu⟩
      · exact ih h

/-- The result of `remove_from_tasklist` is always 0. -/
theorem removeResult_eq (s : Kernel) (l : ListId) (p : ℕ) :
    s.removeResult s.fuel l p = (s.removeFromTasklist l p).map fun s' => (0, s') := by
  unfold removeResult removeFromTasklist
  split
  · cases s.get p with
    | error e => rfl
    | ok t =>
      simp only [ok_bind]
      cases (s.setHead l t.next).setNext p 0 <;> rfl
  · cases hprev : s.findPrev p s.fuel (s.head l) with
    | error e => rfl
    | ok y =>
      obtain ⟨u, hu, hnext⟩ := findPrev_next hprev
      simp only [ok_bind, hu, if_pos hnext]
      cases s.get p with
      | error e => rfl
      | ok t =>
        simp only [ok_bind]
        cases s.setNext y t.next with
        | error e => rfl
        | ok s₁ =>
          simp only [ok_bind]
          cases s₁.setNext p 0 <;> rfl

/-- The lists after the removal of `p` from the list `l`. -/
theorem Lists.removed (h : Lists s L) (hp : p ∈ L l) (hun : Unlinked s l (L l) p s') :
    Lists s' (Function.update L l ((L l).erase p)) := by
  have hsub : ∀ l' x, x ∈ Function.update L l ((L l).erase p) l' → x ∈ L l' := by
    intro l' x hx
    rw [Function.update_apply] at hx
    split at hx
    · next hl => rw [hl]; exact List.mem_of_mem_erase hx
    · exact hx
  refine ⟨fun l' => ?_, fun l' x hx => ?_, fun l₁ l₂ x h₁ h₂ => ?_, ?_⟩
  · by_cases hl' : l' = l
    · subst hl'; rw [Function.update_self]; exact hun.linked
    · rw [Function.update_of_ne hl', hun.heads l' hl']
      refine (h.linked l').congr fun x hx => ?_
      -- a task of another list is not on this one
      rw [nextOf, nextOf, hun.elsewhere x fun hmem => hl' (h.disjoint l' l x hx hmem)]
  · rw [hun.same.2]; exact h.alloc l' x (hsub l' x hx)
  · exact h.disjoint l₁ l₂ x (hsub l₁ x h₁) (hsub l₂ x h₂)
  · have htotal := total_update L l ((L l).erase p)
    have hlength := List.length_erase_of_mem hp
    have hfew := h.few
    have hmade : s'.made = s.made := congrArg Globals.made hun.same.1
    omega

/-- **`remove_from_tasklist`** of a task that is on the list. -/
theorem removeFromTasklist_ok (h : Lists s L) (hp : p ∈ L l) :
    ∃ s', s.removeFromTasklist l p = .ok s' ∧ s.SameInfo s' ∧
      Lists s' (Function.update L l ((L l).erase p)) := by
  obtain ⟨s', hs', hun⟩ := removeResult_ok (h.listOf l) hp (h.short l)
  rw [removeResult_eq] at hs'
  cases hrem : s.removeFromTasklist l p with
  | error e => rw [hrem] at hs'; cases hs'
  | ok s₁ =>
    rw [hrem] at hs'
    cases hs'
    exact ⟨_, rfl, hun.same, h.removed hp hun⟩

/-- Removing a task from a list it is not on follows the null pointer. -/
theorem removeFromTasklist_null (h : Lists s L) (hp0 : p ≠ 0) (hp : p ∉ L l) :
    s.removeFromTasklist l p = .error .nullDeref := by
  have hnull := removeResult_null (h.listOf l) hp0 hp (h.short l)
  rw [removeResult_eq] at hnull
  cases hrem : s.removeFromTasklist l p with
  | error e => rw [hrem] at hnull; exact congrArg _ (Except.error.inj hnull)
  | ok s₁ => rw [hrem] at hnull; cases hnull

/-! ### Search -/

theorem findPid_spec {pid : ℤ} {x : ℕ} {xs : List ℕ} (h : Linked 0 s.nextOf x xs)
    (halloc : ∀ y ∈ xs, ∃ t, s.info y = some t) {fuel : ℕ} (hfuel : xs.length < fuel) :
    (s.findPid pid fuel x = .ok none ∧ ∀ y ∈ xs, ∀ t, s.info y = some t → t.pid ≠ pid) ∨
      ∃ y ∈ xs, ∃ t, s.info y = some t ∧ t.pid = pid ∧ s.findPid pid fuel x = .ok (some y) := by
  obtain ⟨fuel, rfl⟩ : ∃ k, fuel = k + 1 := ⟨fuel - 1, by omega⟩
  induction xs generalizing x fuel with
  | nil =>
    rw [Linked.nil_iff] at h
    refine .inl ⟨?_, by simp⟩
    simp [findPid, h]
  | cons y xs ih =>
    obtain ⟨rfl, hx, hrest⟩ := h
    obtain ⟨t, ht⟩ := halloc x List.mem_cons_self
    simp only [findPid, if_neg hx, get_of_info hx ht, ok_bind]
    by_cases hpid : t.pid = pid
    · rw [if_pos hpid]
      exact .inr ⟨x, List.mem_cons_self, t, ht, hpid, rfl⟩
    · rw [if_neg hpid]
      obtain ⟨fuel, rfl⟩ : ∃ k, fuel = k + 1 := ⟨fuel - 1, by simp at hfuel; omega⟩
      rcases ih hrest (fun z hz => halloc z (List.mem_cons_of_mem _ hz)) fuel
        (by simp at hfuel; omega) with ⟨hnone, hall⟩ | ⟨z, hz, u, hu, hup, hsome⟩
      · refine .inl ⟨hnone, fun z hz u hu => ?_⟩
        rcases List.mem_cons.1 hz with rfl | hz
        · rw [ht, Option.some.injEq] at hu
          rw [← hu]; exact hpid
        · exact hall z hz u hu
      · exact .inr ⟨z, List.mem_cons_of_mem _ hz, u, hu, hup, hsome⟩

/-- **`find_process_by_pid`** finds a task of the list with that pid. -/
theorem findProcessByPid_spec (h : Lists s L) (l : ListId) (pid : ℤ) :
    (s.findProcessByPid pid l = .ok none ∧ ∀ y ∈ L l, ∀ t, s.info y = some t → t.pid ≠ pid) ∨
      ∃ y ∈ L l, ∃ t, s.info y = some t ∧ t.pid = pid ∧
        s.findProcessByPid pid l = .ok (some y) :=
  findPid_spec (h.linked l) (h.alloc l) (h.short l)

/-! ### Pids -/

/-- Pids are distinct and were given out; the null pointer is no task. -/
structure Pids (n : ℤ) (m : ℕ → Option TaskInfo) : Prop where
  null : m 0 = none
  inj : ∀ p q t u, m p = some t → m q = some u → t.pid = u.pid → p = q
  range : ∀ p t, m p = some t → 0 ≤ t.pid ∧ t.pid < n

end Kernel

end PlumOs
