import PlumOs.Proc.Killed

/-!
# What the other tasks leave alone of the cleaner

The cleaner sleeps on `sleep_task_list`, and `exit_st` wakes it up through the pointer `clear_zombie`.  As
long as pids are not given out twice, nobody else takes it off its list, whatever the others do.

* `Attended` : the cleaner is on this list, or on none, and nobody has its pid but itself;
* `Attended.move`, `Attended.free`, `Attended.born`, … : one lemma for each kind of change;
* `Attended.sleep`, `Attended.waitpid`, `Attended.schedule`, … : one for each function of the source;
* `Attended.step` : **a step in which nobody exits leaves it where it is**;
* `WakeLegal` : when `exit_st` brings `zombie_count` to 50, the cleaner is on `sleep_task_list`;
* `Attended.wakeLegal_iff`, `Attended.exitSt` : when that is so, and what `exit_st` does then.
-/

namespace PlumOs

namespace Kernel

/-- The task is the cleaner, with the pid `c`: it is no process, and was never killed. -/
structure Cleans (c : ℤ) (fs : List KFrame) (t : TaskInfo) : Prop where
  pid : t.pid = c
  mm : t.mm = false
  sigterm : t.sigterm = false
  frames : t.frames = fs

/-- What concerns the cleaner: its list, the task that runs, the number of orphans counted, and its
frames. -/
structure CleanerView where
  list : Option ListId
  current : ℕ
  count : ℤ
  frames : List KFrame

/-- The cleaner at `z`, with the pid `c`, is where the view says; nobody else has its pid, nor a father
with it, nor its frames. -/
structure Attended (z : ℕ) (c : ℤ) (v : CleanerView) (s : Kernel) : Prop where
  current : s.current = v.current
  clear : s.clearZombie = z
  count : s.zombieCount = v.count
  ne_zero : z ≠ 0
  pos : 0 < c
  clearing : v.frames.filter (· ≠ .schedule) = [.threadClear]
  lists : ∃ L, s.Lists L ∧ (∀ k, z ∈ L k ↔ v.list = some k) ∧ (v.list = none → total L < s.made)
  cleaner : ∃ t, s.info z = some t ∧ Cleans c v.frames t
  pids : Pids s.pidCount s.info
  childless : ∀ p t, s.info p = some t → t.ppid ≠ c
  sole : ∀ p t, s.info p = some t → .threadClear ∈ t.frames → p = z

variable {s s' s₁ s₂ : Kernel} {z p page : ℕ} {c : ℤ} {v v' : CleanerView} {k k' : ListId} {t t' : TaskInfo}
  {a : KAct}

namespace Attended

/-! ### Changes -/

/-- Assignments to the other globals. -/
theorem globals (h : Attended z c v s) {g : Globals} (hlist : v'.list = v.list)
    (hframes : v'.frames = v.frames) (hcur : g.current = v'.current) (hclear : g.clearZombie = z)
    (hcount : g.zombieCount = v'.count) (hmade : g.made = s.made) (hpids : g.pidCount = s.pidCount) :
    Attended z c v' { toGlobals := g, tasks := s.tasks, head := s.head } where
  current := hcur
  clear := hclear
  count := hcount
  ne_zero := h.ne_zero
  pos := h.pos
  clearing := by rw [hframes]; exact h.clearing
  lists := by
    obtain ⟨L, hL, hrest⟩ := h.lists
    rw [hlist, hmade]
    exact ⟨L, hL.globals hmade.ge, hrest⟩
  cleaner := by rw [hframes]; exact h.cleaner
  pids := by rw [hpids]; exact h.pids
  childless := h.childless
  sole := h.sole

/-- Nobody else has the pid. -/
theorem alone (h : Attended z c v s) (ht : s.info p = some t) (hpid : t.pid = c) : p = z := by
  obtain ⟨u, hu, hclean⟩ := h.cleaner
  exact h.pids.inj p z t u ht hu (hpid.trans hclean.pid.symm)

/-- An assignment to a task; only the cleaner's frames are in the view. -/
theorem assign (h : Attended z c v s) (ht : s.info p = some t) (ha : Assigned t t') {fs : List KFrame}
    (hz : p = z → Cleans c v.frames t → Cleans c fs t') (hne : p ≠ z → fs = v.frames)
    (hclearing : fs.filter (· ≠ .schedule) = [.threadClear]) :
    Attended z c { v with frames := fs } (s.assign p t') where
  current := h.current
  clear := h.clear
  count := h.count
  ne_zero := h.ne_zero
  pos := h.pos
  clearing := hclearing
  lists := by
    obtain ⟨L, hL, hrest⟩ := h.lists
    exact ⟨L, hL.assign, hrest⟩
  cleaner := by
    obtain ⟨u, hu, hclean⟩ := h.cleaner
    by_cases hp : p = z
    · subst hp
      obtain rfl := Option.some.inj (ht.symm.trans hu)
      exact ⟨t', assign_info_self, hz rfl hclean⟩
    · show ∃ t, (s.assign p t').info z = some t ∧ Cleans c fs t
      rw [hne hp]
      exact ⟨u, by rw [assign_info, Function.update_of_ne (Ne.symm hp)]; exact hu, hclean⟩
  pids := by
    rw [assign_info]
    exact h.pids.update ht ha.pid
  childless q u hu := by
    rw [assign_info] at hu
    rcases update_eq_some.1 hu with ⟨rfl, rfl⟩ | ⟨-, hu⟩
    · rw [ha.ppid]
      exact h.childless q t ht
    · exact h.childless q u hu
  sole q u hu hf := by
    rw [assign_info] at hu
    rcases update_eq_some.1 hu with ⟨rfl, rfl⟩ | ⟨-, hu⟩
    · exact h.sole q t ht (ha.clear hf)
    · exact h.sole q u hu hf

/-- An assignment through a pointer, that leaves the frames alone. -/
theorem modify (h : Attended z c v s) {f : TaskInfo → TaskInfo} (hs : s.modify p f = .ok s')
    (hf : ∀ t, Assigned t (f t)) (hz : p = z → ∀ t, s.info z = some t → Cleans c v.frames t →
      Cleans c v.frames (f t)) : Attended z c v s' := by
  obtain ⟨t, -, ht, rfl⟩ := modify_cases hs
  exact h.assign ht (hf t) (fun hp => hz hp t (hp ▸ ht)) (fun _ => rfl) h.clearing

/-- The same tasks on other lists. -/
theorem relist (h : Attended z c v s) (hsame : s.SameInfo s') {l : Option ListId}
    (hlists : ∃ L, s'.Lists L ∧ (∀ k, z ∈ L k ↔ l = some k) ∧ (l = none → total L < s'.made)) :
    Attended z c { v with list := l } s' where
  current := (congrArg Globals.current hsame.1).trans h.current
  clear := (congrArg Globals.clearZombie hsame.1).trans h.clear
  count := (congrArg Globals.zombieCount hsame.1).trans h.count
  ne_zero := h.ne_zero
  pos := h.pos
  clearing := h.clearing
  lists := hlists
  cleaner := by rw [hsame.2]; exact h.cleaner
  pids := by rw [congrArg Globals.pidCount hsame.1, hsame.2]; exact h.pids
  childless := by rw [hsame.2]; exact h.childless
  sole := by rw [hsame.2]; exact h.sole

/-- Another task changes lists. -/
theorem move (h : Attended z c v s) (hp : p ≠ z) (hne : k ≠ k')
    (hrem : s.removeFromTasklist k p = .ok s₁) (hadd : s₁.addToTasklist k' p = .ok s₂) :
    Attended z c v s₂ := by
  obtain ⟨L, hL, hz, hroom⟩ := h.lists
  obtain ⟨hmem, hsame, hL₂⟩ := move_cases hL hne hrem hadd
  refine h.relist hsame ⟨_, hL₂, fun j => ?_, fun hl => ?_⟩
  · rw [← hz j]
    refine ⟨fun hj => ?_, mem_moved_of_ne (Ne.symm hp)⟩
    rw [moved, Function.update_apply] at hj
    split at hj
    · next hjk =>
      rw [hjk]
      exact (List.mem_cons.1 hj).resolve_left (Ne.symm hp)
    · rw [Function.update_apply] at hj
      split at hj
      · next hjk =>
        rw [hjk]
        exact List.mem_of_mem_erase hj
      · exact hj
  · -- one list is shorter and one longer
    have hlength := List.length_erase_of_mem hmem
    have hpos := List.length_pos_of_mem hmem
    have hout := total_update L k ((L k).erase p)
    have hin := total_update (Function.update L k ((L k).erase p)) k' (p :: L k')
    rw [Function.update_of_ne hne.symm, List.length_cons] at hin
    have htotal := hroom hl
    rw [congrArg Globals.made hsame.1]
    unfold moved
    omega

/-- The cleaner is taken off its list. -/
theorem removeSelf (h : Attended z c v s) (hrem : s.removeFromTasklist k z = .ok s₁) :
    Attended z c { v with list := none } s₁ := by
  obtain ⟨L, hL, hz, -⟩ := h.lists
  obtain ⟨hmem, hsame, hL₁⟩ := remove_cases hL hrem
  refine h.relist hsame ⟨_, hL₁, fun j => iff_of_false (fun hj => ?_) nofun, fun _ => ?_⟩
  · rw [Function.update_apply] at hj
    split at hj
    · exact ((hL.linked k).nodup.mem_erase_iff.1 hj).1 rfl
    · next hne => exact hne (hL.disjoint _ _ z hj hmem)
  · have hlength := List.length_erase_of_mem hmem
    have hpos := List.length_pos_of_mem hmem
    have hout := total_update L k ((L k).erase z)
    have hfew := hL.few
    rw [congrArg Globals.made hsame.1]
    omega

/-- The cleaner is put on a list. -/
theorem addSelf (h : Attended z c v s) (hnone : v.list = none) (hadd : s.addToTasklist k z = .ok s₁) :
    Attended z c { v with list := some k } s₁ := by
  obtain ⟨L, hL, hz, hroom⟩ := h.lists
  obtain ⟨t, ht, -⟩ := h.cleaner
  have hfree : ∀ j, z ∉ L j := by
    intro j hj
    rw [hz j, hnone] at hj
    cases hj
  obtain ⟨s₂, hs₂, hsame, hL₂⟩ := addToTasklist_ok (l := k) hL h.ne_zero ht hfree (hroom hnone)
  obtain rfl := Except.ok.inj (hs₂.symm.trans hadd)
  refine h.relist hsame ⟨_, hL₂, fun j => ?_, nofun⟩
  rw [Function.update_apply, Option.some.injEq]
  split
  · next hj => exact iff_of_true List.mem_cons_self hj.symm
  · next hj => exact iff_of_false (hfree j) (Ne.symm hj)

theorem wakeup (h : Attended z c v s) (hp : p ≠ z) (hk : k ≠ .taskHeadp)
    (hs : s.wakeup k p = .ok s') : Attended z c v s' := by
  rw [Kernel.wakeup, Kernel.moveActive] at hs
  split at hs
  · cases hs
  obtain ⟨s₁, hmod, hmove⟩ := bind_eq_ok.1 hs
  obtain ⟨s₂, hrem, hadd⟩ := bind_eq_ok.1 hmove
  have h₁ := h.modify hmod (fun _ => ⟨rfl, rfl, id, id⟩) fun hpz => absurd hpz hp
  exact h₁.move hp hk hrem hadd

/-- A zombie goes away. -/
theorem free (h : Attended z c v s) (hl : v.list ≠ some .zombieList)
    (hs : s.freeProcess p = .ok s') : Attended z c v s' := by
  obtain ⟨L, hL, hz, hroom⟩ := h.lists
  have hfreed := freeProcess_cases hL hs
  have hglobals := hfreed.globals
  have hp : z ≠ p := by
    rintro rfl
    exact hl ((hz _).1 hfreed.mem)
  have hback : ∀ q u, s'.info q = some u → s.info q = some u := by
    intro q u hu
    have hq : q ≠ p := by
      rintro rfl
      rw [hfreed.info, Function.update_self] at hu
      cases hu
    rwa [hfreed.info, Function.update_of_ne hq] at hu
  exact {
    current := (congrArg Globals.current hglobals).trans h.current
    clear := (congrArg Globals.clearZombie hglobals).trans h.clear
    count := (congrArg Globals.zombieCount hglobals).trans h.count
    ne_zero := h.ne_zero
    pos := h.pos
    clearing := h.clearing
    lists := by
      refine ⟨_, hfreed.lists, fun j => ?_, fun hn => ?_⟩
      · rw [← hz j, Function.update_apply]
        split
        · next hj => rw [hj]; exact List.mem_erase_of_ne hp
        · exact Iff.rfl
      · have hlength := List.length_erase_of_mem hfreed.mem
        have hout := total_update L .zombieList ((L .zombieList).erase p)
        have htotal := hroom hn
        rw [hglobals]
        omega
    cleaner := by
      rw [hfreed.info, Function.update_of_ne hp]
      exact h.cleaner
    pids := by
      rw [congrArg Globals.pidCount hglobals]
      exact h.pids.of_older fun q u hu => ⟨u, hback q u hu, rfl⟩
    childless := fun q u hu => h.childless q u (hback q u hu)
    sole := fun q u hu => h.sole q u (hback q u hu) }

/-- A task is made, while there is a pid for it. -/
theorem born (h : Attended z c v s) (hroom : s.pidCount + 1 < 2 ^ 31) (hborn : s.Born page t s')
    (hplain : .threadClear ∉ t.frames) : Attended z c v s' := by
  obtain ⟨L, hL, hz, hfew⟩ := h.lists
  obtain ⟨hpage, hnone, hinfo⟩ := hborn.info_eq
  obtain ⟨u, hu, hclean⟩ := h.cleaner
  have hzp : z ≠ page := by
    rintro rfl
    rw [hnone] at hu
    cases hu
  have hglobals := hborn.globals
  have hrange := h.pids.range z u hu
  have hpos := h.pos
  have hnext : s'.pidCount = s.pidCount + 1 := by
    rw [hglobals]
    exact wrap32_of_mem (by omega) hroom
  have hmade : s'.made = s.made + 1 := by rw [hglobals]
  have hone : ∀ q w, s'.info q = some w → q = page ∧ w = t ∨ s.info q = some w := by
    intro q w hw
    rw [hinfo] at hw
    rcases update_eq_some.1 hw with ⟨hq, hw⟩ | ⟨-, hw⟩
    · exact .inl ⟨hq, hw⟩
    · exact .inr hw
  exact {
    current := by rw [hglobals]; exact h.current
    clear := by rw [hglobals]; exact h.clear
    count := by rw [hglobals]; exact h.count
    ne_zero := h.ne_zero
    pos := h.pos
    clearing := h.clearing
    lists := by
      refine ⟨_, born_lists hL hborn, fun j => ?_, fun hn => ?_⟩
      · rw [← hz j, Function.update_apply]
        split
        · next hj =>
          rw [hj, List.mem_cons]
          exact ⟨fun hor => hor.resolve_left hzp, .inr⟩
        · exact Iff.rfl
      · have hin := total_update L .taskHeadp (page :: L .taskHeadp)
        rw [List.length_cons] at hin
        have htotal := hfew hn
        omega
    cleaner := ⟨u, by rw [hinfo, Function.update_of_ne hzp]; exact hu, hclean⟩
    pids := by
      rw [hnext, hinfo]
      exact h.pids.born hpage hborn.pid (by omega)
    childless := by
      intro q w hw
      rcases hone q w hw with ⟨rfl, rfl⟩ | hw
      · rcases hborn.father with hzero | ⟨f, hf, hmm, hppid⟩
        · omega
        · -- the father is a process, so it is not the cleaner
          rw [hppid]
          intro hc
          have hfz := h.alone (info_of_tasks hf) hc
          rw [← hfz, info_of_tasks hf] at hu
          obtain rfl := Option.some.inj hu
          exact absurd (hmm.symm.trans hclean.mm) (by decide)
      · exact h.childless q w hw
    sole := by
      intro q w hw hf
      rcases hone q w hw with ⟨rfl, rfl⟩ | hw
      · exact absurd hf hplain
      · exact h.sole q w hw hf }

/-! ### The functions of the source -/

/-- A frame of the task that runs, unless it is one of the cleaner's. -/
theorem away (h : Attended z c v s) {f : KFrame} (hin : s.Innermost f) (hf : f ≠ .schedule)
    (hf' : f ≠ .threadClear) : v.current ≠ z := by
  intro hcur
  obtain ⟨t, ht, hclean⟩ := h.cleaner
  obtain ⟨u, fs, hu, hframes⟩ := hin
  rw [h.current, hcur] at hu
  obtain rfl := Option.some.inj (ht.symm.trans hu)
  have hmem : f ∈ v.frames.filter (· ≠ .schedule) := by
    rw [← hclean.frames, hframes]
    exact List.mem_filter.2 ⟨List.mem_cons_self, by simpa using hf⟩
  rw [h.clearing] at hmem
  exact hf' (List.mem_singleton.1 hmem)

theorem away_of_user (h : Attended z c v s) (huser : s.UserMode) : v.current ≠ z := by
  intro hcur
  obtain ⟨t, ht, hclean⟩ := h.cleaner
  obtain ⟨u, hu, -, hmm⟩ := huser
  rw [h.current, hcur] at hu
  obtain rfl := Option.some.inj (ht.symm.trans (info_of_tasks hu))
  exact absurd (hmm.symm.trans hclean.mm) (by decide)

/-- The task that is taken off another list. -/
theorem ne_of_remove (h : Attended z c v s) (hl : v.list ≠ some k)
    (hrem : s.removeFromTasklist k p = .ok s₁) : p ≠ z := by
  obtain ⟨L, hL, hz, -⟩ := h.lists
  rintro rfl
  exact hl ((hz k).1 (mem_of_remove hL hrem))

/-- A call of `schedule`. -/
theorem pushSchedule (h : Attended z c v s) (hs : s.pushFrame .schedule = .ok s') :
    Attended z c { v with frames := if v.current = z then .schedule :: v.frames else v.frames } s' := by
  obtain ⟨t, -, ht, rfl⟩ := modify_cases hs
  have ha : Assigned t { t with frames := .schedule :: t.frames } :=
    ⟨rfl, rfl, id, fun hmem => (List.mem_cons.1 hmem).resolve_left nofun⟩
  refine h.assign ht ha (fun hcur hclean => ?_) (fun hcur => if_neg ?_) ?_
  · rw [if_pos (h.current.symm.trans hcur)]
    exact ⟨hclean.pid, hclean.mm, hclean.sigterm, congrArg _ hclean.frames⟩
  · rwa [← h.current]
  · split
    · exact h.clearing
    · exact h.clearing

/-- The end of a call of `schedule`. -/
theorem popSchedule (h : Attended z c v s) (hin : s.Innermost .schedule) (hs : s.popFrame = .ok s') :
    Attended z c { v with frames := if v.current = z then v.frames.tail else v.frames } s' := by
  obtain ⟨t, -, ht, rfl⟩ := modify_cases hs
  have ha : Assigned t { t with frames := t.frames.tail } := ⟨rfl, rfl, id, List.mem_of_mem_tail⟩
  obtain ⟨u, fs, hu, hf⟩ := hin
  obtain rfl := Option.some.inj (ht.symm.trans hu)
  refine h.assign ht ha (fun hcur hclean => ?_) (fun hcur => if_neg ?_) ?_
  · rw [if_pos (h.current.symm.trans hcur)]
    exact ⟨hclean.pid, hclean.mm, hclean.sigterm, congrArg List.tail hclean.frames⟩
  · rwa [← h.current]
  · split
    · next hcur =>
      obtain ⟨w, hw, hclean⟩ := h.cleaner
      rw [← hcur, ← h.current] at hw
      obtain rfl := Option.some.inj (ht.symm.trans hw)
      have hclearing := h.clearing
      rw [← hclean.frames, hf] at hclearing ⊢
      exact hclearing
    · exact h.clearing

/-- The frames of another task. -/
theorem pushFrame (h : Attended z c v s) (hcur : v.current ≠ z) {f : KFrame}
    (hs : s.pushFrame f = .ok s') (hf : f ≠ .threadClear) : Attended z c v s' := by
  refine h.modify hs (fun t => ⟨rfl, rfl, id, fun hmem => ?_⟩) fun hz => ?_
  · exact (List.mem_cons.1 hmem).resolve_left hf.symm
  · exact absurd (h.current.symm.trans hz) hcur

theorem popFrame (h : Attended z c v s) (hcur : v.current ≠ z) (hs : s.popFrame = .ok s') :
    Attended z c v s' :=
  h.modify hs (fun _ => ⟨rfl, rfl, id, List.mem_of_mem_tail⟩)
    fun hz => absurd (h.current.symm.trans hz) hcur

theorem sleep (h : Attended z c v s) (hcur : v.current ≠ z) (hk : k ≠ .taskHeadp)
    (hs : s.sleep k = .ok s') : Attended z c v s' := by
  rw [Kernel.sleep] at hs
  obtain ⟨s₁, hrem, hs₁⟩ := bind_eq_ok.1 hs
  obtain ⟨s₂, hadd, hs₂⟩ := bind_eq_ok.1 hs₁
  obtain ⟨s₃, hmod, hpush⟩ := bind_eq_ok.1 hs₂
  have hcur₁ : s₁.current = s.current :=
    congrArg Globals.current ((removeFromTasklist_globals s _ _).of_eq_ok hrem)
  rw [hcur₁] at hadd
  have h₂ := h.move (by rw [h.current]; exact hcur) hk.symm hrem hadd
  have h₃ := h₂.modify hmod (fun _ => ⟨rfl, rfl, id, id⟩)
    fun hz => absurd (h₂.current.symm.trans hz) hcur
  exact h₃.pushFrame hcur hpush (by decide)

theorem moveActive (h : Attended z c v s) (hl : v.list ≠ some k) (hk : k ≠ .taskHeadp)
    (hs : s.moveActive k p = .ok s') : Attended z c v s' := by
  rw [Kernel.moveActive] at hs
  obtain ⟨s₁, hmod, hmove⟩ := bind_eq_ok.1 hs
  obtain ⟨s₂, hrem, hadd⟩ := bind_eq_ok.1 hmove
  have h₁ := h.modify hmod (fun _ => ⟨rfl, rfl, id, id⟩)
    fun _ _ _ hclean => ⟨hclean.pid, hclean.mm, hclean.sigterm, hclean.frames⟩
  exact h₁.move (h₁.ne_of_remove hl hrem) hk hrem hadd

theorem wakeupFrom (h : Attended z c v s) (hl : v.list ≠ some k) (hk : k ≠ .taskHeadp) {fuel : ℕ}
    (hs : wakeupFrom k fuel p s = .ok s') : Attended z c v s' := by
  induction fuel generalizing p s with
  | zero => cases hs
  | succ fuel ih =>
    rw [wakeupFrom_def] at hs
    split at hs
    · obtain rfl := Except.ok.inj hs
      exact h
    · obtain ⟨t, hget, hs₁⟩ := bind_eq_ok.1 hs
      obtain ⟨s₁, hmove, hrest⟩ := bind_eq_ok.1 hs₁
      exact ih (h.moveActive hl hk hmove) hrest

theorem killByPid (h : Attended z c v s) {pid sig : ℤ} (hs : s.killByPid pid sig = .ok s') :
    Attended z c v s' := by
  rw [Kernel.killByPid] at hs
  obtain ⟨found, -, hs₁⟩ := bind_eq_ok.1 hs
  cases found with
  | none =>
    obtain rfl := Except.ok.inj hs₁
    exact h
  | some q =>
    obtain ⟨t, hget, hs₂⟩ := bind_eq_ok.1 hs₁
    clear hs hs₁
    split at hs₂
    · obtain rfl := Except.ok.inj hs₂
      exact h
    · next hmm =>
      split at hs₂
      · refine h.modify hs₂ (fun _ => ⟨rfl, rfl, fun _ => rfl, id⟩) fun hq u hu hclean => absurd ?_ hmm
        rw [hq] at hget
        obtain rfl := Option.some.inj (hu.symm.trans (info_of_tasks (get_eq_ok hget)))
        exact hclean.mm
      · obtain rfl := Except.ok.inj hs₂
        exact h

theorem waitpid (h : Attended z c v s) (hcur : v.current ≠ z) {pid : ℤ}
    (hs : s.waitpid pid = .ok s') : Attended z c v s' := by
  rw [Kernel.waitpid] at hs
  obtain ⟨t, -, hs₁⟩ := bind_eq_ok.1 hs
  obtain ⟨child, -, hs₂⟩ := bind_eq_ok.1 hs₁
  cases child with
  | none =>
    obtain rfl := Except.ok.inj hs₂
    exact h.globals rfl rfl h.current h.clear h.count rfl rfl
  | some q =>
    obtain ⟨s₁, hmod, hs₃⟩ := bind_eq_ok.1 hs₂
    obtain ⟨s₂, hpush, hsleep⟩ := bind_eq_ok.1 hs₃
    have h₁ := h.modify hmod (fun _ => ⟨rfl, rfl, id, id⟩)
      fun _ _ _ hclean => ⟨hclean.pid, hclean.mm, hclean.sigterm, hclean.frames⟩
    exact (h₁.pushFrame hcur hpush (by simp)).sleep hcur (by decide) hsleep

theorem waitpidReturn (h : Attended z c v s) (hcur : v.current ≠ z) (hl : v.list ≠ some .zombieList)
    {child : ℕ} (hs : s.waitpidReturn child = .ok s') : Attended z c v s' := by
  rw [Kernel.waitpidReturn] at hs
  obtain ⟨t, -, hs₁⟩ := bind_eq_ok.1 hs
  obtain ⟨u, -, hs₂⟩ := bind_eq_ok.1 hs₁
  obtain ⟨s₁, hfree, hs₃⟩ := bind_eq_ok.1 hs₂
  obtain ⟨s₂, hpop, hs₄⟩ := bind_eq_ok.1 hs₃
  obtain rfl := Except.ok.inj hs₄
  have h₂ := (h.free hl hfree).popFrame hcur hpop
  exact h₂.globals rfl rfl h₂.current h₂.clear h₂.count rfl rfl

theorem ctrlC (h : Attended z c v s) (hs : s.ctrlC = .ok s') : Attended z c v s' := by
  rw [Kernel.ctrlC] at hs
  split at hs
  · obtain ⟨q, -, hs₁⟩ := bind_eq_ok.1 hs
    obtain ⟨t, -, hkill⟩ := bind_eq_ok.1 hs₁
    exact h.killByPid hkill
  · obtain ⟨t, -, hs₁⟩ := bind_eq_ok.1 hs
    clear hs
    split at hs₁
    · exact h.killByPid hs₁
    · obtain rfl := Except.ok.inj hs₁
      exact h

theorem newline (h : Attended z c v s) (hl : v.list ≠ some .waitStdinList)
    (hs : s.newline = .ok s') : Attended z c v s' := by
  have hready : Attended z c v { s with bufReady := true } :=
    h.globals rfl rfl h.current h.clear h.count rfl rfl
  rw [Kernel.newline] at hs
  simp only at hs
  split at hs
  · exact hready.wakeupFrom hl (by decide) hs
  · obtain rfl := Except.ok.inj hs
    exact hready

theorem kernelThread (h : Attended z c v s) (hroom : s.pidCount + 1 < 2 ^ 31) {f : List KFrame}
    (hf : .threadClear ∉ f) {pid : ℤ} (hs : s.kernelThread page f = .ok (pid, s')) :
    Attended z c v s' := by
  obtain ⟨t, hborn, htf⟩ := (kernelThread_born s f).of_eq_ok hs
  exact h.born hroom hborn (by rw [htf]; exact hf)

theorem fork (h : Attended z c v s) (hroom : s.pidCount + 1 < 2 ^ 31) (huser : s.UserMode)
    (hs : s.fork page = .ok s') : Attended z c v s' := by
  obtain ⟨u, hu, -, hmm⟩ := huser
  rw [Kernel.fork] at hs
  obtain ⟨w, hget, hs₁⟩ := bind_eq_ok.1 hs
  obtain ⟨s₁, hnew, hadd⟩ := bind_eq_ok.1 hs₁
  obtain rfl : u = w := Option.some.inj (hu.symm.trans (get_eq_ok hget))
  exact h.born hroom ⟨⟨s₁, hnew, hadd⟩, rfl, rfl, .inr ⟨u, hu, hmm, rfl⟩⟩ List.not_mem_nil

/-- `select_task_struct` returns the cleaner only if it is ready. -/
theorem ready_of_select (h : Attended z c v s) (hsel : s.selectTaskStruct = .ok z) :
    v.list = some .taskHeadp := by
  obtain ⟨L, hL, hz, -⟩ := h.lists
  rw [← hz]
  rcases selectTaskStruct_cases hL hsel with hready | ⟨hcur, -, -, t, q, u, ht, hq, hu, hpid⟩
  · exact hready
  · -- no other task has the pid of the caller
    obtain rfl := h.pids.inj _ _ _ _ hu ht hpid
    exact absurd hq hcur

/-- The task that calls `exit_st` is not the cleaner. -/
theorem exits (h : Attended z c v s) {status : ℤ} (hx : s.Exits a s₁ p status) :
    Attended z c v s₁ ∧ p ≠ z := by
  have huser : s.UserMode → s.current ≠ z := fun hu => by
    rw [h.current]
    exact h.away_of_user hu
  cases hx with
  | killed hin hsel hget hsig =>
    refine ⟨h, ?_⟩
    rintro rfl
    obtain ⟨t, ht, hclean⟩ := h.cleaner
    obtain rfl := Option.some.inj (ht.symm.trans (info_of_tasks (get_eq_ok hget)))
    exact absurd (hsig.symm.trans hclean.sigterm) (by decide)
  | init hin hpop =>
    have hcur := h.away hin nofun nofun
    have h₁ := h.popFrame hcur hpop
    exact ⟨h₁, by rw [h₁.current]; exact hcur⟩
  | exit hu => exact ⟨h, huser hu⟩
  | execve hu => exact ⟨h, huser hu⟩
  | segfault hu => exact ⟨h, huser hu⟩

/-! ### Steps -/

/-- The step leaves the cleaner alone, but may select it if it is ready; or somebody exits. -/
def Leaves (z : ℕ) (c : ℤ) (v : CleanerView) (s : Kernel) (a : KAct) (s' : Kernel) : Prop :=
  (∃ v' : CleanerView, Attended z c v' s' ∧ v'.list = v.list ∧ v'.count = v.count ∧
    (v'.current = z → v'.frames.head? = some .threadClear →
      v.list = some .taskHeadp ∨ v.current = z ∧ v.frames.head? = some .threadClear)) ∨
    ∃ s₁ q status, s.Exits a s₁ q status ∧ s₁.exitSt q status = .ok s'

theorem leaves (h : Attended z c v s') : Leaves z c v s a s' :=
  .inl ⟨v, h, rfl, rfl, fun hcur hf => .inr ⟨hcur, hf⟩⟩

theorem leaves_pushSchedule (h : Attended z c v s) (hs : s.pushFrame .schedule = .ok s') :
    Leaves z c v s a s' := by
  refine .inl ⟨_, h.pushSchedule hs, rfl, rfl, fun hcur hf => ?_⟩
  simp only at hcur hf
  rw [if_pos hcur] at hf
  cases hf

/-- `schedule`: the selected task runs, or it was killed and exits. -/
theorem schedule (h : Attended z c v s) (hin : s.Innermost .schedule) {outcome : Bool}
    (hs : s.schedule = .ok s') : Leaves z c v s (.kernel page outcome) s' := by
  obtain ⟨next, u, hsel, hu, ⟨hsig, hexit⟩ | ⟨-, s₁, hpop, rfl⟩⟩ := schedule_cases hs
  · have hget : s.get next = .ok u := by
      rw [exitSt] at hexit
      obtain ⟨w, hget, -⟩ := bind_eq_ok.1 hexit
      rw [hget, Option.some.inj (hu.symm.trans (get_eq_ok hget))]
    exact .inr ⟨s, next, 1, .killed hin hsel hget hsig, hexit⟩
  · have h₁ := h.popSchedule hin hpop
    refine .inl ⟨{ v with
      current := next
      frames := if v.current = z then v.frames.tail else v.frames },
      h₁.globals rfl rfl rfl h₁.clear h₁.count rfl rfl, rfl, rfl, fun hnext _ => .inl ?_⟩
    simp only at hnext
    rw [hnext] at hsel
    exact h.ready_of_select hsel

/-- Execution of the innermost frame, unless it is the cleaner's. -/
theorem kernelStep (h : Attended z c v s) (hl : v.list ≠ some .zombieList) {f : KFrame}
    (hin : s.Innermost f) (hf : f ≠ .threadClear) {outcome : Bool}
    (hroom : s.PidRoom (.kernel page outcome)) (hs : s.kernelStep page outcome f = .ok s') :
    Leaves z c v s (.kernel page outcome) s' := by
  cases f with
  | schedule => exact h.schedule hin hs
  | threadClear => exact absurd rfl hf
  | waitFree child =>
    have hcur := h.away hin (by simp) (by simp)
    exact leaves (h.waitpidReturn hcur hl hs)
  | readStdin =>
    have hcur := h.away hin (by decide) (by decide)
    rw [Kernel.kernelStep] at hs
    split at hs
    · have hready : Attended z c v { s with bufReady := !outcome } :=
        h.globals rfl rfl h.current h.clear h.count rfl rfl
      exact leaves (hready.popFrame hcur hs)
    · exact leaves (h.sleep hcur (by decide) hs)
  | runInit =>
    have hcur := h.away hin (by decide) (by decide)
    rw [Kernel.kernelStep] at hs
    obtain ⟨s₁, hpop, hs₁⟩ := bind_eq_ok.1 hs
    clear hs
    cases outcome with
    | true =>
      rw [if_pos rfl] at hs₁
      have h₁ := h.popFrame hcur hpop
      refine leaves (h₁.modify hs₁ (fun _ => ⟨rfl, rfl, id, id⟩) fun hz => ?_)
      exact absurd (h₁.current.symm.trans hz) hcur
    | false =>
      rw [if_neg Bool.false_ne_true] at hs₁
      exact .inr ⟨s₁, s₁.current, 1, .init hin hpop, hs₁⟩
  | mainWait kinit =>
    have hcur := h.away hin (by simp) (by simp)
    obtain ⟨s₁, hpop, hs₁⟩ := bind_eq_ok.1 hs
    obtain ⟨s₂, hpush, hwait⟩ := bind_eq_ok.1 hs₁
    have h₂ := (h.popFrame hcur hpop).pushFrame hcur hpush (by simp)
    exact leaves (h₂.waitpid hcur hwait)
  | mainRespawn =>
    have hcur := h.away hin (by decide) (by decide)
    have hpids : s.pidCount + 1 < 2 ^ 31 := hroom hin
    obtain ⟨s₁, hpop, hs₁⟩ := bind_eq_ok.1 hs
    obtain ⟨⟨kinit, s₂⟩, hthread, hs₂⟩ := bind_eq_ok.1 hs₁
    obtain ⟨s₃, hpush, hpush'⟩ := bind_eq_ok.1 hs₂
    have hcount : s₁.pidCount = s.pidCount := by
      obtain ⟨t, -, -, rfl⟩ := modify_cases hpop
      rfl
    have h₂ := (h.popFrame hcur hpop).kernelThread (by rw [hcount]; exact hpids) (by decide) hthread
    have h₃ := h₂.pushFrame hcur hpush (by simp)
    exact leaves (h₃.pushFrame hcur hpush' (by simp))

theorem userStep (h : Attended z c v s) (huser : s.UserMode) (hroom : s.PidRoom a)
    (hs : s.userStep a = .ok s') : Leaves z c v s a s' := by
  have hcur := h.away_of_user huser
  cases a with
  | fork page => exact leaves (h.fork (hroom trivial) huser hs)
  | exit status => exact .inr ⟨s, s.current, status, .exit huser, hs⟩
  | kill pid sig => exact leaves (h.killByPid hs)
  | wait4 pid => exact leaves (h.waitpid hcur hs)
  | read => exact leaves (h.pushFrame hcur hs nofun)
  | execve found =>
    cases found with
    | true =>
      obtain rfl := Except.ok.inj hs
      exact leaves h
    | false => exact .inr ⟨s, s.current, 1, .execve huser, hs⟩
  | segfault => exact .inr ⟨s, s.current, -1, .segfault huser, hs⟩
  | _ => cases hs

/-- **What a step of the others does**: it leaves the cleaner alone, or somebody exits. -/
theorem step (h : Attended z c v s) (hl : v.list ≠ some .waitStdinList)
    (hl' : v.list ≠ some .zombieList)
    (hother : ∀ page outcome, a = .kernel page outcome → ¬ s.Innermost .threadClear)
    (hroom : s.PidRoom a) (hs : s.step a = .ok s') : Leaves z c v s a s' := by
  rw [Kernel.step] at hs
  obtain ⟨t, hget, hs₁⟩ := bind_eq_ok.1 hs
  have ht := get_eq_ok hget
  clear hs
  split at hs₁
  · next page outcome f fs hf =>
    have hin : s.Innermost f := ⟨t.toTaskInfo, fs, info_of_tasks ht, hf⟩
    refine h.kernelStep hl' hin ?_ hroom hs₁
    rintro rfl
    exact hother page outcome rfl hin
  · cases hs₁
  · cases hs₁
  · exact h.leaves_pushSchedule hs₁
  · cases hs₁
  · exact leaves (h.newline hl hs₁)
  · cases hs₁
  · exact leaves (h.ctrlC hs₁)
  · next hf =>
    split at hs₁
    · next hmm => exact h.userStep ⟨t, ht, hf, hmm⟩ hroom hs₁
    · cases hs₁
  · cases hs₁

end Attended

/-! ### The end of a task -/

variable {L : ListId → List ℕ} {status pid : ℤ}

/-- The task is an orphan when it exits: nobody has waited for it, or nobody on `sleep_task_list` has the
pid of its father. -/
def Orphans (s : Kernel) (p : ℕ) : Prop :=
  ∃ t, s.info p = some t ∧ (t.orphan = true ∨ t.waited = false ∨
    s.findProcessByPid t.ppid .sleepTaskList = .ok none)

/-- The step is the exit of an orphan. -/
def OrphanExits (s : Kernel) (a : KAct) : Prop :=
  ∃ s₁ p status, s.Exits a s₁ p status ∧ s₁.On .taskHeadp p ∧ s₁.Orphans p

/-- **Waking the cleaner is legal**: when `exit_st` brings `zombie_count` to 50, the cleaner is on
`sleep_task_list`, so that `wakeup` finds it. -/
def WakeLegal (s : Kernel) (a : KAct) : Prop :=
  ∀ s₁ p status s₂ u, s.Exits a s₁ p status → s₁.exitToCount p status = .ok s₂ → s₂.get p = .ok u →
    u.orphan = true → wrap32 (s₂.zombieCount + 1) = 50 →
      s₂.On .sleepTaskList s₂.clearZombie ∧ ∃ s₃, s₂.countOrphan = .ok s₃

theorem find_none_iff (h : Lists s L) : s.findProcessByPid pid k = .ok none ↔
    ∀ q ∈ L k, ∀ t, s.info q = some t → t.pid ≠ pid := by
  rcases findProcessByPid_spec h k pid with ⟨hnone, hall⟩ | ⟨q, hq, t, ht, hpid, hsome⟩
  · exact iff_of_true hnone hall
  · refine iff_of_false (fun hnone => ?_) fun hall => hall q hq t ht hpid
    rw [hsome] at hnone
    cases hnone

theorem wakeup_returns (h : Lists s L) (hp : p ∈ L k) (hk : k ≠ .taskHeadp) :
    ∃ s', s.wakeup k p = .ok s' := by
  obtain ⟨t, ht⟩ := h.alloc k p hp
  have hL : Lists (s.assign p { t with state := .active }) L := h.assign
  obtain ⟨s₁, s₂, hrem, hadd, -⟩ := move_ok hL hp hk
  refine ⟨s₂, ?_⟩
  rw [wakeup, if_neg (h.ne_zero hp), moveActive]
  show (s.modify p _ >>= _) = _
  rw [modify_ok (h.ne_zero hp) ht, ok_bind, hrem, ok_bind, hadd]

/-- What `exit_st` decides about a task that is on none of the lists of the living. -/
theorem tellFather_orphan (h : Lists s L) (hp : p ∈ L .zombieList) (ht : s.info p = some t) :
    ∃ s' u, s.tellFather p = .ok s' ∧ s'.get p = .ok u ∧ (u.orphan = true ↔ t.orphan = true ∨
      t.waited = false ∨ s.findProcessByPid t.ppid .sleepTaskList = .ok none) := by
  have hp0 := h.ne_zero hp
  have hmark : ∃ u, (s.assign p { t with orphan := true }).get p = .ok u ∧ u.orphan = true :=
    ⟨_, get_of_info hp0 assign_info_self, rfl⟩
  rw [tellFather, get_of_info hp0 ht, ok_bind]
  cases hw : t.waited with
  | false =>
    obtain ⟨u, hu, ho⟩ := hmark
    refine ⟨_, u, ?_, hu, iff_of_true ho (.inr (.inl rfl))⟩
    rw [if_neg Bool.false_ne_true, modify_ok hp0 ht]
  | true =>
    rw [if_pos rfl]
    rcases findProcessByPid_spec h .sleepTaskList t.ppid with ⟨hnone, -⟩ | ⟨f, hf, v, hv, -, hsome⟩
    · obtain ⟨u, hu, ho⟩ := hmark
      refine ⟨_, u, ?_, hu, iff_of_true ho (.inr (.inr hnone))⟩
      rw [hnone, ok_bind]
      exact modify_ok hp0 ht _
    · obtain ⟨s', hs'⟩ := wakeup_returns h hf (by decide)
      obtain ⟨w, hw', hinfo⟩ := (wakeup_cases h (by decide) hs').info
      have hpf : p ≠ f := by
        rintro rfl
        exact absurd (h.disjoint _ _ p hp hf) (by decide)
      refine ⟨s', _, ?_, get_of_info hp0 (t := t) ?_, ?_⟩
      · rw [hsome, ok_bind]
        exact hs'
      · rw [hinfo, Function.update_of_ne hpf]
        exact ht
      · rw [hsome]
        simp

/-- **`exit_st` makes an orphan of a task** exactly if nobody waits for it. -/
theorem exitToCount_orphan (h : Lists s L) (hp : p ∈ L .taskHeadp) (status : ℤ) :
    ∃ s₂ u, s.exitToCount p status = .ok s₂ ∧ s₂.get p = .ok u ∧ (u.orphan = true ↔ s.Orphans p) := by
  have hp0 := h.ne_zero hp
  obtain ⟨t, ht⟩ := h.alloc _ p hp
  obtain ⟨s₀, hs₀⟩ : ∃ s₀ : Kernel, s₀ = { s with exitLog := (t.pid, status) :: s.exitLog } := ⟨_, rfl⟩
  have ht₀ : s₀.info p = some t := by rw [hs₀]; exact ht
  have hL₀ : Lists s₀ L := by rw [hs₀]; exact h.globals le_rfl
  have hdead : Lists (s₀.assign p { t with exitStatus := status, state := .zombie }) L := hL₀.assign
  have hne : ListId.taskHeadp ≠ .zombieList := by decide
  obtain ⟨s₁, s₂, hrem, hadd, -, hsame, hL₂⟩ := move_ok hdead hp hne
  have hinfo : s₂.info = Function.update s.info p
      (some { t with exitStatus := status, state := .zombie }) := by
    rw [hsame.2, assign_info, hs₀]
    rfl
  obtain ⟨s₃, u, htell, hu, horphan⟩ := tellFather_orphan hL₂ mem_moved_self
    (t := { t with exitStatus := status, state := .zombie }) (by rw [hinfo, Function.update_self])
  refine ⟨s₃, u, ?_, hu, horphan.trans ?_⟩
  · rw [exitToCount, get_of_info hp0 ht, ok_bind]
    simp only [← hs₀]
    rw [modify_ok hp0 ht₀, ok_bind, hrem, ok_bind, hadd, ok_bind, htell]
  · -- the tasks on `sleep_task_list` are the same as before
    have hfind : s₂.findProcessByPid t.ppid .sleepTaskList = .ok none ↔
        s.findProcessByPid t.ppid .sleepTaskList = .ok none := by
      rw [find_none_iff hL₂, find_none_iff h]
      have hasleep : moved L .taskHeadp .zombieList p .sleepTaskList = L .sleepTaskList := by
        simp [moved]
      rw [hasleep]
      refine forall₂_congr fun q hq => ?_
      have hqp : q ≠ p := by
        rintro rfl
        exact absurd (h.disjoint _ _ q hq hp) (by decide)
      rw [hinfo, Function.update_of_ne hqp]
    simp only [Orphans, ht, Option.some.injEq, exists_eq_left', hfind]

namespace Attended

theorem on_iff (h : Attended z c v s) : s.On k z ↔ v.list = some k := by
  obtain ⟨L, hL, hz, -⟩ := h.lists
  rw [hL.on_iff, hz]

theorem tellFather (h : Attended z c v s) (hp : p ≠ z) (hs : s.tellFather p = .ok s') :
    Attended z c v s' := by
  rw [Kernel.tellFather] at hs
  obtain ⟨u, hget, htold⟩ := bind_eq_ok.1 hs
  clear hs
  have hu := info_of_tasks (get_eq_ok hget)
  split at htold
  · obtain ⟨L, hL, -⟩ := h.lists
    rcases findProcessByPid_spec hL .sleepTaskList u.ppid with ⟨hnone, -⟩ | ⟨f, -, w, hw, hpid, hsome⟩
    · rw [hnone, ok_bind] at htold
      exact h.modify htold (fun _ => ⟨rfl, rfl, id, id⟩) fun hz => absurd hz hp
    · rw [hsome, ok_bind] at htold
      refine h.wakeup ?_ (by decide) htold
      -- the cleaner is nobody's father
      rintro rfl
      obtain ⟨x, hx, hclean⟩ := h.cleaner
      obtain rfl := Option.some.inj (hw.symm.trans hx)
      exact h.childless p _ hu (hpid.symm.trans hclean.pid)
  · exact h.modify htold (fun _ => ⟨rfl, rfl, id, id⟩) fun hz => absurd hz hp

/-- `exit_st` for another task, up to the test of `ts->orphan`. -/
theorem exitToCount (h : Attended z c v s) (hp : p ≠ z) (hs : s.exitToCount p status = .ok s₂) :
    Attended z c v s₂ := by
  rw [Kernel.exitToCount] at hs
  obtain ⟨u, -, h₀⟩ := bind_eq_ok.1 hs
  obtain ⟨s₀, hmod, h₁⟩ := bind_eq_ok.1 h₀
  obtain ⟨s₁, hrem, h₂⟩ := bind_eq_ok.1 h₁
  obtain ⟨s₃, hadd, htell⟩ := bind_eq_ok.1 h₂
  have hlog : Attended z c v { s with exitLog := (u.pid, status) :: s.exitLog } :=
    h.globals rfl rfl h.current h.clear h.count rfl rfl
  have hmark := hlog.modify hmod (fun _ => ⟨rfl, rfl, id, id⟩) fun hz => absurd hz hp
  exact (hmark.move hp (by decide) hrem hadd).tellFather hp htell

/-- The cleaner is woken up. -/
theorem wakeupSelf (h : Attended z c v s) (hs : s.wakeup k z = .ok s') :
    v.list = some k ∧ Attended z c { v with list := some .taskHeadp } s' := by
  rw [Kernel.wakeup, if_neg h.ne_zero, Kernel.moveActive] at hs
  obtain ⟨s₁, hmod, hmove⟩ := bind_eq_ok.1 hs
  obtain ⟨s₂, hrem, hadd⟩ := bind_eq_ok.1 hmove
  have h₁ := h.modify hmod (fun _ => ⟨rfl, rfl, id, id⟩)
    fun _ _ _ hclean => ⟨hclean.pid, hclean.mm, hclean.sigterm, hclean.frames⟩
  refine ⟨?_, (h₁.removeSelf hrem).addSelf rfl hadd⟩
  obtain ⟨L, hL, hz, -⟩ := h₁.lists
  exact (hz k).1 (mem_of_remove hL hrem)

/-- One more orphan. -/
theorem countOrphan (h : Attended z c v s) (hs : s.countOrphan = .ok s') :
    wrap32 (v.count + 1) ≠ 50 ∧ Attended z c { v with count := wrap32 (v.count + 1) } s' ∨
      wrap32 (v.count + 1) = 50 ∧ v.list = some .sleepTaskList ∧
        Attended z c { v with count := 50, list := some .taskHeadp } s' := by
  have hcounted : Attended z c { v with count := wrap32 (v.count + 1) }
      { s with zombieCount := wrap32 (s.zombieCount + 1) } :=
    h.globals rfl rfl h.current h.clear (congrArg (fun n => wrap32 (n + 1)) h.count) rfl rfl
  rw [Kernel.countOrphan] at hs
  simp only at hs
  split at hs
  · next h50 =>
    have heq : wrap32 (v.count + 1) = 50 := by rw [← h.count]; exact h50
    have hwake : Kernel.wakeup { s with zombieCount := wrap32 (s.zombieCount + 1) } .sleepTaskList z =
        .ok s' := by
      rw [← h.clear]
      exact hs
    obtain ⟨hlist, hwoken⟩ := hcounted.wakeupSelf hwake
    rw [heq] at hwoken
    exact .inr ⟨heq, hlist, hwoken⟩
  · next h50 =>
    obtain rfl := Except.ok.inj hs
    rw [h.count] at h50
    exact .inl ⟨h50, hcounted⟩

/-- **Waking the cleaner is legal** exactly if it is asleep when the fiftieth orphan exits. -/
theorem wakeLegal_iff (h : Attended z c v s) : s.WakeLegal a ↔
    (s.OrphanExits a → wrap32 (v.count + 1) = 50 → v.list = some .sleepTaskList) := by
  constructor
  · rintro hlegal ⟨s₁, p, status, hx, hready, horphan⟩ h50
    obtain ⟨h₁, hp⟩ := h.exits hx
    obtain ⟨L, hL, -⟩ := h₁.lists
    obtain ⟨s₂, u, hcount, hu, ho⟩ := exitToCount_orphan hL (hL.on_iff.1 hready) status
    have h₂ := h₁.exitToCount hp hcount
    obtain ⟨hon, -⟩ := hlegal s₁ p status s₂ u hx hcount hu (ho.2 horphan) (by rw [h₂.count]; exact h50)
    rw [h₂.clear] at hon
    exact h₂.on_iff.1 hon
  · intro hlist s₁ p status s₂ u hx hcount hu ho h50
    obtain ⟨h₁, hp⟩ := h.exits hx
    have h₂ := h₁.exitToCount hp hcount
    obtain ⟨L, hL, -⟩ := h₁.lists
    have hready : p ∈ L .taskHeadp := by
      obtain ⟨t, s', -, hdead, -⟩ := exitToCount_cases hL hcount
      exact hdead.mem
    obtain ⟨s₂', u', hcount', hu', ho'⟩ := exitToCount_orphan hL hready status
    obtain rfl := Except.ok.inj (hcount'.symm.trans hcount)
    obtain rfl := Except.ok.inj (hu'.symm.trans hu)
    have hasleep := hlist ⟨s₁, p, status, hx, hL.on_iff.2 hready, ho'.1 ho⟩ (by rw [← h₂.count]; exact h50)
    have hon : s₂'.On .sleepTaskList s₂'.clearZombie := by
      rw [h₂.clear]
      exact h₂.on_iff.2 hasleep
    refine ⟨hon, ?_⟩
    obtain ⟨L₂, hL₂, -⟩ := h₂.lists
    rw [Kernel.countOrphan]
    simp only [h50, if_true]
    exact wakeup_returns (hL₂.globals le_rfl) (hL₂.on_iff.1 hon) (by decide)

/-- What `exit_st` does for another task: the orphan is counted, and the fiftieth wakes up the cleaner. -/
theorem exitSt (h : Attended z c v s) (hp : p ≠ z) (hs : s.exitSt p status = .ok s') :
    ∃ v', Attended z c v' s' ∧ (v'.current = z → v'.frames.head? = some .schedule) ∧
      (v'.list = v.list ∧ v'.count = v.count ∨
        wrap32 (v.count + 1) ≠ 50 ∧ v'.list = v.list ∧ v'.count = wrap32 (v.count + 1) ∨
        wrap32 (v.count + 1) = 50 ∧ v.list = some .sleepTaskList ∧ v'.list = some .taskHeadp ∧
          v'.count = 50) := by
  obtain ⟨s₁, u, hcount, -, hafter⟩ := exitSt_eq_ok.1 hs
  have h₁ := h.exitToCount hp hcount
  have hhead : v.current = z →
      (if v.current = z then KFrame.schedule :: v.frames else v.frames).head? = some .schedule := by
    intro hcur
    rw [if_pos hcur]
    rfl
  obtain ⟨s₂, ⟨-, hone⟩ | ⟨-, rfl⟩, hpush⟩ := afterTold_cases hafter
  · rcases h₁.countOrphan hone with ⟨hne, h₂⟩ | ⟨h50, hlist, h₂⟩
    · exact ⟨_, h₂.pushSchedule hpush, hhead, .inr (.inl ⟨hne, rfl, rfl⟩)⟩
    · exact ⟨_, h₂.pushSchedule hpush, hhead, .inr (.inr ⟨h50, hlist, rfl, rfl⟩)⟩
  · exact ⟨_, h₁.pushSchedule hpush, hhead, .inl ⟨rfl, rfl⟩⟩

end Attended

end Kernel

end PlumOs
