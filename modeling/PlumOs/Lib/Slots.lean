import Mathlib.Data.Finset.Card
import Mathlib.Data.List.Basic
import Mathlib.Logic.Function.Basic

/-!
# Slots filled from the front

A table is a function `slots : ℕ → Option ε` from indices to entries, of which the first `n` are its own.  A
key is looked for up to the first empty slot.

* `Slots.filled` : the entries in front of the first empty slot;
* `Slots.put` : an entry takes the slot of the first one that is like it, or the first empty slot;
* `Slots.KeyMap` : a map with no more than `n` keys;
* `Slots.Repr.put`, `Slots.Repr.find?` : **such a table is such a map**, where an entry is found by its
  key and by no other.
-/

namespace PlumOs

namespace Slots

variable {ε : Type*} {slots : ℕ → Option ε} {n m : ℕ} {q : ε → Bool} {e : ε} {es : List ε}

/-- The entries in the first `n` slots, up to the first empty one. -/
def filled (slots : ℕ → Option ε) : ℕ → List ε
  | 0 => []
  | n + 1 =>
    match slots 0 with
    | none => []
    | some e => e :: filled (fun i => slots (i + 1)) n

/-- An entry goes to the slot of the first one that `q` holds of, or to the first empty one.  It goes
nowhere if there is no such slot among the first `n`. -/
def put (slots : ℕ → Option ε) (n : ℕ) (q : ε → Bool) (e : ε) : ℕ → Option ε :=
  let i := (filled slots n).findIdx q
  if i = n then slots else Function.update slots i (some e)

theorem length_filled_le (slots : ℕ → Option ε) (n : ℕ) : (filled slots n).length ≤ n := by
  induction n generalizing slots with
  | zero => exact Nat.le_refl _
  | succ n ih =>
    rw [filled]
    cases slots 0 with
    | none => exact Nat.zero_le _
    | some e => exact Nat.succ_le_succ (ih _)

/-- The slots up to the first empty one. -/
theorem slot_eq {i : ℕ} (hi : i ≤ (filled slots n).length) (hn : i < n) : slots i = (filled slots n)[i]? := by
  induction n generalizing slots i with
  | zero => cases hn
  | succ n ih =>
    rw [filled] at hi ⊢
    cases h : slots 0 with
    | none =>
      rw [h] at hi
      rw [Nat.le_zero.1 hi, h]
      rfl
    | some e =>
      rw [h] at hi
      cases i with
      | zero => exact h
      | succ i => exact ih (Nat.le_of_succ_le_succ hi) (Nat.lt_of_succ_lt_succ hn)

/-- In more slots there are the same entries first. -/
theorem filled_prefix (slots : ℕ → Option ε) (hle : n ≤ m) : filled slots n <+: filled slots m := by
  induction n generalizing slots m with
  | zero => exact List.nil_prefix
  | succ n ih =>
    obtain ⟨m, rfl⟩ := Nat.exists_eq_succ_of_ne_zero (Nat.ne_of_gt (Nat.lt_of_lt_of_le n.succ_pos hle))
    rw [filled, filled]
    cases slots 0 with
    | none => exact List.nil_prefix
    | some e => exact (List.prefix_cons_inj e).2 (ih _ (Nat.le_of_succ_le_succ hle))

/-- Behind an empty slot there are no more entries. -/
theorem filled_of_lt (hlt : (filled slots n).length < n) (hle : n ≤ m) : filled slots m = filled slots n := by
  obtain ⟨rest, hrest⟩ := filled_prefix slots hle
  cases rest with
  | nil => rw [← hrest, List.append_nil]
  | cons e rest =>
    have hlen : (filled slots n).length < (filled slots m).length := by
      rw [← hrest, List.length_append, List.length_cons]
      omega
    have hslot := slot_eq hlen.le (Nat.lt_of_lt_of_le hlt hle)
    rw [slot_eq (Nat.le_refl _) hlt, List.getElem?_eq_none (Nat.le_refl _),
      List.getElem?_eq_getElem hlen] at hslot
    cases hslot

theorem length_filled_lt_iff : (filled slots n).length < n ↔ ∃ i < n, slots i = none := by
  constructor
  · intro hlt
    exact ⟨_, hlt, by rw [slot_eq (Nat.le_refl _) hlt, List.getElem?_eq_none (Nat.le_refl _)]⟩
  · rintro ⟨i, hi, hnone⟩
    by_contra hge
    have hlen : i < (filled slots n).length := Nat.lt_of_lt_of_le hi (Nat.le_of_not_lt hge)
    rw [slot_eq hlen.le hi, List.getElem?_eq_getElem hlen] at hnone
    cases hnone

/-- The first entry that `q` holds of. -/
theorem find?_filled {i : ℕ} (hbefore : ∀ j < i, ∃ x, slots j = some x ∧ q x = false)
    (hslot : slots i = some e) (hq : q e = true) (hi : i < m) : (filled slots m).find? q = some e := by
  induction i generalizing slots m with
  | zero =>
    obtain ⟨m, rfl⟩ := Nat.exists_eq_succ_of_ne_zero (Nat.ne_of_gt hi)
    rw [filled, hslot]
    exact List.find?_cons_of_pos hq
  | succ i ih =>
    obtain ⟨m, rfl⟩ := Nat.exists_eq_succ_of_ne_zero (Nat.ne_of_gt (Nat.lt_of_lt_of_le i.succ_pos hi.le))
    obtain ⟨x, hx, hqx⟩ := hbefore 0 i.succ_pos
    rw [filled, hx]
    refine (List.find?_cons_of_neg (by rw [hqx]; exact Bool.false_ne_true)).trans ?_
    exact ih (fun j hj => hbefore (j + 1) (Nat.succ_lt_succ hj)) hslot (Nat.lt_of_succ_lt_succ hi)

/-- The slot that `put` stores to. -/
theorem put_eq_update (hroom : (filled slots n).findIdx q ≠ n) :
    put slots n q e = Function.update slots ((filled slots n).findIdx q) (some e) ∧
      (filled slots n).findIdx q < n := by
  rw [put, if_neg hroom]
  exact ⟨rfl, Nat.lt_of_le_of_ne (Nat.le_trans List.findIdx_le_length (length_filled_le slots n)) hroom⟩

/-- What `put` stores is found. -/
theorem find?_put (hroom : (filled slots n).findIdx q ≠ n) (hq : q e = true) (hle : n ≤ m) :
    (filled (put slots n q e) m).find? q = some e := by
  obtain ⟨hput, hlt⟩ := put_eq_update (e := e) hroom
  rw [hput]
  refine find?_filled (fun j hj => ?_) (Function.update_self ..) hq (Nat.lt_of_lt_of_le hlt hle)
  have hlen : j < (filled slots n).length := Nat.lt_of_lt_of_le hj List.findIdx_le_length
  refine ⟨(filled slots n)[j], ?_, by simpa using List.not_of_lt_findIdx hj⟩
  rw [Function.update_of_ne (Nat.ne_of_lt hj), slot_eq hlen.le (hj.trans hlt),
    List.getElem?_eq_getElem hlen]

/-- A table whose slots behind its entries are empty. -/
def Holds (slots : ℕ → Option ε) (n : ℕ) (es : List ε) : Prop :=
  es.length ≤ n ∧ ∀ i < n, slots i = es[i]?

theorem Holds.filled_eq (h : Holds slots n es) : filled slots n = es := by
  have hle := length_filled_le slots n
  refine List.ext_getElem? fun i => ?_
  rcases Nat.lt_or_ge i n with hi | hi
  · rcases Nat.lt_or_ge (filled slots n).length i with hlt | hge
    · have hnone := h.2 _ (hlt.trans hi)
      rw [slot_eq (Nat.le_refl _) (hlt.trans hi), List.getElem?_eq_none (Nat.le_refl _)] at hnone
      have hlen := List.getElem?_eq_none_iff.1 hnone.symm
      rw [List.getElem?_eq_none hlt.le, List.getElem?_eq_none (Nat.le_trans hlen hlt.le)]
    · rw [← slot_eq hge hi, h.2 i hi]
  · rw [List.getElem?_eq_none (Nat.le_trans hle hi), List.getElem?_eq_none (Nat.le_trans h.1 hi)]

/-- In more slots there are the same entries first. -/
theorem Holds.prefix_filled (h : Holds slots n es) (hle : n ≤ m) : es <+: filled slots m :=
  h.filled_eq ▸ filled_prefix slots hle

/-- If a slot is empty, there are no others. -/
theorem Holds.filled_of_lt (h : Holds slots n es) (hlt : es.length < n) (hle : n ≤ m) :
    filled slots m = es := by
  have heq := h.filled_eq
  rw [← heq] at hlt
  rw [Slots.filled_of_lt hlt hle, heq]

/-- An entry in the place of another one. -/
theorem Holds.update (h : Holds slots n es) {i : ℕ} (hi : i < es.length) :
    Holds (Function.update slots i (some e)) n (es.set i e) := by
  refine ⟨by rw [List.length_set]; exact h.1, fun j hj => ?_⟩
  by_cases hji : j = i
  · subst hji
    rw [Function.update_self, List.getElem?_set_self hi]
  · rw [Function.update_of_ne hji, List.getElem?_set_ne (Ne.symm hji), h.2 j hj]

/-- An entry behind the others. -/
theorem Holds.append (h : Holds slots n es) (hlt : es.length < n) :
    Holds (Function.update slots es.length (some e)) n (es ++ [e]) := by
  refine ⟨by rw [List.length_append]; exact hlt, fun j hj => ?_⟩
  by_cases hji : j = es.length
  · subst hji
    rw [Function.update_self, List.getElem?_concat_length]
  · rw [Function.update_of_ne hji, h.2 j hj]
    rcases Nat.lt_or_gt_of_ne hji with hlt' | hgt
    · rw [List.getElem?_append_left hlt']
    · rw [List.getElem?_eq_none hgt.le, List.getElem?_eq_none (by rw [List.length_append]; exact hgt)]

/-- **What `put` makes of the entries.** -/
theorem Holds.put (h : Holds slots n es) (q : ε → Bool) (e : ε) :
    Holds (put slots n q e) n
      (if es.findIdx q = n then es else if es.findIdx q < es.length then es.set (es.findIdx q) e
        else es ++ [e]) := by
  rw [Slots.put, h.filled_eq]
  by_cases hfull : es.findIdx q = n
  · rw [if_pos hfull, if_pos hfull]
    exact h
  rw [if_neg hfull, if_neg hfull]
  by_cases hlt : es.findIdx q < es.length
  · rw [if_pos hlt]
    exact h.update hlt
  · have hidx : es.findIdx q = es.length := Nat.le_antisymm List.findIdx_le_length (Nat.le_of_not_lt hlt)
    rw [if_neg hlt, hidx]
    rw [hidx] at hfull
    exact h.append (Nat.lt_of_le_of_ne h.1 hfull)

/-! ### Maps -/

/-- A map with finitely many keys. -/
structure KeyMap (κ β : Type*) where
  keys : Finset κ
  value : κ → β

namespace KeyMap

variable {κ β : Type*} [DecidableEq κ]

/-- A key is in the map, or there is room for it. -/
def Accepts (m : KeyMap κ β) (n : ℕ) (k : κ) : Prop := k ∈ m.keys ∨ m.keys.card < n

instance (m : KeyMap κ β) (n : ℕ) (k : κ) : Decidable (m.Accepts n k) := inferInstanceAs (Decidable (_ ∨ _))

/-- A value for a key, in a map with room for `n` keys. -/
def put (m : KeyMap κ β) (n : ℕ) (k : κ) (v : β) : KeyMap κ β :=
  if m.Accepts n k then ⟨insert k m.keys, Function.update m.value k v⟩ else m

variable {m : KeyMap κ β} {n : ℕ} {k k' : κ} {v : β}

theorem put_of_accepts (h : m.Accepts n k) (v : β) :
    m.put n k v = ⟨insert k m.keys, Function.update m.value k v⟩ := if_pos h

theorem put_of_full (h : ¬ m.Accepts n k) (v : β) : m.put n k v = m := if_neg h

/-- The keys of a map stay. -/
theorem mem_keys_put (h : k' ∈ m.keys) (n : ℕ) (k : κ) (v : β) : k' ∈ (m.put n k v).keys := by
  by_cases hacc : m.Accepts n k
  · rw [put_of_accepts hacc]
    exact Finset.mem_insert_of_mem h
  · rw [put_of_full hacc]
    exact h

/-- Another key keeps its value. -/
theorem value_put_of_ne (h : k' ≠ k) (n : ℕ) (v : β) : (m.put n k v).value k' = m.value k' := by
  by_cases hacc : m.Accepts n k
  · rw [put_of_accepts hacc]
    exact Function.update_of_ne h ..
  · rw [put_of_full hacc]

end KeyMap

/-! ### Tables with keys -/

section Repr

variable {κ β : Type*} [DecidableEq κ] {mk : κ → β → ε} {q : κ → ε → Bool} {good : κ → β → Prop}
  {m : KeyMap κ β} {k : κ} {v : β} {ks : List κ} {n N : ℕ}

/-- An entry is found by its key and by no other. -/
def Keyed (mk : κ → β → ε) (q : κ → ε → Bool) (good : κ → β → Prop) : Prop :=
  ∀ k v k' v', good k v → good k' v' → (q k (mk k' v') = true ↔ k = k')

/-- The table holds the entries of the map, in some order. -/
def Repr (mk : κ → β → ε) (good : κ → β → Prop) (slots : ℕ → Option ε) (n : ℕ) (m : KeyMap κ β) : Prop :=
  ∃ ks : List κ, ks.Nodup ∧ ks.toFinset = m.keys ∧ (∀ k ∈ ks, good k (m.value k)) ∧
    Holds slots n (ks.map fun k => mk k (m.value k))

/-- The slot that a key is found in. -/
theorem findIdx_entries (hq : Keyed mk q good) (hks : ∀ k ∈ ks, good k (m.value k)) (hk : good k v) :
    (ks.map fun k => mk k (m.value k)).findIdx (q k) = ks.idxOf k := by
  induction ks with
  | nil => rfl
  | cons k' ks ih =>
    obtain ⟨hk', hks⟩ := List.forall_mem_cons.1 hks
    have hiff := hq k v k' _ hk hk'
    rw [List.map_cons, List.findIdx_cons, ih hks]
    by_cases heq : k = k'
    · rw [hiff.2 heq, heq, List.idxOf_cons_self]
      rfl
    · rw [Bool.eq_false_iff.2 (mt hiff.1 heq), List.idxOf_cons_ne _ (Ne.symm heq)]
      rfl

/-- The entries of a map with a new value for one of its keys. -/
theorem set_entries (hnodup : ks.Nodup) (hk : k ∈ ks) :
    (ks.map fun k => mk k (m.value k)).set (ks.idxOf k) (mk k v) =
      ks.map fun k' => mk k' (Function.update m.value k v k') := by
  refine List.ext_getElem (by rw [List.length_set, List.length_map, List.length_map]) fun j hj hj' => ?_
  have hjlen : j < ks.length := by rwa [List.length_map] at hj'
  rw [List.getElem_map, List.getElem_set]
  by_cases hjk : ks.idxOf k = j
  · subst hjk
    rw [if_pos rfl, List.getElem_idxOf, Function.update_self]
  · have hne : ks[j] ≠ k := by
      rintro rfl
      exact hjk (hnodup.idxOf_getElem j hjlen)
    rw [if_neg hjk, List.getElem_map, Function.update_of_ne hne]

/-- The values of a map with a new value for `k` are still good for their keys. -/
theorem good_update (hgood : ∀ k' ∈ ks, good k' (m.value k')) (hk : good k v) :
    ∀ k' ∈ ks, good k' (Function.update m.value k v k') := by
  intro k' hk'
  rcases eq_or_ne k' k with rfl | hne
  · rwa [Function.update_self]
  · rw [Function.update_of_ne hne]
    exact hgood k' hk'

/-- A known key: its entry is overwritten. -/
theorem repr_set (hnodup : ks.Nodup) (hkeys : ks.toFinset = m.keys)
    (hgood : ∀ k' ∈ ks, good k' (m.value k')) (hk : good k v) (hin : k ∈ ks)
    (hput : Holds slots n ((ks.map fun k' => mk k' (m.value k')).set (ks.idxOf k) (mk k v))) :
    Repr mk good slots n ⟨insert k m.keys, Function.update m.value k v⟩ := by
  refine ⟨ks, hnodup, ?_, good_update hgood hk, ?_⟩
  · rw [Finset.insert_eq_self.2 (hkeys ▸ List.mem_toFinset.2 hin)]
    exact hkeys
  · rwa [set_entries hnodup hin] at hput

/-- A new key: its entry is added. -/
theorem repr_snoc (hnodup : ks.Nodup) (hkeys : ks.toFinset = m.keys)
    (hgood : ∀ k' ∈ ks, good k' (m.value k')) (hk : good k v) (hin : k ∉ ks)
    (hput : Holds slots n ((ks.map fun k' => mk k' (m.value k')) ++ [mk k v])) :
    Repr mk good slots n ⟨insert k m.keys, Function.update m.value k v⟩ := by
  refine ⟨ks ++ [k], ?_, ?_, fun k' hk' => ?_, ?_⟩
  · rw [List.nodup_append_comm, List.singleton_append, List.nodup_cons]
    exact ⟨hin, hnodup⟩
  · rw [List.toFinset_append, hkeys, Finset.union_comm]
    rfl
  · rcases List.mem_append.1 hk' with hk' | hk'
    · exact good_update hgood hk k' hk'
    · rw [List.mem_singleton.1 hk']
      change good k (Function.update m.value k v k)
      rwa [Function.update_self]
  · have hmap : ks.map (fun k' => mk k' (Function.update m.value k v k')) =
        ks.map fun k' => mk k' (m.value k') :=
      List.map_congr_left fun k' hk' => by
        rw [Function.update_of_ne (fun heq : k' = k => hin (heq ▸ hk'))]
    change Holds _ n ((ks ++ [k]).map fun k' => mk k' (Function.update m.value k v k'))
    rw [List.map_append, List.map_singleton, Function.update_self, hmap]
    exact hput

/-- **A table with keys is a map.** -/
theorem Repr.put (h : Repr mk good slots n m) (hq : Keyed mk q good) (hk : good k v) :
    Repr mk good (put slots n (q k) (mk k v)) n (m.put n k v) := by
  obtain ⟨ks, hnodup, hkeys, hgood, hholds⟩ := h
  have hput := hholds.put (q k) (mk k v)
  have hlen := hholds.1
  rw [List.length_map] at hlen
  rw [findIdx_entries hq hgood hk, List.length_map] at hput
  have hmem : k ∈ m.keys ↔ k ∈ ks := by rw [← hkeys, List.mem_toFinset]
  have hcard : m.keys.card = ks.length := by rw [← hkeys, List.toFinset_card_of_nodup hnodup]
  by_cases hin : k ∈ ks
  · have hidx : ks.idxOf k < ks.length := List.idxOf_lt_length_iff.2 hin
    rw [if_neg (Nat.ne_of_lt (Nat.lt_of_lt_of_le hidx hlen)), if_pos hidx] at hput
    rw [KeyMap.put_of_accepts (.inl (hmem.2 hin))]
    exact repr_set hnodup hkeys hgood hk hin hput
  rw [List.idxOf_eq_length hin] at hput
  rcases hlen.lt_or_eq with hlt | hfull
  · rw [if_neg (Nat.ne_of_lt hlt), if_neg (Nat.lt_irrefl _)] at hput
    rw [KeyMap.put_of_accepts (.inr (by rw [hcard]; exact hlt))]
    exact repr_snoc hnodup hkeys hgood hk hin hput
  · rw [if_pos hfull] at hput
    rw [KeyMap.put_of_full fun hacc => ?_]
    · exact ⟨ks, hnodup, hkeys, hgood, hput⟩
    · rcases hacc with hacc | hacc
      · exact hin (hmem.1 hacc)
      · rw [hcard] at hacc
        exact absurd hfull (Nat.ne_of_lt hacc)

/-- A key of the map is found, also in more slots. -/
theorem Repr.find? (h : Repr mk good slots n m) (hq : Keyed mk q good) (hk : k ∈ m.keys) (hle : n ≤ N) :
    (filled slots N).find? (q k) = some (mk k (m.value k)) := by
  obtain ⟨ks, hnodup, hkeys, hgood, hholds⟩ := h
  rw [← hkeys, List.mem_toFinset] at hk
  obtain ⟨rest, hrest⟩ := hholds.prefix_filled hle
  have hfind : (ks.map fun k => mk k (m.value k)).find? (q k) = some (mk k (m.value k)) := by
    cases hres : (ks.map fun k => mk k (m.value k)).find? (q k) with
    | none =>
      have hnot := List.find?_eq_none.1 hres _ (List.mem_map_of_mem hk)
      exact absurd ((hq k _ k _ (hgood k hk) (hgood k hk)).2 rfl) hnot
    | some e =>
      obtain ⟨k', hk', rfl⟩ := List.mem_map.1 (List.mem_of_find?_eq_some hres)
      have heq := (hq k _ k' _ (hgood k hk) (hgood k' hk')).1 (List.find?_some hres)
      rw [heq]
  rw [← hrest, List.find?_append, hfind, Option.some_or]

/-- A key that there is no room for. -/
theorem Repr.put_of_full (h : Repr mk good slots n m) (hq : Keyed mk q good) (hk : good k v)
    (hfull : ¬ m.Accepts n k) : Slots.put slots n (q k) (mk k v) = slots := by
  obtain ⟨ks, hnodup, hkeys, hgood, hholds⟩ := h
  obtain ⟨hnot, hcard⟩ := not_or.1 hfull
  rw [← hkeys, List.mem_toFinset] at hnot
  rw [← hkeys, List.toFinset_card_of_nodup hnodup] at hcard
  have hlen := hholds.1
  rw [List.length_map] at hlen
  have hidx : (filled slots n).findIdx (q k) = n := by
    rw [hholds.filled_eq, findIdx_entries hq hgood hk, List.idxOf_eq_length hnot]
    exact Nat.le_antisymm hlen (Nat.le_of_not_lt hcard)
  rw [Slots.put, if_pos hidx]

end Repr

end Slots

end PlumOs
