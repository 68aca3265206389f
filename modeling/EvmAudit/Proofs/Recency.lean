import EvmAudit.Support
import Mathlib.Tactic.Lemma

/-!
# What a cache holds

A cache of limited size is compared with the whole history of its use, the latest first. It holds the keys that were put
or found last, in the order of their last use, each with the value that it was put with last.
-/

namespace EvmAudit.Recency

open List

inductive Use (α β : Type) where
  | get (key : α)
  | put (key : α) (value : β)

variable {α β : Type} [DecidableEq α] {k : α} {v : β} {n size : Nat} {c : Recency α β} {us : List (Use α β)}

def use : Use α β → Recency α β → Except Fault (Recency α β)
  | .get k, c => .ok (c.get k).2
  | .put k v, c => c.put k v

/-- The first different keys of a list, up to a number of them. -/
def recent (size : Nat) (ks : List α) : List α := ks.eraseDups.take size

/-- The keys that were put, or asked for while they were recent. -/
def history (size : Nat) : List (Use α β) → List α
  | [] => []
  | .put k _ :: us => k :: history size us
  | .get k :: us => if k ∈ recent size (history size us) then k :: history size us else history size us

def lastPut (key : α) : List (Use α β) → Option β
  | [] => none
  | .put k v :: us => if k = key then some v else lastPut key us
  | .get _ :: us => lastPut key us

lemma recent_filter (n : Nat) (ks : List α) :
    recent n (ks.filter (!· == k)) = ((recent (n + 1) ks).filter (!· == k)).take n := by
  simp only [recent]
  induction n generalizing ks with
  | zero => rfl
  | succ n ih =>
    cases ks with
    | nil => rfl
    | cons a ks =>
      rw [eraseDups_cons, take_succ_cons]
      by_cases ha : a = k
      · subst ha
        have hself : ∀ x ∈ take (n + 1) (ks.filter (!· == a)).eraseDups, !x == a := fun x hx =>
          (mem_filter.1 (mem_eraseDups.1 (mem_of_mem_take hx))).2
        rw [filter_cons_of_neg (by simp), filter_cons_of_neg (by simp), filter_eq_self.2 hself, take_take, Nat.min_self]
      · rw [filter_cons_of_pos (by simp [ha]), filter_cons_of_pos (by simp [ha]), eraseDups_cons, take_succ_cons,
          take_succ_cons, ← ih, filter_filter, filter_filter]
        simp only [Bool.and_comm]

/-- A cache after a use of a key: it is the last one, and the first goes if there is no room. -/
def renew (c : Recency α β) (k : α) (v : β) : Recency α β :=
  { c with entries := ((c.without k).reverse.take (c.capacity - 1)).reverse ++ [(k, v)] }

lemma keys_renew : (c.renew k v).keys.reverse = k :: (c.keys.reverse.filter (!· == k)).take (c.capacity - 1) := by
  simp [renew, keys, without, filter_map, filter_reverse, Function.comp_def]

lemma mem_of_find? (h : c.find? k = some v) : (k, v) ∈ c.entries := by
  obtain ⟨e, he, rfl⟩ := Option.map_eq_some_iff.1 h
  have hk : e.1 = k := by simpa using find?_some he
  exact hk ▸ mem_of_find?_eq_some he

lemma put_eq (hroom : c.entries.length ≤ c.capacity) (hpos : 0 < c.capacity) : c.put k v = .ok (c.renew k v) := by
  have hall (hless : (c.without k).length < c.capacity) : c.renew k v = { c with entries := c.without k ++ [(k, v)] } := by
    rw [renew, take_of_length_le (by rw [length_reverse]; omega), reverse_reverse]
  rw [put]
  cases h : c.find? k with
  | some w =>
    have hless : (c.without k).length < c.entries.length :=
      length_filter_lt_length_iff_exists.2 ⟨_, mem_of_find? h, by simp⟩
    rw [hall (by omega)]
  | none =>
    have hnone : c.without k = c.entries := by simpa [find?, without] using h
    rw [hnone] at hall
    dsimp only
    split
    · obtain ⟨e, es, he⟩ := exists_cons_of_length_pos (l := c.entries) (by omega)
      have hfull : es.length = c.capacity - 1 := by simp [he] at *; omega
      simp [renew, hnone, he, ← hfull]
    · rw [hall (by omega)]

/-- The cache holds the recent keys of a history with the values that were put last. -/
structure Holds (size : Nat) (us : List (Use α β)) (c : Recency α β) : Prop where
  capacity : c.capacity = size
  keys : c.keys.reverse = recent size (history size us)
  values : ∀ e ∈ c.entries, lastPut e.1 us = some e.2

namespace Holds

lemma mem_recent (h : c.Holds size us) : k ∈ recent size (history size us) ↔ (c.find? k).isSome := by
  rw [← h.keys, mem_reverse, Recency.keys, mem_map, find?, Option.isSome_map, find?_isSome]
  simp

lemma find?_eq (h : c.Holds size us) (k : α) :
    c.find? k = if k ∈ recent size (history size us) then lastPut k us else none := by
  cases hv : c.find? k with
  | none => simp [h.mem_recent, hv]
  | some v => simp [h.mem_recent, hv, h.values _ (mem_of_find? hv)]

lemma renew {u : Use α β} (h : c.Holds (n + 1) us) (hkeys : history (n + 1) (u :: us) = k :: history (n + 1) us)
    (hput : ∀ x, lastPut x (u :: us) = if k = x then some v else lastPut x us) :
    (c.renew k v).Holds (n + 1) (u :: us) := by
  refine ⟨h.capacity, ?_, fun e he => ?_⟩
  · rw [keys_renew, hkeys, recent, eraseDups_cons, take_succ_cons, h.keys, h.capacity]
    exact congrArg _ (recent_filter n _).symm
  · rw [hput]
    obtain he | he := mem_append.1 he
    · obtain ⟨he, hk⟩ := mem_filter.1 (mem_reverse.1 (mem_of_mem_take (mem_reverse.1 he)))
      have hk : e.1 ≠ k := by simpa using hk
      rw [if_neg hk.symm, h.values e he]
    · rw [mem_singleton.1 he, if_pos rfl]

lemma use (h : c.Holds (n + 1) us) (u : Use α β) : ∃ c', use u c = .ok c' ∧ c'.Holds (n + 1) (u :: us) := by
  have hroom : c.entries.length ≤ c.capacity := by
    rw [← length_map Prod.fst, ← length_reverse, h.capacity]
    exact h.keys ▸ length_take_le (n + 1) (history (n + 1) us).eraseDups
  have hput (k : α) (v : β) : c.put k v = .ok (c.renew k v) := put_eq hroom (h.capacity ▸ n.succ_pos)
  cases u with
  | put k v => exact ⟨_, hput k v, h.renew rfl fun _ => rfl⟩
  | get k =>
    cases hv : c.find? k with
    | none => exact ⟨c, by rw [Recency.use, get, hv], h.capacity, by simp [history, h.mem_recent, hv, h.keys], h.values⟩
    | some v =>
      refine ⟨_, by rw [← hput k v, Recency.use, get, put, hv], h.renew (if_pos (h.mem_recent.2 (by simp [hv]))) fun x => ?_⟩
      split
      · subst k
        exact h.values _ (mem_of_find? hv)
      · rfl

end Holds

/-- However a cache with room for an entry is used, it holds the keys that were used last, in the order of their last use,
and answers with the values that they were put with last. -/
theorem holds_most_recent (hsize : 1 ≤ size) (us : List (Use α β)) :
    ∃ c, us.foldrM use { capacity := size } = .ok c ∧ c.keys.reverse = recent size (history size us) ∧
      (∀ e ∈ c.entries, lastPut e.1 us = some e.2) ∧
      ∀ k, (c.get k).1 = if k ∈ recent size (history size us) then lastPut k us else none := by
  obtain ⟨n, rfl⟩ := Nat.exists_eq_add_of_le' hsize
  have hrun : ∃ c, us.foldrM use { capacity := n + 1 } = .ok c ∧ c.Holds (n + 1) us := by
    induction us with
    | nil => exact ⟨_, rfl, rfl, rfl, nofun⟩
    | cons u us ih =>
      obtain ⟨c, hc, h⟩ := ih
      rw [foldrM_cons, hc]
      exact h.use u
  obtain ⟨c, hc, h⟩ := hrun
  refine ⟨c, hc, h.keys, h.values, fun k => ?_⟩
  rw [← h.find?_eq, get]
  cases c.find? k <;> rfl

/-- A key that was read is kept, and the other one makes room. -/
theorem read_key_is_kept : ∃ c, [.put 3 30, .get 1, .put 2 20, .put 1 10].foldrM use { capacity := 2 } = .ok c ∧
    c.keys.reverse = [3, 1] ∧ (c.get 1).1 = some 10 ∧ (c.get 2).1 = none := by
  obtain ⟨c, hc, hkeys, -, hget⟩ := holds_most_recent (by decide : 1 ≤ 2) [.put 3 30, .get 1, .put 2 20, .put 1 10]
  exact ⟨c, hc, hkeys, hget 1, hget 2⟩

end EvmAudit.Recency
