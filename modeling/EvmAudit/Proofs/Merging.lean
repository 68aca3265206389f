import EvmAudit.Audit.Report
import Mathlib.Data.Set.Card

/-!
# Issues that are reported as one

A report knows an issue by the texts of its contract, function, address and title in one piece. Where one text ends and
the next begins does not show in that, so issues that differ in their contracts and functions can be known by the same
text, and only the last of them is reported.
-/

namespace EvmAudit

open List

namespace Sequence

variable {α β : Type} [BEq α] [LawfulBEq α] {k t : α} {v u : β} {xs : List (α × β)}

lemma mem_map_fst_put : t ∈ (put k v xs).map Prod.fst ↔ t = k ∨ t ∈ xs.map Prod.fst := by
  induction xs with
  | nil => simp [put]
  | cons x xs ih =>
    rw [put]
    split
    · rename_i hx
      rw [beq_iff_eq] at hx
      simp [hx]
    · rw [map_cons, mem_cons, ih, map_cons, mem_cons]
      exact or_left_comm

lemma nodup_put (h : (xs.map Prod.fst).Nodup) : ((put k v xs).map Prod.fst).Nodup := by
  induction xs with
  | nil => simp [put]
  | cons x xs ih =>
    obtain ⟨hx, hxs⟩ := nodup_cons.1 h
    rw [put]
    split
    · exact h
    · rename_i hk
      rw [beq_iff_eq] at hk
      exact nodup_cons.2 ⟨fun hmem => (mem_map_fst_put.1 hmem).elim hk hx, ih hxs⟩

lemma mem_put (h : (xs.map Prod.fst).Nodup) : (t, u) ∈ put k v xs ↔ t = k ∧ u = v ∨ t ≠ k ∧ (t, u) ∈ xs := by
  induction xs with
  | nil => simp [put]
  | cons x xs ih =>
    rw [put]
    split <;> grind

end Sequence

def Issue.identity (i : Issue) : String × String × Json × String := (i.contract, i.function, i.address, i.title)

def Issue.joined : String × String × Json × String → String
  | (contract, function, address, title) => contract ++ function ++ Shown.plain address ++ title

lemma Issue.key_of_nameFunctions {known : Selectors} {i j : Issue} (h : i.nameFunctions known = .ok j) : j.key = i.key := by
  unfold nameFunctions at h
  split at h
  · simp only [bind, Except.bind] at h
    split at h
    · cases h
    split at h
    · cases h
    · cases h
      rfl
  · cases h
    rfl

namespace Report

variable {known : Selectors} {r : Report} {is : List Issue}

/-- The report has one entry for each text that issues are known by, and it is the last of these issues. -/
structure Lists (known : Selectors) (is : List Issue) (r : Report) : Prop where
  nodup : (r.issues.map Prod.fst).Nodup
  entry : ∀ t j, (t, j) ∈ r.issues ↔
    ∃ i, is.reverse.find? (·.key == t) = some i ∧ i.nameFunctions known = .ok j

lemma Lists.add {i j : Issue} (h : r.Lists known is) (hj : i.nameFunctions known = .ok j) :
    ∃ r', r.add known i = .ok r' ∧ r'.Lists known (is ++ [i]) := by
  refine ⟨{ r with issues := Sequence.put j.key j r.issues }, by rw [Report.add, hj]; rfl, Sequence.nodup_put h.nodup, ?_⟩
  intro t u
  rw [Sequence.mem_put h.nodup, Issue.key_of_nameFunctions hj, h.entry, reverse_append, reverse_singleton,
    singleton_append]
  by_cases ht : i.key = t
  · simp [ht, hj, eq_comm]
  · rw [find?_cons_of_neg (by simpa using ht)]
    simp [Ne.symm ht]

lemma Lists.addAll (h : r.Lists known is) {js : List Issue} (hjs : ∀ j ∈ js, ∃ k, j.nameFunctions known = .ok k) :
    ∃ r', js.foldlM (Report.add known) r = .ok r' ∧ r'.Lists known (is ++ js) := by
  induction js generalizing r is with
  | nil => exact ⟨r, rfl, by rwa [append_nil]⟩
  | cons j js ih =>
    obtain ⟨k, hk⟩ := hjs j mem_cons_self
    obtain ⟨r1, hr1, h1⟩ := h.add hk
    obtain ⟨r', hr', h'⟩ := ih h1 fun j hj => hjs j (mem_cons_of_mem _ hj)
    refine ⟨r', ?_, by rwa [append_assoc] at h'⟩
    rw [foldlM_cons, hr1]
    exact hr'

lemma Lists.length_eq (h : r.Lists known is) (his : ∀ i ∈ is, ∃ j, i.nameFunctions known = .ok j) :
    r.issues.length = (Issue.key '' {i | i ∈ is}).ncard := by
  have hkeys : Issue.key '' {i | i ∈ is} = ((r.issues.map Prod.fst).toFinset : Set String) := by
    ext t
    simp only [coe_toFinset, mem_map, Prod.exists, h.entry]
    constructor
    · rintro ⟨i, hi, rfl⟩
      have hfound : (is.reverse.find? fun j => j.key == i.key).isSome :=
        find?_isSome.2 ⟨i, mem_reverse.2 hi, beq_self_eq_true _⟩
      obtain ⟨l, hl⟩ := Option.isSome_iff_exists.1 hfound
      obtain ⟨j, hj⟩ := his l (mem_reverse.1 (mem_of_find?_eq_some hl))
      exact ⟨_, j, ⟨l, hl, hj⟩, rfl⟩
    · rintro ⟨t, j, ⟨i, hi, -⟩, rfl⟩
      exact ⟨i, mem_reverse.1 (mem_of_find?_eq_some hi), by simpa using find?_some hi⟩
  rw [hkeys, Set.ncard_coe_finset, toFinset_card_of_nodup h.nodup, length_map]

/-- However issues are added to an empty report: two of them are one entry if they are known by one text. So there are as
many entries as there are different contracts, functions, addresses and titles exactly if no two of these make up the same
text. -/
theorem entries_count_joined_texts (known : Selectors) (is : List Issue) (hr : r.issues = [])
    (his : ∀ i ∈ is, ∃ j, i.nameFunctions known = .ok j) :
    ∃ r', is.foldlM (Report.add known) r = .ok r' ∧ r'.Lists known is ∧
      r'.issues.length ≤ (Issue.identity '' {i | i ∈ is}).ncard ∧
      (r'.issues.length = (Issue.identity '' {i | i ∈ is}).ncard ↔
        ∀ i ∈ is, ∀ j ∈ is, i.key = j.key → i.identity = j.identity) := by
  have hnone : r.Lists known [] := ⟨by simp [hr], by simp [hr]⟩
  obtain ⟨r', hr', h⟩ := hnone.addAll his
  rw [nil_append] at h
  have hfinite : (Issue.identity '' {i | i ∈ is}).Finite := is.finite_toSet.image _
  refine ⟨r', hr', h, ?_⟩
  have hjoined : Issue.key '' {i | i ∈ is} = Issue.joined '' (Issue.identity '' {i | i ∈ is}) :=
    (Set.image_image Issue.joined Issue.identity _).symm
  rw [h.length_eq his, hjoined, Set.ncard_image_iff hfinite]
  refine ⟨Set.ncard_image_le hfinite, fun hinj i hi j hj => hinj ⟨i, hi, rfl⟩ ⟨j, hj, rfl⟩, ?_⟩
  rintro hinj _ ⟨i, hi, rfl⟩ _ ⟨j, hj, rfl⟩
  exact hinj i hi j hj

def bareIssue (contract function : String) (address : Int) (title : String) : Issue :=
  { contract, function, address := .int address, swc := "101", title, codeHash := "" }

/-- Two issues of a function are two entries. -/
theorem two_places_are_two_entries :
    ∃ r', [bareIssue "A" "f()" 4 "T", bareIssue "A" "f()" 12 "T"].foldlM (Report.add {}) {} = .ok r' ∧
      r'.issues.length = (Issue.identity '' {i | i ∈ [bareIssue "A" "f()" 4 "T", bareIssue "A" "f()" 12 "T"]}).ncard := by
  have hkeys : (bareIssue "A" "f()" 4 "T").key ≠ (bareIssue "A" "f()" 12 "T").key := by decide +kernel
  obtain ⟨r', hr', -, -, hlength⟩ := entries_count_joined_texts {}
    [bareIssue "A" "f()" 4 "T", bareIssue "A" "f()" 12 "T"] (r := {}) rfl (by simpa using ⟨⟨_, rfl⟩, _, rfl⟩)
  exact ⟨r', hr', hlength.2 (by simp [hkeys, hkeys.symm])⟩

/-- The function `Bf()` of the contract `A` and the function `f()` of the contract `AB` are reported as one. -/
theorem two_contracts_are_one_entry : (bareIssue "A" "Bf()" 4 "T").identity ≠ (bareIssue "AB" "f()" 4 "T").identity ∧
    ∃ r', [bareIssue "A" "Bf()" 4 "T", bareIssue "AB" "f()" 4 "T"].foldlM (Report.add {}) {} = .ok r' ∧
      r'.issues.length = 1 := by
  exact ⟨by simp [Issue.identity, bareIssue], _, rfl, by decide +kernel⟩

end Report
end EvmAudit
