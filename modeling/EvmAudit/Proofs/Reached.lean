import EvmAudit.Explore.Basic
import Mathlib.Data.List.Induction
import Mathlib.Tactic.Lemma

/-!
# What counts as reached

Each visit to an instruction sets its flag, so the flags of a code are exactly the visits. They are not what is asked for
when an instruction is looked up: there the code is all that matters.
-/

namespace EvmAudit.Coverage

open List

def isOf (code : String) (e : CodeCoverage) : Bool :=
  match e.code with
  | .hex text => text == code
  | _ => false

lemma sameCode_hex (e : CodeCoverage) (code : String) : sameCode e.code (.hex code) = pure (isOf code e) := by
  unfold sameCode isOf
  cases e.code <;> rfl

lemma find?_hex (c : Coverage) (code : String) : c.find? (.hex code) = pure (List.find? (isOf code) c) := by
  simp only [find?, sameCode_hex]
  exact findM?_pure ..

/-- A visit changes nothing but what is known about its own code. -/
lemma reach_hex (c : Coverage) (code : String) (n : Nat) (i : Int) : ∃ c', c.reach (.hex code) n i = pure c' ∧
    ∀ code', List.find? (isOf code') c' = if code' = code then
      some (reach.mark i ((List.find? (isOf code) c).getD ⟨.hex code, .replicate n false⟩))
      else List.find? (isOf code') c := by
  have hmark code' (e : CodeCoverage) : isOf code' (reach.mark i e) = isOf code' e := by
    unfold reach.mark
    split <;> rfl
  induction c with
  | nil =>
    refine ⟨_, rfl, fun code' => ?_⟩
    have hnew : isOf code' (reach.mark i ⟨.hex code, .replicate n false⟩) = (code == code') := hmark ..
    by_cases h : code = code'
    · subst h
      simp [hnew]
    · simp [hnew, h, Ne.symm h]
  | cons e rest ih =>
    obtain ⟨c', hc', hfind⟩ := ih
    rw [reach, sameCode_hex, pure_bind]
    by_cases he : isOf code e = true
    · refine ⟨_, if_pos he, fun code' => ?_⟩
      have hother : isOf code' e = true → code' = code := by
        unfold isOf at he ⊢
        split <;> simp_all
      by_cases h : code' = code <;> simp_all
    · rw [if_neg he, hc']
      refine ⟨_, pure_bind _ _, fun code' => ?_⟩
      by_cases h : code' = code <;> simp_all [find?_cons]

/-- What visits leave about a code with so many instructions: which of them were visited, if any was. -/
def flags (size : String → Nat) (visits : List (String × Int)) (code : String) : Option CodeCoverage :=
  if code ∈ visits.map (·.1) then
    some ⟨.hex code, ((range (size code)).map fun k : Nat => decide ((code, (k : Int)) ∈ visits)).toArray⟩
  else none

lemma mark_flags (size : String → Nat) (visits : List (String × Int)) (code : String) (i : Int) :
    some (reach.mark i ((flags size visits code).getD ⟨.hex code, .replicate (size code) false⟩)) =
      flags size (visits ++ [(code, i)]) code := by
  have hold : (flags size visits code).getD ⟨.hex code, .replicate (size code) false⟩ =
      ⟨.hex code, ((range (size code)).map fun k : Nat => decide ((code, (k : Int)) ∈ visits)).toArray⟩ := by
    unfold flags
    split
    · rfl
    · rename_i hno
      have hnew (k : Int) : (code, k) ∉ visits := fun h => hno (mem_map_of_mem h)
      simp [hnew, map_const']
  rw [hold, flags, if_pos (by simp), reach.mark]
  split
  · simp [show ∀ k : Nat, (k : Int) ≠ i by omega]
  · simp only [Option.some.injEq, CodeCoverage.mk.injEq, true_and, setIfInBounds_toArray]
    congr 1
    refine ext_getElem? fun k => ?_
    by_cases hk : k < size code <;> by_cases hi : i.toNat = k <;>
      simp [hk, hi, show (k : Int) = i ↔ i.toNat = k by omega]

/-- **Of a code that was met, the first two instructions count as reached.**  After visits to instructions the flags of a
code are set where it was visited. But whatever they are, its first two instructions count as reached as soon as any of
them was visited, and no other ever does. -/
theorem reached_are_first_two (size : String → Nat) (visits : List (String × Int)) : ∃ c : Coverage,
    visits.foldlM (fun c v => reach c (.hex v.1) (size v.1) v.2) [] = pure c ∧ ∀ code,
      c.find? (.hex code) = pure (flags size visits code) ∧ ∀ index, c.isReached (.hex code) index =
        pure (decide (code ∈ visits.map (·.1) ∧ 0 < size code ∧ (index = 0 ∨ index = 1))) := by
  have hknown : ∃ c : Coverage, visits.foldlM (fun c v => reach c (.hex v.1) (size v.1) v.2) [] = pure c ∧
      ∀ code, List.find? (isOf code) c = flags size visits code := by
    induction visits using List.reverseRecOn with
    | nil => exact ⟨[], rfl, fun _ => rfl⟩
    | append_singleton visits v ih =>
      obtain ⟨c, hc, hfind⟩ := ih
      obtain ⟨c', hc', hfind'⟩ := reach_hex c v.1 (size v.1) v.2
      refine ⟨c', by simp [hc, hc'], fun code => ?_⟩
      rw [hfind', hfind, hfind, mark_flags]
      split
      · rename_i h
        rw [h]
      · grind [flags]
  obtain ⟨c, hc, hfind⟩ := hknown
  refine ⟨c, hc, fun code => ⟨by rw [find?_hex, hfind], fun index => ?_⟩⟩
  rw [isReached, find?_hex, hfind, pure_bind, flags]
  by_cases h : code ∈ visits.map (·.1)
  · simp [h, and_comm, Bool.beq_eq_decide_eq]
  · simp [h]

end EvmAudit.Coverage
