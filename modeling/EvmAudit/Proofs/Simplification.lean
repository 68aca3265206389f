import EvmAudit.Proofs.Copy

/-!
# Simplification

A term that is replaced by its value has the same value as before under every assignment, or none as before: what is
computed from values fits its width, and a value that needs no assignment is the same under all of them. But evaluation can
stop at a number without room, and then nothing is simplified.
-/

namespace EvmAudit

open Option

lemma ArithOp.eval_lt (op : ArithOp) (w a b : Nat) : op.eval w a b < 2 ^ w := by
  have hpos := Nat.two_pow_pos w
  cases op <;> simp only [eval] <;> (try split) <;> first | exact hpos | exact Nat.mod_lt _ hpos

namespace Term

variable {σ : Assignment} {t : Term} {x : Nat}

lemma compose_lt (ps : List (Nat × Nat)) {acc n : Nat} (h : acc < 2 ^ n) :
    compose ps acc < 2 ^ (n + ps.foldr (fun p k => p.1 + k) 0) := by
  induction ps generalizing acc n with
  | nil => exact h
  | cons p ps ih =>
    rw [List.foldr_cons, ← Nat.add_assoc]
    refine ih ?_
    calc acc * 2 ^ p.1 + p.2 % 2 ^ p.1 < (acc + 1) * 2 ^ p.1 := by rw [Nat.succ_mul]; omega
      _ ≤ 2 ^ n * 2 ^ p.1 := Nat.mul_le_mul_right _ h
      _ = 2 ^ (n + p.1) := (Nat.pow_add ..).symm

lemma widthSum_of_evalParts {ts : List Term} {ps : List (Nat × Nat)} (h : evalParts σ ts = some ps) :
    ps.foldr (fun p k => p.1 + k) 0 = widthSum ts := by
  induction ts generalizing ps with
  | nil => cases h; rfl
  | cons t ts ih =>
    simp only [evalParts] at h
    split at h
    · cases h
    · obtain ⟨qs, hqs, rfl⟩ := map_eq_some_iff.1 h
      rw [List.foldr_cons, ih hqs, widthSum]

lemma eval_lt_of_isProp (hp : t.isProp = true) (h : t.eval σ = some x) : x < 2 := by
  have hext : Valuation.Extends ⟨fun name => (σ name).getD 0, fun _ _ => 0⟩ σ := fun name n hn => by simp [hn]
  exact (denote_of_eval hext (fun _ _ => id) t h).1 ▸ denote_lt_of_isProp hp

/-- All that is asked of the sorts in a term: a constant that can be its value fits its width, and the two branches of a
choice are equally wide. -/
def Sized : Term → Prop
  | .const v w => v < 2 ^ w
  | .ite _ a b => a.Sized ∧ b.Sized ∧ a.width = b.width
  | _ => True

lemma eval_lt : ∀ {t : Term} {x : Nat}, t.Sized → t.eval σ = some x → x < 2 ^ t.width
  | .const v w, x, h, hx => by
    cases hx
    exact h
  | .symbol name w, x, _, hx => by
    obtain ⟨n, -, rfl⟩ := map_eq_some_iff.1 hx
    show (n % ((2 ^ w : Nat) : Int)).toNat < 2 ^ w
    omega
  | .arith op a b, x, _, hx => by
    simp only [eval] at hx
    split at hx <;> cases hx
    exact op.eval_lt _ _ _
  | .ite c a b, x, ⟨ha, hb, hw⟩, hx => by
    simp only [eval] at hx
    split at hx
    · cases hx
    split at hx
    · exact eval_lt (t := a) ha hx
    · exact hw ▸ eval_lt hb hx
  | .extract hi lo e, x, _, hx => by
    obtain ⟨n, -, rfl⟩ := map_eq_some_iff.1 hx
    exact Nat.mod_lt _ (Nat.two_pow_pos _)
  | .concat parts, x, _, hx => by
    obtain ⟨ps, hps, rfl⟩ := map_eq_some_iff.1 hx
    have hlt : compose ps 0 < _ := compose_lt ps (n := 0) (by decide)
    rwa [widthSum_of_evalParts hps, Nat.zero_add] at hlt
  | .sum parts, x, _, hx => by
    obtain ⟨vs, -, rfl⟩ := map_eq_some_iff.1 hx
    have hpos := Nat.two_pow_pos (headWidth parts)
    exact List.foldlRecOn (motive := (· < 2 ^ headWidth parts)) vs _ hpos fun s _ v _ => Nat.mod_lt _ hpos
  | .apply name args w, x, _, hx => by
    obtain ⟨vs, -, rfl⟩ := map_eq_some_iff.1 hx
    exact Nat.two_pow_pos w
  | .truth b, x, _, hx | .prop b, x, _, hx | .cmp _ _ b, x, _, hx | .conj b, x, _, hx | .disj b, x, _, hx
  | .not b, x, _, hx | .xor _ b, x, _, hx => eval_lt_of_isProp rfl hx

/-- A value without an assignment is the value under every assignment. -/
lemma eval_of_value? (h : t.value? = some x) : t.eval σ = some x :=
  (denote_of_eval (default : Valuation).extends_empty (fun _ _ h => by cases h) t h).2

mutual

/-- What can be evaluated under an assignment can be evaluated without one: less is known then. -/
lemma overrun_empty : ∀ t : Term, t.overrun σ = none → t.overrun .empty = none
  | .const .., _ | .symbol .., _ | .truth _, _ | .prop _, _ => rfl
  | .arith op a b, h => by
    simp only [overrun, or_eq_none_iff] at h ⊢
    refine ⟨overrun_empty a h.1, overrun_empty b h.2.1, ?_⟩
    split
    · rename_i x y ha hb
      have hroom := h.2.2
      rwa [eval_of_value? ha, eval_of_value? hb] at hroom
    · rfl
  | .ite c a b, h => by
    simp only [overrun, or_eq_none_iff] at h ⊢
    exact ⟨overrun_empty c h.1, overrun_empty a h.2.1, overrun_empty b h.2.2⟩
  | .cmp _ a b, h | .xor a b, h => by
    simp only [overrun, or_eq_none_iff] at h ⊢
    exact ⟨overrun_empty a h.1, overrun_empty b h.2⟩
  | .extract _ _ e, h | .select _ e, h | .not e, h => overrun_empty e h
  | .concat ts, h | .sum ts, h | .apply _ ts _, h | .conj ts, h | .disj ts, h => overrunAny_empty ts h

lemma overrunAny_empty : ∀ ts : List Term, overrunAny σ ts = none → overrunAny .empty ts = none
  | [], _ => rfl
  | t :: ts, h => by
    simp only [overrunAny, or_eq_none_iff] at h ⊢
    exact ⟨overrun_empty t h.1, overrunAny_empty ts h.2⟩

end

/-- If evaluation under an assignment ends, so does simplification, and it keeps the value, and that there is none. The value
fits the width of the term. What was simplified is left alone by simplification, and a value that needs no assignment is the
value under this one. -/
theorem simplification_keeps_values {r : Option Nat} (h : t.Sized) (hends : t.evaluate σ = .ok r) :
    t.evaluate .empty = .ok t.value? ∧ t.simplify.evaluate σ = .ok r ∧ (∀ x, r = some x → x < 2 ^ t.width) ∧
      t.simplify.simplify = t.simplify ∧ ∀ x, t.value? = some x → r = some x := by
  unfold evaluate at hends
  split at hends
  · cases hends
  rename_i hroom
  cases hends
  refine ⟨?_, ?_, fun x => eval_lt h, t.simplify_simplify, fun x => eval_of_value?⟩
  · rw [evaluate, overrun_empty t hroom]
    rfl
  · unfold simplify
    split
    · rename_i v hv
      rw [evaluate, overrun_constLike, eval_of_value? hv, eval_constLike (eval_lt h hv)]
    · rw [evaluate, hroom]

/-- A choice between a sum that has a value and a variable, under two assignments. -/
theorem choice_keeps_its_values :
    let t : Term := .ite (.prop "p") (.arith .add (.const 200 8) (.const 100 8)) (.symbol "x" 8)
    t.simplify.evaluate (.ofList [("p", 1)]) = .ok (some 44) ∧ t.simplify.evaluate (.ofList [("x", 7)]) = .ok none := by
  intro t
  have hsized : t.Sized := ⟨trivial, trivial, rfl⟩
  exact ⟨(simplification_keeps_values hsized rfl).2.1, (simplification_keeps_values hsized rfl).2.1⟩

/-- One is shifted to the left, beyond its width, by so much that the number before the cut cannot be formed. -/
theorem far_shift_is_not_simplified :
    let t : Term := .arith .shl (.const 1 256) (.const (2 ^ 255) 256)
    t.Sized ∧ ∃ l, (Expr.mk 0 0 t).simplified {} = .error .tooLarge l := ⟨trivial, {}, rfl⟩

end Term
end EvmAudit
