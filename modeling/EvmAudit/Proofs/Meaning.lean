import EvmAudit.Term

/-!
# Arithmetic of terms is arithmetic of words

The evaluator computes with natural numbers and reduces them to the width at hand. On numbers that fit into a width
this is arithmetic of bit vectors, and the composition of bytes is the number they spell.
-/

namespace EvmAudit

section

open BitVec Nat

variable {w n : Nat}

/-- A shift to the right needs no test for amounts beyond the number of bits. -/
theorem Term.shiftRight_eq (a n : Nat) : shiftRight a n = a >>> n := by
  unfold shiftRight
  split
  · rename_i h
    have ha : a < 2 ^ n := Nat.lt_of_lt_of_le lt_log2_self (Nat.pow_le_pow_right (by decide) h)
    exact (shiftRight_eq_zero a n ha).symm
  · rfl

/-- Arithmetic on words; a division by zero is zero, and both spellings of division mean the unsigned one. -/
def ArithOp.onWords {w : Nat} (op : ArithOp) (x y : BitVec w) : BitVec w :=
  match op with
  | .add => x + y
  | .sub => x - y
  | .mul => x * y
  | .and => x &&& y
  | .or => x ||| y
  | .xor => x ^^^ y
  | .shl => x <<< y.toNat
  | .lshr => x >>> y.toNat
  | .ashr => x.sshiftRight y.toNat
  | .udiv | .sdiv => x / y
  | .urem | .srem => if y = 0 then 0 else x % y

theorem foldl_bytes_lt {α : Type} (f : α → Nat) (bs : List α) (h : ∀ b ∈ bs, f b < 256) (acc n : Nat)
    (hacc : acc < 256 ^ n) : bs.foldl (fun acc b => acc * 256 + f b) acc < 256 ^ (n + bs.length) := by
  induction bs generalizing acc n with
  | nil => exact hacc
  | cons b bs ih =>
    have hb := h b (by simp)
    have := ih (fun b hb => h b (by simp [hb])) (acc * 256 + f b) (n + 1) (by omega)
    rwa [List.foldl_cons, List.length_cons, Nat.add_comm bs.length, ← Nat.add_assoc]

theorem ArithOp.eval_ashr (x y : BitVec w) : eval .ashr w x.toNat y.toNat = (x.sshiftRight y.toNat).toNat := by
  have hm : (w ≠ 0 ∧ x.toNat.testBit (w - 1) = true) ↔ x.msb = true := by
    rw [msb_eq_getLsbD_last]
    refine and_iff_right_of_imp ?_
    rintro h rfl
    simp [eq_nil x] at h
  rw [← mod_eq_of_lt (x.sshiftRight y.toNat).isLt, toNat_sshiftRight]
  simp only [eval, Term.shiftRight_eq, mod_eq_of_lt y.isLt, mod_eq_of_lt x.isLt, hm, Nat.sub_right_comm _ x.toNat]
  split <;> rfl

theorem ArithOp.eval_toNat (op : ArithOp) (x y : BitVec w) : op.eval w x.toNat y.toNat = (op.onWords x y).toNat := by
  have hx := x.isLt
  have hy := y.isLt
  cases op with
  | add => simp [eval, onWords]
  | sub => simp [eval, onWords, Nat.add_comm]
  | mul => simp [eval, onWords]
  | and => exact mod_eq_of_lt (x &&& y).isLt
  | or => exact mod_eq_of_lt (x ||| y).isLt
  | xor => exact mod_eq_of_lt (x ^^^ y).isLt
  | shl =>
    simp only [eval, onWords, mod_eq_of_lt hy, toNat_shiftLeft]
    split
    · rename_i h
      rw [← toNat_shiftLeft, shiftLeft_eq_zero h, toNat_zero]
    · rfl
  | lshr =>
    simp only [eval, mod_eq_of_lt hy, Term.shiftRight_eq]
    exact mod_eq_of_lt (Nat.lt_of_le_of_lt (shiftRight_le _ _) hx)
  | ashr => exact eval_ashr x y
  | udiv | sdiv =>
    have hd : x.toNat / y.toNat < 2 ^ w := Nat.lt_of_le_of_lt (div_le_self _ _) hx
    simp only [eval, onWords, mod_eq_of_lt hd]
    split <;> simp_all
  | urem | srem =>
    have hz : y = 0 ↔ y.toNat = 0 := by simp [← toNat_inj]
    have hr : x.toNat % y.toNat < 2 ^ w := Nat.lt_of_le_of_lt (mod_le _ _) hx
    simp only [eval, onWords, mod_eq_of_lt hr, hz]
    split <;> simp

/-! ## Masks -/

theorem getLsbD_twoPow_sub_one (hn : n < w) (i : Nat) : (twoPow w n - 1#w).getLsbD i = decide (i < n) := by
  have hone : (1#w).toNat = 1 := mod_eq_of_lt (Nat.one_lt_two_pow (by omega))
  have hle : 1#w ≤ twoPow w n := by
    rw [le_def, hone, toNat_twoPow_of_lt hn]
    exact Nat.two_pow_pos n
  rw [← testBit_toNat, toNat_sub_of_le hle, toNat_twoPow_of_lt hn, hone, testBit_two_pow_sub_one]

theorem neg_eq_not_sub_one (x : BitVec w) : 0#w - x = ~~~(x - 1#w) := by
  rw [BitVec.zero_sub, ← not_neg, BitVec.not_not]

theorem signExtend_setWidth (hn : n < w) (x : BitVec w) : (x.setWidth (n + 1)).signExtend w =
      if x &&& twoPow w n = 0#w then x &&& (twoPow w n - 1#w)
      else x ||| (0#w - twoPow w n) := by
  have hbit : x &&& twoPow w n = 0#w ↔ x.getLsbD n = false := by
    rw [and_twoPow]
    cases x.getLsbD n with
    | false => simp
    | true =>
      simp only [Bool.true_eq_false, iff_false]
      intro h
      have := congrArg (getLsbD · n) h
      simp [hn] at this
  refine eq_of_getLsbD_eq fun i hi => ?_
  rw [getLsbD_signExtend, getLsbD_setWidth, msb_setWidth'']
  by_cases hx : x.getLsbD n = true
  · have hz : ¬ (x &&& twoPow w n = 0#w) := by simp [hbit, hx]
    rw [if_neg hz, neg_eq_not_sub_one, getLsbD_or, getLsbD_not, getLsbD_twoPow_sub_one hn]
    rcases Nat.lt_trichotomy i n with hin | rfl | hin
    · simp [hi, hin, lt_succ_of_lt hin]
    · simp [hi, hx]
    · simp [hi, Nat.not_lt.2 (succ_le_of_lt hin), Nat.not_lt.2 (Nat.le_of_lt hin), hx]
  · have hz : x &&& twoPow w n = 0#w := by simpa [hbit] using hx
    rw [if_pos hz, getLsbD_and, getLsbD_twoPow_sub_one hn]
    rcases Nat.lt_trichotomy i n with hin | rfl | hin
    · simp [hi, hin, lt_succ_of_lt hin]
    · simpa [hi] using hx
    · simp [hi, Nat.not_lt.2 (succ_le_of_lt hin), Nat.not_lt.2 (Nat.le_of_lt hin), hx]

end

/-!
# Meaning of terms

A valuation gives a number to every variable and contents to every array variable, so that every term means a
number: `Term.denote`. The partial evaluator is the same meaning where it has an answer at all, and a term that was
replaced by its value means what it meant before.
-/

open Option

/-- Numbers for all variables and contents for all arrays. -/
structure Valuation where
  number : String → Int
  content : String → Nat → Nat

instance : Inhabited Valuation := ⟨⟨fun _ => 0, fun _ _ => 0⟩⟩

mutual

def Term.denote (σ : Valuation) : Term → Nat
  | .const v _ => v
  | .symbol name w => (σ.number name % ((2 ^ w : Nat) : Int)).toNat
  | .arith op a b => op.eval a.width (a.denote σ) (b.denote σ)
  | .ite c a b => if c.denote σ ≠ 0 then a.denote σ else b.denote σ
  | .extract hi lo e => Term.shiftRight (e.denote σ) lo % 2 ^ (hi + 1 - lo)
  | .concat parts => Term.compose (Term.denoteParts σ parts) 0
  | .sum parts => (Term.denoteAll σ parts).foldl (fun s v => (s + v) % 2 ^ Term.headWidth parts) 0
  | .apply _ _ _ => 0
  | .select a i => a.denote σ (i.denote σ)
  | .truth b => Term.ofBool b
  | .prop name => Term.ofBool (σ.number name != 0)
  | .cmp op a b => Term.ofBool (op.eval (a.denote σ) (b.denote σ))
  | .conj parts => Term.ofBool ((Term.denoteAll σ parts).all (· != 0))
  | .disj parts => Term.ofBool ((Term.denoteAll σ parts).any (· != 0))
  | .not e => Term.ofBool (e.denote σ == 0)
  | .xor a b => Term.ofBool ((a.denote σ != 0) != (b.denote σ != 0))

def Term.denoteAll (σ : Valuation) : List Term → List Nat
  | [] => []
  | t :: ts => t.denote σ :: Term.denoteAll σ ts

def Term.denoteParts (σ : Valuation) : List Term → List (Nat × Nat)
  | [] => []
  | t :: ts => (t.width, t.denote σ) :: Term.denoteParts σ ts

def ArrayTerm.denote (σ : Valuation) : ArrayTerm → Nat → Nat
  | .named name _ _ => σ.content name
  | .filled _ _ v => fun _ => v
  | .store base k v => fun i => if k = some i then v.denote σ else base.denote σ i
  | .choice c a b => fun i => if c.denote σ ≠ 0 then a.denote σ i else b.denote σ i

end

/-- An assignment that the valuation agrees with, as far as it goes. -/
def Valuation.Extends (σ : Valuation) (ρ : Assignment) : Prop := ∀ name n, ρ name = some n → σ.number name = n

theorem Valuation.extends_empty (σ : Valuation) : σ.Extends Assignment.empty := by
  intro name n h
  cases h

namespace Term

variable {σ : Valuation} {ρ τ : Assignment}

theorem evalParts_eq (ρ : Assignment) (ts : List Term) : evalParts ρ ts = (evalList ρ ts).map (ts.map width).zip := by
  induction ts with
  | nil => rfl
  | cons t ts ih =>
    rw [evalParts, evalList, ih]
    cases eval ρ t <;> cases evalList ρ ts <;> rfl

theorem denoteParts_eq (ts : List Term) : denoteParts σ ts = (ts.map width).zip (denoteAll σ ts) := by
  induction ts with
  | nil => rfl
  | cons t ts ih => rw [denoteParts, ih, denoteAll, List.map_cons, List.zip_cons_cons]

mutual

/-- A value that a term has under an assignment is what the term denotes, and its value under every further assignment. -/
theorem denote_of_eval (h : σ.Extends ρ) (hτ : ∀ name n, ρ name = some n → τ name = some n) :
    ∀ (t : Term) {x : Nat}, t.eval ρ = some x → t.denote σ = x ∧ t.eval τ = some x
  | .const v w, x, hx | .truth b, x, hx => ⟨by simpa [eval, denote] using hx, hx⟩
  | .symbol name w, x, hx | .prop name, x, hx => by
    obtain ⟨n, hn, rfl⟩ := map_eq_some_iff.1 hx
    simp [denote, eval, h name n hn, hτ name n hn]
  | .arith op a b, x, hx | .cmp op a b, x, hx | .xor a b, x, hx => by
    simp only [eval] at hx
    split at hx
    · rename_i m n ha hb
      simp only [some.injEq] at hx
      simp [denote, eval, denote_of_eval h hτ a ha, denote_of_eval h hτ b hb, hx]
    · cases hx
  | .ite c a b, x, hx => by
    simp only [eval] at hx
    split at hx
    · cases hx
    rename_i m hc
    simp only [denote, eval, denote_of_eval h hτ c hc]
    split at hx
    · rename_i hm
      rw [if_pos hm, if_pos hm]
      exact denote_of_eval h hτ a hx
    · rename_i hm
      rw [if_neg hm, if_neg hm]
      exact denote_of_eval h hτ b hx
  | .extract hi lo e, x, hx | .not e, x, hx => by
    obtain ⟨n, hn, rfl⟩ := map_eq_some_iff.1 hx
    simp [denote, eval, denote_of_eval h hτ e hn]
  | .concat parts, x, hx => by
    rw [eval, evalParts_eq, map_map] at hx
    obtain ⟨vs, hv, rfl⟩ := map_eq_some_iff.1 hx
    simp [denote, eval, evalParts_eq, denoteParts_eq, denoteAll_of_evalList h hτ parts hv]
  | .sum parts, x, hx | .conj parts, x, hx | .disj parts, x, hx | .apply _ parts _, x, hx => by
    obtain ⟨vs, hv, rfl⟩ := map_eq_some_iff.1 hx
    simp [denote, eval, denoteAll_of_evalList h hτ parts hv]
  | .select a i, x, hx => by simp [eval] at hx

theorem denoteAll_of_evalList (h : σ.Extends ρ) (hτ : ∀ name n, ρ name = some n → τ name = some n) :
    ∀ (ts : List Term) {xs : List Nat}, evalList ρ ts = some xs → denoteAll σ ts = xs ∧ evalList τ ts = some xs
  | [], xs, hx => ⟨by simpa [evalList, denoteAll] using hx, hx⟩
  | t :: ts, xs, hx => by
    simp only [evalList] at hx
    split at hx
    · cases hx
    · rename_i v hv
      obtain ⟨vs, hvs, rfl⟩ := map_eq_some_iff.1 hx
      simp [denoteAll, evalList, denote_of_eval h hτ t hv, denoteAll_of_evalList h hτ ts hvs]

end

theorem denote_of_value? {t : Term} {x : Nat} (h : t.value? = some x) : t.denote σ = x :=
  (denote_of_eval σ.extends_empty (fun _ _ => id) t h).1

/-! ## Terms that were replaced by their value -/

@[simp] theorem isProp_constLike (t : Term) (v : Nat) : (t.constLike v).isProp = t.isProp := by
  unfold constLike
  split <;> simp_all [isProp]

theorem width_of_isProp {t : Term} (h : t.isProp = true) : t.width = 1 := by
  cases t <;> simp_all [isProp, width]

@[simp] theorem width_constLike (t : Term) (v : Nat) : (t.constLike v).width = t.width := by
  unfold constLike
  split
  · rename_i h
    simp [width, width_of_isProp h]
  · simp [width]

@[simp] theorem isProp_simplify (t : Term) : t.simplify.isProp = t.isProp := by
  unfold simplify
  split <;> simp

@[simp] theorem width_simplify (t : Term) : t.simplify.width = t.width := by
  unfold simplify
  split <;> simp

theorem ofBool_lt (b : Bool) : ofBool b < 2 := by cases b <;> decide

@[simp] theorem ofBool_ne_zero (b : Bool) : (ofBool b != 0) = b := by cases b <;> rfl

theorem denote_lt_of_isProp {t : Term} (h : t.isProp = true) : t.denote σ < 2 := by
  cases t <;> simp only [isProp, Bool.false_eq_true] at h ⊢ <;> exact ofBool_lt _

theorem eval_constLike {t : Term} {v : Nat} (h : v < 2 ^ t.width) : (t.constLike v).eval ρ = some v := by
  unfold constLike
  split
  · rename_i hp
    rw [width_of_isProp hp] at h
    match v, h with
    | 0, _ | 1, _ => rfl
  · simp [eval, Nat.mod_eq_of_lt h]

theorem denote_simplify {t : Term} (h : t.denote σ < 2 ^ t.width) : t.simplify.denote σ = t.denote σ := by
  unfold simplify
  split
  · rename_i v hv
    rw [denote_of_value? hv] at h ⊢
    exact denote_of_value? (eval_constLike h)
  · rfl

end Term
end EvmAudit
