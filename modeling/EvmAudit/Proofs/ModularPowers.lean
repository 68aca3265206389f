import EvmAudit.Precompile
import EvmAudit.Proofs.JumpTables
import EvmAudit.Proofs.Meaning
import Mathlib.Data.Nat.ModEq

/-!
# Modular powers

A request for a modular power names three lengths, and a base, an exponent and a modulus of these lengths stand behind
them; the input goes on with zeros. The answer is the power, in as many bytes as the modulus has, but for one case: with an
empty base it is zero even if the exponent is zero.
-/

namespace EvmAudit

open List

namespace Bytes

variable {bytes : List Nat} {k n value : Nat}

lemma take_eq (bytes : List Nat) (start n : Nat) :
    take bytes start n = (range n).map fun i => bytes.getD (start + i) 0 := by
  rw [Evm.range_map_getD]
  simp [take, padRight]

lemma word_eq (bytes : List Nat) (i : Nat) : word bytes i = toNat (take bytes i 32) := by
  unfold word
  split
  · rw [take, drop_eq_nil_of_le (by omega)]
    rfl
  · simp only [take, Sequence.slice, Sequence.bound]
    rw [if_pos (by omega), if_pos (by omega), drop_take, show min (i : Int).toNat bytes.length = i by omega,
      take_eq_take_iff.2 (show min _ (bytes.drop i).length = min 32 _ by rw [length_drop]; omega)]

lemma toNat_lt (h : ∀ b ∈ bytes, b < 256) : toNat bytes < 256 ^ bytes.length := by
  have hlt := foldl_bytes_lt id bytes h 0 0 Nat.one_pos
  rwa [Nat.zero_add] at hlt

lemma padLeft_ofNat (hk : value < 256 ^ k) (h : k ≤ n) : padLeft (ofNat k value) n = ofNat n value := by
  refine ext_getElem (by simp [padLeft, ofNat]; omega) fun i hi _ => ?_
  simp only [padLeft, ofNat, length_map, length_range, getElem_append, getElem_map, getElem_range, length_replicate,
    getElem_replicate]
  split
  · have := Nat.pow_le_pow_right (show 0 < 256 by decide) (show k ≤ n - 1 - i by omega)
    rw [Nat.div_eq_of_lt (by omega)]
  · simp [padLeft] at hi
    rw [show k - 1 - (i - (n - k)) = n - 1 - i by omega]

lemma padLeft_minimal (hn : n ≠ 0) (h : value < 256 ^ n) : padLeft (minimal value) n = ofNat n value := by
  unfold minimal
  split
  · subst value
    exact padLeft_ofNat (Nat.one_pos.trans (by decide)) (Nat.pos_of_ne_zero hn)
  · rename_i hne
    have hlog : value.log2 < 8 * n := by rwa [Nat.log2_lt hne, Nat.pow_mul]
    refine padLeft_ofNat ?_ (by omega)
    rw [show 256 = 2 ^ 8 from rfl, ← Nat.pow_mul, ← Nat.log2_lt hne]
    omega

end Bytes

lemma powMod_eq (a n m : Nat) : powMod a n m = a ^ n % m := by
  have hgo (fuel b n acc) (h : n < 2 ^ fuel) (hacc : acc % m = acc) : powMod.go m fuel b n acc = acc * b ^ n % m := by
    induction fuel generalizing b n acc with
    | zero => simp [powMod.go, Nat.lt_one_iff.1 h, hacc]
    | succ fuel ih =>
      unfold powMod.go
      split
      · simp [*]
      · have hpow : b ^ n = b ^ (n % 2) * (b * b) ^ (n / 2) := by
          rw [← Nat.pow_two, ← Nat.pow_mul, ← Nat.pow_add, Nat.mod_add_div]
        rw [ih _ _ _ (by omega) (by split <;> simp [hacc]), Nat.mul_mod, ← Nat.pow_mod, hpow, ← Nat.mul_assoc]
        rcases Nat.mod_two_eq_zero_or_one n with h2 | h2 <;> simp [h2]
  rw [powMod, hgo _ _ _ _ Nat.lt_log2_self (Nat.mod_mod 1 m), Nat.mod_mul_mod, Nat.one_mul, ← Nat.pow_mod]

namespace Precompile

/-- The number that stands in a part of an input, which goes on with zeros. -/
def field (input : List Nat) (start n : Nat) : Nat := Bytes.toNat ((range n).map fun i => input.getD (start + i) 0)

structure PowerRequest where
  baseLen : Nat
  expLen : Nat
  modLen : Nat
  base : Nat
  exponent : Nat
  modulus : Nat

namespace PowerRequest

def ofInput (input : List Nat) : PowerRequest :=
  let b := field input 0 32
  let e := field input 32 32
  let m := field input 64 32
  ⟨b, e, m, field input 96 b, field input (96 + b) e, field input (96 + b + e) m⟩

/-- The power that is asked for, or zero where there is no modulus. -/
def power (r : PowerRequest) : Nat := if r.modulus = 0 then 0 else r.base ^ r.exponent % r.modulus

abbrev IsTooLong (r : PowerRequest) : Prop :=
  2 ^ 63 ≤ r.modLen ∨ r.baseLen ≠ 0 ∧ r.modLen ≠ 0 ∧ (2 ^ 63 ≤ r.baseLen ∨ 2 ^ 63 ≤ r.expLen)

end PowerRequest

variable {input : List Nat}

lemma field_lt (h : ∀ b ∈ input, b < 256) (start n : Nat) : field input start n < 256 ^ n := by
  refine (Bytes.toNat_lt ?_).trans_eq (by simp)
  intro b hb
  obtain ⟨i, -, rfl⟩ := mem_map.1 hb
  rw [getD_eq_getElem?_getD]
  cases hi : input[start + i]? with
  | none => decide
  | some x => exact h x (mem_of_getElem? hi)

lemma modExp_run (h : ∀ b ∈ input, b < 256) : let r := PowerRequest.ofInput input
    modExp (ofBytes input) = if r.IsTooLong then .error .tooLarge else
      .ok (ofBytes (Bytes.ofNat r.modLen (if r.baseLen = 0 then 0 else r.power))) := by
  intro r
  have hplain : plain (ofBytes input) = .ok input := by rw [plain, ofBytes, Bytecode.bytesOf_map_int h]
  have hzeros (n : Nat) : Bytes.ofNat n 0 = replicate n 0 := by simp [Bytes.ofNat, map_const']
  have htake (start n) : Bytes.toNat (Bytes.take input start n) = field input start n := by rw [Bytes.take_eq, field]
  have hword (i : Nat) : Bytes.word input i = field input i 32 := by rw [Bytes.word_eq, htake]
  have hbaseLen : Bytes.word input 0 = r.baseLen := hword 0
  have hexpLen : Bytes.word input 32 = r.expLen := hword 32
  have hmodLen : Bytes.word input 64 = r.modLen := hword 64
  have hbase : field input 96 r.baseLen = r.base := rfl
  have hexponent : field input (96 + r.baseLen) r.expLen = r.exponent := rfl
  have hmodulus : field input (96 + r.baseLen + r.expLen) r.modLen = r.modulus := rfl
  have hlt : r.modulus < 256 ^ r.modLen := field_lt h ..
  simp only [modExp, hplain, bind, Except.bind, pure, Except.pure, hbaseLen, hmodLen, checkLength, PowerRequest.power, powMod_eq]
  clear_value r
  by_cases hb : r.baseLen = 0
  · by_cases hlong : 2 ^ 63 ≤ r.modLen <;> simp [hb, hlong, hzeros]
  · by_cases hn : r.modLen = 0
    · simp [ hn, Bytes.ofNat, ofBytes]
    · have hanswer (hm : r.modulus ≠ 0) :=
        Bytes.padLeft_minimal hn ((Nat.mod_lt (r.base ^ r.exponent) (Nat.pos_of_ne_zero hm)).trans hlt)
      by_cases h1 : 2 ^ 63 ≤ r.baseLen <;> by_cases h2 : 2 ^ 63 ≤ r.expLen <;> by_cases h3 : 2 ^ 63 ≤ r.modLen <;>
        by_cases hm : r.modulus = 0 <;> simp [*]

/-- **An empty base has no power of zero.**  Every request that is not too long is answered in as many bytes as its modulus
has, and unless the base is empty the answer is the power. For an empty base it is zero, which is the power unless the
exponent is zero and the modulus is above one. -/
theorem modExp_of_bytes (input : List (BitVec 8)) : let r : PowerRequest := .ofInput (input.map (·.toNat))
    let value := if r.baseLen = 0 then 0 else r.power
    modExp (ofBytes (input.map (·.toNat))) =
      (if r.IsTooLong then .error .tooLarge else .ok (ofBytes (Bytes.ofNat r.modLen value))) ∧
    (value = r.power ↔ ¬ (r.baseLen = 0 ∧ r.exponent = 0 ∧ 1 < r.modulus)) := by
  intro r value
  refine ⟨modExp_run (forall_mem_map.2 fun x _ => x.isLt), ?_⟩
  by_cases hb : r.baseLen = 0
  · have hbase : field (input.map (·.toNat)) 96 r.baseLen = r.base := rfl
    rw [hb] at hbase
    have hzero : 0 = r.base := hbase
    simp only [value, hb, PowerRequest.power, ← hzero]
    rcases Nat.eq_zero_or_pos r.exponent with he | he
    · simp [he]
      rcases r.modulus with _ | _ | m <;> simp
    · simp [he.ne']
  · simp [value, hb]

end Precompile
end EvmAudit
