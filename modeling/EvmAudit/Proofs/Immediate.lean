import EvmAudit.Proofs.Evm
import EvmAudit.Text.Basic

/-!
# Immediates

The immediate of a push is kept in digits, and cut off where the code ends. Filled up with zeros and read as a number
of base 16, it is the word that the machine pushes.
-/

namespace EvmAudit

open List Hex

variable {ns bytes : List Nat} {cs : List Char} {text : String}

/-- The number that digits of base 16 spell, added to what came before. -/
def Hex.number (acc : Nat) (ns : List Nat) : Nat := ns.foldl (fun acc n => acc * 16 + n) acc

namespace Numeral

lemma digitValue?_digit : ∀ n < 16, digitValue? (digit n) = some n := by decide

/-- The character is part of a number and no mark of base 16. -/
abbrev Plain (c : Char) : Prop :=
  Chars.isBlank c = false ∧ c ≠ '-' ∧ c ≠ '+' ∧ c ≠ '_' ∧ (markedBase? c = none ∨ markedBase? c = some 2)

lemma plain_digit : ∀ n < 16, Plain (digit n) := by decide

lemma trim_eq_self (h : ∀ c ∈ cs, Chars.isBlank c = false) : Chars.trim cs = cs := by
  have hdrop : ∀ cs : List Char, (∀ c ∈ cs, Chars.isBlank c = false) → cs.dropWhile Chars.isBlank = cs := by
    intro cs hcs
    cases cs with
    | nil => rfl
    | cons c cs => rw [dropWhile_cons_of_neg (by simp [hcs c (by simp)])]
  unfold Chars.trim
  rw [hdrop _ h, hdrop _ (fun c hc => h c (mem_reverse.1 hc)), reverse_reverse]

section

variable {b : Nat} (hb : 2 < b ∧ b ≤ 16) (h : ∀ n ∈ ns, n < b)
include hb h

lemma plain_of_mem : ∀ c ∈ ns.map digit, Plain c := by
  intro c hc
  obtain ⟨n, hn, rfl⟩ := mem_map.1 hc
  exact plain_digit n (Nat.lt_of_lt_of_le (h n hn) hb.2)

lemma digits_map_digit (mustFollow : Bool) (acc : Nat) (hne : mustFollow = true → ns ≠ []) :
    digits b mustFollow acc (ns.map digit) = some (ns.foldl (fun acc n => acc * b + n) acc) := by
  induction ns generalizing mustFollow acc with
  | nil =>
    cases mustFollow with
    | false => rfl
    | true => exact absurd rfl (hne rfl)
  | cons n ns ih =>
    have hn : n < b := h n (by simp)
    have hu : (digit n == '_') = false := by simpa using (plain_digit n (by omega)).2.2.2.1
    simp only [map_cons, digits, hu, digitValue?_digit n (by omega), hn]
    exact ih (fun m hm => h m (by simp [hm])) false _ (fun hf => nomatch hf)

variable (hne : ns ≠ [])
include hne

lemma magnitude_map_digit : magnitude b (ns.map digit) = some (ns.foldl (fun acc n => acc * b + n) 0) := by
  have hdigits := digits_map_digit hb h true 0 fun _ => hne
  have h0 : b ≠ 0 := by omega
  have h2 : b ≠ 2 := by omega
  unfold magnitude
  split
  · rename_i c rest heq
    obtain ⟨-, -, -, -, hm | hm⟩ := plain_of_mem hb h c (by simp [heq]) <;> simpa [hm, h0, h2] using hdigits
  · simpa [h0] using hdigits

lemma parse?_map_digit (htext : text.toList = ns.map digit) :
    parse? b text = some (ns.foldl (fun acc n => acc * b + n) 0 : Nat) := by
  have hplain := plain_of_mem hb h
  unfold parse?
  rw [htext, trim_eq_self fun c hc => (hplain c hc).1]
  split
  · rename_i heq
    exact absurd rfl (hplain '-' (by simp [heq])).2.1
  · rename_i heq
    exact absurd rfl (hplain '+' (by simp [heq])).2.2.1
  · rw [magnitude_map_digit hb h hne]
    rfl

end

lemma parse?_marked (h : ∀ n ∈ ns, n < 16) (hne : ns ≠ []) (htext : text.toList = '0' :: 'x' :: ns.map digit) :
    parse? 16 text = some (number 0 ns : Int) := by
  have hplain := plain_of_mem (by decide) h
  have hblank : ∀ c ∈ '0' :: 'x' :: ns.map digit, Chars.isBlank c = false :=
    forall_mem_cons.2 ⟨by decide, forall_mem_cons.2 ⟨by decide, fun c hc => (hplain c hc).1⟩⟩
  have hafter : afterMarker 16 (ns.map digit) = some (number 0 ns) := by
    unfold afterMarker
    split
    · rename_i heq
      exact absurd rfl (hplain '_' (by simp [heq])).2.2.2.1
    · exact digits_map_digit (by decide) h true 0 fun _ => hne
  have hmagnitude : magnitude 16 ('0' :: 'x' :: ns.map digit) = afterMarker 16 (ns.map digit) := rfl
  unfold parse?
  rw [htext, trim_eq_self hblank]
  split
  iterate 2
    rename_i heq
    exact absurd (cons.inj heq).1 (by decide)
  · rw [hmagnitude, hafter]
    rfl

end Numeral

/-! ## Digits of numbers -/

lemma Hex.digitChar_eq_digit : ∀ n < 16, Nat.digitChar n = digit n := by decide

lemma Hex.number_replicate_zero (k : Nat) (ns : List Nat) : number 0 (replicate k 0 ++ ns) = number 0 ns := by
  induction k with
  | zero => rfl
  | succ k ih => rw [replicate_succ, cons_append, number, foldl_cons, ← number, ih]

lemma Hex.toDigits_spell {b : Nat} (hb : 1 < b ∧ b ≤ 16) (n : Nat) : ∃ ns, Nat.toDigits b n = ns.map digit ∧
    (∀ m ∈ ns, m < b) ∧ ns ≠ [] ∧ ns.foldl (fun acc n => acc * b + n) 0 = n := by
  induction n using Nat.strongRecOn with
  | _ n ih =>
    rw [Nat.toDigits_eq_if hb.1]
    split
    · rename_i hn
      exact ⟨[n], by rw [digitChar_eq_digit n (by omega)]; rfl, by simpa using hn, by simp, by simp⟩
    rename_i hn
    obtain ⟨ns, hns, hlt, -, hnumber⟩ := ih (n / b) (Nat.div_lt_self (by omega) hb.1)
    have hm : n % b < b := Nat.mod_lt n (by omega)
    refine ⟨ns ++ [n % b], ?_, ?_, by simp, ?_⟩
    · rw [hns, digitChar_eq_digit _ (by omega), map_append]
      rfl
    · simp only [mem_append, mem_singleton]
      rintro m (hm' | rfl)
      · exact hlt m hm'
      · exact hm
    · rw [foldl_append, hnumber]
      exact Nat.div_add_mod' n b

/-! ## Digits of bytes -/

namespace Hex

def halves (b : Nat) : List Nat := [b / 16 % 16, b % 16]

lemma halves_lt : ∀ n ∈ bytes.flatMap halves, n < 16 := by
  intro n hn
  obtain ⟨b, -, hb⟩ := mem_flatMap.1 hn
  simp only [halves, mem_cons, not_mem_nil, or_false] at hb
  omega

lemma toList_ofBytes (bytes : List Nat) : (ofBytes bytes).toList = (bytes.flatMap halves).map digit := by
  rw [ofBytes, String.toList_ofList, map_flatMap]
  rfl

lemma length_flatMap_halves (bytes : List Nat) : (bytes.flatMap halves).length = 2 * bytes.length := by
  simp [length_flatMap, halves, Nat.mul_comm, map_const']

lemma length_ofBytes (bytes : List Nat) : (ofBytes bytes).length = 2 * bytes.length := by
  rw [← String.length_toList, toList_ofBytes, length_map, length_flatMap_halves]

lemma flatMap_halves_replicate (k : Nat) : (replicate k 0).flatMap halves = replicate (2 * k) 0 := by
  rw [flatMap_replicate, show halves 0 = replicate 2 0 from rfl, flatten_replicate_replicate, Nat.mul_comm]

lemma number_halves (h : ∀ b ∈ bytes, b < 256) (acc : Nat) :
    number acc (bytes.flatMap halves) = bytes.foldl (fun acc b => acc * 256 + b) acc := by
  induction bytes generalizing acc with
  | nil => rfl
  | cons b bytes ih =>
    have hb : b < 256 := h b (by simp)
    have hstep : (acc * 16 + b / 16 % 16) * 16 + b % 16 = acc * 256 + b := by omega
    rw [flatMap_cons, number, foldl_append, ← number, ih fun c hc => h c (by simp [hc])]
    simp [halves, hstep]

lemma digitValue?_lt {c : Char} {d : Nat} (h : digitValue? c = some d) : d < 16 := by
  unfold digitValue? at h
  split at h
  · rename_i hc
    have h9 : c.toNat ≤ 57 := hc.2
    simp only [Option.some.injEq] at h
    omega
  split at h
  · rename_i hc
    have hf : c.toNat ≤ 102 := hc.2
    simp only [Option.some.injEq] at h
    omega
  split at h
  · rename_i hc
    have hf : c.toNat ≤ 70 := hc.2
    simp only [Option.some.injEq] at h
    omega
  · cases h

lemma readBytes_lt (h : readBytes cs = some bytes) : ∀ b ∈ bytes, b < 256 := by
  fun_induction readBytes cs generalizing bytes with
  | case1 | case2 | case3 => simp_all
  | case4 c d rest hgap ih => exact ih h
  | case5 c d rest hgap ih =>
    simp only [Option.bind_eq_bind, Option.bind_eq_some_iff, Option.pure_def, Option.some.injEq] at h
    obtain ⟨hi, hhi, lo, hlo, tail, htail, rfl⟩ := h
    intro b hb
    have := digitValue?_lt hhi
    have := digitValue?_lt hlo
    rcases mem_cons.1 hb with rfl | hb
    · omega
    · exact ih htail b hb

end Hex

/-! ## What the machine pushes -/

lemma Evm.range_map_getD (code : List Nat) (a n : Nat) :
    (range n).map (fun i => code.getD (a + i) 0) =
      (code.drop a).take n ++ replicate (n - ((code.drop a).take n).length) 0 := by
  refine ext_getElem? fun i => ?_
  simp only [getElem?_map, getElem?_append, getElem?_take, getElem?_drop, getElem?_replicate, getD_eq_getElem?_getD,
    length_take, length_drop]
  by_cases hi : i < n <;> by_cases ha : a + i < code.length <;> simp [*] <;> omega

lemma Evm.immediate_eq (code : List Nat) (a n : Nat) : immediate code a n = BitVec.ofNat 256
    (((code.drop a).take n ++ replicate (n - ((code.drop a).take n).length) 0).foldl
      (fun acc b => acc * 256 + b) 0) := by
  rw [← range_map_getD, foldl_map, immediate]

/-- An immediate in digits, with zeros for what was cut off, reads as the number that the machine pushes. -/
lemma Evm.parse?_immediate {code : List Nat} (hcode : ∀ b ∈ code, b < 256) (a : Nat) {n : Nat} (hn : 0 < n) :
    ∃ m : Nat, Numeral.parse? 16 (ofBytes ((code.drop a).take n) ++
        String.ofList (replicate (2 * n - (ofBytes ((code.drop a).take n)).length) '0')) = some (m : Int) ∧
      BitVec.ofNat 256 m = immediate code a n := by
  let arg := (code.drop a).take n
  let padded := arg ++ replicate (n - arg.length) 0
  have hpad : ∀ b ∈ padded, b < 256 := by
    intro b hb
    rcases mem_append.1 hb with hb | hb
    · exact hcode b (mem_of_mem_drop (mem_of_mem_take hb))
    · rw [eq_of_mem_replicate hb]
      decide
  have htext : (ofBytes arg ++ .ofList (replicate (2 * n - (ofBytes arg).length) '0')).toList =
      (padded.flatMap halves).map digit := by
    rw [String.toList_append, toList_ofBytes, String.toList_ofList, length_ofBytes, flatMap_append, map_append]
    rw [flatMap_halves_replicate, map_replicate, Nat.mul_sub]
    rfl
  have hne : padded.flatMap halves ≠ [] := by
    have hpos : 0 < (padded.flatMap halves).length := by
      rw [length_flatMap_halves, length_append, length_replicate]
      omega
    exact length_pos_iff.1 hpos
  refine ⟨number 0 _, Numeral.parse?_map_digit (by decide) halves_lt hne htext, ?_⟩
  rw [number_halves hpad, immediate_eq]

end EvmAudit
