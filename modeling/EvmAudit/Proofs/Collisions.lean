import EvmAudit.Proofs.Interpretation
import Mathlib.Algebra.Order.Ring.Int
import Mathlib.Tactic.NormNum
import Mathlib.Tactic.Ring

/-!
# Hashes do not collide

However hashes are recorded, forgotten and conditioned: an interpretation that satisfies the condition on all hashes gives
equal hashes to equal inputs only. The hash of an unknown input is in the interval of its width and has an inverse, or the
input is one of the known ones and its hash is the computed one.
-/

namespace EvmAudit

open List EvmAudit.Expr

variable {v w m x y : Nat} {i : Int} {e acc data : Expr} {es : List Expr} {ps : List (Expr × Expr)}

def Interpretation.hash (ι : Interpretation) (w x : Nat) : Nat :=
  ι.function ("keccak256_" ++ toString w) [(w, x)] 256 % 2 ^ 256

/-- The input of this width that has a hash, by the interpretation. -/
def Interpretation.unhash (ι : Interpretation) (w y : Nat) : Nat :=
  ι.function ("keccak256_" ++ toString w ++ "-1") [(256, y)] w % 2 ^ w

/-- Some more expressions are settled, all of which had been made. -/
structure Ledger.Settles (l l' : Ledger) : Prop where
  sound : l'.IsSound
  keeps : ∀ i, l.settled.contains i → l'.settled.contains i

namespace Hashes

variable {ι : Interpretation} {S T : Settled} {h h' : Hashes} {l l' : Ledger} {n : Nat} {rs : List (Expr × Expr)}
  {p : Expr × Expr}

open Calc (Builds)

lemma ofValue_lt (h : ofValue v w = .ok m) : m < 2 ^ 256 := by
  simp only [ofValue] at h
  split at h
  · cases h
  obtain rfl := Except.ok.inj h
  have hlen bytes : (Digest.Sha3.hash bytes).length = 32 := by
    simp [Digest.Sha3.hash, Digest.bytesOfNatLE]
  refine (foldl_bytes_lt (fun b => b) _ ?_ 0 0 (by decide)).trans_le (by rw [hlen])
  intro b hb
  simp only [Digest.Sha3.hash, Digest.bytesOfNatLE, mem_flatMap, mem_map] at hb
  obtain ⟨i, -, j, -, rfl⟩ := hb
  exact Nat.mod_lt _ (by norm_num)

lemma lt_of_ofValue (h : ofValue v w = .ok m) : v < 2 ^ w := by
  simp only [ofValue] at h
  split at h
  · cases h
  · rename_i hv
    refine (not_le.1 hv).trans_le ?_
    rw [show (256 : Nat) = 2 ^ 8 from rfl, ← pow_mul]
    exact Nat.pow_le_pow_right (by norm_num) (Nat.mul_div_le w 8)

/-! ## Intervals -/

/-- The number of the interval that is taken after so many others. -/
def nth (k : Nat) : Int := 10 ^ 40 - 34534 - k * gap

/-- So many intervals have been taken so far, and each width has one of its own. -/
structure IsSpaced (n : Nat) (h : Hashes) : Prop where
  next : h.next = nth n
  taken : ∀ {w i}, h.intervals.lookup w = some i → ∃ k < n, i = nth k
  apart : ∀ {w w' i}, h.intervals.lookup w = some i → h.intervals.lookup w' = some i → w = w'

def IsInside (i : Int) (x : Nat) : Prop := i * part ≤ x ∧ (x : Int) < i * part + part

lemma IsInside.unique {j : Int} (hi : IsInside i x) (hj : IsInside j x) : i = j := by
  have hpart : (0 : Int) < part := by norm_num [part]
  have hle {i j} (hi : IsInside i x) (hj : IsInside j x) : i ≤ j := by
    have hlt : i * part < (j + 1) * part := by
      rw [add_mul]
      exact lt_of_le_of_lt hi.1 hj.2
    exact Int.lt_add_one_iff.1 (lt_of_mul_lt_mul_right hlt hpart.le)
  exact le_antisymm (hle hi hj) (hle hj hi)

lemma nth_bounds {k : Nat} (hk : k < 10 ^ 10) : 0 ≤ nth k * part ∧ nth k * part + part < (2 ^ 256 : Nat) := by
  have hlow : 0 ≤ nth k := by
    unfold nth gap
    omega
  have hhigh : nth k + 1 ≤ 10 ^ 40 := by
    unfold nth gap
    omega
  have hpart : (10 ^ 40 : Int) * part < (2 ^ 256 : Nat) := by norm_num [part]
  have hnonneg : (0 : Int) ≤ part := Int.natCast_nonneg _
  refine ⟨mul_nonneg hlow hnonneg, ?_⟩
  calc nth k * part + part = (nth k + 1) * part := by rw [add_mul, one_mul]
    _ ≤ 10 ^ 40 * part := mul_le_mul_of_nonneg_right hhigh hnonneg
    _ < _ := hpart

/-- The state after the interval of a width was looked up, and its number. -/
def opened (h : Hashes) (w : Nat) : Hashes × Int :=
  match h.intervals.lookup w with
  | some i => (h, i)
  | none => ({ h with intervals := h.intervals ++ [(w, h.next)], next := h.next - gap }, h.next)

structure Widens (h h' : Hashes) : Prop where
  inputs : h'.inputs = h.inputs
  concrete : h'.concrete = h.concrete
  lookup : ∀ {w i}, h.intervals.lookup w = some i → h'.intervals.lookup w = some i
  length : h.intervals.length ≤ h'.intervals.length
  spaced : ∀ {n}, h.IsSpaced n → h'.IsSpaced (n + (h'.intervals.length - h.intervals.length))

lemma Widens.refl (h : Hashes) : h.Widens h := ⟨rfl, rfl, id, le_rfl, fun hs => by simpa using hs⟩

lemma Widens.trans {h'' : Hashes} (ha : h.Widens h') (hb : h'.Widens h'') : h.Widens h'' where
  inputs := hb.inputs.trans ha.inputs
  concrete := hb.concrete.trans ha.concrete
  lookup hw := hb.lookup (ha.lookup hw)
  length := ha.length.trans hb.length
  spaced {n} hs := by
    have hsum : n + (h''.intervals.length - h.intervals.length) =
        n + (h'.intervals.length - h.intervals.length) + (h''.intervals.length - h'.intervals.length) := by
      have := ha.length
      have := hb.length
      omega
    rw [hsum]
    exact hb.spaced (ha.spaced hs)

lemma lookup_append_new {xs : List (Nat × Int)} (h : xs.lookup w = none) (w' : Nat) :
    (xs ++ [(w, i)]).lookup w' = if w' = w then some i else xs.lookup w' := by
  rw [lookup_append]
  by_cases hw : w' = w
  · simp [hw, h]
  · simp [hw, lookup_cons, beq_eq_false_iff_ne.2 hw]

lemma opened_widens (h : Hashes) (w : Nat) :
    h.Widens (h.opened w).1 ∧ (h.opened w).1.intervals.lookup w = some (h.opened w).2 := by
  unfold opened
  split
  · rename_i i hi
    exact ⟨.refl h, hi⟩
  rename_i hnone
  have hlookup := lookup_append_new (i := h.next) hnone
  refine ⟨⟨rfl, rfl, fun {v i} hv => ?_, by simp, fun {n} hs => ⟨?_, fun {v i} hv => ?_, fun {v v' i} hv hv' => ?_⟩⟩, ?_⟩
  · rw [hlookup, if_neg (by rintro rfl; rw [hnone] at hv; cases hv)]
    exact hv
  · simp only [hs.next, nth, length_append, length_singleton]
    push_cast
    rw [show h.intervals.length + 1 - h.intervals.length = 1 by omega]
    ring
  · simp only [length_append, length_singleton]
    rw [hlookup] at hv
    split at hv
    · exact ⟨n, by omega, by rw [← Option.some.inj hv, hs.next]⟩
    · obtain ⟨k, hk, rfl⟩ := hs.taken hv
      exact ⟨k, by omega, rfl⟩
  · -- a new number is none of those that were taken
    have hnew {v i} (hv : h.intervals.lookup v = some i) : i ≠ h.next := by
      obtain ⟨k, hk, rfl⟩ := hs.taken hv
      rw [hs.next]
      unfold nth gap
      omega
    rw [hlookup] at hv hv'
    split at hv <;> split at hv'
    · rename_i hw hw'
      rw [hw, hw']
    · exact absurd (Option.some.inj hv).symm (hnew hv')
    · exact absurd (Option.some.inj hv').symm (hnew hv)
    · exact hs.apart hv hv'
  · rw [hlookup, if_pos rfl]

/-! ## Conditions -/

structure IsBits (ι : Interpretation) (S : Settled) (w x : Nat) (e : Expr) : Prop where
  isProp : e.isProp = false
  width : e.width = w
  means : e.means ι S = x

lemma IsBits.of_shows {t : Term} (h : e.Shows S t) (hp : t.isProp = false) : IsBits ι S t.width (t.means ι) e :=
  ⟨by rw [Expr.isProp, h.term, hp], by rw [Expr.width, h.term], by rw [Expr.means, h.shown]⟩

lemma function_builds (ι : Interpretation) (he : IsBits ι S w x e) :
    (function w e).Builds S (IsBits ι S 256 (ι.hash w x)) := by
  refine (apply_builds _ 256 e).mono fun f hf => ?_
  have hbits := IsBits.of_shows (ι := ι) hf rfl
  simpa [Term.width, Term.means, Term.meansAll, he.width, ← he.means, means, Interpretation.hash] using hbits

lemma inverse_builds (ι : Interpretation) (w : Nat) (he : IsBits ι S 256 y e) :
    (inverse w e).Builds S (IsBits ι S w (ι.unhash w y)) := by
  refine (apply_builds _ w e).mono fun f hf => ?_
  have hbits := IsBits.of_shows (ι := ι) hf rfl
  simpa [Term.width, Term.means, Term.meansAll, he.width, ← he.means, means, Interpretation.unhash] using hbits

lemma eq_builds {a b : Expr} (ha : IsBits ι S w x a) (hb : IsBits ι S w y b) :
    (eq a b).Builds S fun e => e.IsMet ι S ↔ x = y := by
  rw [← ha.means, ← hb.means]
  exact Expr.eq_builds ι ha.isProp hb.isProp (ha.width.trans hb.width.symm)

/-- A known input and its hash, as they are kept. -/
structure IsKnown (S : Settled) (p : Expr × Expr) (v m : Nat) : Prop where
  isProp : p.1.isProp = false
  key : p.1.shown S = .const v p.1.width
  value : ofValue v p.1.width = .ok m
  hash : p.2.term = .const m 256

lemma IsKnown.isBits (h : IsKnown S p v m) : IsBits ι S p.1.width v p.1 :=
  ⟨h.isProp, rfl, by rw [means, h.key, Term.means]⟩

lemma IsKnown.isBits_hash (h : IsKnown S p v m) : IsBits ι S 256 m p.2 := by
  have hshown : p.2.shown S = .const m 256 := by
    rw [shown, h.hash, Term.simplify_const (ofValue_lt h.value), ite_self]
  simpa only [width] using .of_shows (ι := ι) ⟨h.hash, hshown⟩ rfl

def AreKnown (S : Settled) (ps : List (Expr × Expr)) : Prop := ∀ p ∈ ps, ∃ v m, IsKnown S p v m

/-- An input with this width and value is known, and has this hash. -/
def Knows (S : Settled) (known : List (Expr × Expr)) (w x y : Nat) : Prop :=
  ∃ p ∈ known, p.1.width = w ∧ IsKnown S p x y

lemma sameAsKnown_builds (he : IsBits ι S w x e) {known : List (Expr × Expr)} (hknown : AreKnown S known) :
    (sameAsKnown w e acc known).Builds S fun c => c.IsMet ι S → acc.IsMet ι S ∨ Knows S known w x (ι.hash w x) := by
  induction known generalizing acc with
  | nil => exact .pure .inl
  | cons p rest ih =>
    obtain ⟨v, m, hp⟩ := hknown p (by simp)
    have hrest := fun q hq => hknown q (mem_cons_of_mem p hq)
    have hmore {y} (h : Knows S rest w x y) : Knows S (p :: rest) w x y :=
      let ⟨q, hq, hk⟩ := h
      ⟨q, mem_cons_of_mem p hq, hk⟩
    unfold sameAsKnown
    split
    · rename_i hw
      have hw : p.1.width = w := by simpa using hw
      refine (function_builds ι he).bind fun f hf => (eq_builds hf hp.isBits_hash).bind fun c hc => ?_
      refine (eq_builds (hw ▸ hp.isBits) he).bind fun d hd => (and_builds ι _ _).bind fun both hboth => ?_
      refine (or_builds ι _ _).bind fun either heither => (ih hrest).mono fun c' hc' hmet => ?_
      rw [hboth, hc, hd] at heither
      rcases hc' hmet with hacc | hknows
      · rcases heither.1 hacc with hacc | ⟨hhash, rfl⟩
        · exact .inl hacc
        · exact .inr ⟨p, by simp, hw, hhash ▸ hp⟩
      · exact .inr (hmore hknows)
    · exact (ih hrest).mono fun c hc hmet => (hc hmet).imp_right hmore

/-- What the condition on an unknown input says: its hash has an inverse, and lies in the interval of the width, or the
input is a known one. -/
structure IsBound (ι : Interpretation) (S : Settled) (h : Hashes) (w x : Nat) : Prop where
  inverse : ι.unhash w (ι.hash w x) = x
  place : (∃ i, h.intervals.lookup w = some i ∧
      (i * part % (2 ^ 256 : Nat)).toNat ≤ ι.hash w x ∧ ι.hash w x < ((i * part + part) % (2 ^ 256 : Nat)).toNat) ∨
    Knows S h.concrete w x (ι.hash w x)

lemma IsBound.mono (hb : h.IsBound ι S w x) (hw : h.Widens h') : h'.IsBound ι S w x :=
  ⟨hb.inverse, hb.place.imp (fun ⟨i, hi, hx⟩ => ⟨i, hw.lookup hi, hx⟩) fun hk => by rwa [hw.concrete]⟩

section

variable (ι)

lemma condition_builds (he : e.isProp = false) (hknown : AreKnown S h.concrete) :
    (h.condition e).Builds S fun r => h.Widens r.1 ∧ (r.2.IsMet ι S → r.1.IsBound ι S e.width (e.means ι S)) := by
  obtain ⟨hwidens, hlookup⟩ := h.opened_widens e.width
  have hbits : IsBits ι S e.width (e.means ι S) e := ⟨he, rfl, rfl⟩
  have hf := function_builds ι hbits
  have hint n : (ofInt n 256).Builds S (IsBits ι S 256 (n % (2 ^ 256 : Nat)).toNat) :=
    (ofInt_builds n).mono fun _ ha => .of_shows ha rfl
  rw [← hwidens.concrete] at hknown
  refine hf.bind fun f hf1 => (inverse_builds ι e.width hf1).bind fun i hi => (eq_builds hi hbits).bind fun inverted _ => ?_
  refine (hint _).bind fun lower hlower => hf.bind fun f hf2 => ?_
  refine (ule_builds ι hlower.isProp hf2.isProp (hlower.width.trans hf2.width.symm)).bind fun inside hinside => ?_
  refine hf.bind fun f hf3 => (hint _).bind fun upper hupper => ?_
  refine (ult_builds ι hf3.isProp hupper.isProp).bind fun below hbelow => hf.bind fun f hf4 => ?_
  refine (word_builds 64).bind fun sixtyFour hsixtyFour => ?_
  have haligned := urem_eqInt_builds (S := S) hf4.isProp (IsBits.of_shows (ι := ι) hsixtyFour rfl).isProp
  rw [← bind_assoc]
  refine haligned.bind fun aligned _ => (conj_builds ι _).bind fun free hfree => ?_
  refine (truth_builds false).bind fun no hno => (sameAsKnown_builds hbits hknown).bind fun known hsame => ?_
  refine hf.bind fun f hf5 => (inverse_builds ι e.width hf5).bind fun i hi => (eq_builds hi hbits).bind fun again hagain => ?_
  refine (or_builds ι _ _).bind fun either heither => (and_builds ι _ _).bind fun both hboth => ?_
  refine .pure ⟨hwidens, fun hmet => ?_⟩
  rw [hagain] at hboth
  simp only [mem_cons, forall_eq_or_imp, hinside, hbelow, hlower.means, hf2.means, hf3.means, hupper.means] at hfree
  obtain ⟨hinverse, hplace⟩ := hboth.1 hmet
  refine ⟨hinverse, (heither.1 hplace).imp (fun hmet => ?_) fun hmet => ?_⟩
  · obtain ⟨-, hlow, hhigh, -⟩ := hfree.1 hmet
    exact ⟨_, hlookup, hlow, hhigh⟩
  · refine (hsame hmet).resolve_left fun hfalse => ?_
    rw [IsMet, hno.shown] at hfalse
    exact hfalse rfl

lemma conditionAll_builds (hes : ∀ e ∈ es, e.isProp = false) (hknown : AreKnown S h.concrete) :
    (h.conditionAll acc es).Builds S fun r =>
      h.Widens r.1 ∧ (r.2.IsMet ι S → ∀ e ∈ es, r.1.IsBound ι S e.width (e.means ι S)) ∧
        (r.2.IsMet ι S → acc.IsMet ι S) := by
  induction es generalizing h acc with
  | nil => exact .pure ⟨.refl h, fun _ e he => absurd he not_mem_nil, id⟩
  | cons e es ih =>
    refine (condition_builds ι (hes e (by simp)) hknown).bind fun r hr => ?_
    obtain ⟨hwidens, hbound⟩ := hr
    refine (and_builds ι _ _).bind fun both hboth => ?_
    refine (ih (fun e he => hes e (by simp [he])) (by rwa [hwidens.concrete])).mono fun r hr => ?_
    obtain ⟨hwidens', hrest, hacc⟩ := hr
    refine ⟨hwidens.trans hwidens', fun hmet e' he' => ?_, fun hmet => (hboth.1 (hacc hmet)).1⟩
    rcases mem_cons.1 he' with rfl | he'
    · exact (hbound (hboth.1 (hacc hmet)).2).mono hwidens'
    · exact hrest hmet e' he'

lemma concreteAll_builds {known : List (Expr × Expr)} (hknown : AreKnown S known) :
    (concreteAll acc known).Builds S fun c => c.IsMet ι S → acc.IsMet ι S := by
  induction known generalizing acc with
  | nil => exact .pure id
  | cons p rest ih =>
    obtain ⟨v, m, hp⟩ := hknown p (by simp)
    refine (function_builds ι hp.isBits).bind fun f hf => (eq_builds hf hp.isBits_hash).bind fun computed _ => ?_
    refine (function_builds ι hp.isBits).bind fun f hf => (inverse_builds ι _ hf).bind fun i hi => ?_
    refine (eq_builds hi hp.isBits).bind fun inverted _ => (conj_builds ι _).bind fun both hboth => ?_
    refine (ih fun q hq => hknown q (by simp [hq])).mono fun c hc hmet => ?_
    exact hboth.1 (hc hmet) acc (by simp)

lemma conditions_builds (hinputs : ∀ e ∈ h.inputs.flatMap (·.2), e.isProp = false)
    (hknown : AreKnown S h.concrete) :
    h.conditions.Builds S fun r =>
      h.Widens r.1 ∧ (r.2.IsMet ι S → ∀ e ∈ h.inputs.flatMap (·.2), r.1.IsBound ι S e.width (e.means ι S)) := by
  refine (truth_builds true).bind fun acc _ => (conditionAll_builds ι hinputs hknown).bind fun r hr => ?_
  obtain ⟨hwidens, hbound, -⟩ := hr
  refine (concreteAll_builds ι (by rwa [hwidens.concrete])).bind fun c' hc' => ?_
  exact .pure ⟨hwidens, fun hmet => hbound (hc' hmet)⟩

end

/-! ## Recording -/

lemma IsKnown.mono (h : IsKnown S p v m) (hST : ∀ i, S.contains i → T.contains i) : IsKnown T p v m :=
  ⟨h.isProp, shown_const_mono h.key (lt_of_ofValue h.value) hST, h.value, h.hash⟩

lemma IsKnown.unique (h : IsKnown S p v m) (h' : IsKnown S p x y) : x = v ∧ y = m := by
  have hv : x = v := by
    have := h'.key.symm.trans h.key
    simp only [Term.const.injEq] at this
    exact this.1
  exact ⟨hv, Except.ok.inj ((hv ▸ h'.value).symm.trans h.value)⟩

structure IsUnknown (p : Expr × Expr) : Prop where
  isProp : p.1.isProp = false
  value : p.1.term.value? = none
  hash : p.2.term = .apply ("keccak256_" ++ toString p.1.width) [p.1.term] 256

lemma IsUnknown.not_isKnown (h : IsUnknown p) : ¬IsKnown S p v m := by
  intro hk
  have hkey := hk.key
  rw [shown_of_none h.value] at hkey
  have hnone := h.value
  rw [hkey] at hnone
  cases hnone

lemma IsUnknown.means_hash (h : IsUnknown p) : p.2.means ι S = ι.hash p.1.width (p.1.means ι S) := by
  have hnone : p.2.term.value? = none := by
    have hvalue := h.value
    unfold Term.value? at hvalue ⊢
    rw [h.hash, Term.eval, Term.evalList, hvalue]
    rfl
  unfold means
  rw [shown_of_none hnone, shown_of_none h.value, h.hash]
  rfl

/-- What is known of recorded inputs does not depend on what is settled later. -/
lemma knows_iff (hps : ∀ p ∈ ps, IsUnknown p ∨ ∃ v m, IsKnown S p v m) (hST : ∀ i, S.contains i → T.contains i)
    (w x y : Nat) : Knows T ps w x y ↔ Knows S ps w x y := by
  constructor
  · rintro ⟨p, hp, hw, hk⟩
    rcases hps p hp with hu | ⟨v, m, hk'⟩
    · exact absurd hk hu.not_isKnown
    · obtain ⟨rfl, rfl⟩ := (hk'.mono hST).unique hk
      exact ⟨p, hp, hw, hk'⟩
  · rintro ⟨p, hp, hw, hk⟩
    exact ⟨p, hp, hw, hk.mono hST⟩

lemma knows_cons : Knows S (p :: ps) w x y ↔ p.1.width = w ∧ IsKnown S p x y ∨ Knows S ps w x y := by
  simp [Knows]

lemma knows_concat : Knows S (ps ++ [p]) w x y ↔ Knows S ps w x y ∨ p.1.width = w ∧ IsKnown S p x y := by
  simp [Knows]

lemma putConcrete_builds {hash : Expr} (hnew : IsKnown S (data, hash) v m) {known : List (Expr × Expr)}
    (hknown : AreKnown S known) : (putConcrete data hash known).Builds S fun ps => AreKnown S ps ∧
      ∀ w x y, Knows S ps w x y ↔ Knows S known w x y ∨ data.width = w ∧ IsKnown S (data, hash) x y := by
  induction known with
  | nil =>
    refine .pure ⟨forall_mem_singleton.2 ⟨v, m, hnew⟩, fun w x y => ?_⟩
    rw [knows_cons]
    exact or_comm
  | cons p rest ih =>
    obtain ⟨d, k⟩ := p
    obtain ⟨v', m', hp⟩ := hknown (d, k) (by simp)
    refine raw_builds (raw_builds ?_)
    rw [hp.key, hnew.key]
    dsimp only
    split
    · rename_i hsame
      simp only [Bool.and_eq_true, beq_iff_eq] at hsame
      obtain ⟨rfl, hw⟩ := hsame
      have hsame : m' = m := Except.ok.inj ((hw ▸ hp.value : ofValue v' data.width = .ok m').symm.trans hnew.value)
      subst hsame
      have hkept : IsKnown S (d, hash) v' m' := { hp with hash := hnew.hash }
      refine .pure ⟨?_, fun w x y => ?_⟩
      · exact forall_mem_cons.2 ⟨⟨v', m', hkept⟩, (forall_mem_cons.1 hknown).2⟩
      rw [knows_cons, knows_cons]
      constructor
      · rintro (⟨hdw, hk⟩ | hk)
        · obtain ⟨rfl, rfl⟩ := hkept.unique hk
          exact .inl (.inl ⟨hdw, hp⟩)
        · exact .inl (.inr hk)
      · rintro ((⟨hdw, hk⟩ | hk) | ⟨hdw, hk⟩)
        · obtain ⟨rfl, rfl⟩ := hp.unique hk
          exact .inl ⟨hdw, hkept⟩
        · exact .inr hk
        · obtain ⟨rfl, rfl⟩ := hnew.unique hk
          exact .inl ⟨hw.trans hdw, hkept⟩
    · refine (ih fun q hq => hknown q (by simp [hq])).bind fun ps hps => .pure ⟨?_, fun w x y => ?_⟩
      · exact forall_mem_cons.2 ⟨⟨v', m', hp⟩, hps.1⟩
      · rw [knows_cons, knows_cons, hps.2, or_assoc]

/-- The inputs that were hashed since everything was last forgotten, each with what stands for its hash, after a number of
intervals was taken in all. In between, expressions may be made and settled anywhere else. -/
inductive Recording : Nat → Hashes → Ledger → List (Expr × Expr) → Prop
  | start {l : Ledger} (hl : l.IsSound) : Recording 0 {} l []
  | create {n : Nat} {h h' : Hashes} {l l' : Ledger} {rs : List (Expr × Expr)} {data hash : Expr}
      (hr : Recording n h l rs) (hid : data.id < l.next) (hp : data.isProp = false)
      (hc : h.create data l = .ok (h', .ok hash) l') : Recording n h' l' (rs ++ [(data, hash)])
  | refuse {n : Nat} {h h' : Hashes} {l l' : Ledger} {rs : List (Expr × Expr)} {data : Expr} {f : Fault}
      (hr : Recording n h l rs) (hid : data.id < l.next) (hp : data.isProp = false)
      (hc : h.create data l = .ok (h', .error f) l') : Recording n h' l' rs
  | conditions {n : Nat} {h h' : Hashes} {l l' : Ledger} {rs : List (Expr × Expr)} {c : Expr}
      (hr : Recording n h l rs) (hc : h.conditions l = .ok (h', c) l') :
      Recording (n + (h'.intervals.length - h.intervals.length)) h' l' rs
  | reset {n : Nat} {h : Hashes} {l : Ledger} {rs : List (Expr × Expr)} (hr : Recording n h l rs) :
      Recording n h.reset l []
  | elsewhere {n : Nat} {h : Hashes} {l l' : Ledger} {rs : List (Expr × Expr)} (hr : Recording n h l rs)
      (hl : l.Settles l') : Recording n h l' rs

structure Keeps (n : Nat) (h : Hashes) (S : Settled) (rs : List (Expr × Expr)) : Prop where
  spaced : h.IsSpaced n
  inputs : ∀ e ∈ h.inputs.flatMap (·.2), e.isProp = false
  concrete : AreKnown S h.concrete
  knows : ∀ w x y, Knows S h.concrete w x y ↔ Knows S rs w x y
  records : ∀ r ∈ rs, IsUnknown r ∧ r.1 ∈ h.inputs.flatMap (·.2) ∨ ∃ v m, IsKnown S r v m

lemma Keeps.mono (hk : Keeps n h S rs) (hST : ∀ i, S.contains i → T.contains i) :
    Keeps n h T rs where
  spaced := hk.spaced
  inputs := hk.inputs
  concrete p hp := let ⟨v, m, hk⟩ := hk.concrete p hp; ⟨v, m, hk.mono hST⟩
  knows w x y := by
    rw [knows_iff (fun p hp => .inr (hk.concrete p hp)) hST, hk.knows,
      knows_iff (fun r hr => (hk.records r hr).imp_left And.left) hST]
  records r hr := (hk.records r hr).imp_right fun ⟨v, m, hk⟩ => ⟨v, m, hk.mono hST⟩

lemma value?_settles (hroom : e.term.overrun .empty = none) (hl : l.IsSound) (hid : e.id < l.next)
    (hp : e.isProp = false) : ∃ r l', e.value? l = .ok r l' ∧
    l.Settles l' ∧ (r = none ∧ e.term.value? = none ∨ ∃ v, r = some v ∧ e.shown l'.settled = .const v e.width) := by
  have hsettle : ∃ l', e.settle l = .ok () l' ∧ l.Settles l' := by
    rw [settle_eq, hroom]
    show ∃ l', e.replace l = .ok () l' ∧ l.Settles l'
    unfold Expr.replace
    split
    · exact ⟨l, rfl, hl, fun _ => id⟩
    · exact ⟨l, rfl, hl, fun _ => id⟩
    split
    · exact ⟨l, rfl, hl, fun _ => id⟩
    refine ⟨_, rfl, fun i hi => ?_, fun i hi => ?_⟩
    · rcases Bool.or_eq_true_iff.1 (Std.TreeSet.contains_insert.symm.trans hi) with h | h
      · obtain rfl : e.id = i := by simpa using h
        exact hid
      · exact hl i h
    · exact (Std.TreeSet.contains_insert).trans (by simp [hi])
  obtain ⟨l1, hs, hsettles⟩ := hsettle
  obtain ⟨l', hv, hshows⟩ := value?_run hroom l
  obtain rfl : l1 = l' := (EStateM.Result.ok.inj ((value?_settled hs).symm.trans hv)).2
  refine ⟨_, l1, hv, hsettles, ?_⟩
  have hshown : e.shown l1.settled = l1.termOf e := rfl
  cases hvalue : e.term.value? with
  | none =>
    refine .inl ⟨Term.const?_of_none ?_, rfl⟩
    rw [← hshown, shown_of_none hvalue, hvalue]
  | some v =>
    refine .inr ?_
    rcases hshows with hshows | ⟨hshows, hliteral⟩
    · rw [hshown, hshows, Term.simplify_of_value? hp hvalue]
      exact ⟨_, rfl, rfl⟩
    · obtain ⟨x, w, hx⟩ := hliteral.const hp
      rw [hshown, hshows, hx]
      exact ⟨x, rfl, by rw [width, hx]; rfl⟩

lemma mem_push {d : Expr} {table : List (Nat × List Expr)} :
    e ∈ (push w d table).flatMap (·.2) ↔ e ∈ table.flatMap (·.2) ∨ e = d := by
  unfold push
  induction table with
  | nil => simp [Sequence.put]
  | cons p rest ih =>
    obtain ⟨k, es⟩ := p
    by_cases hk : k = w
    · subst hk
      simp [Sequence.put, or_comm, or_left_comm]
    · have hne := beq_eq_false_iff_ne.2 (.symm hk)
      simp only [Sequence.put, lookup_cons, hne, beq_iff_eq, hk, if_false, flatMap_cons, mem_append, ih]
      exact or_assoc.symm

lemma Keeps.addWidth (hk : Keeps n h S rs) (w : Nat) : Keeps n (h.addWidth w) S rs := by
  unfold Hashes.addWidth
  split
  · exact hk
  · exact { hk with spaced := { hk.spaced with } }

/-- The inputs that are recorded when the last one was hashed or refused. -/
def recorded (rs : List (Expr × Expr)) (data : Expr) : Except Fault Expr → List (Expr × Expr)
  | .ok hash => rs ++ [(data, hash)]
  | .error _ => rs

section

variable {hash : Expr}

lemma Keeps.unknown {results : List (Nat × List Expr)} (hk : Keeps n h S rs) (hu : IsUnknown (data, hash)) :
    Keeps n { h with inputs := push data.width data h.inputs, results := results } S (recorded rs data (.ok hash)) where
  spaced := { hk.spaced with }
  inputs e he := by
    rcases mem_push.1 he with he | rfl
    · exact hk.inputs e he
    · exact hu.isProp
  concrete := hk.concrete
  knows w x y := by rw [hk.knows, recorded, knows_concat, or_iff_left fun hk => hu.not_isKnown hk.2]
  records r hr := by
    rcases mem_append.1 hr with hr | hr
    · exact (hk.records r hr).imp_left fun ⟨hu, hmem⟩ => ⟨hu, mem_push.2 (.inl hmem)⟩
    · obtain rfl := mem_singleton.1 hr
      exact .inl ⟨hu, mem_push.2 (.inr rfl)⟩

lemma Keeps.known (hk : Keeps n h S rs) (hnew : IsKnown S (data, hash) v m) (hps : AreKnown S ps)
    (hknows : ∀ w x y, Knows S ps w x y ↔ Knows S h.concrete w x y ∨ data.width = w ∧ IsKnown S (data, hash) x y) :
    Keeps n { h with concrete := ps } S (recorded rs data (.ok hash)) where
  spaced := { hk.spaced with }
  inputs := hk.inputs
  concrete := hps
  knows w x y := by rw [hknows, hk.knows, recorded, knows_concat]
  records r hr := by
    rcases mem_append.1 hr with hr | hr
    · exact hk.records r hr
    · obtain rfl := mem_singleton.1 hr
      exact .inr ⟨v, m, hnew⟩

lemma Keeps.create {r : Except Fault Expr} (hk : Keeps n h l.settled rs) (hl : l.IsSound) (hid : data.id < l.next)
    (hp : data.isProp = false) (hc : h.create data l = .ok (h', r) l') :
    l.Settles l' ∧ Keeps n h' l'.settled (recorded rs data r) := by
  have hroom : data.term.overrun .empty = none := by
    cases hroom : data.term.overrun .empty with
    | none => rfl
    | some f =>
      have hfails : h.create data l = .error f l := by
        rw [Hashes.create, value?, settle_eq, hroom]
        rfl
      cases hfails.symm.trans hc
  obtain ⟨value, l1, hvalue, hsettles, hcase⟩ := value?_settles hroom hl hid hp
  have hlater := (hk.mono hsettles.keeps).addWidth data.width
  suffices hend : l'.settled = l1.settled ∧ l'.IsSound ∧ Keeps n h' l1.settled (recorded rs data r) by
    rw [hend.1]
    exact ⟨⟨hend.2.1, fun i hi => hend.1 ▸ hsettles.keeps i hi⟩, hend.2.2⟩
  refine Builds.of_run hc hvalue hsettles.sound (R := fun a => Keeps n a.1 l1.settled (recorded rs data a.2)) ?_
  rcases hcase with ⟨rfl, hnone⟩ | ⟨v, rfl, hshown⟩
  · refine (apply_builds _ 256 data).bind fun stored _ => (apply_builds _ 256 data).bind fun hash hhash => ?_
    exact .pure (hlater.unknown ⟨hp, hnone, by rw [hhash.term, shown_of_none hnone]⟩)
  dsimp only
  cases hm : ofValue v data.width with
  | error f => exact .pure hlater
  | ok m =>
    refine (word_builds m).bind fun hash hhash => ?_
    have hnew : IsKnown l1.settled (data, hash) v m :=
      ⟨hp, hshown, hm, by rw [hhash.term, Nat.mod_eq_of_lt (ofValue_lt hm)]⟩
    exact (putConcrete_builds hnew hlater.concrete).bind fun ps hps => .pure (hlater.known hnew hps.1 hps.2)

end

lemma Keeps.widens (hk : Keeps n h S rs) (hw : h.Widens h') :
    Keeps (n + (h'.intervals.length - h.intervals.length)) h' S rs :=
  ⟨hw.spaced hk.spaced, by rw [hw.inputs]; exact hk.inputs, by rw [hw.concrete]; exact hk.concrete,
    by rw [hw.concrete]; exact hk.knows, by rw [hw.inputs]; exact hk.records⟩

lemma keeps_nothing {next : Int} (hnext : next = nth n) (S : Settled) : Keeps n { next := next } S [] :=
  have hnone {w i} : lookup w ([] : List (Nat × Int)) ≠ some i := by simp
  ⟨⟨hnext, fun hw => absurd hw hnone, fun hw => absurd hw hnone⟩, by simp, nofun, by simp, by simp⟩

/-- However hashes were recorded, what is kept of the inputs is right. -/
lemma Recording.keeps (hr : Recording n h l rs) : l.IsSound ∧ Keeps n h l.settled rs := by
  induction hr with
  | start hl => exact ⟨hl, keeps_nothing (by norm_num [nth]) _⟩
  | create _ hid hp hc ih | refuse _ hid hp hc ih =>
    obtain ⟨hsettles, hkeeps⟩ := ih.2.create ih.1 hid hp hc
    exact ⟨hsettles.sound, hkeeps⟩
  | conditions _ hc ih =>
    obtain ⟨r, l1, hrun, hS, hsound, hwidens, -⟩ := conditions_builds default ih.2.inputs ih.2.concrete _ rfl ih.1
    obtain ⟨rfl, rfl⟩ := EStateM.Result.ok.inj (hrun.symm.trans hc)
    rw [hS]
    exact ⟨hsound, ih.2.widens hwidens⟩
  | reset _ ih => exact ⟨ih.1, keeps_nothing ih.2.spaced.next _⟩
  | elsewhere _ hl ih => exact ⟨hl.sound, ih.2.mono hl.keeps⟩

/-! ## Equal hashes -/

/-- The computed hash tells the known ones of these inputs apart. -/
def TellsApart (S : Settled) (rs : List (Expr × Expr)) : Prop :=
  ∀ {w w' x x' y}, Knows S rs w x y → Knows S rs w' x' y → w = w' ∧ x = x'

/-- No computed hash of these inputs lies in an interval that is taken. -/
def Avoids (S : Settled) (rs : List (Expr × Expr)) (h : Hashes) : Prop :=
  ∀ {w w' x y i}, Knows S rs w x y → h.intervals.lookup w' = some i → ¬IsInside i y

/-- What a hash comes from: an input whose hash is in the interval of its width and has an inverse, or a known input. -/
inductive ComesFrom (ι : Interpretation) (S : Settled) (rs : List (Expr × Expr)) (h : Hashes) (y w x : Nat) : Prop
  | interval (i : Int) (hi : h.intervals.lookup w = some i) (hin : IsInside i y) (hinverse : ι.unhash w y = x)
  | known (hk : Knows S rs w x y)

lemma ComesFrom.unique {w' x' : Nat} (hspaced : h.IsSpaced n) (happart : TellsApart S rs) (havoids : Avoids S rs h)
    (hx : ComesFrom ι S rs h y w x) (hx' : ComesFrom ι S rs h y w' x') : w = w' ∧ x = x' := by
  cases hx with
  | known hk =>
    cases hx' with
    | known hk' => exact happart hk hk'
    | interval i hi hin => exact absurd hin (havoids hk hi)
  | interval i hi hin hinverse =>
    cases hx' with
    | known hk' => exact absurd hin (havoids hk' hi)
    | interval j hj hjn hinverse' =>
      obtain rfl := hin.unique hjn
      obtain rfl := hspaced.apart hi hj
      exact ⟨rfl, hinverse.symm.trans hinverse'⟩

/-- A bound input has its hash in the interval, or is known: the bounds are words. -/
lemma IsBound.comesFrom (hb : h.IsBound ι S w x) (hspaced : h.IsSpaced n) (hn : n ≤ 10 ^ 10)
    (hknows : ∀ w x y, Knows S h.concrete w x y ↔ Knows S rs w x y) : ComesFrom ι S rs h (ι.hash w x) w x := by
  rcases hb.place with ⟨i, hi, hlow, hhigh⟩ | hk
  · obtain ⟨k, hk, rfl⟩ := hspaced.taken hi
    obtain ⟨hnonneg, hlt⟩ := nth_bounds (hk.trans_le hn)
    exact .interval _ hi ⟨by omega, by omega⟩ hb.inverse
  · exact .known ((hknows _ _ _).1 hk)

/-- Hashes do not collide: however inputs were hashed and forgotten, the condition on all hashes can be stated, and under
every interpretation that meets it, two inputs with the same hash have the same width and the same value. The computed
hash has to tell the known inputs apart and to keep out of the intervals, of which fewer than ten thousand million are
taken. -/
theorem equal_hashes_have_equal_inputs {rs : List (Expr × Expr)} (hr : Recording n h l rs) :
    ∃ h' c l', h.conditions l = .ok (h', c) l' ∧
      (n + (h'.intervals.length - h.intervals.length) < 10 ^ 10 → TellsApart l'.settled rs → Avoids l'.settled rs h' →
        ∀ ι, c.IsMet ι l'.settled → ∀ r ∈ rs, ∀ r' ∈ rs, r.2.means ι l'.settled = r'.2.means ι l'.settled →
          r.1.width = r'.1.width ∧ r.1.means ι l'.settled = r'.1.means ι l'.settled) := by
  obtain ⟨hl, hkeeps⟩ := hr.keeps
  obtain ⟨⟨h', c⟩, l', hrun, hS, -⟩ := conditions_builds default hkeeps.inputs hkeeps.concrete l rfl hl
  refine ⟨h', c, l', hrun, fun hn happart havoids ι hmet => ?_⟩
  obtain ⟨a, l₁, hrun', -, -, hwidens, hbound⟩ := conditions_builds ι hkeeps.inputs hkeeps.concrete l rfl hl
  obtain ⟨rfl, rfl⟩ := EStateM.Result.ok.inj (hrun'.symm.trans hrun)
  rw [hS] at happart havoids hmet ⊢
  have hspaced := hwidens.spaced hkeeps.spaced
  have hfrom : ∀ r ∈ rs, ComesFrom ι l.settled rs h' (r.2.means ι l.settled) r.1.width (r.1.means ι l.settled) := by
    intro r hr
    rcases hkeeps.records r hr with ⟨hunknown, hmem⟩ | ⟨v, m, hk⟩
    · rw [hunknown.means_hash]
      exact (hbound hmet r.1 hmem).comesFrom hspaced hn.le (by rw [hwidens.concrete]; exact hkeeps.knows)
    · rw [hk.isBits_hash.means, hk.isBits.means]
      exact .known ⟨r, hr, rfl, hk⟩
  intro r hr r' hr' hsame
  exact (hfrom r hr).unique hspaced happart havoids (hsame ▸ hfrom r' hr')

/-! ## Three inputs -/

def recordsOn (test : Hashes → Ledger → List (Expr × Expr) → Bool) (h : Hashes) (l : Ledger) (rs : List (Expr × Expr)) :
    List Expr → Bool
  | [] => test h l rs
  | e :: es => match h.create e l with
    | .ok (h', .ok hash) l' => decide (e.id < l.next) && !e.isProp && recordsOn test h' l' (rs ++ [(e, hash)]) es
    | _ => false

lemma exists_recording_of_recordsOn {test : Hashes → Ledger → List (Expr × Expr) → Bool} (hr : Recording n h l rs)
    (ht : recordsOn test h l rs es = true) : ∃ h' l' rs', Recording n h' l' rs' ∧ test h' l' rs' = true := by
  induction es generalizing h l rs with
  | nil => exact ⟨h, l, rs, hr, ht⟩
  | cons e es ih =>
    unfold recordsOn at ht
    split at ht
    · rename_i h' hash l' hc
      simp only [Bool.and_eq_true, decide_eq_true_eq, Bool.not_eq_true'] at ht
      exact ih (hr.create ht.1.1 ht.1.2 hc) ht.2
    · cases ht

/-- Width, value and hash of the known ones of these inputs. -/
def knownOf (S : Settled) (rs : List (Expr × Expr)) : List (Nat × Nat × Nat) :=
  rs.filterMap fun r => match r.1.shown S, r.2.term with
    | .const v w, .const m _ => some (w, v, m)
    | _, _ => none

lemma mem_knownOf (hk : Knows S rs w x y) : (w, x, y) ∈ knownOf S rs := by
  obtain ⟨r, hr, rfl, hk⟩ := hk
  exact mem_filterMap.2 ⟨r, hr, by rw [hk.key, hk.hash]⟩

def hashOfFive : Nat := 26708193832782833341713430537656742283515022769981463093845695345743986589862

/-- An unknown byte, the byte five, and two unknown bytes. -/
def threeInputs : List Expr := [⟨0, 0, .symbol "x" 8⟩, ⟨1, 1, .const 5 8⟩, ⟨2, 2, .symbol "y" 16⟩]

/-- The unknown byte is five too. The two unknown bytes are seven, and their hash is in the second interval. -/
def fiveAndSeven : Interpretation where
  number name := if name = "x" then 5 else 7
  content _ _ := 0
  function name _ _ :=
    if name = "keccak256_8" then hashOfFive
    else if name = "keccak256_8-1" then 5
    else if name = "keccak256_16" then ((nth 1 * part).toNat + 63) / 64 * 64
    else 7

/-- The condition on the hashes of the three inputs is met, and two intervals are taken. -/
def isMetByFiveAndSeven (h : Hashes) (l : Ledger) (rs : List (Expr × Expr)) : Bool :=
  match h.conditions l with
  | .ok (h', c) l' =>
    (c.shown l'.settled).means fiveAndSeven != 0 && h'.intervals == [(8, nth 0), (16, nth 1)] &&
      knownOf l'.settled rs == [(8, 5, hashOfFive)] &&
      rs.map (·.2.means fiveAndSeven l'.settled == hashOfFive) == [true, true, false]
  | .error _ _ => false

/-- The unknown byte and the byte five have the same hash, so they are equal; the two unknown bytes have another one. -/
theorem equal_hashes_of_five : ∃ h l rs h' c l', Recording 0 h l rs ∧ h.conditions l = .ok (h', c) l' ∧
    0 + (h'.intervals.length - h.intervals.length) < 10 ^ 10 ∧ TellsApart l'.settled rs ∧ Avoids l'.settled rs h' ∧
    c.IsMet fiveAndSeven l'.settled ∧
    rs.map (fun r => r.2.means fiveAndSeven l'.settled == hashOfFive) = [true, true, false] ∧
    ∀ r ∈ rs, ∀ r' ∈ rs, r.2.means fiveAndSeven l'.settled = r'.2.means fiveAndSeven l'.settled →
      r.1.width = r'.1.width ∧ r.1.means fiveAndSeven l'.settled = r'.1.means fiveAndSeven l'.settled := by
  have hrecords : recordsOn isMetByFiveAndSeven {} { next := 3 } [] threeInputs = true := by decide +kernel
  have hstart : Recording 0 {} { next := 3 } [] := .start fun i hi => by simp at hi
  obtain ⟨h, l, rs, hr, htest⟩ := exists_recording_of_recordsOn hstart hrecords
  obtain ⟨h', c, l', hc, hequal⟩ := equal_hashes_have_equal_inputs hr
  simp only [isMetByFiveAndSeven, hc, Bool.and_eq_true, bne_iff_ne, beq_iff_eq] at htest
  obtain ⟨⟨⟨hmet, hintervals⟩, hknown⟩, hhashes⟩ := htest
  have hfive {w x y} (hk : Knows l'.settled rs w x y) : w = 8 ∧ x = 5 ∧ y = hashOfFive := by
    simpa [hknown] using mem_knownOf hk
  have hapart : TellsApart l'.settled rs := fun hk hk' =>
    ⟨(hfive hk).1.trans (hfive hk').1.symm, (hfive hk).2.1.trans (hfive hk').2.1.symm⟩
  have havoids : Avoids l'.settled rs h' := by
    intro w w' x y i hk hi
    obtain ⟨-, -, rfl⟩ := hfive hk
    rw [hintervals] at hi
    have hout : ∀ i ∈ [nth 0, nth 1], ¬(i * part ≤ hashOfFive ∧ (hashOfFive : Int) < i * part + part) := by decide +kernel
    refine hout i ?_
    simp only [lookup_cons] at hi
    split at hi
    · simp [Option.some.inj hi]
    · split at hi
      · simp [Option.some.inj hi]
      · cases hi
  have hfew : 0 + (h'.intervals.length - h.intervals.length) < 10 ^ 10 := by
    rw [hintervals, length_cons, length_singleton]
    omega
  exact ⟨h, l, rs, h', c, l', hr, hc, hfew, hapart, havoids, hmet, hhashes, hequal hfew hapart havoids _ hmet⟩

end Hashes
end EvmAudit
