import EvmAudit.Expr
import EvmAudit.Proofs.Meaning
import Mathlib.Data.List.Forall2

/-!
# What computations on expressions give

A ledger decides only whether an expression shows its term or the value of it, and both mean the same. So what an
operation on expressions gives can be said without the ledger: `c.Gives P` holds when `c` succeeds from every ledger
with a result in `P`. The lemmas below say this of every operation, for operands whose meaning under a valuation is
known.
-/

namespace EvmAudit

open Term

variable {σ : Valuation} {w n : Nat} {t u : Term} {e : Expr} {y : BitVec w}

/-! ## Meaning of expressions -/

/-- Under the valuation, the bit-vector term means this word; and there is room to evaluate it. -/
structure Term.Denotes {w : Nat} (σ : Valuation) (t : Term) (x : BitVec w) : Prop where
  isProp : t.isProp = false
  width : t.width = w
  denote : t.denote σ = x.toNat
  room : t.overrun .empty = none

/-- Under the valuation, the Boolean term is true or false as given; and there is room to evaluate it. -/
structure Term.Says (σ : Valuation) (t : Term) (b : Bool) : Prop where
  isProp : t.isProp = true
  denote : t.denote σ = Term.ofBool b
  room : t.overrun .empty = none

def Expr.Denotes {w : Nat} (σ : Valuation) (e : Expr) (x : BitVec w) : Prop := e.term.Denotes σ x

def Expr.Says (σ : Valuation) (e : Expr) (b : Bool) : Prop := e.term.Says σ b

/-- The bit-vector term has this word as its value, whatever the variables are. -/
structure Term.Equals {w : Nat} (t : Term) (x : BitVec w) : Prop where
  isProp : t.isProp = false
  width : t.width = w
  value? : t.value? = some x.toNat
  room : t.overrun .empty = none

def Expr.Equals {w : Nat} (e : Expr) (x : BitVec w) : Prop := e.term.Equals x

def Expr.Known (e : Expr) : Prop := e.term.value?.isSome

/-- The operation has room for the numbers that it works with. -/
abbrev ArithOp.HasRoom {w : Nat} (op : ArithOp) (x y : BitVec w) : Prop :=
  op = .shl → Term.shiftFault x.toNat y.toNat = none

namespace Term

variable {x : BitVec w} {b : Bool}

lemma Denotes.lt (h : t.Denotes σ x) : t.denote σ < 2 ^ t.width := by
  rw [h.denote, h.width]
  exact x.isLt

lemma overrun_constLike {ρ : Assignment} (t : Term) (v : Nat) : (t.constLike v).overrun ρ = none := by
  unfold constLike
  split <;> rfl

lemma overrun_simplify (h : t.overrun .empty = none) : t.simplify.overrun .empty = none := by
  unfold Term.simplify
  split
  · exact overrun_constLike _ _
  · exact h

lemma Denotes.simplify (h : t.Denotes σ x) : t.simplify.Denotes σ x :=
  ⟨by rw [isProp_simplify, h.isProp], by rw [width_simplify, h.width], by rw [denote_simplify h.lt, h.denote],
    overrun_simplify h.room⟩

lemma Says.lt (h : t.Says σ b) : t.denote σ < 2 ^ t.width := by
  rw [width_of_isProp h.isProp]
  exact denote_lt_of_isProp h.isProp

lemma Says.simplify (h : t.Says σ b) : t.simplify.Says σ b :=
  ⟨by rw [isProp_simplify, h.isProp], by rw [denote_simplify h.lt, h.denote], overrun_simplify h.room⟩

lemma Denotes.eq_of_value? (h : t.Denotes σ x) (hn : t.value? = some n) : n = x.toNat := by
  rw [← h.denote, denote_of_value? hn]

lemma Equals.denotes (h : t.Equals x) : t.Denotes σ x := ⟨h.isProp, h.width, denote_of_value? h.value?, h.room⟩

lemma Denotes.equals (h : t.Denotes σ x) (hn : t.value? = some n) : t.Equals x :=
  ⟨h.isProp, h.width, by rw [hn, h.eq_of_value? hn], h.room⟩

lemma equals_ofNat (n w : Nat) : (ofNat n w).Equals (BitVec.ofNat w n) :=
  ⟨rfl, rfl, by simp [ofNat, value?, eval], rfl⟩

lemma equals_ofInt (n : Int) (w : Nat) : (ofInt n w).Equals (BitVec.ofInt w n) :=
  ⟨rfl, rfl, by simp [ofInt, value?, eval], rfl⟩

/-- An operation has room for its result, whatever of its operands is known: only a shift to the left can lack it. -/
lemma Denotes.arith (op : ArithOp) (ht : t.Denotes σ x) (hu : u.Denotes σ y) (hroom : op.HasRoom x y) :
    (arith op t u).Denotes σ (op.onWords x y) := by
  refine ⟨rfl, ht.width, ?_, ?_⟩
  · rw [Term.denote, ht.denote, hu.denote, ht.width, ArithOp.eval_toNat]
  simp only [overrun, ht.room, hu.room, Option.none_or]
  split
  · rename_i m n hm hn
    have hx : m = x.toNat := ht.eq_of_value? hm
    have hy : n = y.toNat := hu.eq_of_value? hn
    rw [hx, hy, ht.width, Nat.mod_eq_of_lt y.isLt]
    exact hroom rfl
  · rfl

lemma Equals.arith (op : ArithOp) (ht : t.Equals x) (hu : u.Equals y) (hroom : op.HasRoom x y) :
    (arith op t u).Equals (op.onWords x y) := by
  have hx := ht.value?
  have hy := hu.value?
  unfold Term.value? at hx hy
  refine ⟨rfl, ht.width, ?_, (ht.denotes.arith (σ := default) op hu.denotes hroom).room⟩
  simp [Term.value?, eval, hx, hy, ht.width, ArithOp.eval_toNat]

lemma simplify_of_value? (hp : t.isProp = false) (hn : t.value? = some n) :
    t.simplify = .const (n % 2 ^ t.width) t.width := by
  simp [simplify, hn, constLike, hp]

lemma simplify_of_none (hn : t.value? = none) : t.simplify = t := by
  simp [simplify, hn]

def isLiteral : Term → Prop
  | .const _ _ | .truth _ => True
  | _ => False

def const? : Term → Option Nat
  | .const v _ => some v
  | _ => none

lemma const?_of_none (hn : t.value? = none) : t.const? = none := by
  cases t with
  | const v w => simp [value?, eval] at hn
  | _ => rfl

lemma isLiteral.const (hl : t.isLiteral) (hp : t.isProp = false) : ∃ v w, t = .const v w := by
  cases t with
  | const v w => exact ⟨v, w, rfl⟩
  | truth b => simp [isProp] at hp
  | _ => exact hl.elim

lemma isSome_value?_simplify (t : Term) : t.simplify.value?.isSome = t.value?.isSome := by
  cases h : t.value? with
  | none => rw [simplify_of_none h, h]
  | some v =>
    simp only [simplify, h, constLike]
    split <;> rfl

lemma value?_simplify (h : t.denote σ < 2 ^ t.width) : t.simplify.value? = t.value? := by
  unfold simplify
  cases hv : t.value? with
  | none => exact hv
  | some v => exact eval_constLike (denote_of_value? (σ := σ) hv ▸ h)

lemma Denotes.simplify_of_isLiteral (h : t.Denotes σ x) (hl : t.isLiteral) : t.simplify = t := by
  cases t with
  | const v u =>
    have hv : v < 2 ^ u := h.lt
    rw [simplify_of_value? rfl rfl]
    simp [Term.width, Nat.mod_eq_of_lt hv]
  | truth b => exact absurd h.isProp (by simp [Term.isProp])
  | _ => exact hl.elim

/-- A relation reads the same from both sides, if turning it around is known to. -/
lemma Denotes.compare (op : CmpOp) (hop : ∀ m n, op.flip.eval n m = op.eval m n) (ht : t.Denotes σ x)
    (hu : u.Denotes σ y) : (compare op t u).Says σ (op.eval x.toNat y.toNat) := by
  unfold Term.compare
  split
  · exact ⟨rfl, by rw [Term.denote, ht.denote, hu.denote, hop], by simp [overrun, ht.room, hu.room]⟩
  · exact ⟨rfl, by rw [Term.denote, ht.denote, hu.denote], by simp [overrun, ht.room, hu.room]⟩

lemma Says.asProp (h : t.Says σ b) : t.asProp = t := by simp [Term.asProp, h.isProp]

lemma evaluate_eq_ok {r : Option Nat} : t.evaluate .empty = .ok r ↔ t.overrun .empty = none ∧ t.value? = r := by
  unfold evaluate
  cases t.overrun .empty with
  | none => simp [value?]
  | some f => simp

end Term

lemma CmpOp.flip_eval_eq (m n : Nat) : eq.flip.eval n m = eq.eval m n := by
  simp [flip, eval, eq_comm]

/-! ## Computations that succeed from every ledger -/

namespace Calc

variable {α β : Type} {c : Calc α} {f g : α → Calc β} {P Q : α → Prop} {R : β → Prop} {xs : List α}

/-- From every ledger the computation succeeds, with a result of this kind. -/
def Gives (c : Calc α) (P : α → Prop) : Prop := ∀ l, ∃ a l', c l = .ok a l' ∧ P a

lemma Gives.pure {a : α} (h : P a) : Gives (Pure.pure a) P := fun l => ⟨a, l, rfl, h⟩

lemma Gives.bind (hc : Gives c P) (hf : ∀ a, P a → Gives (f a) R) : Gives (c >>= f) R := by
  intro l
  obtain ⟨a, l', ha, hp⟩ := hc l
  obtain ⟨b, l'', hb, hr⟩ := hf a hp l'
  refine ⟨b, l'', ?_, hr⟩
  show EStateM.bind c f l = _
  simp [EStateM.bind, ha, hb]

lemma Gives.mono (hc : Gives c P) (h : ∀ a, P a → Q a) : Gives c Q := fun l =>
  have ⟨a, l', ha, hp⟩ := hc l
  ⟨a, l', ha, h a hp⟩

lemma Gives.mapM_of_forall₂ {γ : Type} {S : α → γ → Prop} {T : β → γ → Prop} {zs : List γ} (h : List.Forall₂ S xs zs)
    (hg : ∀ a z, S a z → Gives (g a) (T · z)) : Gives (xs.mapM g) (List.Forall₂ T · zs) := by
  induction h with
  | nil => exact .pure .nil
  | cons ha _ ih =>
    rw [List.mapM_cons]
    exact (hg _ _ ha).bind fun b hb => ih.bind fun bs hbs => .pure (.cons hb hbs)

lemma Gives.mapM {S : α → β → Prop} (h : ∀ a ∈ xs, Gives (g a) (S a)) : Gives (xs.mapM g) (List.Forall₂ S xs) := by
  have hxs : List.Forall₂ (fun a a' => (g a).Gives (S a')) xs xs := List.forall₂_same.2 h
  exact (mapM_of_forall₂ hxs fun _ _ => id).mono fun _ => .flip

end Calc

/-! ## Expressions -/

namespace Expr

variable {a b : Expr} {x y : BitVec w} {p q : Bool}

open Calc (Gives)

lemma Denotes.of_term (h : e.term = t) (ht : t.Denotes σ x) : e.Denotes σ x := by
  unfold Denotes
  rwa [h]

lemma Equals.of_term (h : e.term = t) (ht : t.Equals x) : e.Equals x := by
  unfold Equals
  rwa [h]

lemma Equals.denotes (h : e.Equals x) : e.Denotes σ x := Term.Equals.denotes h

lemma Says.of_term (h : e.term = t) (ht : t.Says σ p) : e.Says σ p := by
  unfold Says
  rwa [h]

lemma raw_gives (e : Expr) : e.raw.Gives (fun t => t = e.term ∨ t = e.term.simplify) := by
  intro l
  refine ⟨l.termOf e, l, rfl, ?_⟩
  unfold Ledger.termOf
  split
  · exact .inr rfl
  · exact .inl rfl

lemma Denotes.raw (h : e.Denotes σ x) : e.raw.Gives (fun t => t.Denotes σ x ∧ t.value? = e.term.value?) := by
  refine e.raw_gives.mono ?_
  rintro t (rfl | rfl)
  · exact ⟨h, rfl⟩
  · exact ⟨h.simplify, value?_simplify h.lt⟩

lemma Equals.raw (h : e.Equals x) : e.raw.Gives (·.Equals x) :=
  (Denotes.raw (σ := default) h.denotes).mono fun _ ht => ht.1.equals (ht.2.trans h.value?)

lemma Says.raw (h : e.Says σ p) : e.raw.Gives (·.Says σ p) := by
  refine e.raw_gives.mono ?_
  rintro t (rfl | rfl)
  · exact h
  · exact h.simplify

lemma marks_gives (e : Expr) : e.marks.Gives (fun _ => True) := fun l => ⟨_, l, rfl, trivial⟩

lemma marks2_gives (a b : Expr) : (marks2 a b).Gives (fun _ => True) :=
  a.marks_gives.bind fun _ _ => b.marks_gives.bind fun _ _ => .pure trivial

lemma marksAll_run (es : List Expr) (l : Ledger) : ∃ ms, marksAll es l = .ok ms l := by
  unfold marksAll
  generalize ([] : List Mark) = ms
  induction es generalizing ms with
  | nil => exact ⟨ms, rfl⟩
  | cons e es ih => exact ih _

lemma marksAll_gives (es : List Expr) : (marksAll es).Gives (fun _ => True) := fun l =>
  have ⟨ms, hrun⟩ := marksAll_run es l
  ⟨ms, l, hrun, trivial⟩

lemma make_gives (t : Term) (ms : List Mark) : (make t ms).Gives (·.term = t) := by
  intro l
  unfold make
  split <;> exact ⟨_, _, rfl, rfl⟩

lemma derive_gives (t : Term) (e : Expr) : (derive t e).Gives (·.term = t) := by
  refine e.marks_gives.bind fun ms _ => ?_
  split
  · exact make_gives t []
  · exact fun l => ⟨_, _, rfl, rfl⟩

lemma ofTerm_gives (t : Term) : (ofTerm t).Gives (·.term = t) := make_gives t []

lemma const_equals (n w : Nat) : (const n w).Gives (·.Equals (BitVec.ofNat w n)) :=
  (ofTerm_gives _).mono fun _ h => .of_term h (equals_ofNat n w)

lemma const_gives (σ : Valuation) (n w : Nat) : (const n w).Gives (·.Denotes σ (BitVec.ofNat w n)) :=
  (const_equals n w).mono fun _ h => h.denotes

lemma ofInt_equals (n : Int) (w : Nat) : (ofInt n w).Gives (·.Equals (BitVec.ofInt w n)) :=
  (ofTerm_gives _).mono fun _ h => .of_term h (equals_ofInt n w)

lemma ofInt_gives (σ : Valuation) (n : Int) (w : Nat) : (ofInt n w).Gives (·.Denotes σ (BitVec.ofInt w n)) :=
  (ofInt_equals n w).mono fun _ h => h.denotes

lemma replace_run (e : Expr) (l : Ledger) :
    ∃ l', e.replace l = .ok () l' ∧ (l'.termOf e = e.term.simplify ∨ l'.termOf e = e.term ∧ e.term.isLiteral) := by
  have hshow : l.termOf e = e.term.simplify ∨ l.termOf e = e.term := by
    unfold Ledger.termOf
    split
    · exact .inl rfl
    · exact .inr rfl
  unfold replace
  split
  iterate 2 exact ⟨l, rfl, hshow.imp_right fun h => ⟨h, by simp_all [isLiteral]⟩⟩
  split
  · rename_i hn
    have hnone := Option.isNone_iff_eq_none.1 hn
    exact ⟨l, rfl, .inl (by rcases hshow with h | h <;> rw [h, simplify_of_none hnone])⟩
  · exact ⟨_, rfl, .inl (by simp [Ledger.termOf])⟩

lemma replace_gives (e : Expr) : e.replace.Gives (fun _ => True) := fun l =>
  have ⟨l', h, _⟩ := e.replace_run l
  ⟨(), l', h, trivial⟩

/-- Evaluation ends where there is room, and stops with the fault otherwise. -/
lemma settle_eq (e : Expr) : e.settle = match e.term.overrun .empty with
    | some f => throw f
    | none => e.replace := rfl

section

variable (h : e.term.overrun .empty = none)
include h

lemma settle_run (l : Ledger) :
    ∃ l', e.settle l = .ok () l' ∧ (l'.termOf e = e.term.simplify ∨ l'.termOf e = e.term ∧ e.term.isLiteral) := by
  rw [settle_eq, h]
  exact e.replace_run l

lemma settle_gives : e.settle.Gives (fun _ => True) := fun l =>
  have ⟨l', h, _⟩ := settle_run h l
  ⟨(), l', h, trivial⟩

lemma simplified_gives : e.simplified.Gives (· = e) := (settle_gives h).bind fun _ _ => .pure rfl

end

lemma Equals.settle_run (h : e.Equals x) (l : Ledger) :
    ∃ l', e.settle l = .ok () l' ∧ l'.termOf e = .const x.toNat w := by
  obtain ⟨l', hs, ht⟩ := Expr.settle_run h.room l
  have hterm : l'.termOf e = e.term.simplify := by
    rcases ht with ht | ⟨ht, hlit⟩
    · exact ht
    · have hd : e.term.Denotes default x := h.denotes
      rw [ht, hd.simplify_of_isLiteral hlit]
  refine ⟨l', hs, ?_⟩
  rw [hterm, simplify_of_value? h.isProp h.value?, h.width, Nat.mod_eq_of_lt x.isLt]

lemma value?_settled {l l' : Ledger} (hs : e.settle l = .ok () l') : e.value? l = .ok (l'.termOf e).const? l' := by
  show EStateM.bind e.settle _ l = _
  simp only [EStateM.bind, hs]
  show (match l'.termOf e with | .const v _ => pure (some v) | _ => pure none : Calc (Option Nat)) l' = _
  cases l'.termOf e <;> rfl

lemma value?_run (h : e.term.overrun .empty = none) (l : Ledger) : ∃ l', e.value? l = .ok (l'.termOf e).const? l' ∧
    (l'.termOf e = e.term.simplify ∨ l'.termOf e = e.term ∧ e.term.isLiteral) := by
  obtain ⟨l', hs, ht⟩ := settle_run h l
  exact ⟨l', value?_settled hs, ht⟩

/-- Asking for the value of a bit-vector tells that of its term, which may be reduced to the width. -/
lemma value?_reads (hroom : e.term.overrun .empty = none) (h : e.isProp = false) :
    e.value?.Gives fun r => r = e.term.value? ∨ r = e.term.value?.map (· % 2 ^ e.width) := by
  intro l
  obtain ⟨l', hl', ht⟩ := value?_run hroom l
  refine ⟨_, l', hl', ?_⟩
  rcases ht with ht | ⟨ht, hlit⟩
  · rw [ht]
    cases hv : e.term.value? with
    | none => exact .inl (by rw [simplify_of_none hv, const?_of_none hv])
    | some n =>
      rw [simplify_of_value? h hv]
      exact .inr rfl
  · obtain ⟨v, w, hc⟩ := hlit.const h
    rw [ht, hc]
    exact .inl rfl

lemma isSome_value?_gives (hroom : e.term.overrun .empty = none) (h : e.isProp = false) :
    e.value?.Gives (·.isSome = e.term.value?.isSome) := by
  refine (value?_reads hroom h).mono ?_
  rintro _ (rfl | rfl)
  · rfl
  · exact Option.isSome_map

lemma value?_gives (h : e.Denotes σ x) : e.value?.Gives (· = e.term.value?) := by
  refine (value?_reads h.room h.isProp).mono ?_
  rintro _ (rfl | rfl)
  · rfl
  cases hv : e.term.value? with
  | none => rfl
  | some n =>
    have hn : n % 2 ^ e.width = n := by
      rw [h.eq_of_value? hv, width, h.width, Nat.mod_eq_of_lt x.isLt]
    rw [Option.map_some, hn]

lemma Equals.value?_gives (h : e.Equals x) : e.value?.Gives (· = some x.toNat) := by
  rw [← h.value?]
  exact Expr.value?_gives (σ := default) h.denotes

lemma truth?_gives (h : e.Says σ p) : e.truth?.Gives (· = e.term.value?.map (· != 0)) := by
  refine (settle_gives h.room).bind fun _ _ => e.raw_gives.bind ?_
  rintro t (rfl | rfl)
  · exact .pure rfl
  · exact .pure (by rw [value?_simplify h.lt])

lemma Says.truth? (h : e.Says σ p) : e.truth?.Gives (fun r => r = none ∨ r = some p) := by
  refine (truth?_gives h).mono ?_
  rintro r rfl
  cases hv : e.term.value? with
  | none => exact .inl rfl
  | some n =>
    have hn : n = ofBool p := by rw [← h.denote, denote_of_value? hv]
    exact .inr (by simp [hn])

lemma Says.holds (h : e.Says σ p) : e.holds.Gives (· = true → p = true) := by
  refine h.truth?.bind ?_
  rintro r (rfl | rfl) <;> exact .pure (by simp)

lemma Says.isFalse (h : e.Says σ p) : e.isFalse.Gives (· = true ↔ e.term.value? = some 0) := by
  refine (truth?_gives h).bind ?_
  rintro _ rfl
  refine .pure ?_
  cases e.term.value? <;> simp

/-! ## Operations -/

lemma evaluate_gives (h : t.overrun .empty = none) :
    (liftM (t.evaluate .empty) : Calc (Option Nat)).Gives (· = t.value?) := by
  rw [evaluate, h]
  exact .pure rfl

lemma arith_gives (op : ArithOp) (ha : a.Denotes σ x) (hb : b.Denotes σ y) (hroom : op.HasRoom x y := by rintro ⟨⟩) :
    (arith op a b).Gives (·.Denotes σ (op.onWords x y)) := by
  simp only [arith, isProp, ha.isProp, hb.isProp]
  refine ha.raw.bind fun t ht => hb.raw.bind fun u hu => (marks2_gives a b).bind fun ms _ => ?_
  exact (make_gives _ ms).mono fun e he => .of_term he (ht.1.arith op hu.1 hroom)

lemma arithInt_gives (op : ArithOp) (n : Int) (ha : a.Denotes σ x)
    (hroom : op.HasRoom x (BitVec.ofInt w n) := by rintro ⟨⟩) :
    (arithInt op a n).Gives (·.Denotes σ (op.onWords x (BitVec.ofInt w n))) := by
  simp only [arithInt, isProp, ha.isProp, width, ha.width]
  refine ha.raw.bind fun t ht => (derive_gives _ a).mono fun e he => .of_term he ?_
  exact ht.1.arith op (equals_ofInt n w).denotes hroom

lemma arithInt_equals (op : ArithOp) (n : Int) (ha : a.Equals x)
    (hroom : op.HasRoom x (BitVec.ofInt w n) := by rintro ⟨⟩) :
    (arithInt op a n).Gives (·.Equals (op.onWords x (BitVec.ofInt w n))) := by
  simp only [arithInt, isProp, ha.isProp, width, ha.width]
  refine ha.raw.bind fun t ht => (derive_gives _ a).mono fun e he => .of_term he ?_
  exact ht.arith op (equals_ofInt n w) hroom

lemma relate_gives (op : CmpOp) (ha : a.Denotes σ x) (hb : b.Denotes σ y) :
    (relate op a b).Gives (·.Says σ (op.eval x.toNat y.toNat)) := by
  simp only [relate, isProp, ha.isProp, hb.isProp]
  refine ha.raw.bind fun t ht => hb.raw.bind fun u hu => (marks2_gives a b).bind fun ms _ => ?_
  refine (make_gives _ ms).mono fun e he => .of_term he ⟨rfl, ?_, by simp [overrun, ht.1.room, hu.1.room]⟩
  rw [denote, ht.1.denote, hu.1.denote]

section

variable (op : CmpOp) (hop : ∀ m n, op.flip.eval n m = op.eval m n)
include hop

lemma compare_gives (ha : a.Denotes σ x) (hb : b.Denotes σ y) :
    (compare op a b).Gives (·.Says σ (op.eval x.toNat y.toNat)) := by
  simp only [compare, isProp, ha.isProp, hb.isProp]
  refine ha.raw.bind fun t ht => hb.raw.bind fun u hu => (marks2_gives a b).bind fun ms _ => ?_
  exact (make_gives _ ms).mono fun e he => .of_term he (ht.1.compare op hop hu.1)

lemma compareInt_gives (n : Int) (ha : a.Denotes σ x) :
    (compareInt op a n).Gives (·.Says σ (op.eval x.toNat (BitVec.ofInt w n).toNat)) := by
  have hwa : a.width = w := ha.width
  unfold compareInt
  rw [hwa]
  exact (ofInt_gives σ n w).bind fun b hb => compare_gives op hop ha hb

lemma equate_gives (ha : a.Denotes σ x) (hb : b.Denotes σ y) :
    (equate op a b).Gives (·.Says σ (op.eval x.toNat y.toNat)) := by
  simp only [equate, isProp, ha.isProp, hb.isProp]
  refine ha.raw.bind fun t ht => hb.raw.bind fun u hu => (marks2_gives a b).bind fun ms _ => ?_
  refine (make_gives _ ms).mono fun e he => .of_term he ?_
  rw [comparePadded, if_pos (ht.1.width.trans hu.1.width.symm)]
  exact ht.1.compare op hop hu.1

end

lemma equateInt_value? (op : CmpOp) (n : Int) (ha : a.Denotes σ x) : (equateInt op a n).Gives fun e =>
    e.Says σ (op.eval x.toNat (BitVec.ofInt w n).toNat) ∧ e.term.value? =
      a.term.value?.map fun v => ofBool (op.eval v (BitVec.ofInt w n).toNat) := by
  simp only [equateInt, isProp, ha.isProp, width, ha.width]
  refine ha.raw.bind fun t ht => (derive_gives _ a).mono fun e he => ⟨.of_term he ⟨rfl, ?_, ?_⟩, ?_⟩
  · rw [denote, ht.1.denote, (equals_ofInt n w).denotes.denote]
  · rw [overrun, ht.1.room, Option.none_or, (equals_ofInt n w).room]
  have hn := (equals_ofInt n w).value?
  rw [he, ← ht.2]
  unfold Term.value? at hn ⊢
  simp only [eval]
  cases eval .empty t <;> rfl

lemma equateInt_gives (op : CmpOp) (n : Int) (ha : a.Denotes σ x) :
    (equateInt op a n).Gives (·.Says σ (op.eval x.toNat (BitVec.ofInt w n).toNat)) :=
  (equateInt_value? op n ha).mono fun _ h => h.1

lemma not_gives (h : e.Says σ p) : (not e).Gives (·.Says σ (!p)) := by
  refine h.raw.bind fun t ht => (derive_gives _ e).mono fun e' he => .of_term he ⟨rfl, ?_, ?_⟩
  · rw [ht.asProp, denote, ht.denote]
    cases p <;> rfl
  · rw [ht.asProp, overrun, ht.room]

lemma ite_gives (h : e.Says σ p) (ha : a.Denotes σ x) (hb : b.Denotes σ y) :
    (ite e a b).Gives (·.Denotes σ (if p then x else y)) := by
  simp only [ite, isProp, ha.isProp, hb.isProp]
  refine (marksAll_gives _).bind fun ms _ => h.raw.bind fun c hc => ha.raw.bind fun t ht => hb.raw.bind fun u hu => ?_
  refine (make_gives _ ms).mono fun e' he => .of_term he ⟨rfl, ht.1.width, ?_, ?_⟩
  · rw [hc.asProp, denote, hc.denote, ht.1.denote, hu.1.denote]
    cases p <;> rfl
  · simp [hc.asProp, overrun, hc.room, ht.1.room, hu.1.room]

lemma bit_gives (h : e.Says σ p) : (bit e).Gives (·.Denotes σ (if p then 1 else 0 : BitVec 256)) :=
  (const_gives σ 1 256).bind fun _ ha => (const_gives σ 0 256).bind fun _ hb => ite_gives h ha hb

lemma extract_gives (hi lo : Nat) (ha : a.Denotes σ x) :
    (extract hi lo a).Gives (·.Denotes σ (x.extractLsb' lo (hi + 1 - lo))) := by
  refine ha.raw.bind fun t ht => (derive_gives _ a).mono fun e he => .of_term he ⟨rfl, rfl, ?_, ?_⟩
  · rw [denote, ht.1.denote, shiftRight_eq, BitVec.extractLsb'_toNat]
  · rw [overrun, ht.1.room]

lemma extractByte_gives (lo : Nat) (ha : a.Denotes σ x) :
    (extract (lo + 7) lo a).Gives (·.Denotes σ (x.extractLsb' lo 8)) := by
  have h := extract_gives (lo + 7) lo ha
  rwa [show lo + 7 + 1 - lo = 8 by omega] at h

/-- An expression as a part of a longer one: its width and its number, which fits. -/
structure Part (σ : Valuation) (e : Expr) (part : Nat × Nat) : Prop where
  isProp : e.isProp = false
  width : e.width = part.1
  denote : e.term.denote σ = part.2
  lt : part.2 < 2 ^ part.1
  room : e.term.overrun .empty = none

lemma Denotes.part (h : e.Denotes σ x) : e.Part σ (w, x.toNat) := ⟨h.isProp, h.width, h.denote, x.isLt, h.room⟩

lemma Part.denotes {part : Nat × Nat} (h : e.Part σ part) : e.Denotes σ (BitVec.ofNat part.1 part.2) :=
  ⟨h.isProp, h.width, by rw [h.denote, BitVec.toNat_ofNat, Nat.mod_eq_of_lt h.lt], h.room⟩

lemma concat_gives {es : List Expr} {parts : List (Nat × Nat)} (h : List.Forall₂ (Part σ) es parts) :
    (concat es).Gives (fun e => e.isProp = false ∧ e.width = parts.foldr (fun p n => p.1 + n) 0 ∧
      e.term.denote σ = compose parts 0 ∧ e.term.overrun .empty = none) := by
  have hraw : (rawAll es).Gives (fun ts => denoteParts σ ts = parts ∧
      widthSum ts = parts.foldr (fun p n => p.1 + n) 0 ∧ overrunAny .empty ts = none) := by
    unfold rawAll
    induction h with
    | nil => exact .pure ⟨rfl, rfl, rfl⟩
    | cons he _ ih =>
      rw [List.mapM_cons]
      refine he.denotes.raw.bind fun t ht => ih.bind fun ts hts => .pure ⟨?_, ?_, ?_⟩
      · rw [denoteParts, hts.1, ht.1.width, ht.1.denote, BitVec.toNat_ofNat, Nat.mod_eq_of_lt he.lt]
      · rw [widthSum, hts.2.1, ht.1.width, List.foldr_cons]
      · rw [overrunAny, ht.1.room, Option.none_or, hts.2.2]
  refine hraw.bind fun ts hts => (marksAll_gives es).bind fun ms _ => (make_gives _ ms).mono fun e he => ?_
  refine ⟨by rw [isProp, he]; rfl, ?_, ?_, ?_⟩
  · rw [width, he, Term.width, hts.2.1]
  · rw [he, denote, hts.1]
  · rw [he, overrun, hts.2.2]

lemma Part.concat_gives {b : Expr} {v w v' w' : Nat} (ha : e.Part σ (w, v)) (hb : b.Part σ (w', v')) :
    (concat [e, b]).Gives (Part σ · (w + w', v * 2 ^ w' + v')) := by
  refine (Expr.concat_gives (.cons ha (.cons hb .nil))).mono ?_
  rintro r ⟨hp, hwidth, hdenote, hroom⟩
  have hlt := ha.lt
  have hlt' : v' < 2 ^ w' := hb.lt
  refine ⟨hp, hwidth, ?_, ?_, hroom⟩
  · simp only [hdenote, compose, Nat.zero_mul, Nat.zero_add, Nat.mod_eq_of_lt hlt, Nat.mod_eq_of_lt hlt']
  · calc v * 2 ^ w' + v' < (v + 1) * 2 ^ w' := by rw [Nat.add_mul]; omega
      _ ≤ 2 ^ w * 2 ^ w' := Nat.mul_le_mul_right _ hlt
      _ = 2 ^ (w + w') := (Nat.pow_add ..).symm

lemma zero_gives (σ : Valuation) (w : Nat) : (const 0 w).Gives (Part σ · (w, 0)) :=
  (const_gives σ 0 w).mono fun e he => by
    have hpart := he.part
    rwa [BitVec.toNat_ofNat, Nat.zero_mod] at hpart

end Expr

end EvmAudit
