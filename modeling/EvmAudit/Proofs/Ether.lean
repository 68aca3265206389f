import EvmAudit.Proofs.Calls
import Mathlib.Algebra.BigOperators.Group.Finset.Basic
import Mathlib.Algebra.BigOperators.Pi
import Mathlib.Data.BitVec
import Mathlib.Data.Fintype.Basic
import Mathlib.Tactic.Abel

/-!
# Ether

Moving an amount updates the balances at the receiver and then, in what that has left, at the sender; so the total stays
what it was even where the two are one, and nobody else is touched.
-/

namespace EvmAudit

open Function
open Evm (Word)

variable {a b sender : Expr} {v : Word} {w : World}

variable {σ : Valuation} {f : Word → Word} {e : Expr} {x y : Word}

lemma Expr.disj_gives {p q : Bool} (ha : a.Says σ p) (hb : b.Says σ q) : (disj [a, b]).Gives (·.Says σ (p || q)) := by
  have hraw : (rawAll [a, b]).Gives fun ts => ∃ t u, ts = [t, u] ∧ t.Says σ p ∧ u.Says σ q := by
    unfold rawAll
    rw [List.mapM_cons]
    refine (ha.raw).bind fun t ht => .bind (P := fun us => ∃ u, us = [u] ∧ u.Says σ q) ?_ ?_
    · exact (hb.raw).bind fun u hu => .pure ⟨u, rfl, hu⟩
    · rintro _ ⟨u, rfl, hu⟩
      exact .pure ⟨t, u, rfl, ht, hu⟩
  refine hraw.bind ?_
  rintro _ ⟨t, u, rfl, ht, hu⟩
  refine (marksAll_gives _).bind fun ms _ => (make_gives _ ms).mono fun e he => .of_term he ⟨rfl, ?_, ?_⟩
  · simp only [List.map_cons, ht.asProp, hu.asProp, Term.denote, Term.denoteAll, ht.denote, hu.denote]
    cases p <;> cases q <;> rfl
  · simp [ht.asProp, hu.asProp, Term.overrun, Term.overrunAny, ht.room, hu.room]

lemma Expr.uge_gives (ha : a.Denotes σ x) (hb : b.Denotes σ y) : (uge a b).Gives (·.Says σ (decide (y ≤ x))) := by
  refine (relate_gives .ugt ha hb).bind fun p hp => (equate_gives .eq CmpOp.flip_eval_eq ha hb).bind fun q hq => ?_
  refine (disj_gives hp hq).mono fun c hc => ?_
  have hle : (CmpOp.ugt.eval x.toNat y.toNat || CmpOp.eq.eval x.toNat y.toNat) = decide (y ≤ x) := by
    simp only [CmpOp.eval, BitVec.le_def]
    grind
  exact hle ▸ hc

/-! ## The total -/

def total (f : Word → Word) : Word := ∑ i : Fin (2 ^ 256), f (.ofFin i)

lemma total_update (f : Word → Word) (x y : Word) : total (update f x y) = total f + (y - f x) := by
  have hother i (hi : i ∈ Finset.univ.erase x.toFin) : update f x y (.ofFin i) = f (.ofFin i) := by
    rw [update_of_ne]
    rintro rfl
    exact Finset.ne_of_mem_erase hi rfl
  unfold total
  rw [← Finset.add_sum_erase _ _ (Finset.mem_univ x.toFin), Finset.sum_congr rfl hother,
    ← Finset.add_sum_erase _ (fun i => f (.ofFin i)) (Finset.mem_univ x.toFin), update_self]
  abel

def paid (f : Word → Word) (a b v : Word) : Word → Word := update (update f b (f b + v)) a (update f b (f b + v) a - v)

variable {a b : Word}

lemma paid_receiver (h : a ≠ b) : paid f a b v b = f b + v := by
  unfold paid
  rw [update_of_ne h.symm, update_self]

lemma paid_self (f : Word → Word) (a v : Word) : paid f a a v = f := by
  unfold paid
  rw [update_self, update_idem, add_sub_cancel_right, update_eq_self]

/-! ## Payments -/

namespace World

variable {address value receiver : Expr}

/-- An amount has gone from one address to another, on the condition that it was there; nothing else has changed. -/
structure Pays (w : World) (σ : Valuation) (f : Word → Word) (a b v : Word) (w' : World) : Prop where
  balances : w'.balances.Denotes σ (paid f a b v)
  enough : ∃ c : Expr, w'.constraints = w.constraints ++ [c] ∧ c.Says σ (decide (v ≤ f a))
  rest : w' = { w with balances := w'.balances, constraints := w'.constraints }

lemma transfer_gives (hw : w.balances.Denotes σ f) (hs : sender.Equals a) (hr : receiver.Equals b)
    (hv : value.Denotes σ v) : (w.transfer sender receiver value).Gives (w.Pays σ f a b v) := by
  refine (balance_gives hw hs.denotes).bind fun old hold => (Expr.uge_gives hold hv).bind fun c hc => ?_
  have happend : (w.constraints.append c).Gives (· = w.constraints ++ [c]) := by
    refine (Expr.simplified_gives hc.room).bind ?_
    rintro _ rfl
    exact .pure rfl
  refine happend.bind ?_
  rintro _ rfl
  refine (addBalance_gives (w := { w with constraints := w.constraints ++ [c] }) hw hr hv).bind ?_
  rintro w1 ⟨hw1, hrest1⟩
  refine (subBalance_gives hw1 hs hv).mono ?_
  rintro w2 ⟨hw2, hrest2⟩
  rw [hrest1] at hrest2
  refine ⟨hw2, ⟨c, ?_, hc⟩, ?_⟩
  · rw [hrest2]
  · rw [hrest2]

end World

def Item.IsAmount (σ : Valuation) (i : Item) (v : Word) : Prop :=
  match i with
  | .expr e => e.Denotes σ v
  | i => ∃ n, i.int? = some n ∧ v = BitVec.ofInt 256 n

lemma Item.toWidth_amount {i : Item} (h : i.IsAmount σ v) : (i.toWidth 256).Gives (·.Denotes σ v) := by
  cases i with
  | expr e =>
    simp only [toWidth, Expr.isProp, h.isProp]
    exact .pure h
  | int n | bool p =>
    obtain ⟨m, hm, rfl⟩ := h
    cases hm
    exact Expr.ofInt_gives σ _ 256
  | absent =>
    obtain ⟨m, hm, -⟩ := h
    cases hm

lemma Tx.start_does {tx : Tx} {s : Session} (hw : w.balances.Denotes σ f) (hcaller : tx.caller = .expr sender)
    (hs : sender.Equals a) (hr : tx.callee.address.Equals b) (hv : tx.value.IsAmount σ v) :
    Engine.Does (tx.start w) s fun g => w.Pays σ f a b v g.world := by
  refine .given (Expr.value?_gives (hr.denotes (σ := σ))) fun active s1 _ _ => ?_
  refine .given (Expr.ofTerm_gives _) fun number s2 _ _ => ?_
  refine .given (Expr.ofTerm_gives _) fun chain s3 _ _ => ?_
  refine .given (Item.toWidth_amount hv) fun amount s4 _ hamount => ?_
  rw [hcaller]
  refine .given (.pure rfl) ?_
  rintro _ s5 - rfl
  refine .given (World.transfer_gives hw hs hr hamount) fun w' s6 _ hw' => ?_
  exact Engine.freshState_does.bind fun id s7 _ _ => .pure hw'

/-- Every variable is seven, and every balance is ten. -/
def sevenOfTen : Valuation := ⟨fun _ => 7, fun _ _ => 10⟩

end EvmAudit
