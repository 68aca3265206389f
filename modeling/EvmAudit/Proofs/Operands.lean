import EvmAudit.Proofs.Calc
import EvmAudit.Proofs.Evm
import EvmAudit.World.Basic
import Mathlib.Logic.Function.Basic

/-!
# Operands and stacks

What stands on a stack means a word: an expression by its own meaning, a condition as one or zero, an integer reduced to
256 bits. Once pushed it is an expression, so a stack of expressions means a list of words.
-/

namespace EvmAudit

open Item
open Evm (Word)

variable {i : Item} {a b : Expr} {w k : Nat}

def Item.IsWord (σ : Valuation) (i : Item) (x : Word) : Prop := ∃ e, i = .expr e ∧ e.Denotes σ x

def Item.Means (σ : Valuation) (i : Item) (x : Word) : Prop :=
  match i with
  | .expr e => e.Denotes σ x ∨ ∃ b, e.Says σ b ∧ x = Evm.ofBool b
  | i => ∃ n, i.int? = some n ∧ x = BitVec.ofInt 256 n

def Stack.Words (σ : Valuation) (st : Stack) (ws : List Word) : Prop := List.Forall₂ (Item.IsWord σ) st ws

variable {σ : Valuation} {e : Expr} {x y : Word} {ws : List Word} {st : Stack}

/-- A number as it stands on a stack. -/
def Expr.literal (n : Nat) : Expr := ⟨0, 0, .const n 256⟩

lemma Item.IsWord.means (h : i.IsWord σ x) : i.Means σ x := by
  obtain ⟨e, rfl, he⟩ := h
  exact .inl he

lemma Stack.toWord_gives (h : i.Means σ x) : (toWord i).Gives (·.IsWord σ x) := by
  cases i with
  | expr e =>
    rcases h with h | ⟨b, hb, rfl⟩
    · have hp : e.isProp = false := h.isProp
      simp only [toWord, hp]
      exact .pure ⟨e, rfl, h⟩
    · simp only [toWord, Expr.isProp, hb.isProp]
      exact (Expr.bit_gives hb).bind fun e' he' => .pure ⟨e', rfl, he'⟩
  | int n | bool b =>
    obtain ⟨m, hm, rfl⟩ := h
    simp only [toWord, hm]
    exact (Expr.ofInt_gives σ m 256).bind fun e he => .pure ⟨e, rfl, he⟩
  | absent =>
    obtain ⟨m, hm, _⟩ := h
    cases hm

/-! ## Operations on operands -/

lemma Item.bitwise_gives (op : ArithOp) (ha : a.Denotes σ x) (hb : b.Denotes σ y) (hroom : op.HasRoom x y := by rintro ⟨⟩) :
    (bitwise op (.expr a) (.expr b)).Gives (·.Denotes σ (op.onWords x y)) := by
  simp only [bitwise, toWidth, Expr.isProp, ha.isProp, hb.isProp]
  exact Expr.arith_gives op ha hb hroom

lemma Item.choose_gives {c : Expr} {p : Bool} (hc : c.Says σ p) (ha : a.Denotes σ x) (hb : b.Denotes σ y) :
    (choose (.expr c) (.expr a) (.expr b)).Gives (·.Denotes σ (if p then x else y)) := by
  simp only [choose, toProp, toWidth, Expr.isProp, hc.isProp, ha.isProp, hb.isProp]
  exact Expr.ite_gives hc ha hb

lemma Item.order_gives (op : CmpOp) (hop : ∀ m n, op.flip.eval n m = op.eval m n) (n : Int) (ha : a.Denotes σ x) :
    (order op (.expr a) (.int n)).Gives (·.Says σ (op.eval x.toNat (BitVec.ofInt 256 n).toNat)) := by
  simp only [order, Expr.isProp, ha.isProp]
  exact Expr.compareInt_gives op hop n ha

lemma Item.number?_of_denotes {x : BitVec w} (he : e.Denotes σ x) :
    (number? (.expr e)).Gives (fun r => r = none ∨ r = some (x.toNat : Int)) := by
  simp only [number?, Expr.isProp, he.isProp]
  refine (Expr.value?_gives he).bind fun r hr => .pure ?_
  rw [hr]
  cases hv : e.term.value? with
  | none => exact .inl rfl
  | some n => exact .inr (by rw [he.eq_of_value? hv]; rfl)

lemma Item.number?_gives {x : BitVec w} (he : e.Equals x) : (number? (.expr e)).Gives (· = some (x.toNat : Int)) := by
  simp only [number?, Expr.isProp, he.isProp]
  refine he.value?_gives.bind ?_
  rintro _ rfl
  exact .pure rfl

/-! ## Stacks of words -/

lemma Stack.Words.uncons (h : Words σ st (x :: ws)) :
    ∃ e st', st = .expr e :: st' ∧ e.Denotes σ x ∧ Words σ st' ws := by
  cases h with
  | cons hi hst =>
    obtain ⟨e, rfl, he⟩ := hi
    exact ⟨e, _, rfl, he, hst⟩

lemma Stack.Words.getElem? (h : Words σ st ws) (hx : ws[k]? = some x) : ∃ i, st[k]? = some i ∧ i.IsWord σ x := by
  induction h generalizing k with
  | nil => simp at hx
  | cons hi _ ih =>
    cases k with
    | zero =>
      simp only [List.getElem?_cons_zero, Option.some.injEq] at hx
      exact ⟨_, rfl, hx ▸ hi⟩
    | succ k => exact ih hx

lemma Stack.Words.set (h : Words σ st ws) (hi : i.IsWord σ x) : Words σ (st.set k i) (ws.set k x) := by
  induction h generalizing k with
  | nil => exact .nil
  | cons hj hst ih =>
    cases k with
    | zero => exact .cons hi hst
    | succ k => exact .cons hj ih

lemma Stack.item_gives (h : st[k]? = some i) : (item st (-((k + 1 : Nat) : Int))).Gives (· = i) := by
  have hk := (getElem?_eq_some_iff.1 h).1
  have hpos : st.position? (-((k + 1 : Nat) : Int)) = some k := by
    unfold position?
    rw [if_neg (by omega), if_pos (by omega)]
    congr 1
  simp only [item, hpos, Option.bind_some, h]
  exact .pure rfl

/-!
# Balances

Under a valuation the balances of a world are a function from addresses to words. Setting a balance updates that function
at an address that is known.
-/

open Function

variable {arr : ArrayTerm} {f : Word → Word} {k : Expr}

/-! ## Arrays of words -/

structure ArrayTerm.Denotes (σ : Valuation) (a : ArrayTerm) (f : Word → Word) : Prop where
  range : a.range = 256
  denote : ∀ x : Word, a.denote σ x.toNat = (f x).toNat

lemma ArrayTerm.Denotes.unique {f' : Word → Word} (h : arr.Denotes σ f) (h' : arr.Denotes σ f') : f' = f := by
  funext x
  exact BitVec.eq_of_toNat_eq ((h'.denote x).symm.trans (h.denote x))

lemma Expr.select_gives (ha : arr.Denotes σ f) (hk : k.Denotes σ x) : (select arr k).Gives (·.Denotes σ (f x)) := by
  refine (hk.raw).bind fun t ht => (ofTerm_gives _).mono fun e he => .of_term he ⟨rfl, ha.range, ?_, ht.1.room⟩
  rw [Term.denote, ht.1.denote, ha.denote]

lemma Expr.store_gives (ha : arr.Denotes σ f) (hk : k.Equals x) (he : e.Denotes σ y) :
    (store arr k e).Gives (·.Denotes σ (update f x y)) := by
  refine hk.raw.bind fun t ht => (evaluate_gives ht.room).bind fun v hv => he.raw.bind fun u hu => ?_
  refine .pure ⟨ha.range, fun z => ?_⟩
  simp only [ArrayTerm.denote, hv, ht.value?]
  by_cases hz : z = x
  · subst hz
    rw [if_pos rfl, hu.1.denote, update_self]
  · have hne : some x.toNat ≠ some z.toNat := by
      intro h
      exact hz (BitVec.eq_of_toNat_eq (Option.some.inj h)).symm
    rw [if_neg hne, ha.denote, update_of_ne hz]

/-! ## The balances of a world -/

namespace World

variable {w : World} {address value : Expr} {v : Word}

lemma balance_gives (hw : w.balances.Denotes σ f) (ha : address.Denotes σ x) :
    (w.balance address).Gives (·.Denotes σ (f x)) :=
  Expr.select_gives hw ha

def Holds (w : World) (σ : Valuation) (f : Word → Word) (w' : World) : Prop :=
  w'.balances.Denotes σ f ∧ w' = { w with balances := w'.balances }

section

variable (hw : w.balances.Denotes σ f) (ha : address.Equals x)
include hw ha

lemma setBalance_gives (hv : value.Denotes σ y) : (w.setBalance address value).Gives (w.Holds σ (update f x y)) :=
  (Expr.store_gives hw ha hv).bind fun _ h => .pure ⟨h, rfl⟩

lemma addBalance_gives (hv : value.Denotes σ v) :
    (w.addBalance address value).Gives (w.Holds σ (update f x (f x + v))) :=
  (balance_gives hw ha.denotes).bind fun _ hold => (Expr.arith_gives .add hold hv).bind fun _ h => setBalance_gives hw ha h

lemma subBalance_gives (hv : value.Denotes σ v) :
    (w.subBalance address value).Gives (w.Holds σ (update f x (f x - v))) :=
  (balance_gives hw ha.denotes).bind fun _ hold => (Expr.arith_gives .sub hold hv).bind fun _ h => setBalance_gives hw ha h

end

end World
end EvmAudit
