import EvmAudit.Path
import EvmAudit.Proofs.Calc

/-!
# Interpretations

An interpretation gives a number to every variable, contents to every array variable and a value to every application of a
function, so that a condition with applied functions is true or false. While conditions are built nothing is settled:
`c.Builds S P` says that a computation succeeds, leaves the settled expressions `S` as they are, and gives what is in `P`.
-/

namespace EvmAudit

open Term

variable {ts : List Term} {t u : Term} {v : Nat} {e : Expr} {l : Ledger}

/-- Numbers for variables, contents for arrays, and values for functions: by name, arguments with their widths, and the
width of the result. -/
structure Interpretation extends Valuation where
  function : String → List (Nat × Nat) → Nat → Nat

instance : Inhabited Interpretation := ⟨⟨default, fun _ _ _ => 0⟩⟩

mutual

/-- The number that a term means when its functions are interpreted. -/
def Term.means (ι : Interpretation) : Term → Nat
  | .const v _ => v
  | .symbol name w => (ι.number name % ((2 ^ w : Nat) : Int)).toNat
  | .arith op a b => op.eval a.width (a.means ι) (b.means ι)
  | .ite c a b => if c.means ι ≠ 0 then a.means ι else b.means ι
  | .extract hi lo e => Term.shiftRight (e.means ι) lo % 2 ^ (hi + 1 - lo)
  | .concat parts => Term.compose (Term.meansAll ι parts) 0
  | .sum parts => (Term.meansAll ι parts).foldl (fun s v => (s + v.2) % 2 ^ Term.headWidth parts) 0
  | .apply name args w => ι.function name (Term.meansAll ι args) w % 2 ^ w
  | .select a i => a.means ι (i.means ι)
  | .truth b => ofBool b
  | .prop name => ofBool (ι.number name != 0)
  | .cmp op a b => Term.ofBool (op.eval (a.means ι) (b.means ι))
  | .conj parts => Term.ofBool ((Term.meansAll ι parts).all (·.2 != 0))
  | .disj parts => Term.ofBool ((Term.meansAll ι parts).any (·.2 != 0))
  | .not e => Term.ofBool (e.means ι == 0)
  | .xor a b => ofBool ((a.means ι != 0) != (b.means ι != 0))

def Term.meansAll (ι : Interpretation) : List Term → List (Nat × Nat)
  | [] => []
  | t :: ts => (t.width, t.means ι) :: Term.meansAll ι ts

def ArrayTerm.means (ι : Interpretation) : ArrayTerm → Nat → Nat
  | .named name _ _ => ι.content name
  | .filled _ _ v => fun _ => v
  | .store base k v => fun i => if k = some i then v.means ι else base.means ι i
  | .choice c a b => fun i => if c.means ι ≠ 0 then a.means ι i else b.means ι i

end

namespace Term

variable {ι : Interpretation}

def IsMet (ι : Interpretation) (t : Term) : Prop := t.means ι ≠ 0

lemma meansAll_eq_map (ts : List Term) : meansAll ι ts = ts.map fun t => (t.width, t.means ι) := by
  induction ts with
  | nil => rfl
  | cons t ts ih => rw [meansAll, ih, List.map_cons]

lemma ofBool_ne_zero_iff {b : Bool} : ofBool b ≠ 0 ↔ b = true := by cases b <;> decide

lemma isMet_conj : (conj ts).IsMet ι ↔ ∀ t ∈ ts, t.IsMet ι := by
  simp [IsMet, means, ofBool_ne_zero_iff, meansAll_eq_map]

lemma isMet_disj : (disj ts).IsMet ι ↔ ∃ t ∈ ts, t.IsMet ι := by
  simp [IsMet, means, ofBool_ne_zero_iff, meansAll_eq_map]

lemma isMet_cmp {op : CmpOp} : (cmp op t u).IsMet ι ↔ op.eval (t.means ι) (u.means ι) = true := by
  rw [IsMet, means, ofBool_ne_zero_iff]

lemma isMet_asProp : t.asProp.IsMet ι ↔ t.IsMet ι := by
  unfold asProp
  split
  · rfl
  · rw [isMet_cmp]
    simp [CmpOp.eval, means, IsMet]

lemma isMet_comparePadded (h : t.width = u.width) : (comparePadded .eq t u).IsMet ι ↔ t.means ι = u.means ι := by
  rw [comparePadded, if_pos h, compare]
  split
  · rw [isMet_cmp]
    exact beq_iff_eq.trans eq_comm
  · rw [isMet_cmp]
    simp [CmpOp.eval]

lemma simplify_const {w : Nat} (h : v < 2 ^ w) : (const v w).simplify = .const v w := by
  simp [simplify, value?, eval, constLike, isProp, width, Nat.mod_eq_of_lt h]

end Term

/-! ## What expressions show -/

abbrev Settled := Std.TreeSet Nat

/-- What an expression shows when these expressions are settled. -/
def Expr.shown (S : Settled) (e : Expr) : Term := if S.contains e.id then e.term.simplify else e.term

/-- Nothing is settled before it is made. -/
def Ledger.IsSound (l : Ledger) : Prop := ∀ i, l.settled.contains i → i < l.next

namespace Expr

variable {ι : Interpretation} {S : Settled}

def means (ι : Interpretation) (S : Settled) (e : Expr) : Nat := (e.shown S).means ι

def IsMet (ι : Interpretation) (S : Settled) (e : Expr) : Prop := (e.shown S).IsMet ι

@[simp] lemma width_shown (S : Settled) (e : Expr) : (e.shown S).width = e.width := by
  unfold shown
  split
  · exact width_simplify _
  · rfl

lemma shown_of_none (h : e.term.value? = none) (S : Settled) : e.shown S = e.term := by
  unfold shown
  split
  · exact simplify_of_none h
  · rfl

lemma shown_const_mono {T : Settled} (h : e.shown S = .const v e.width) (hv : v < 2 ^ e.width)
    (hST : ∀ i, S.contains i → T.contains i) : e.shown T = .const v e.width := by
  unfold shown at h ⊢
  split at h
  · rename_i hs
    rw [if_pos (hST _ hs), h]
  · split
    · rw [h, simplify_const hv]
    · exact h

structure Shows (S : Settled) (e : Expr) (t : Term) : Prop where
  term : e.term = t
  shown : e.shown S = t

lemma shows_new (hl : l.IsSound) (cell : Nat) (t : Term) : Shows l.settled ⟨l.next, cell, t⟩ t := by
  refine ⟨rfl, if_neg fun hs => ?_⟩
  exact absurd (hl _ hs) (Nat.lt_irrefl _)

end Expr

/-! ## Computations that settle nothing -/

namespace Calc

variable {α β : Type} {S : Settled} {c : Calc α} {f : α → Calc β} {P Q : α → Prop} {R : β → Prop}

/-- From every sound ledger with these expressions settled the computation succeeds, with a result of this kind, and
settles no others. -/
def Builds (S : Settled) (c : Calc α) (P : α → Prop) : Prop :=
  ∀ l : Ledger, l.settled = S → l.IsSound → ∃ a l', c l = .ok a l' ∧ l'.settled = S ∧ l'.IsSound ∧ P a

lemma Builds.pure {a : α} (h : P a) : Builds S (Pure.pure a) P := fun l hS hl => ⟨a, l, rfl, hS, hl, h⟩

lemma Builds.bind (hc : Builds S c P) (hf : ∀ a, P a → Builds S (f a) R) : Builds S (c >>= f) R := by
  intro l hS hl
  obtain ⟨a, l', ha, hS', hl', hp⟩ := hc l hS hl
  obtain ⟨b, l'', hb, hS'', hl'', hr⟩ := hf a hp l' hS' hl'
  refine ⟨b, l'', ?_, hS'', hl'', hr⟩
  show EStateM.bind c f l = _
  simp [EStateM.bind, ha, hb]

lemma Builds.mono (hc : Builds S c P) (h : ∀ a, P a → Q a) : Builds S c Q := fun l hS hl =>
  have ⟨a, l', ha, hS', hl', hp⟩ := hc l hS hl
  ⟨a, l', ha, hS', hl', h a hp⟩

lemma Builds.of_run {a : α} {b : β} {l' l'' : Ledger} (hrun : (c >>= f) l = .ok b l'') (hc : c l = .ok a l')
    (hl : l'.IsSound) (hf : Builds l'.settled (f a) R) : l''.settled = l'.settled ∧ l''.IsSound ∧ R b := by
  change EStateM.bind c f l = _ at hrun
  simp only [EStateM.bind, hc] at hrun
  obtain ⟨b', l1, hb, hrest⟩ := hf l' rfl hl
  obtain ⟨rfl, rfl⟩ := EStateM.Result.ok.inj (hb.symm.trans hrun)
  exact hrest

end Calc

namespace Expr

variable {ι : Interpretation} {S : Settled} {a b : Expr}

open Calc (Builds)

lemma raw_builds {α : Type} {f : Term → Calc α} {P : α → Prop} (h : (f (e.shown S)).Builds S P) :
    (e.raw >>= f).Builds S P := by
  rintro l rfl hl
  exact h l rfl hl

lemma marks_builds (e : Expr) : e.marks.Builds S (fun _ => True) := fun l hS hl => ⟨_, l, rfl, hS, hl, trivial⟩

lemma marks2_builds (a b : Expr) : (marks2 a b).Builds S (fun _ => True) :=
  a.marks_builds.bind fun _ _ => b.marks_builds.bind fun _ _ => .pure trivial

lemma marksAll_builds (es : List Expr) : (marksAll es).Builds S (fun _ => True) := fun l hS hl =>
  have ⟨ms, hrun⟩ := marksAll_run es l
  ⟨ms, l, hrun, hS, hl, trivial⟩

lemma rawAll_builds (es : List Expr) : (rawAll es).Builds S (· = es.map (shown S)) := by
  unfold rawAll
  induction es with
  | nil => exact .pure rfl
  | cons e es ih =>
    rw [List.mapM_cons]
    refine raw_builds (ih.bind ?_)
    rintro _ rfl
    exact .pure rfl

lemma make_builds (t : Term) (ms : List Mark) : (make t ms).Builds S (·.Shows S t) := by
  rintro l rfl hl
  unfold make
  split <;> exact ⟨_, _, rfl, rfl, fun i hi => Nat.lt_succ_of_lt (hl i hi), shows_new hl _ t⟩

lemma derive_builds (t : Term) (e : Expr) : (derive t e).Builds S (·.Shows S t) := by
  refine e.marks_builds.bind fun ms _ => ?_
  split
  · exact make_builds t []
  · rintro l rfl hl
    exact ⟨_, _, rfl, rfl, fun i hi => Nat.lt_succ_of_lt (hl i hi), shows_new hl _ t⟩

lemma word_builds (n : Nat) : (word n).Builds S (·.Shows S (.const (n % 2 ^ 256) 256)) :=
  make_builds (.const (n % 2 ^ 256) 256) []

lemma ofInt_builds (n : Int) : (ofInt n 256).Builds S (·.Shows S (Term.ofInt n 256)) := make_builds (.ofInt n 256) []

lemma truth_builds (b : Bool) : (truth b).Builds S (·.Shows S (.truth b)) := make_builds (.truth b) []

lemma apply_builds (name : String) (w : Nat) (e : Expr) :
    (apply name w [e]).Builds S (·.Shows S (.apply name [e.shown S] w)) := by
  refine (rawAll_builds [e]).bind ?_
  rintro _ rfl
  exact (marksAll_builds _).bind fun ms _ => make_builds _ ms

section

variable (ι : Interpretation)

lemma conj_builds (es : List Expr) : (conj es).Builds S fun e => e.IsMet ι S ↔ ∀ a ∈ es, a.IsMet ι S := by
  refine (rawAll_builds es).bind ?_
  rintro _ rfl
  refine (marksAll_builds _).bind fun ms _ => (make_builds _ ms).mono fun e he => ?_
  rw [IsMet, he.shown, isMet_conj]
  simp [isMet_asProp, IsMet]

lemma or_builds (a b : Expr) : (disj [a, b]).Builds S fun e => e.IsMet ι S ↔ a.IsMet ι S ∨ b.IsMet ι S := by
  refine (rawAll_builds [a, b]).bind ?_
  rintro _ rfl
  refine (marksAll_builds _).bind fun ms _ => (make_builds _ ms).mono fun e he => ?_
  rw [IsMet, he.shown, isMet_disj]
  simp [isMet_asProp, IsMet]

lemma and_builds (a b : Expr) : (conj [a, b]).Builds S fun e => e.IsMet ι S ↔ a.IsMet ι S ∧ b.IsMet ι S :=
  (conj_builds ι [a, b]).mono fun e he => by simpa using he

lemma eq_builds (ha : a.isProp = false) (hb : b.isProp = false) (hw : a.width = b.width) :
    (eq a b).Builds S fun e => e.IsMet ι S ↔ a.means ι S = b.means ι S := by
  unfold eq equate
  simp only [ha, hb]
  refine raw_builds (raw_builds ?_)
  refine (marks2_builds a b).bind fun ms _ => (make_builds _ ms).mono fun e he => ?_
  rw [IsMet, he.shown, isMet_comparePadded (by simp [hw])]
  rfl

lemma ult_builds (ha : a.isProp = false) (hb : b.isProp = false) :
    (ult a b).Builds S fun e => e.IsMet ι S ↔ a.means ι S < b.means ι S := by
  unfold ult relate
  simp only [ha, hb]
  refine raw_builds (raw_builds ?_)
  refine (marks2_builds a b).bind fun ms _ => (make_builds _ ms).mono fun e he => ?_
  rw [IsMet, he.shown, isMet_cmp]
  exact decide_eq_true_iff

lemma ule_builds (ha : a.isProp = false) (hb : b.isProp = false) (hw : a.width = b.width) :
    (ule a b).Builds S fun e => e.IsMet ι S ↔ a.means ι S ≤ b.means ι S := by
  refine (ult_builds ι ha hb).bind fun lt hlt => (eq_builds ι ha hb hw).bind fun eq heq => ?_
  refine (or_builds ι lt eq).mono fun e he => ?_
  rw [he, hlt, heq, Nat.le_iff_lt_or_eq]

end

lemma urem_eqInt_builds (ha : a.isProp = false) (hb : b.isProp = false) :
    (do eqInt (← urem a b) 0).Builds S fun _ => True := by
  unfold urem arith
  simp only [ha, hb]
  have hrem : (do make (.arith .urem (← a.raw) (← b.raw)) (← marks2 a b)).Builds S
      (·.Shows S (.arith .urem (a.shown S) (b.shown S))) :=
    raw_builds (raw_builds ((marks2_builds a b).bind fun ms _ => make_builds _ ms))
  refine hrem.bind fun r hr => ?_
  have hp : r.isProp = false := by rw [isProp, hr.term]; rfl
  unfold eqInt equateInt
  simp only [hp]
  exact raw_builds ((derive_builds _ _).mono fun _ _ => trivial)

end Expr
end EvmAudit
