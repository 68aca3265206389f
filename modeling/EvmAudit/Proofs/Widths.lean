import EvmAudit.Proofs.Calm

/-!
# Widths

The width of what an operation gives follows from the widths of its operands, whatever the ledger shows of them: an
expression that is replaced by its value keeps its width. So operations on words give words, a choice between bytes is a
byte, and a concatenation is as wide as its parts together. A relation gives a Boolean, which becomes a word where it is
pushed.
-/

namespace EvmAudit

open EvmAudit.Expr Term

variable {α β : Type} {w : Nat}

namespace Calc

variable {c : Calc α} {f : α → Calc β} {R : β → Prop}

lemma Yields.mapM {xs : List α} (h : ∀ a ∈ xs, (f a).Yields R) :
    (xs.mapM f).Yields fun bs => bs.length = xs.length ∧ ∀ b ∈ bs, R b := by
  induction xs with
  | nil => exact .pure ⟨rfl, List.forall_mem_nil _⟩
  | cons a xs ih =>
    rw [List.mapM_cons]
    refine (h a (by simp)).bind fun b hb => (ih fun a ha => h a (by simp [ha])).bind fun bs hbs => .pure ?_
    exact ⟨congrArg Nat.succ hbs.1, List.forall_mem_cons.2 ⟨hb, hbs.2⟩⟩

end Calc

/-! ## Expressions -/

structure Term.IsBits (w : Nat) (t : Term) : Prop where
  isProp : t.isProp = false
  width : t.width = w

lemma Term.IsBits.simplify {t : Term} (h : t.IsBits w) : t.simplify.IsBits w :=
  ⟨by rw [isProp_simplify, h.isProp], by rw [width_simplify, h.width]⟩

def Expr.IsBits (w : Nat) (e : Expr) : Prop := e.term.IsBits w

namespace Expr

variable {a b e : Expr} {t : Term}

lemma IsBits.of_term (h : e.term = t) (ht : t.IsBits w) : e.IsBits w := by
  unfold IsBits
  rwa [h]

lemma IsBits.not_isProp (h : e.IsBits w) : e.isProp = false := h.isProp

lemma IsBits.width_eq (h : e.IsBits w) : e.width = w := h.width

lemma IsBits.raw (h : e.IsBits w) : e.raw.Yields (Term.IsBits w) := by
  refine e.raw_gives.yields.mono ?_
  rintro t (rfl | rfl)
  · exact h
  · exact h.simplify

lemma raw_width (e : Expr) : e.raw.Yields (·.width = e.width) := by
  refine e.raw_gives.yields.mono ?_
  rintro t (rfl | rfl)
  · rfl
  · exact width_simplify _

lemma make_isBits (ms : List Mark) (h : t.IsBits w) : (make t ms).Yields (IsBits w) :=
  (make_gives t ms).yields.mono fun _ he => .of_term he h

lemma derive_isBits (h : t.IsBits w) : (derive t e).Yields (IsBits w) :=
  (derive_gives t e).yields.mono fun _ he => .of_term he h

lemma make_isProp (ms : List Mark) (h : t.isProp = true) : (make t ms).Yields (·.isProp = true) :=
  (make_gives t ms).yields.mono fun e he => by rw [isProp, he, h]

lemma derive_isProp (h : t.isProp = true) : (derive t e).Yields (·.isProp = true) :=
  (derive_gives t e).yields.mono fun e he => by rw [isProp, he, h]

lemma const_isBits (n w : Nat) : (const n w).Yields (IsBits w) := make_isBits [] ⟨rfl, rfl⟩

lemma ofInt_isBits (n : Int) (w : Nat) : (ofInt n w).Yields (IsBits w) := make_isBits [] ⟨rfl, rfl⟩

lemma word_isBits (n : Nat) : (word n).Yields (IsBits 256) := const_isBits n 256

lemma symbol_isBits (name : String) (w : Nat) : (symbol name w).Yields (IsBits w) := make_isBits [] ⟨rfl, rfl⟩

lemma simplified_isBits (h : e.IsBits w) : e.simplified.Yields (IsBits w) :=
  e.simplified_yields.mono fun _ he => he ▸ h

lemma arith_isBits (op : ArithOp) (b : Expr) (ha : a.IsBits w) : (arith op a b).Yields (IsBits w) := by
  unfold arith
  split
  · exact .throw _
  · exact ha.raw.bind fun t ht => .next fun u => .next fun ms => make_isBits ms ⟨rfl, ht.width⟩

lemma arithInt_isBits (op : ArithOp) (n : Int) (ha : a.IsBits w) : (arithInt op a n).Yields (IsBits w) := by
  unfold arithInt
  split
  · exact .throw _
  · exact ha.raw.bind fun t ht => derive_isBits ⟨rfl, ht.width⟩

lemma ite_isBits (c b : Expr) (ha : a.IsBits w) : (ite c a b).Yields (IsBits w) := by
  unfold ite
  split
  · exact .throw _
  · exact .next fun ms => .next fun u => ha.raw.bind fun t ht => .next fun v => make_isBits ms ⟨rfl, ht.width⟩

lemma bit_isBits (c : Expr) : (bit c).Yields (IsBits 256) :=
  (word_isBits 1).bind fun _ ha => .next fun b => ite_isBits c b ha

lemma rawAll_widthSum (es : List Expr) : (rawAll es).Yields (widthSum · = widthSum (es.map term)) := by
  unfold rawAll
  induction es with
  | nil => exact .pure rfl
  | cons e es ih =>
    rw [List.mapM_cons]
    refine e.raw_width.bind fun t ht => ih.bind fun ts hts => .pure ?_
    rw [widthSum, ht, hts]
    rfl

lemma concat_isBits (es : List Expr) : (concat es).Yields (IsBits (widthSum (es.map term))) :=
  (rawAll_widthSum es).bind fun _ hts => .next fun ms => make_isBits ms ⟨rfl, hts⟩

lemma concat_pair_isBits {m n : Nat} (ha : a.IsBits m) (hb : b.IsBits n) : (concat [a, b]).Yields (IsBits (m + n)) := by
  have hsum : widthSum ([a, b].map term) = m + n := by
    show a.width + (b.width + 0) = m + n
    rw [ha.width_eq, hb.width_eq, Nat.add_zero]
  exact hsum ▸ concat_isBits [a, b]

lemma concat_isBits_of_forall {es : List Expr} (h : ∀ e ∈ es, e.IsBits w) :
    (concat es).Yields (IsBits (es.length * w)) := by
  have hsum : widthSum (es.map term) = es.length * w := by
    induction es with
    | nil => exact (Nat.zero_mul w).symm
    | cons e es ih =>
      obtain ⟨he, hes⟩ := List.forall_mem_cons.1 h
      show e.width + widthSum (es.map term) = _
      rw [he.width_eq, ih hes, List.length_cons, Nat.succ_mul, Nat.add_comm]
  exact hsum ▸ concat_isBits es

lemma extract_isBits (hi lo : Nat) (e : Expr) : (extract hi lo e).Yields (IsBits (hi + 1 - lo)) :=
  .next fun _ => derive_isBits ⟨rfl, rfl⟩

lemma apply_isBits (name : String) (w : Nat) (args : List Expr) : (apply name w args).Yields (IsBits w) :=
  .next fun _ => .next fun ms => make_isBits ms ⟨rfl, rfl⟩

lemma select_isBits (array : ArrayTerm) (index : Expr) : (select array index).Yields (IsBits array.range) :=
  .next fun _ => make_isBits [] ⟨rfl, rfl⟩

lemma store_range (array : ArrayTerm) (key value : Expr) : (store array key value).Yields (·.range = array.range) :=
  .next fun _ => .next fun _ => .next fun _ => .pure rfl

/-! ### Relations -/

variable (op : CmpOp) (a b : Expr)

lemma isProp_compare (t u : Term) : (Term.compare op t u).isProp = true := by
  unfold Term.compare
  split <;> rfl

lemma isProp_comparePadded (t u : Term) : (comparePadded op t u).isProp = true := by
  unfold comparePadded
  split
  · exact isProp_compare _ _ _
  · split <;> exact isProp_compare _ _ _

lemma relate_isProp : (relate op a b).Yields (·.isProp = true) := by
  unfold relate
  split
  · exact .throw _
  · exact .next fun _ => .next fun _ => .next fun ms => make_isProp ms rfl

lemma compare_isProp : (compare op a b).Yields (·.isProp = true) := by
  unfold compare
  split
  · exact .throw _
  · exact .next fun _ => .next fun _ => .next fun ms => make_isProp ms (isProp_compare _ _ _)

lemma equate_isProp : (equate op a b).Yields (·.isProp = true) := by
  unfold equate
  split
  · exact .next fun _ => .next fun _ => .next fun ms => make_isProp ms rfl
  · split
    · exact .throw _
    · exact .next fun _ => .next fun _ => .next fun ms => make_isProp ms (isProp_comparePadded _ _ _)

lemma equateInt_isProp (n : Int) : (equateInt op a n).Yields (·.isProp = true) := by
  unfold equateInt
  split <;> exact .next fun _ => derive_isProp rfl

end Expr

/-! ## Operands -/

namespace Item

def IsBits (w : Nat) : Item → Prop
  | .expr e => e.IsBits w
  | _ => False

/-- Where a bit-vector is wanted, the item has this width: another expression among such items is a Boolean. -/
def Fits (w : Nat) : Item → Prop
  | .expr e => e.isProp = true ∨ e.IsBits w
  | _ => True

def Pushable : Item → Prop
  | .expr e => e.isProp = true ∨ e.IsBits 256
  | .absent => False
  | _ => True

/-- The item may be written to memory, which takes no other integers than bytes. -/
def Writable : Item → Prop
  | .expr e => e.IsBits 8
  | .int _ => True
  | _ => False

abbrev AreWritable (items : List Item) : Prop := ∀ i ∈ items, i.Writable

/-- The item is the content of a cell: a bit-vector of eight bits, or an integer that is a byte. -/
def IsCell : Item → Prop
  | .expr e => e.IsBits 8
  | .int n => 0 ≤ n ∧ n ≤ 255
  | _ => False

variable {a b i : Item}

lemma IsBits.exists (h : i.IsBits w) : ∃ e, i = .expr e ∧ e.IsBits w := by
  cases i with
  | expr e => exact ⟨e, rfl, h⟩
  | _ => exact h.elim

lemma IsBits.fits (h : i.IsBits w) : i.Fits w := by
  obtain ⟨e, rfl, he⟩ := h.exists
  exact .inr he

lemma IsBits.pushable (h : i.IsBits 256) : i.Pushable := by
  obtain ⟨e, rfl, he⟩ := h.exists
  exact .inr he

lemma IsBits.writable (h : i.IsBits 8) : i.Writable := by
  obtain ⟨e, rfl, he⟩ := h.exists
  exact he

lemma Pushable.fits (h : i.Pushable) : i.Fits 256 := by
  cases i with
  | expr e => exact h
  | _ => trivial

lemma Writable.fits (h : i.Writable) : i.Fits 8 := by
  cases i with
  | expr e => exact .inr h
  | _ => trivial

lemma IsCell.writable (h : i.IsCell) : i.Writable := by
  cases i with
  | expr e => exact h
  | int n => trivial
  | _ => exact h.elim

lemma toWidth_isBits (h : i.Fits w) : (i.toWidth w).Yields (Expr.IsBits w) := by
  cases i with
  | expr e =>
    simp only [toWidth]
    split
    · exact .throw _
    · rename_i hp
      exact .pure (h.resolve_left hp)
  | int n => exact ofInt_isBits n w
  | bool b => exact ofInt_isBits _ w
  | absent => exact .throw _

lemma expr!_isBits (h : i.IsBits w) : i.expr!.Yields (Expr.IsBits w) := by
  obtain ⟨e, rfl, he⟩ := h.exists
  exact .pure he

lemma plus_isBits (op : ArithOp) (b : Item) (ha : a.IsBits w) : (plus op a b).Yields (Expr.IsBits w) := by
  obtain ⟨x, rfl, hx⟩ := ha.exists
  simp only [plus, hx.not_isProp, Bool.false_eq_true, if_false]
  split
  · exact arith_isBits op _ hx
  · split
    · exact arithInt_isBits op _ hx
    · exact .throw _

lemma bitwise_isBits (op : ArithOp) (b : Item) (ha : a.IsBits w) : (bitwise op a b).Yields (Expr.IsBits w) := by
  obtain ⟨x, rfl, hx⟩ := ha.exists
  simp only [bitwise, hx.not_isProp]
  exact .next fun y => arith_isBits op y hx

lemma equate_isProp (op : CmpOp) (a b : Item) : (equate op a b).Yields (·.isProp = true) := by
  have hplain e plain : (equatePlain op e plain).Yields (·.isProp = true) := by
    unfold equatePlain
    split
    · exact equateInt_isProp _ _ _
    · split
      · exact equateInt_isProp _ _ _
      · exact .throw _
  unfold equate
  split
  · exact Expr.equate_isProp _ _ _
  · exact hplain _ _
  · exact hplain _ _
  · exact .throw _

lemma choose_isBits_left (cond b : Item) (ha : a.IsBits w) : (choose cond a b).Yields (Expr.IsBits w) := by
  obtain ⟨e, rfl, he⟩ := ha.exists
  have hfirst w' : (toWidth w' (.expr e)).Yields (Expr.IsBits w) := by
    simp only [toWidth, he.not_isProp]
    exact .pure he
  exact .next fun c => (hfirst _).bind fun x hx => .next fun y => ite_isBits c y hx

lemma choose_isBits_right (cond : Item) (ha : a.Fits w) (hb : b.IsBits w) : (choose cond a b).Yields (Expr.IsBits w) := by
  obtain ⟨e, rfl, he⟩ := hb.exists
  unfold choose
  simp only [he.not_isProp, he.width_eq]
  exact .next fun c => (toWidth_isBits ha).bind fun x hx => .next fun y => ite_isBits c y hx

lemma settledWord_isBits (h : i.IsBits 256) : i.settledWord.Yields (Expr.IsBits 256) := by
  obtain ⟨e, rfl, he⟩ := h.exists
  simp only [settledWord, he.not_isProp]
  exact simplified_isBits he

end Item

lemma Stack.toWord_isBits {i : Item} (h : i.Pushable) : (toWord i).Yields (Item.IsBits 256) := by
  cases i with
  | expr e =>
    simp only [toWord]
    split
    · exact (bit_isBits e).bind fun _ he => .pure he
    · rename_i hp
      exact .pure (h.resolve_left hp)
  | int n => exact (ofInt_isBits n 256).bind fun _ he => .pure he
  | bool b => exact (ofInt_isBits _ 256).bind fun _ he => .pure he
  | absent => exact h.elim

lemma Hashes.create_isBits (h : Hashes) (data : Expr) :
    (h.create data).Yields fun r => ∀ e, r.2 = .ok e → e.IsBits 256 := by
  refine .next fun v => ?_
  split
  · split
    · exact .pure nofun
    · refine (word_isBits _).bind fun e he => .next fun _ => .pure ?_
      rintro _ ⟨⟩
      exact he
  · refine .next fun _ => (apply_isBits _ 256 _).bind fun e he => .pure ?_
    rintro _ ⟨⟩
    exact he

lemma Power.create_isBits (base exponent : Expr) : (create base exponent).Yields fun r => r.1.IsBits 256 := by
  simp only [create]
  refine (apply_isBits _ 256 _).bind fun power hpower => .next fun n => ?_
  cases n
  all_goals
    refine .next fun b => ?_
    split
    · exact .next fun ms => (make_isBits ms ⟨rfl, rfl⟩).bind fun value hvalue => .next fun _ => .pure hvalue
    · refine .next fun _ => .next fun _ => .next fun _ => .next fun v => ?_
      split
      · exact .next fun _ => .next fun _ => .next fun _ => .next fun _ => .next fun _ => .next fun _ => .pure hpower
      · exact .pure hpower

end EvmAudit
