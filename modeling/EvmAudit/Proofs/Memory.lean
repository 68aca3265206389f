import EvmAudit.Proofs.Operands

/-!
# Memory at known indexes

At indexes that have a value, memory is a map from numbers to bytes: what is read is what was written last, a word is
read and written as its 32 bytes, most significant first, and growing costs what the machine asks for.
-/

namespace EvmAudit

open List EvmAudit.Expr Evm
open Calc (Gives)

variable {i content start stop : Item} {b : BitVec 8} {a n size k : Nat} {bs : List (BitVec 8)} {items : List Item}

variable {σ : Valuation} {m : Memory} {f : Nat → BitVec 8} {e : Expr} {x y : Word}

lemma ofInt_toNat (b : BitVec k) : BitVec.ofInt k b.toNat = b := by
  rw [BitVec.ofInt_natCast, BitVec.ofNat_toNat, BitVec.setWidth_eq]

def Item.IsByte (σ : Valuation) (i : Item) (b : BitVec 8) : Prop :=
  match i with
  | .expr e => e.Denotes σ b
  | .int n => n = b.toNat
  | _ => False

lemma Item.IsByte.isByte (h : i.IsByte σ b) : Memory.isByte i = true := by
  cases i with
  | expr e =>
    have hw : e.width = 8 := h.width
    simp [Memory.isByte, hw]
  | int n =>
    have hn : n = b.toNat := h
    simp only [Memory.isByte, int?, Bool.and_eq_true, decide_eq_true_eq]
    omega
  | bool _ | absent => exact h.elim

/-- The item names an index: an expression by its value, a plain number reduced to 256 bits. -/
def Item.Indexes (i : Item) (x : Word) : Prop :=
  match i with
  | .expr e => e.Equals x
  | i => ∃ n, i.int? = some n ∧ x = BitVec.ofInt 256 n

lemma Item.Indexes.toWidth (h : i.Indexes x) : (i.toWidth 256).Gives (·.Equals x) := by
  cases i with
  | expr e =>
    simp only [toWidth, isProp, h.isProp]
    exact .pure h
  | int n | bool b =>
    obtain ⟨_, hn, rfl⟩ := h
    simp only [toWidth, hn]
    exact ofInt_equals _ _
  | absent =>
    obtain ⟨_, hn, _⟩ := h
    cases hn

namespace Memory

def cell (m : Memory) (a : Nat) : Item := (m.cells.get? a).getD (.int 0)

def Holds (σ : Valuation) (m : Memory) (f : Nat → BitVec 8) : Prop := ∀ a, (m.cell a).IsByte σ (f a)

lemma holds_empty (size : Nat) : Holds σ { size := size } (fun _ => 0) := by
  intro a
  show Item.IsByte σ (((∅ : Std.TreeMap Nat Item).get? a).getD (.int 0)) 0
  simp [Item.IsByte]

lemma Holds.insert (h : m.Holds σ f) (hb : content.IsByte σ b) :
    Holds σ { m with cells := m.cells.insert a content } (writeByte f a b) := by
  intro i
  unfold writeByte cell
  by_cases hi : i = a
  · subst hi
    simpa using hb
  · have hne : ¬ a = i := fun h => hi h.symm
    have hold : Item.IsByte σ ((m.cells.get? i).getD (.int 0)) (f i) := h i
    simpa [Std.TreeMap.getElem?_insert, hi, hne] using hold

lemma toIndex_bind {α : Type} {k : Expr → Term → Calc α} {P : α → Prop} (h : i.Indexes x)
    (hk : ∀ e, (k e (.const x.toNat 256)).Gives P) : (toIndex i >>= fun e => e.raw >>= k e).Gives P := by
  rw [toIndex, bind_assoc]
  refine h.toWidth.bind fun e he l => ?_
  obtain ⟨l', hs, ht⟩ := he.settle_run l
  have hsimplified : e.simplified l = .ok e l' := by
    show EStateM.bind e.settle _ l = _
    simp only [EStateM.bind, hs]
    rfl
  have hraw : e.raw l' = .ok (.const x.toNat 256) l' := by
    rw [← ht]
    rfl
  obtain ⟨a, l'', ha, hp⟩ := hk e l'
  refine ⟨a, l'', ?_, hp⟩
  show EStateM.bind _ _ l = _
  simp only [EStateM.bind, hsimplified]
  show EStateM.bind _ _ l' = _
  simp [EStateM.bind, hraw, ha]

lemma get_gives (h : i.Indexes x) : (m.get i).Gives (· = m.cell x.toNat) := toIndex_bind h fun _ => .pure rfl

/-! ## Bytes from an index on -/

/-- Bytes are written from an index on. A place takes the byte at its distance from the index, which is counted in
256 bits; what is outside of memory stays as it is. -/
def put (size : Nat) (f : Nat → BitVec 8) (x : Word) (bs : List (BitVec 8)) (a : Nat) : BitVec 8 :=
  if a < size then bs[(BitVec.ofNat 256 a - x).toNat]?.getD (f a) else f a

lemma toNat_distance (x : Word) (ha : a < 2 ^ 256) :
    (BitVec.ofNat 256 a - x).toNat = if x.toNat ≤ a then a - x.toNat else 2 ^ 256 + a - x.toNat := by
  rw [BitVec.toNat_sub, BitVec.toNat_ofNat]
  split <;> omega

lemma toNat_add_ofNat (x : Word) (h : x.toNat + n < 2 ^ 256) : (x + BitVec.ofNat 256 n).toNat = x.toNat + n := by
  rw [BitVec.toNat_add, BitVec.toNat_ofNat]
  omega

lemma toNat_distance_add (x : Word) (a : Nat) (hn : n ≤ 2 ^ 256) :
    (BitVec.ofNat 256 a - (x + BitVec.ofNat 256 n)).toNat =
      if n ≤ (BitVec.ofNat 256 a - x).toNat then (BitVec.ofNat 256 a - x).toNat - n
      else (BitVec.ofNat 256 a - x).toNat + 2 ^ 256 - n := by
  rw [← BitVec.sub_sub, BitVec.toNat_sub]
  rw [BitVec.toNat_ofNat]
  split <;> omega

lemma put_nil (size : Nat) (f : Nat → BitVec 8) (x : Word) : put size f x [] = f := by
  funext a
  rw [put, getElem?_nil, Option.getD_none, ite_self]

/-- What is written in two parts, in either order, as long as the second part does not come round to the first. -/
lemma put_append (size : Nat) (bs bs' : List (BitVec 8)) (hlen : bs.length + bs'.length ≤ 2 ^ 256) :
    put size (put size f x bs) (x + BitVec.ofNat 256 bs.length) bs' = put size f x (bs ++ bs') ∧
      put size (put size f (x + BitVec.ofNat 256 bs.length) bs') x bs = put size f x (bs ++ bs') := by
  refine ⟨funext fun a => ?_, funext fun a => ?_⟩ <;>
  · unfold put
    split
    · rw [toNat_distance_add x a (by omega)]
      split
      · rename_i hle
        rw [getElem?_append_right hle, getElem?_eq_none hle, Option.getD_none]
      · rw [getElem?_append_left (by omega), getElem?_eq_none (l := bs') (by omega), Option.getD_none]
    · rfl

lemma put_singleton (hsize : size < 2 ^ 63) (f : Nat → BitVec 8) (x : Word) (b : BitVec 8) :
    put size f x [b] = if x.toNat < size then writeByte f x.toNat b else f := by
  funext a
  by_cases ha : a = x.toNat
  · subst ha
    unfold put
    split <;> simp [writeByte]
  have hsame : put size f x [b] a = f a := by
    unfold put
    split
    · rw [getElem?_eq_none, Option.getD_none]
      rw [toNat_distance x (by omega), length_singleton]
      split <;> omega
    · rfl
  rw [hsame]
  split
  · exact (if_neg ha).symm
  · rfl

lemma set_gives (hsize : m.size < 2 ^ 63) (hm : m.Holds σ f) (h : i.Indexes x) (hb : content.IsByte σ b) :
    (m.set i content).Gives (fun m' => m'.size = m.size ∧ m'.Holds σ (put m.size f x [b])) := by
  rw [put_singleton hsize]
  have hmod : m.size % 2 ^ 256 = m.size := Nat.mod_eq_of_lt (Nat.lt_trans hsize (by decide))
  simp only [set, ge_iff_le, Nat.not_le.2 hsize]
  refine toIndex_bind h fun _ => ?_
  by_cases hx : x.toNat < m.size
  · simp only [hx, hmod, Nat.not_le.2 hx, hb.isByte]
    exact .pure ⟨rfl, hm.insert hb⟩
  · simp only [hx, hmod, Nat.not_lt.1 hx]
    exact .pure ⟨rfl, hm⟩

/-! ## Ranges -/

lemma offset_gives (h : e.Equals x) (n : Nat) : (offset e n).Gives (·.Indexes (x + BitVec.ofNat 256 n)) := by
  refine h.raw.bind fun t ht => ?_
  rw [ht.value?, ht.width]
  refine (const_equals _ _).bind fun e' he' => .pure ?_
  rwa [Option.getD_some, BitVec.ofNat_add, BitVec.ofNat_toNat, BitVec.setWidth_eq] at he'

lemma shifted_gives (h : i.Indexes x) (n : Int) : (shifted i n).Gives (·.Indexes (x + BitVec.ofInt 256 n)) := by
  cases i with
  | expr e => exact (arithInt_equals .add n h).bind fun e' he' => .pure he'
  | int k | bool b =>
    obtain ⟨_, ⟨⟩, rfl⟩ := h
    exact .pure ⟨_, rfl, (BitVec.ofInt_add ..).symm⟩
  | absent =>
    obtain ⟨_, hn, _⟩ := h
    cases hn

lemma end_bind {α : Type} {c : Calc α} {k : Expr → Calc α} {P : α → Prop} :
    i.Indexes x → (∀ e, e.Equals x → (k e).Gives P) → Gives (match i with
      | .absent => c
      | i => i.toWidth 256 >>= k) P := by
  intro h hk
  cases i with
  | absent =>
    obtain ⟨_, hn, _⟩ := h
    cases hn
  | _ => exact h.toWidth.bind hk

lemma ends_gives (hstart : start.Indexes x) (hstop : stop.Indexes y) : (ends start stop .absent).Gives
    (fun r => r.1.Equals x ∧ r.2.1.Equals y ∧ r.2.2.Equals (1 : Word)) := by
  refine end_bind hstart fun a ha => end_bind hstop fun b hb => ?_
  exact (const_equals 1 256).bind fun c hc => .pure ⟨ha, hb, hc⟩

lemma steps_gives {start stop step : Expr} (hstart : start.Equals x) (hstop : stop.Equals y)
    (hstep : step.Equals (1 : Word)) : (steps start stop step).Gives (· = (y - x).toNat) := by
  refine hstop.raw.bind fun u hu => hstart.raw.bind fun t ht => ?_
  have hlength := hu.arith .sub ht nofun
  refine (evaluate_gives hlength.room).bind fun n hn => hstep.raw.bind fun v hv => ?_
  refine (evaluate_gives hv.room).bind fun k hk => ?_
  rw [hn, hk, hlength.value?, hv.value?]
  exact .pure (by simp [ArithOp.onWords])

/-- The bytes from an index on, which go on at zero behind the last index. -/
def bytesFrom (f : Nat → BitVec 8) (x : Word) (n : Nat) : List (BitVec 8) :=
  (range n).map fun k => f (x + BitVec.ofNat 256 k).toNat

lemma slice_gives (hm : m.Holds σ f) (hstart : start.Indexes x) (hstop : stop.Indexes y) :
    (m.slice start stop).Gives fun items => Forall₂ (Item.IsByte σ) items (bytesFrom f x (y - x).toNat) := by
  refine (ends_gives hstart hstop).bind ?_
  rintro ⟨a, b, step⟩ ⟨ha, hb, hstep⟩
  refine (steps_gives ha hb hstep).bind ?_
  rintro _ rfl
  refine hstep.raw.bind fun t ht => ?_
  rw [ht.value?]
  refine (Gives.mapM (S := fun k item => item.IsByte σ (f (x + BitVec.ofNat 256 k).toNat)) fun k _ => ?_).mono ?_
  · refine (offset_gives ha _).bind fun i hi => (get_gives hi).mono ?_
    rintro _ rfl
    rw [show k * (some (BitVec.toNat (1 : Word))).getD 1 = k from Nat.mul_one k]
    exact hm _
  · exact fun items h => forall₂_map_right_iff.2 h.flip

/-! ## Words -/

lemma concreteAll?_gives (h : Forall₂ (Item.IsByte σ) items bs) :
    (concreteAll? items).Gives (fun r => r = none ∨ r = some (bs.map (·.toNat))) := by
  induction h with
  | nil => exact .pure (.inr rfl)
  | @cons i b items bs hi _ ih =>
    have hone : (concrete? i).Gives (fun r => r = none ∨ r = some b.toNat) := by
      cases i with
      | expr e =>
        simp only [concrete?, isProp, hi.isProp]
        refine (value?_gives hi).mono ?_
        rintro _ rfl
        cases hv : e.term.value? with
        | none => exact .inl rfl
        | some n => exact .inr (by rw [hi.eq_of_value? hv])
      | int n =>
        have hn : n = b.toNat := hi
        exact .pure (.inr (by simp [Item.int?, hn]))
      | bool _ | absent => exact hi.elim
    refine hone.bind ?_
    rintro _ (rfl | rfl)
    · exact .pure (.inl rfl)
    · refine ih.bind ?_
      rintro _ (rfl | rfl)
      · exact .pure (.inl rfl)
      · exact .pure (.inr rfl)

lemma toWidth_gives (h : i.IsByte σ b) : (i.toWidth 8).Gives (·.Denotes σ b) := by
  cases i with
  | expr e =>
    simp only [Item.toWidth, isProp, h.isProp]
    exact .pure h
  | int n =>
    have hn : n = b.toNat := h
    refine (ofInt_gives σ n 8).mono fun e he => ?_
    rwa [hn, ofInt_toNat] at he
  | bool _ | absent => exact h.elim

lemma compose_bytes (bs : List (BitVec 8)) (acc : Nat) :
    Term.compose (bs.map (fun b => (8, b.toNat))) acc = bs.foldl (fun acc b => acc * 256 + b.toNat) acc := by
  induction bs generalizing acc with
  | nil => rfl
  | cons b bs ih =>
    have hb := Nat.mod_eq_of_lt b.isLt
    rw [map_cons, Term.compose, ih, foldl_cons, hb]

lemma sum_widths (bs : List (BitVec 8)) :
    (bs.map (fun b => (8, b.toNat))).foldr (fun p n => p.1 + n) 0 = 8 * bs.length := by
  induction bs with
  | nil => rfl
  | cons b bs ih =>
    rw [map_cons, foldr_cons, length_cons]
    omega

/-- The number that bytes spell, the most significant first. -/
def ofBytes (bs : List (BitVec 8)) : Word := BitVec.ofNat 256 (bs.foldl (fun acc b => acc * 256 + b.toNat) 0)

lemma toNat_ofBytes (h : bs.length = 32) : (ofBytes bs).toNat = bs.foldl (fun acc b => acc * 256 + b.toNat) 0 := by
  have hlt := foldl_bytes_lt BitVec.toNat bs (fun b _ => b.isLt) 0 0 (by decide)
  rw [h] at hlt
  exact Nat.mod_eq_of_lt (lt_of_lt_of_eq hlt (by decide))

lemma ofBytes_bytesFrom (h : x.toNat + 32 ≤ 2 ^ 256) : ofBytes (bytesFrom f x 32) = readWord f x.toNat := by
  have hbytes : bytesFrom f x 32 = (range 32).map fun k => f (x.toNat + k) := by
    refine map_congr_left fun k hk => ?_
    rw [toNat_add_ofNat x (by have := mem_range.1 hk; omega)]
  rw [hbytes]
  rfl

lemma word_gives (hm : m.Holds σ f) (h : i.Indexes x) :
    (m.word i).Gives (·.Denotes σ (ofBytes (bytesFrom f x 32))) := by
  refine (shifted_gives h 32).bind fun stop hstop => (slice_gives hm h hstop).bind fun items hitems => ?_
  rw [show (x + BitVec.ofInt 256 32 - x).toNat = 32 by rw [BitVec.add_comm, BitVec.add_sub_cancel]; rfl] at hitems
  have hlen : (bytesFrom f x 32).length = 32 := by rw [bytesFrom, length_map, length_range]
  generalize bytesFrom f x 32 = bs at hitems hlen ⊢
  refine (concreteAll?_gives hitems).bind ?_
  rintro _ (rfl | rfl)
  · refine (Gives.mapM_of_forall₂ hitems fun i b hb => toWidth_gives hb).bind fun parts hparts => ?_
    have hparts : Forall₂ (Part σ) parts (bs.map (fun b => (8, b.toNat))) := by
      rw [forall₂_map_right_iff]
      exact hparts.imp fun _ _ h => h.part
    refine (concat_gives hparts).bind ?_
    rintro e' ⟨hp, hw, hd, hroom⟩
    rw [sum_widths, hlen] at hw
    refine (simplified_gives hroom).bind ?_
    rintro _ rfl
    simp only [hw]
    refine .pure ⟨hp, hw, ?_, hroom⟩
    rw [hd, compose_bytes, toNat_ofBytes hlen]
  · refine (const_gives σ _ 256).mono fun e' he' => ?_
    rwa [natOf, foldl_map] at he'

lemma writeAll_cons (m : Memory) (start : Expr) (n k : Nat) (b : Item) (items : List Item) :
    m.writeAll start (n + 1) k (b :: items) = (do
      let index ← offset start k
      fun l => match m.set index b l with
        | .ok m' l' => m'.writeAll start n (k + 1) items l'
        | .error f l' => .ok ⟨m, some f⟩ l') := by
  refine bind_congr fun index => funext fun l => ?_
  show EStateM.bind EStateM.get _ l = _
  delta EStateM.bind EStateM.get EStateM.run
  dsimp only
  cases m.set index b l <;> rfl

/-- What is written has no fault, and memory of the same size holds these bytes. -/
structure Puts (σ : Valuation) (m : Memory) (f : Nat → BitVec 8) (r : Written) : Prop where
  fault : r.fault = none
  size : r.memory.size = m.size
  holds : r.memory.Holds σ f

lemma writeAll_gives {start : Expr} (hsize : 0 < n → m.size < 2 ^ 63) (hm : m.Holds σ f) (h : start.Equals x)
    (hitems : Forall₂ (Item.IsByte σ) items bs) (hn : n ≤ bs.length) (hlt : n < 2 ^ 256) :
    (writeAll m start n k items).Gives (Puts σ m (put m.size f (x + BitVec.ofNat 256 k) (bs.take n))) := by
  induction n generalizing m f k items bs with
  | zero =>
    rw [take_zero, put_nil]
    exact .pure ⟨rfl, rfl, hm⟩
  | succ n ih =>
    cases hitems with
    | nil => cases hn
    | @cons i b items bs hi hitems =>
      rw [writeAll_cons]
      refine (offset_gives h k).bind fun index hindex l => ?_
      obtain ⟨m', l', hrun, hsz, hm'⟩ := set_gives (hsize n.succ_pos) hm hindex hi l
      obtain ⟨r, l'', hr, hputs⟩ := ih (fun _ => hsz ▸ hsize n.succ_pos) hm' hitems (Nat.le_of_succ_le_succ hn) (by omega) l'
      refine ⟨r, l'', ?_, hputs.fault, hputs.size.trans hsz, ?_⟩
      · simp only [hrun]
        exact hr
      have hput : put m.size (put m.size f (x + BitVec.ofNat 256 k) [b]) (x + BitVec.ofNat 256 (k + 1)) (bs.take n) =
          put m.size f (x + BitVec.ofNat 256 k) (b :: bs.take n) := by
        rw [BitVec.ofNat_add, ← BitVec.add_assoc]
        refine (put_append _ [b] _ ?_).1
        rw [length_singleton, length_take]
        omega
      rw [take_succ_cons, ← hput]
      exact hsz ▸ hputs.holds

lemma setSlice_gives (hsize : x ≠ y → m.size < 2 ^ 63) (hm : m.Holds σ f) (hstart : start.Indexes x) (hstop : stop.Indexes y)
    (hitems : Forall₂ (Item.IsByte σ) items bs) (hn : (y - x).toNat ≤ bs.length) :
    (m.setSlice start stop items).Gives (Puts σ m (put m.size f x (bs.take (y - x).toNat))) := by
  refine (ends_gives hstart hstop).bind ?_
  rintro ⟨a, b, step⟩ ⟨ha, hb, hstep⟩
  refine (steps_gives ha hb hstep).bind ?_
  rintro _ rfl
  have hroom (h : 0 < (y - x).toNat) : m.size < 2 ^ 63 := by
    refine hsize fun hxy => ?_
    rw [hxy, BitVec.sub_self] at h
    exact Nat.lt_irrefl 0 h
  have hwrite := writeAll_gives hroom hm ha hitems (k := 0) hn (y - x).isLt
  rwa [BitVec.add_zero] at hwrite

def wordBytes (y : Word) : List (BitVec 8) := (range 32).map fun i => y.extractLsb' (8 * (31 - i)) 8

lemma length_wordBytes (y : Word) : (wordBytes y).length = 32 := by rw [wordBytes, length_map, length_range]

lemma put_wordBytes (hroom : x.toNat + 32 ≤ size) (hsize : size < 2 ^ 63) :
    put size f x (wordBytes y) = Evm.writeWord f x.toNat y := by
  funext a
  rw [put, Evm.writeWord]
  by_cases ha : a < size
  · rw [if_pos ha, toNat_distance x (by omega)]
    split
    · split
      · simp [wordBytes, show a - x.toNat < 32 by omega]
      · rw [getElem?_eq_none (by rw [length_wordBytes]; omega), Option.getD_none]
    · rw [if_neg (by omega), getElem?_eq_none (by rw [length_wordBytes]; omega), Option.getD_none]
  · rw [if_neg ha, if_neg (by omega)]

lemma isByte_bytes32 (y : Word) : Forall₂ (Item.IsByte σ) (bytes32 y.toNat) (wordBytes y) := by
  rw [bytes32, wordBytes, forall₂_map_left_iff, forall₂_map_right_iff, forall₂_same]
  intro i _
  show ((y.toNat / 256 ^ (31 - i) % 256 : Nat) : Int) = _
  rw [BitVec.extractLsb'_toNat, Nat.shiftRight_eq_div_pow, Nat.pow_mul]

lemma writeParts_gives {value : Expr} (hsize : m.size < 2 ^ 63) (hv : value.Denotes σ y) (h : i.Indexes x) (hm : m.Holds σ f)
    (hn : n + k = 32) : (writeParts m i value n k).Gives
      (fun m' => m'.size = m.size ∧ m'.Holds σ (put m.size f x ((wordBytes y).take n))) := by
  induction n generalizing m f k with
  | zero =>
    rw [take_zero, put_nil]
    exact .pure ⟨rfl, hm⟩
  | succ n ih =>
    refine (extractByte_gives (8 * k) hv).bind fun part hpart => ?_
    extract_lets finish
    have hfinish {index} (hindex : index.Indexes (x + BitVec.ofInt 256 (31 - k))) : (finish index).Gives
        (fun m' => m'.size = m.size ∧ m'.Holds σ (put m.size f x ((wordBytes y).take (n + 1)))) := by
      rw [show (31 : Int) - k = (n : Int) by omega] at hindex
      have hset : (m.set index (.expr part)).Gives _ := set_gives hsize hm hindex hpart
      refine hset.bind ?_
      rintro m' ⟨hsz, hm'⟩
      refine (ih (hsz ▸ hsize) hm' (by omega)).mono ?_
      rintro m'' ⟨hsz', hm''⟩
      have hlast : (wordBytes y)[n]? = some (y.extractLsb' (8 * k) 8) := by
        obtain rfl : k = 31 - n := by omega
        simp [wordBytes, show n < 32 by omega]
      have hlen : ((wordBytes y).take n).length = n := by
        rw [length_take, length_wordBytes]
        omega
      have hput := (put_append (f := f) (x := x) m.size ((wordBytes y).take n) [y.extractLsb' (8 * k) 8]
        (by rw [length_singleton]; omega)).2
      rw [hlen] at hput
      rw [take_add_one, hlast, Option.toList_some, ← hput]
      exact ⟨hsz'.trans hsz, hsz ▸ hm''⟩
    cases i with
    | expr e =>
      refine (arithInt_equals .add 31 h).bind fun e1 h1 => (arithInt_equals .sub k h1).bind fun e2 h2 => hfinish ?_
      rw [Int.sub_eq_add_neg, BitVec.ofInt_add, BitVec.ofInt_neg, ← BitVec.add_assoc, ← BitVec.sub_eq_add_neg]
      exact h2
    | _ => exact (shifted_gives h _).bind fun _ => hfinish

/-- What is written as a word: an expression, a condition as one or zero, or a number of 256 bits. -/
def Spells (σ : Valuation) (v : Item) (y : Word) : Prop := v.Means σ y ∧ ∀ n, v.int? = some n → 0 ≤ n ∧ n < 2 ^ 256

lemma writeNumber_gives (hsize : m.size < 2 ^ 63) (h : i.Indexes x) (hm : m.Holds σ f) (y : Word) :
    Gives (do m.setSlice i (← shifted i 32) (bytes32 y.toNat)) (Puts σ m (put m.size f x (wordBytes y))) := by
  refine (shifted_gives h 32).bind fun stop hstop => ?_
  have hlen : (x + BitVec.ofInt 256 32 - x).toNat = (wordBytes y).length := by
    rw [BitVec.add_comm, BitVec.add_sub_cancel]
    rfl
  have hwrite := setSlice_gives (fun _ => hsize) hm h hstop (isByte_bytes32 y) (Nat.le_of_eq hlen)
  rwa [hlen, take_length] at hwrite

lemma writeWord_gives {v : Item} (hsize : m.size < 2 ^ 63) (hv : Spells σ v y) (h : i.Indexes x) (hm : m.Holds σ f) :
    (m.writeWord i v).Gives (Puts σ m (put m.size f x (wordBytes y))) := by
  have hnumber {n : Int} (hn : n = y.toNat) : Gives (if n < 0 ∨ n ≥ (2 ^ 256 : Nat) then pure ⟨m, some Fault.tooLarge⟩
      else do m.setSlice i (← shifted i 32) (bytes32 n.toNat)) (Puts σ m (put m.size f x (wordBytes y))) := by
    rw [if_neg (by omega), hn]
    exact writeNumber_gives hsize h hm y
  have hparts {e} (he : e.Denotes σ y) : Gives (do
      if e.width != 256 then return ⟨m, some Fault.broken⟩
      return ⟨← writeParts m i e 32 0, none⟩) (Puts σ m (put m.size f x (wordBytes y))) := by
    simp only [width, he.width]
    refine (writeParts_gives hsize he h hm rfl).bind ?_
    rintro m' ⟨hsz, hm'⟩
    exact .pure ⟨rfl, hsz, hm'⟩
  cases v with
  | expr e =>
    have hroom : e.term.overrun .empty = none := by
      rcases hv.1 with he | ⟨b, he, -⟩
      · exact he.room
      · exact he.room
    refine (settle_gives hroom).bind fun _ _ => ?_
    rcases hv.1 with he | ⟨b, he, rfl⟩
    · refine he.raw.bind ?_
      rintro t ⟨ht, -⟩
      cases hn : t.value? with
      | some n => exact hnumber (congrArg Int.ofNat (ht.eq_of_value? hn))
      | none =>
        have hp : e.isProp = false := he.isProp
        simp only [hp]
        exact hparts he
    · refine he.raw.bind fun t ht => ?_
      cases hn : t.value? with
      | some n =>
        have hbit : n = Term.ofBool b := by rw [← ht.denote, Term.denote_of_value? hn]
        exact hnumber (by cases b <;> rw [hbit] <;> rfl)
      | none =>
        simp only [isProp, he.isProp]
        exact (bit_gives he).bind fun e' he' => hparts he'
  | int n | bool b =>
    obtain ⟨⟨_, ⟨⟩, rfl⟩, hrange⟩ := hv
    refine hnumber ?_
    rw [BitVec.toNat_ofInt]
    have := hrange _ rfl
    omega
  | absent =>
    obtain ⟨⟨_, hn, _⟩, -⟩ := hv
    cases hn

end Memory

/-! ## Growth -/

namespace Machine

def grown (m : Machine) (a n : Nat) : Machine :=
  { m.useGas (growthFee m.memory.size a n) (growthFee m.memory.size a n) with
    memory := { m.memory with size := grownSize m.memory.size a n } }

lemma ceil32_natCast (k : Nat) : ceil32 k = ((32 * ((k + 31) / 32) : Nat) : Int) := by
  rw [ceil32, fdiv_word]
  omega

lemma memoryFee_natCast (w : Nat) : memoryFee w = (Evm.memoryFee w : Int) := by
  rw [memoryFee, Int.fdiv_eq_ediv_of_nonneg _ (by decide), Evm.memoryFee]
  omega

lemma memoryFee_mono {w w' : Nat} (h : w ≤ w') : Evm.memoryFee w ≤ Evm.memoryFee w' := by
  have hsq := Nat.mul_le_mul h h
  unfold Evm.memoryFee
  omega

lemma extension_natCast (halign : size % 32 = 0) : extension size a n = ((grownSize size a n - size : Nat) : Int) := by
  unfold extension grownSize
  rw [← Int.natCast_add, ceil32_natCast, fdiv_word, fdiv_word]
  split <;> omega

lemma extensionFee_natCast (h : ¬ size = grownSize size a n) : extensionFee size a n = (growthFee size a n : Int) := by
  have hgrown : grownSize size a n = 32 * ((a + n + 31) / 32) := by
    unfold grownSize at h ⊢
    omega
  have hle : size / 32 ≤ grownSize size a n / 32 := Nat.div_le_div_right (Nat.le_max_left _ _)
  have hmono := memoryFee_mono hle
  have hwords : Int.fdiv (ceil32 (a + n)) 32 = ((grownSize size a n / 32 : Nat) : Int) := by
    rw [← Int.natCast_add, ceil32_natCast, fdiv_word]
    omega
  have hold : Int.fdiv (size : Int) 32 = ((size / 32 : Nat) : Int) := by
    rw [fdiv_word]
    omega
  rw [extensionFee, hwords, hold, memoryFee_natCast, memoryFee_natCast, growthFee]
  omega

lemma extent_gives (h : e.Equals x) : (extent (.expr e)).Gives (· = some (x.toNat : Int)) := by
  simp only [extent, isProp, h.isProp]
  refine h.value?_gives.bind ?_
  rintro _ rfl
  exact .pure rfl

lemma grow_gives (m : Machine) (h : e.Equals x) (n : Nat) (halign : m.memory.size % 32 = 0) {limit : Int}
    (hlimit : m.gasLimit = .int limit) (hgas : m.minGas + growthFee m.memory.size x.toNat n ≤ limit) :
    (m.grow (.expr e) (.int n)).Gives (· = (m.grown x.toNat n, none)) := by
  refine (extent_gives h).bind ?_
  rintro _ rfl
  show Gives (if extension m.memory.size x.toNat n = 0 then _ else _) _
  rw [extension_natCast halign]
  have hle : m.memory.size ≤ grownSize m.memory.size x.toNat n := Nat.le_max_left _ _
  split
  · have hsame : grownSize m.memory.size x.toNat n = m.memory.size := by omega
    have hfree : growthFee m.memory.size x.toNat n = 0 := by rw [growthFee, hsame, Nat.sub_self]
    refine .pure ?_
    simp [grown, useGas, hsame, hfree]
  · rw [extensionFee_natCast (by omega)]
    have hpaid : ¬ (m.minGas + growthFee m.memory.size x.toNat n : Int) > limit := by omega
    simp only [useGas, exceeds, hlimit, Item.int?, hpaid]
    refine .pure ?_
    have hsize : m.memory.size + (grownSize m.memory.size x.toNat n - m.memory.size) =
        grownSize m.memory.size x.toNat n := by omega
    simp [grown, useGas, Memory.extend, hsize, hlimit]

end Machine
end EvmAudit
