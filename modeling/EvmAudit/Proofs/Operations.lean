import EvmAudit.Proofs.Effects
import Mathlib.Data.Nat.ModEq

/-!
# Operations on words

Each operation on words leaves an expression on the stack that means what the machine computes from the meanings of the
operands, and the rest of the stack stays as it is. The two operations with a modulus reduce their operands first, but
then compute with words, so they are exact only as long as nothing is lost there.
-/

namespace EvmAudit

open BitVec EvmAudit.Expr Item Evm

variable {σ : Valuation} {g : GState} {s : Session} {a b c : Expr} {x y n : Word} {st : Stack}

/-- Sign extension as it is computed: by a mask at the sign of the byte, if the index is that of a byte. -/
lemma Evm.signExtend_eq_mask (k x : Word) : signExtend k x =
    if CmpOp.le.eval k.toNat (BitVec.ofInt 256 31).toNat then
      if !CmpOp.eq.eval (x &&& 1#256 <<< (k * 8#256 + 7#256).toNat).toNat (BitVec.ofInt 256 0).toNat then
        x ||| (0#256 - 1#256 <<< (k * 8#256 + 7#256).toNat)
      else x &&& (1#256 <<< (k * 8#256 + 7#256).toNat - BitVec.ofInt 256 1)
    else x := by
  have hk : CmpOp.le.eval k.toNat (BitVec.ofInt 256 31).toNat = decide (k.toNat ≤ 31) := rfl
  rw [hk, signExtend]
  by_cases hle : k.toNat ≤ 31
  · have hbits : (k * 8#256 + 7#256).toNat = 8 * k.toNat + 7 := by
      simp only [toNat_add, toNat_mul, toNat_ofNat]
      omega
    have heq : CmpOp.eq.eval (x &&& twoPow 256 (8 * k.toNat + 7)).toNat (BitVec.ofInt 256 0).toNat =
        (x &&& twoPow 256 (8 * k.toNat + 7) == 0#256) := eval_eq _ _
    rw [hbits, ← twoPow_eq, heq]
    have hmask := signExtend_setWidth (n := 8 * k.toNat + 7) (by omega) x
    have hext : (if k.toNat < 31 then (x.setWidth (8 * k.toNat + 8)).signExtend 256 else x) =
        (x.setWidth (8 * k.toNat + 7 + 1)).signExtend 256 := by
      split
      · rfl
      · -- the sign of the last byte is the sign of the word
        obtain h31 : k.toNat = 31 := by omega
        rw [h31]
        exact ((x.setWidth 256).signExtend_eq.trans x.setWidth_eq).symm
    rw [hext, hmask]
    by_cases hz : x &&& twoPow 256 (8 * k.toNat + 7) = 0#256
    · simp [hle]
    · simp [hle]
  · rw [if_neg (by omega), if_neg (by simpa using hle)]

abbrev GState.opcodeOf (b : Nat) : Opcode := (Opcode.ofByte? b).getD .invalid

namespace Step

lemma popWord_bind {α : Type} {f : Expr → Step α} {R : α → GState → Prop} (h : g.machine.stack = .expr a :: st)
    (ha : a.Denotes σ x) (hf : ∀ s', s.Grows s' → Does (f a) (g.withStack st) s' R) : Does (popWord >>= f) g s R := by
  refine (Does.onMachine (P := fun e m => e = a ∧ m = { g.machine with stack := st }) ?_).bind ?_
  · simp only [Machine.popWord, Machine.pop, h, Stack.pop, pure_bind, settledWord, isProp, ha.isProp]
    exact (simplified_gives ha.room).bind fun e he => .pure ⟨he, rfl⟩
  · rintro _ _ s' hs ⟨_, rfl, rfl, rfl⟩
    exact hf s' hs

lemma popItem_bind {α : Type} {f : Item → Step α} {R : α → GState → Prop} (h : g.machine.stack = .expr a :: st)
    (ha : a.Denotes σ x)
    (hf : ∀ e s', s.Grows s' → e.Denotes σ x → Does (f (.expr e)) (g.withStack st) s' R) :
    Does (do f (← Stack.toWord (← pop))) g s R := by
  refine .pop h (.given (Stack.toWord_gives (.inl ha)) ?_)
  rintro _ s' hs ⟨e, rfl, he⟩
  exact hf e s' hs he

/-- The frame goes on with a word of this meaning on top of the stack, and nothing else has changed. -/
def Puts (σ : Valuation) (g : GState) (x : Word) (st : Stack) (eff : Effect) (g' : GState) : Prop :=
  eff = .next ∧ ∃ i, i.IsWord σ x ∧ g' = g.withStack (i :: st)

lemma Puts.leaves {eff : Effect} {g' : GState} {ws : List Word} (h : Puts σ g x st eff g') (hst : st.Words σ ws) :
    Leaves σ g (x :: ws) eff g' :=
  have ⟨heff, i, hi, hg'⟩ := h
  ⟨heff, i :: st, .cons hi hst, hg'⟩

variable (hroom : st.length < 1024)
include hroom

lemma leave_puts (h : i.Means σ x) : Does (do push i; return Effect.next) (g.withStack st) s (Puts σ g x st) :=
  leave_does h hroom

section Binary

variable (hst : g.machine.stack = .expr a :: .expr b :: st) (ha : a.Denotes σ x) (hb : b.Denotes σ y)
include hst ha hb

lemma arithmetic_puts (op : ArithOp) (hshift : op.HasRoom x y := by rintro ⟨⟩) :
    Does (arithmetic op) g s (Puts σ g (op.onWords x y) st) := by
  refine popWord_bind hst ha fun s1 _ => popWord_bind rfl hb fun s2 _ => ?_
  exact .given (arith_gives op ha hb hshift) fun e s3 _ he => leave_puts hroom (.inl he)

lemma shift_puts (op : ArithOp) (hshift : op.HasRoom y x := by rintro ⟨⟩) :
    Does (shift op) g s (Puts σ g (op.onWords y x) st) := by
  refine popWord_bind hst ha fun s1 _ => popWord_bind rfl hb fun s2 _ => ?_
  exact .given (arith_gives op hb ha hshift) fun e s3 _ he => leave_puts hroom (.inl he)

/-- Where the divisor is known to be zero, zero is pushed; where it only turns out to be zero, the division is zero. -/
lemma division_puts (op : ArithOp) (hzero : op.onWords x 0 = 0) (hshift : op.HasRoom x y := by rintro ⟨⟩) :
    Does (division op) g s (Puts σ g (op.onWords x y) st) := by
  refine popWord_bind hst ha fun s1 _ => popWord_bind rfl hb fun s2 _ => ?_
  refine .given (equateInt_gives .eq 0 hb) fun c s3 _ hc => ?_
  refine .given hc.holds fun isZero s4 _ hz => ?_
  split
  · rename_i htrue
    have hy : y = 0 := by simpa [CmpOp.eval, ← toNat_inj] using hz htrue
    rw [hy, hzero]
    exact leave_puts hroom ⟨0, rfl, rfl⟩
  · exact .given (arith_gives op ha hb hshift) fun e s5 _ he => leave_puts hroom (.inl he)

lemma unsignedOrder_puts (op : CmpOp) :
    Does (unsignedOrder op) g s (Puts σ g (ofBool (op.eval x.toNat y.toNat)) st) := by
  refine popWord_bind hst ha fun s1 _ => popWord_bind rfl hb fun s2 _ => ?_
  exact .given (relate_gives op ha hb) fun e s3 _ he => leave_puts hroom (.inr ⟨_, he, rfl⟩)

lemma bitwise_puts (op : ArithOp) (hshift : op.HasRoom x y := by rintro ⟨⟩) :
    Does (bitwise op) g s (Puts σ g (op.onWords x y) st) := by
  refine popItem_bind hst ha fun a s1 _ ha => popItem_bind rfl hb fun b s2 _ hb => ?_
  exact .given (bitwise_gives op ha hb hshift) fun e s3 _ he => leave_puts hroom (.inl he)

lemma equality_puts : Does equality g s (Puts σ g (ofBool (x == y)) st) := by
  refine popItem_bind hst ha fun a s1 _ ha => popItem_bind rfl hb fun b s2 _ hb => ?_
  refine .given (equate_gives .eq CmpOp.flip_eval_eq ha hb) fun e s3 _ he => ?_
  exact leave_puts hroom (.inr ⟨_, he, by rw [eval_eq]⟩)

lemma byteOf_puts (hknown : a.Known) : Does byteOf g s (Puts σ g (Evm.byteAt x y) st) := by
  obtain ⟨k, hk⟩ := Option.isSome_iff_exists.1 hknown
  refine .pop hst <| popItem_bind rfl hb fun b s2 _ hb => .given (number?_gives (ha.equals hk)) ?_
  rintro _ s3 _ rfl
  by_cases hx : x.toNat < 32
  · have hoff : (31 - (x.toNat : Int)) * 8 = ((8 * (31 - x.toNat) : Nat) : Int) := by omega
    simp only [hoff, Int.toNat_natCast]
    refine .given (.pure rfl) ?_
    rintro _ s4 _ rfl
    refine .given (extractByte_gives _ hb) fun byte s5 _ hbyte => ?_
    refine .given (zero_gives σ 248) fun zero s6 _ hzero => .given (hzero.concat_gives hbyte.part) fun e s7 _ he => ?_
    refine .given (simplified_gives he.room) ?_
    rintro _ s8 _ rfl
    refine leave_puts hroom (.inl ⟨he.isProp, he.width, ?_, he.room⟩)
    rw [he.denote, Evm.byteAt, if_pos hx]
    simp only [toNat_setWidth]
    omega
  · have hoff : (31 - (x.toNat : Int)) * 8 < 0 := by omega
    simp only [hoff]
    rw [Evm.byteAt, if_neg hx]
    exact leave_puts hroom ⟨0, rfl, rfl⟩

/-- The mask is formed for every index, also where it is not used. -/
lemma signExtend_puts (hshift : ArithOp.HasRoom .shl 1#256 (x * 8#256 + 7#256)) :
    Does signExtend g s (Puts σ g (Evm.signExtend x y) st) := by
  refine .pop hst (.pop rfl ?_)
  refine .given (const_gives σ 8 256) fun eight s3 _ h8 => ?_
  refine .given (arith_gives .mul ha h8) fun scaled s4 _ hscaled => ?_
  refine .given (const_gives σ 7 256) fun seven s5 _ h7 => ?_
  refine .given (arith_gives .add hscaled h7) fun bits s6 _ hbits => ?_
  refine .given (const_gives σ 1 256) fun one s7 _ h1 => ?_
  refine .given (arith_gives .shl h1 hbits hshift) fun bit s8 _ hbit => ?_
  refine .given (bitwise_gives .and hb hbit) fun masked s9 _ hmasked => ?_
  refine .given (equateInt_gives .eq 0 hmasked) fun clear s10 _ hclear => ?_
  refine .given (not_gives hclear) fun isSet s11 _ hset => ?_
  refine .given (simplified_gives hset.room) ?_
  rintro _ s12 _ rfl
  refine .given (order_gives .le (fun _ _ => rfl) 31 ha) fun inside s13 _ hinside => ?_
  refine .given (const_gives σ 0 256) fun zero s14 _ h0 => ?_
  refine .given (arith_gives .sub h0 hbit) fun negative s15 _ hneg => ?_
  refine .given (bitwise_gives .or hb hneg) fun filled s16 _ hfilled => ?_
  refine .given (arithInt_gives .sub 1 hbit) fun mask s17 _ hmask => ?_
  refine .given (bitwise_gives .and hb hmask) fun cleared s18 _ hcleared => ?_
  refine .given (ite_gives hset hfilled hcleared) fun extended s19 _ hext => ?_
  refine .given (choose_gives hinside hext hb) fun e s20 _ he => ?_
  refine .given (simplified_gives he.room) ?_
  rintro _ s21 _ rfl
  rw [signExtend_eq_mask]
  exact leave_puts hroom (.inl he)

end Binary

section Unary

variable (hst : g.machine.stack = .expr a :: st) (ha : a.Denotes σ x)
include hst ha

lemma isZero_puts : Does isZero g s (Puts σ g (ofBool (x == 0)) st) := by
  refine popItem_bind hst ha fun a s1 _ ha => .given (equateInt_gives .eq 0 ha) fun c s2 _ hc => ?_
  refine .given (bit_gives hc) fun e s3 _ he => .given (simplified_gives he.room) ?_
  rintro _ s4 _ rfl
  have hx : CmpOp.eq.eval x.toNat (BitVec.ofInt 256 0).toNat = (x == 0) := eval_eq x 0
  rw [hx] at he
  exact leave_puts hroom (.inl he)

lemma complement_puts : Does complement g s (Puts σ g (~~~x) st) := by
  refine .pop hst (.given (const_gives σ (2 ^ 256 - 1) 256) fun full s2 _ hfull => ?_)
  simp only [plus, isProp, hfull.isProp]
  refine .given (arith_gives .sub hfull ha) fun e s3 _ he => ?_
  have hx : ArithOp.onWords .sub (BitVec.ofNat 256 (2 ^ 256 - 1)) x = ~~~x := by
    rw [← allOnes_sub_eq_not]
    rfl
  rw [hx] at he
  exact leave_puts hroom (.inl he)

end Unary

/-- The operands are reduced, and so is what the operation on words makes of them. -/
lemma modular_puts (op : ArithOp) (hshift : op ≠ .shl) (hst : g.machine.stack = .expr a :: .expr b :: .expr c :: st)
    (ha : a.Denotes σ x) (hb : b.Denotes σ y) (hc : c.Denotes σ n) : Does (modular op) g s
      (Puts σ g (remainder (op.onWords (remainder x n) (remainder y n)) n) st) := by
  refine popWord_bind hst ha fun s1 _ => popWord_bind rfl hb fun s2 _ => popWord_bind rfl hc fun s3 _ => ?_
  refine .given (arith_gives .urem ha hc) fun a' s4 _ ha' => ?_
  refine .given (arith_gives .urem hb hc) fun b' s5 _ hb' => ?_
  refine .given (arith_gives op ha' hb' fun h => absurd h hshift) fun e s6 _ he => ?_
  exact .given (arith_gives .urem he hc) fun r s7 _ hr => leave_puts hroom (.inl hr)

end Step

/-! ## Instructions -/

namespace Step

/-- A left shift has room for the number that it forms, and so has the mask of a sign extension. -/
def HasRoom (b : Nat) (x y : Word) : Prop :=
  match b with
  | 0x0b => Term.shiftFault 1 (x * 8#256 + 7#256).toNat = none
  | 0x1b => Term.shiftFault y.toNat x.toNat = none
  | _ => True

lemma binary_puts {b cost : Nat} {f : Word → Word → Word} {e e' : Expr} (hf : binary? b = some (f, cost))
    (hroom : st.length < 1024) (hst : g.machine.stack = .expr e :: .expr e' :: st) (he : e.Denotes σ x)
    (he' : e'.Denotes σ y) (hknown : b = 0x1a → e.Known) (hshift : HasRoom b x y) :
    (GState.opcodeOf b).effectOf.Does g s (Puts σ g (f x y) st) := by
  unfold binary? at hf
  split at hf <;> cases hf
  · exact arithmetic_puts hroom hst he he' .add
  · exact arithmetic_puts hroom hst he he' .mul
  · exact arithmetic_puts hroom hst he he' .sub
  · exact division_puts hroom hst he he' .udiv udiv_zero
  · exact division_puts hroom hst he he' .urem (by simp [ArithOp.onWords])
  · exact signExtend_puts hroom hst he he' fun _ => hshift
  · exact unsignedOrder_puts hroom hst he he' .ult
  · exact unsignedOrder_puts hroom hst he he' .ugt
  · exact equality_puts hroom hst he he'
  · exact bitwise_puts hroom hst he he' .and
  · exact bitwise_puts hroom hst he he' .or
  · exact bitwise_puts hroom hst he he' .xor
  · exact byteOf_puts hroom hst he he' (hknown rfl)
  · exact shift_puts hroom hst he he' .shl fun _ => hshift
  · exact shift_puts hroom hst he he' .lshr
  · exact shift_puts hroom hst he he' .ashr

lemma unary_puts {b cost : Nat} {f : Word → Word} {e : Expr} (hf : unary? b = some (f, cost))
    (hroom : st.length < 1024) (hst : g.machine.stack = .expr e :: st) (he : e.Denotes σ x) :
    (GState.opcodeOf b).effectOf.Does g s (Puts σ g (f x) st) := by
  unfold unary? at hf
  split at hf <;> cases hf
  · exact isZero_puts hroom hst he
  · exact complement_puts hroom hst he

/-- Whatever expressions of 256 bits the operands are and whatever the variables mean, an operation of one or two words
leaves one word in their place, which means what the machine computes from the meanings of the operands. Only the index
of a byte has to have a value without the variables, and a left shift to have room for the number that it forms. -/
theorem operations_are_homomorphic (σ : Valuation) (g : GState) (s : Session) (hroom : g.machine.stack.length ≤ 1024) :
    (∀ {b cost : Nat} {f : Word → Word → Word} {e e' : Expr} {x y : Word} {st : Stack}, Evm.binary? b = some (f, cost) →
      g.machine.stack = .expr e :: .expr e' :: st → e.Denotes σ x → e'.Denotes σ y → (b = 0x1a → e.Known) → HasRoom b x y →
      (GState.opcodeOf b).effectOf.Does g s (Puts σ g (f x y) st)) ∧
    (∀ {b cost : Nat} {f : Word → Word} {e : Expr} {x : Word} {st : Stack}, Evm.unary? b = some (f, cost) →
      g.machine.stack = .expr e :: st → e.Denotes σ x →
      (GState.opcodeOf b).effectOf.Does g s (Puts σ g (f x) st)) := by
  constructor
  · intro b cost f e e' x y st hf hst he he' hknown hshift
    rw [hst, List.length_cons, List.length_cons] at hroom
    exact binary_puts hf (by omega) hst he he' hknown hshift
  · intro b cost f e x st hf hst he
    rw [hst, List.length_cons] at hroom
    exact unary_puts hf (by omega) hst he

/-- Seven divided by an unknown that turns out to be zero, above a third word. -/
theorem division_by_unknown_is_homomorphic :
    let g := (default : GState).withStack [.expr ⟨1, 1, .const 7 256⟩, .expr ⟨2, 2, .symbol "y" 256⟩, .int 3]
    (GState.opcodeOf 0x04).effectOf.Does g {} (Puts default g 0 [.int 3]) :=
  (operations_are_homomorphic default _ {} (by decide)).1 (f := fun x y => x / y) (x := 7) (y := 0) rfl rfl
    ⟨rfl, rfl, rfl, rfl⟩ ⟨rfl, rfl, rfl, rfl⟩ nofun trivial

/-- The mask for the last of all indexes has no room, although that index is not one of a byte. -/
theorem sign_extension_from_last_index_faults : ∃ s', (GState.opcodeOf 0x0b).effectOf
    ((default : GState).withStack [.expr (.literal (2 ^ 256 - 1)), .expr (.literal 7)]) {} = .error .tooLarge s' :=
  ⟨_, by with_unfolding_all rfl⟩

/-! ## Operations with a modulus -/

/-- Cutting a number off before it is reduced loses the multiple that was cut off. -/
lemma mod_mod_eq_mod_iff (p m n : Nat) : p % m % n = p % n ↔ n ∣ m * (p / m) := by
  have hcut := Nat.sub_eq_of_eq_add (Nat.div_add_mod p m).symm
  rw [← hcut]
  exact Nat.modEq_iff_dvd' (Nat.mod_le p m)

/-- The sum of two remainders is not reduced correctly once it does not fit into a word. -/
lemma sum_mod_eq_iff {x y n m : Nat} (hn : n < m) (hpos : 0 < n) :
    (x % n + y % n) % m % n = (x + y) % n ↔ x % n + y % n < m := by
  have hx := Nat.mod_lt x hpos
  have hy := Nat.mod_lt y hpos
  rw [Nat.add_mod x y n, mod_mod_eq_mod_iff]
  constructor
  · intro hdvd
    by_contra hle
    have hquot : (x % n + y % n) / m = 1 := by
      rw [Nat.div_eq_iff (by omega)]
      omega
    rw [hquot] at hdvd
    -- a proper divisor is at most half, and two remainders then fit
    obtain ⟨k, hk⟩ := hdvd
    match k with
    | 0 | 1 => omega
    | k + 2 =>
      have : n * (k + 2) = n * k + 2 * n := by rw [Nat.mul_add, mul_comm n 2]
      omega
  · intro hlt
    rw [Nat.div_eq_of_lt hlt]
    exact dvd_zero n

lemma toNat_remainder {x n : Word} (hn : n ≠ 0) : (remainder x n).toNat = x.toNat % n.toNat := by
  rw [remainder, if_neg hn, toNat_umod]

/-- The sum and the product modulo a word are zero if the modulus is. Otherwise the operands are reduced and their sum or
product is cut to a word before it is reduced again: the sum is right exactly if that of the reduced operands fits into a
word, and the product exactly if the modulus divides what is cut off. -/
theorem modular_operations_wrap {g : GState} {s : Session} {a b c : Expr} {x y n : Word} {st : Stack}
    (hst : g.machine.stack = .expr a :: .expr b :: .expr c :: st) (hroom : g.machine.stack.length ≤ 1024)
    (ha : a.Denotes σ x) (hb : b.Denotes σ y) (hc : c.Denotes σ n) :
    ∃ u v : Word, (Opcode.effectOf .addmod).Does g s (Puts σ g u st) ∧
      (Opcode.effectOf .mulmod).Does g s (Puts σ g v st) ∧ (n = 0 → u = 0 ∧ v = 0) ∧ (n ≠ 0 →
        u.toNat = (x.toNat % n.toNat + y.toNat % n.toNat) % 2 ^ 256 % n.toNat ∧
        v.toNat = x.toNat % n.toNat * (y.toNat % n.toNat) % 2 ^ 256 % n.toNat ∧
        (u.toNat = (x.toNat + y.toNat) % n.toNat ↔ x.toNat % n.toNat + y.toNat % n.toNat < 2 ^ 256) ∧
        (v.toNat = x.toNat * y.toNat % n.toNat ↔
          n.toNat ∣ 2 ^ 256 * (x.toNat % n.toNat * (y.toNat % n.toNat) / 2 ^ 256))) := by
  rw [hst] at hroom
  simp only [List.length_cons] at hroom
  refine ⟨_, _, modular_puts (by omega) .add nofun hst ha hb hc, modular_puts (by omega) .mul nofun hst ha hb hc, ?_, ?_⟩
  · rintro rfl
    exact ⟨rfl, rfl⟩
  intro hn
  have hpos : 0 < n.toNat := Nat.pos_of_ne_zero fun h => hn (toNat_inj.1 h)
  have hsum : (remainder (ArithOp.onWords .add (remainder x n) (remainder y n)) n).toNat =
      (x.toNat % n.toNat + y.toNat % n.toNat) % 2 ^ 256 % n.toNat := by
    simp [toNat_remainder hn, ArithOp.onWords]
  have hproduct : (remainder (ArithOp.onWords .mul (remainder x n) (remainder y n)) n).toNat =
      x.toNat % n.toNat * (y.toNat % n.toNat) % 2 ^ 256 % n.toNat := by
    simp [toNat_remainder hn, ArithOp.onWords]
  refine ⟨hsum, hproduct, ?_, ?_⟩
  · rw [hsum]
    exact sum_mod_eq_iff n.isLt hpos
  · rw [hproduct, Nat.mul_mod x.toNat, mod_mod_eq_mod_iff]

def numbered (ns : List Nat) : GState := (default : GState).withStack (ns.map fun n => .expr (.literal n))

lemma literal_denotes {k : Nat} (h : k < 2 ^ 256) : (literal k).Denotes σ (BitVec.ofNat 256 k) :=
  ⟨rfl, rfl, (Nat.mod_eq_of_lt h).symm, rfl⟩

/-- Five plus four, and five times four, modulo seven. -/
theorem modular_operations_of_small_words :
    ∃ u v : Word, (Opcode.effectOf .addmod).Does (numbered [5, 4, 7]) {} (Puts default (numbered [5, 4, 7]) u []) ∧
      u.toNat = (5 + 4) % 7 ∧
      (Opcode.effectOf .mulmod).Does (numbered [5, 4, 7]) {} (Puts default (numbered [5, 4, 7]) v []) ∧
      v.toNat = 5 * 4 % 7 := by
  obtain ⟨u, v, hu, hv, -, h⟩ := modular_operations_wrap (σ := default) (g := numbered [5, 4, 7]) rfl
    (by decide) (literal_denotes (by decide)) (literal_denotes (by decide))
    (literal_denotes (by decide))
  obtain ⟨-, -, hsum, hproduct⟩ := h (by decide)
  exact ⟨u, v, hu, hsum.2 (by decide), hv, hproduct.2 (by decide)⟩

/-- Twice the largest word but one, modulo the largest word, is off by one. -/
theorem sum_of_large_words_wraps :
    let g := numbered [2 ^ 256 - 2, 2 ^ 256 - 2, 2 ^ 256 - 1]
    (Opcode.effectOf .addmod).Does g {} (Puts default g (BitVec.ofNat 256 (2 ^ 256 - 4)) []) ∧
      2 ^ 256 - 4 ≠ (2 ^ 256 - 2 + (2 ^ 256 - 2)) % (2 ^ 256 - 1) := by
  refine ⟨?_, by decide⟩
  have hlarge : (literal (2 ^ 256 - 2)).Denotes default _ := literal_denotes (by decide)
  have hlargest : (literal (2 ^ 256 - 1)).Denotes default _ := literal_denotes (by decide)
  exact modular_puts (by decide) .add nofun rfl hlarge hlarge hlargest

end Step
end EvmAudit
