import EvmAudit.Proofs.Calls
import EvmAudit.Proofs.Operations

/-!
# How large code is said to be

The code of an account is text with two digits for a byte, with or without a marker in front, or a list of cells. As its
size the machine is told half the length of that text or list, which is the number of bytes only for text without a
marker. What is copied of the code ends with its last byte in every form.
-/

namespace EvmAudit

open Evm (Word)
open List Hex

variable {σ : Valuation} {g : GState} {s : Session} {e : Expr} {a : Word} {st : Stack} {owner : Account} {p : Program}
  {bytes : List Nat}

/-! ## What is copied -/

lemma Hex.parse?_halves : ∀ b < 256, Numeral.parse? 16 (String.ofList ((halves b).map digit)) = some (b : Int) := by
  decide +kernel

lemma Step.digitPairs_halves (hbytes : ∀ b ∈ bytes, b < 256) (n : Nat) :
    digitPairs n ((bytes.flatMap halves).map digit) = .ok ((bytes.take n).map fun (b : Nat) => .int b) := by
  induction bytes generalizing n with
  | nil => cases n <;> rfl
  | cons b bytes ih =>
    cases n with
    | zero => rfl
    | succ n =>
      have hparse : Numeral.parse? 16 (.ofList [digit (b / 16 % 16), digit (b % 16)]) = some (b : Int) :=
        parse?_halves b (hbytes b mem_cons_self)
      show digitPairs (n + 1) (digit (b / 16 % 16) :: digit (b % 16) :: (bytes.flatMap halves).map digit) = _
      rw [digitPairs, hparse, ih fun b hb => hbytes b (mem_cons_of_mem _ hb)]
      rfl

lemma Hex.drop_flatMap_halves (bytes : List Nat) (i : Nat) :
    (bytes.flatMap halves).drop (2 * i) = (bytes.drop i).flatMap halves := by
  induction i generalizing bytes with
  | zero => rfl
  | succ i ih =>
    cases bytes with
    | nil => rfl
    | cons b bytes => exact ih bytes

lemma Step.codeBytes_ofBytes (hbytes : ∀ b ∈ bytes, b < 256) (n i : Nat) :
    codeBytes (.hex (ofBytes bytes)) n i = .ok (((bytes.drop i).take n).map fun (b : Nat) => .int b) := by
  rw [codeBytes, toList_ofBytes, ← map_drop, drop_flatMap_halves]
  exact digitPairs_halves (fun b hb => hbytes b (mem_of_mem_drop hb)) n

lemma Bytecode.unmarked_marked (text : String) : unmarked (.hex ("0x" ++ text)) = .hex text := by
  have hmark : (Text.take ("0x" ++ text) 2 == "0x") = true := by
    unfold Text.take
    rw [String.toList_append]
    rfl
  rw [unmarked, hmark, if_pos rfl, Text.drop_marker]

lemma Bytecode.unmarked_ofBytes (bytes : List Nat) : unmarked (.hex (ofBytes bytes)) = .hex (ofBytes bytes) := by
  have hdigit : ∀ n < 16, digit n ≠ 'x' := by decide
  have hmark : (Text.take (ofBytes bytes) 2 == "0x") = false := by
    unfold Text.take
    rw [toList_ofBytes]
    cases bytes with
    | nil => rfl
    | cons b bytes =>
      refine beq_false_of_ne fun h => hdigit (b % 16) (Nat.mod_lt b (by decide)) ?_
      have hchars := congrArg String.toList h
      rw [String.toList_ofList] at hchars
      injection hchars with _ hchars
      injection hchars
  rw [unmarked, hmark, if_neg Bool.false_ne_true]

/-! ## What is said -/

namespace Step

lemma codeOf_does {i : ProgramId} (hp : s.code.programs[i]? = some p) : (codeOf i).Does s (· = p.code) := by
  refine (Engine.program_does hp).bind ?_
  rintro _ s1 _ rfl
  exact .pure rfl

lemma codeSize_puts (hp : s.code.programs[g.env.code]? = some p) (hg : ¬ g.IsCreation)
    (hroom : g.machine.stack.length < 1024) :
    Does codeSize g s (Puts σ g (BitVec.ofNat 256 (p.code.length / 2)) g.machine.stack) := by
  refine .env (.after (codeOf_does hp) ?_)
  rintro _ s1 hs1 rfl
  exact .step (isCreation_run (Bool.eq_false_iff.2 hg)) (leave_puts hroom ⟨_, rfl, rfl⟩)

lemma account_does (haccount : g.world.find? (some a.toNat) = some owner) :
    Does (account a.toNat) g s fun r g' => r = .ok owner ∧ g' = g := by
  have hword : ((Item.int a.toNat).toWidth 256).Gives (·.Equals a) := by
    have hof := Expr.ofInt_equals a.toNat 256
    rwa [ofInt_toNat] at hof
  have hfound : (g.world.findOrLoad (.int a.toNat)).Does s (· = (g.world, .ok owner)) := by
    refine .given hword fun word s1 hs1 hword => .given hword.value?_gives ?_
    rintro _ s2 hs2 rfl
    rw [haccount]
    exact .pure rfl
  obtain ⟨_, s1, hrun, hs1, rfl⟩ := hfound
  exact ⟨_, g, s1, (bind_ok rfl).trans (bind_ok (lift_ok hrun)), hs1, rfl, rfl⟩

lemma foreignCodeSize_puts (hst : g.machine.stack = .expr e :: st) (he : e.Equals a)
    (haccount : g.world.find? (some a.toNat) = some owner) (hp : s.code.programs[owner.code]? = some p)
    (hroom : st.length < 1024) : Does foreignCodeSize g s (Puts σ g (BitVec.ofNat 256 (p.code.length / 2)) st) := by
  refine .pop hst (.given (Item.number?_gives he) ?_)
  rintro _ s1 hs1 rfl
  refine (account_does (g := g.withStack st) haccount).bind ?_
  rintro _ _ s2 hs2 ⟨rfl, rfl⟩
  refine .after (codeOf_does ((hs1.trans hs2).programs hp)) ?_
  rintro _ s3 _ rfl
  exact leave_puts hroom ⟨_, rfl, rfl⟩

end Step

/-- Where code runs as a message, and where an account has it, its size is said to be this. -/
def Bytecode.CountsAs (c : Bytecode) (n : Nat) : Prop := ∀ ⦃σ : Valuation⦄ ⦃g : GState⦄ ⦃s : Session⦄ ⦃p : Program⦄,
  p.code = c →
    (s.code.programs[g.env.code]? = some p → ¬ g.IsCreation → g.machine.stack.length < 1024 →
      (Opcode.effectOf .codesize).Does g s (Step.Puts σ g (BitVec.ofNat 256 n) g.machine.stack)) ∧
    ∀ {e : Expr} {a : Word} {st : Stack} {owner : Account}, g.machine.stack = .expr e :: st → e.Equals a →
      g.world.find? (some a.toNat) = some owner → s.code.programs[owner.code]? = some p → st.length < 1024 →
      (Opcode.effectOf .extcodesize).Does g s (Step.Puts σ g (BitVec.ofNat 256 n) st)

lemma Bytecode.countsAs (c : Bytecode) : c.CountsAs (c.length / 2) := by
  rintro σ g s p rfl
  exact ⟨Step.codeSize_puts, Step.foreignCodeSize_puts⟩

/-- **Code is counted by the length of its form.**  Of text without a marker all bytes are counted, of text with one a byte
more, and of a list of cells only half. What can be copied are the bytes, in each form. -/
theorem code_counts_by_form (hbytes : ∀ b ∈ bytes, b < 256) (items : List Item) :
    (Bytecode.hex (ofBytes bytes)).CountsAs bytes.length ∧
    (Bytecode.hex ("0x" ++ ofBytes bytes)).CountsAs (bytes.length + 1) ∧
    (Bytecode.cells items).CountsAs (items.length / 2) ∧
    ∀ n i, Step.codeBytes (Bytecode.hex (ofBytes bytes)).unmarked n i = .ok (((bytes.drop i).take n).map fun (b : Nat) => .int b) ∧
      Step.codeBytes (Bytecode.hex ("0x" ++ ofBytes bytes)).unmarked n i =
        .ok (((bytes.drop i).take n).map fun (b : Nat) => .int b) ∧
      Step.codeBytes (Bytecode.cells items).unmarked n i = .ok ((items.drop i).take n) := by
  have hlength : (ofBytes bytes).length = 2 * bytes.length := by
    rw [← String.length_toList, toList_ofBytes, length_map, length_flatMap_halves]
  have hplain : (Bytecode.hex (ofBytes bytes)).length / 2 = bytes.length := by
    rw [Bytecode.length, hlength, Nat.mul_div_cancel_left _ (by decide)]
  have hmarked : (Bytecode.hex ("0x" ++ ofBytes bytes)).length / 2 = bytes.length + 1 := by
    rw [Bytecode.length, String.length_append, hlength]
    show (2 + 2 * bytes.length) / 2 = _
    omega
  have hcopied := Step.codeBytes_ofBytes hbytes
  refine ⟨hplain ▸ Bytecode.countsAs _, hmarked ▸ Bytecode.countsAs _, Bytecode.countsAs _, fun n i => ?_⟩
  rw [Bytecode.unmarked_ofBytes, Bytecode.unmarked_marked]
  exact ⟨hcopied n i, hcopied n i, rfl⟩

lemma Bytecode.CountsAs.of_marked {n : Nat} (h : (hex "0x38").CountsAs n) :
    (Opcode.effectOf .codesize).Does (.ofOperands []) (.ofCodes ["0x38"])
      (Step.Puts default (.ofOperands []) (BitVec.ofNat 256 n) []) :=
  (h (by with_unfolding_all rfl)).1 rfl Bool.false_ne_true (by decide)

/-- Code of one byte with a marker is said to have two bytes. -/
theorem marked_byte_counts_twice : (Opcode.effectOf .codesize).Does (.ofOperands []) (.ofCodes ["0x38"])
    (Step.Puts default (.ofOperands []) 2 []) := by
  have hbytes : ∀ b ∈ [0x38], b < 256 := by decide
  exact Bytecode.CountsAs.of_marked (code_counts_by_form hbytes []).2.1

theorem marked_byte_not_single : ¬ (Bytecode.hex "0x38").CountsAs 1 := by
  intro hsingle
  obtain ⟨_, _, _, hrun, -, -, i, ⟨e, rfl, hone⟩, rfl⟩ := hsingle.of_marked
  obtain ⟨_, _, _, hrun', -, -, i, ⟨e', rfl, htwo⟩, hg⟩ := (Bytecode.countsAs (.hex "0x38")).of_marked
  cases hrun.symm.trans hrun'
  cases hg
  exact absurd (hone.denote.symm.trans htwo.denote) (by decide)

end EvmAudit
