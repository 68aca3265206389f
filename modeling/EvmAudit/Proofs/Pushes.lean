import EvmAudit.Proofs.Calls

/-!
# What a push leaves

The immediate of a push can be cut off by the end of the code. In code of digits the digits that are missing count as
zeros, so that the machine pushes the right word. In code of cells as many bits are added as bytes are missing, and where
no byte is left the step fails.
-/

namespace EvmAudit

open List EvmAudit.Expr Memory
open Evm (Word)

variable {σ : Valuation} {g : GState} {s : Session} {ws : List Word} {instrs : List Instr} {d : Instr} {i n : Nat}
  {items : List Item} {bs : List (BitVec 8)}

lemma Opcode.ofByte?_push {b : Nat} (h : ofByte? b = some (.push n)) : 0x60 ≤ b ∧ b ≤ 0x7f ∧ n = b - 0x5f := by
  have hspan : n = Evm.immediateLength b := by
    rw [← Instr.span_ofByte?, Instr.span, h]
    rfl
  unfold Evm.immediateLength at hspan
  split at hspan
  · rename_i hb
    exact ⟨hb.1, hb.2, hspan⟩
  · exact absurd hspan (ne_zero_of_push h)

lemma Instr.of_ofCell_push {α : Type} {opcodeOf : α → Option Opcode} {argumentOf : List α → Option Argument} {a : Nat}
    {c : α} {rest : List α} (h : (ofCell opcodeOf argumentOf a c rest).opcode = .push n) : opcodeOf c = some (.push n) := by
  unfold ofCell at h
  cases hc : opcodeOf c with
  | none => simp [hc] at h
  | some op => simpa [hc] using h

lemma Instr.ofCells_push (h : ofCells items = .ok instrs) (hi : instrs[i]? = some d) (hop : d.opcode = .push n) :
    n ≤ 32 ∧ d.argument =
      let arg := (items.drop (d.address + 1)).take n
      if arg.isEmpty then none else some (.cells arg) := by
  obtain ⟨room, hroom, rfl⟩ := ofCells_decodes h
  obtain ⟨k, c, -, -, rfl, -⟩ := decode_getElem? _ _ hroom hi
  have hc := of_ofCell_push hop
  have hspan : span opcodeOfCell c = n := by
    rw [span, hc]
    rfl
  have hn : n ≤ 32 ∧ n ≠ 0 := by
    unfold opcodeOfCell at hc
    split at hc
    · split at hc
      · have := Opcode.ofByte?_push hc
        omega
      · cases hc
    · cases hc
  refine ⟨hn.1, ?_⟩
  simp [ofCell, hspan, hn.2]

lemma Expr.foldlM_concat_gives {es : List Expr} {a : Expr} {v w : Nat} (ha : a.Part σ (w, v)) (h : Forall₂ (Denotes σ) es bs) :
    (es.foldlM (fun acc c => concat [acc, c]) a).Gives
      (Part σ · (w + 8 * bs.length, bs.foldl (fun acc b => acc * 256 + b.toNat) v)) := by
  induction h generalizing a w v with
  | nil => exact .pure ha
  | @cons e b es bs he _ ih =>
    refine (ha.concat_gives (he.part)).bind fun acc hacc => (ih hacc).mono fun r hr => ?_
    rwa [length_cons, foldl_cons, show w + 8 * (bs.length + 1) = w + 8 + 8 * bs.length by omega]

namespace Step

variable {e : Expr} {v w : Nat}

section

variable (hst : Stack.Words σ g.machine.stack ws) (hroom : ws.length < 1024)
include hst hroom

lemma widen_leaves (he : e.Part σ (w, v)) (hw : w ≤ 256) :
    Does (do
      let value ← if e.width < 256 then do concat [← const 0 (256 - e.width), e] else pure e
      leave value) g s (Leaves σ g (BitVec.ofNat 256 v :: ws)) := by
  have hwidth := he.width
  rw [hwidth]
  split
  · refine .given (zero_gives σ _) fun z s1 _ hz => .given (hz.concat_gives he) fun e' s2 _ he' => ?_
    rw [Nat.sub_add_cancel hw, Nat.zero_mul, Nat.zero_add] at he'
    exact leave_leaves (.inl he'.denotes) hst hroom
  · obtain rfl : w = 256 := by omega
    exact leave_leaves (.inl he.denotes) hst hroom

/-- For each byte that is missing there is a bit. -/
lemma pushImmediate_cells (hlists : g.Lists s instrs) (hpc : g.machine.pc = i) (hd : instrs[i]? = some d)
    (hop : d.opcode = .push n) (hn : n ≤ 32) (harg : d.argument = some (.cells items)) (hlen : items.length ≤ n)
    (hitems : Forall₂ (Item.IsByte σ) items bs) (hne : bs ≠ []) :
    Does pushImmediate g s (Leaves σ g (ofBytes bs <<< (n - bs.length) :: ws)) := by
  refine .get (.after (GState.instr_does hlists hpc hd) ?_)
  rintro _ s2 _ rfl
  simp only [hop, harg, hitems.length_eq] at hlen ⊢
  refine .given (.mapM_of_forall₂ (T := Denotes σ) hitems ?_) fun cells s3 _ hcells => ?_
  · intro c b hc
    cases c with
    | expr e => exact .pure hc
    | int n | bool n | absent => exact toWidth_gives hc
  cases hcells with
  | nil => exact absurd rfl hne
  | @cons first b rest bs hfirst hrest =>
    refine .given (foldlM_concat_gives (hfirst.part) hrest) fun value s4 _ hvalue => ?_
    have hword m : BitVec.ofNat 256 (bs.foldl (fun acc b => acc * 256 + b.toNat) b.toNat * 2 ^ m) =
        ofBytes (b :: bs) <<< m := by
      apply BitVec.eq_of_toNat_eq
      simp [ofBytes, Nat.shiftLeft_eq]
    rw [length_cons] at hlen ⊢
    rw [← hword]
    split
    · refine .given (zero_gives σ _) fun z s5 _ hz => .given (hvalue.concat_gives hz) fun e s6 _ he => ?_
      exact widen_leaves hst hroom he (by omega)
    · rw [show n - (bs.length + 1) = 0 by omega, Nat.mul_one]
      exact widen_leaves hst hroom hvalue (by omega)

end

lemma pushImmediate_fails (hlists : g.Lists s instrs) (hpc : g.machine.pc = i) (hd : instrs[i]? = some d)
    (harg : d.argument = none) : Fails pushImmediate g s (· = .noSuchKey) := by
  obtain ⟨_, s1, hrun, -, rfl⟩ := GState.instr_does hlists hpc hd
  refine .step rfl (.step (lift_ok hrun) ?_)
  simp only [harg]
  exact .throw rfl

end Step

/-- **What is missing of an immediate is filled up by the form of the code.**  A push in code of digits leaves the number
that its bytes spell, with zeros beyond the end. In code of cells a number of bits is added instead of bytes, so that only
a whole immediate is right, and without any cell the step fails. -/
theorem push_fills_by_form {code : Bytecode} (hcode : Instr.ofCode code = .ok instrs) (hlists : g.Lists s instrs)
    (hpc : g.machine.pc = i) (hd : instrs[i]? = some d) (hop : d.opcode = .push n)
    (hst : Stack.Words σ g.machine.stack ws) (hroom : ws.length < 1024) :
    (∀ text bytes, code = .hex text → Hex.decode? text = some bytes →
      d.opcode.effectOf.Does g s (Step.Leaves σ g (Evm.immediate bytes (d.address + 1) n :: ws))) ∧
    ∀ items bs, code = .cells items → Forall₂ (Item.IsByte σ) items bs →
      let kept := (bs.drop (d.address + 1)).take n
      (kept = [] → d.opcode.effectOf.Fails g s (· = .noSuchKey)) ∧
      (kept ≠ [] → d.opcode.effectOf.Does g s (Step.Leaves σ g (ofBytes kept <<< (n - kept.length) :: ws))) ∧
      (kept.length = n → ofBytes kept = Evm.immediate (bs.map (·.toNat)) (d.address + 1) n) := by
  rw [hop]
  constructor
  · rintro text bytes rfl hbytes
    simp only [Instr.ofCode, hbytes, Except.ok.injEq] at hcode
    subst hcode
    obtain ⟨b, hb, hinstr, -⟩ := Instr.ofBytes_getElem? hd
    have hpush : Opcode.ofByte? b = some (.push n) := by
      rw [hinstr] at hop
      exact Instr.of_ofCell_push hop
    obtain ⟨h1, h2, rfl⟩ := Opcode.ofByte?_push hpush
    exact Step.pushImmediate_leaves hlists hpc (.inl ⟨d, hd, rfl⟩) hb hst hroom (Hex.readBytes_lt hbytes) h1 h2
  · rintro items bs rfl hitems
    obtain ⟨hn, harg⟩ := Instr.ofCells_push hcode hd hop
    extract_lets kept
    have hkept : Forall₂ (Item.IsByte σ) ((items.drop (d.address + 1)).take n) kept :=
      forall₂_take n (forall₂_drop (d.address + 1) hitems)
    have hshort := length_take_le n (items.drop (d.address + 1))
    generalize (items.drop (d.address + 1)).take n = arg at harg hkept hshort
    refine ⟨fun hnil => ?_, fun hne => ?_, fun hlen => ?_⟩
    · obtain rfl : arg = [] := forall₂_nil_right_iff.1 (hnil ▸ hkept)
      exact Step.pushImmediate_fails hlists hpc hd harg
    · have harg' : arg ≠ [] := by
        rintro rfl
        exact hne (forall₂_nil_left_iff.1 hkept)
      have hcells := harg.trans (if_neg (mt List.isEmpty_iff.1 harg'))
      exact Step.pushImmediate_cells hst hroom hlists hpc hd hop hn hcells hshort hkept hne
    · rw [Evm.immediate_eq, ← map_drop, ← map_take, length_map, hlen, Nat.sub_self, replicate_zero, append_nil, foldl_map]
      rfl

def Session.ofCells (items : List Item) : Session :=
  { code := { programs := #[(Program.assign { code := .cells items } {} (.cells items)).program] } }

def halfPush : List Item := [.int 0x61, .int 1]

theorem half_immediate_doubles : (Opcode.effectOf (.push 2)).Does (.ofOperands []) (.ofCells halfPush)
    (Step.Leaves default (.ofOperands []) [2]) := by
  have hcode : Instr.ofCode (.cells halfPush) = .ok [⟨0, .push 2, some (.cells [.int 1])⟩] := by with_unfolding_all rfl
  have hlists : (GState.ofOperands []).Lists (.ofCells halfPush) [⟨0, .push 2, some (.cells [.int 1])⟩] :=
    ⟨_, rfl, by with_unfolding_all rfl⟩
  have hst : Stack.Words default (GState.ofOperands []).machine.stack [] := .nil
  have hcells : Forall₂ (Item.IsByte default) halfPush [0x61, 1] := .cons rfl (.cons rfl .nil)
  exact ((push_fills_by_form hcode hlists rfl rfl rfl hst (by decide)).2 _ _ rfl hcells).2.1 (by decide)

theorem half_immediate_is_two : (GState.ofOperands []).performs (.push 2) (.ofCells halfPush) (fun o => match o with
      | .states [g'] => match g'.machine.stack with
        | [.expr e] => e.term.value? == some 2
        | _ => false
      | _ => false) = true := by
  decide +kernel

end EvmAudit
