import EvmAudit.Proofs.Copy
import EvmAudit.Proofs.Effects

/-!
# Where jumps lead

A jump to an address looks at the first instruction there or behind it. A conditional jump leads to a copy of the state
on each side that is not known to be impossible, under the condition of that side: so the inputs are split between them.
-/

namespace EvmAudit

open List
open Evm (Word)

variable {instrs : List Instr} {a : Int} {i : Nat} {d : Instr} {F : Fault → Prop}

namespace Instr

/-- What a jump to an address looks at: the first instruction there or behind it, with its place. -/
def landing (instrs : List Instr) (a : Int) : Option (Nat × Instr) :=
  (indexOf? a instrs).bind fun i => instrs[i]?.map (i, ·)

lemma landing_eq_some_iff : landing instrs a = some (i, d) ↔
    instrs[i]? = some d ∧ a ≤ d.address ∧ ∀ j < i, ∀ b, instrs[j]? = some b → b.address < a := by
  unfold landing indexOf?
  constructor
  · intro h
    obtain ⟨j, hj, hd⟩ := Option.bind_eq_some_iff.1 h
    obtain ⟨d', hd', hsame⟩ := Option.map_eq_some_iff.1 hd
    cases hsame
    obtain ⟨hi, hle, hbefore⟩ := findIdx?_eq_some_iff_getElem.1 hj
    obtain ⟨_, hat⟩ := List.getElem?_eq_some_iff.1 hd'
    rw [hat] at hle
    refine ⟨hd', of_decide_eq_true hle, fun k hk b hb => ?_⟩
    obtain ⟨-, rfl⟩ := List.getElem?_eq_some_iff.1 hb
    have := hbefore k hk
    rw [decide_eq_true_eq] at this
    omega
  · rintro ⟨hd, hle, hbefore⟩
    obtain ⟨hi, rfl⟩ := List.getElem?_eq_some_iff.1 hd
    have hfound : instrs.findIdx? (fun b => decide (a ≤ (b.address : Int))) = some i := by
      rw [findIdx?_eq_some_iff_getElem]
      refine ⟨hi, decide_eq_true hle, fun j hj => ?_⟩
      have := hbefore j hj _ (getElem?_eq_getElem (by omega))
      rw [decide_eq_true_eq]
      omega
    rw [hfound, Option.bind_some, hd]
    rfl

lemma landing_ne_none (hd : d ∈ instrs) (hle : a ≤ d.address) : landing instrs a ≠ none := by
  unfold landing indexOf?
  cases hi : instrs.findIdx? (fun b => decide (a ≤ (b.address : Int))) with
  | none =>
    have := findIdx?_eq_none_iff.1 hi d hd
    rw [decide_eq_false_iff_not] at this
    exact absurd hle this
  | some i =>
    obtain ⟨hlt, -⟩ := findIdx?_eq_some_iff_getElem.1 hi
    simp [hlt]

/-- The address is that of such an instruction, or inside of the instruction right before one. -/
def Heads (op : Opcode) (instrs : List Instr) (a : Nat) : Prop :=
  ∃ i d, instrs[i]? = some d ∧ d.opcode = op ∧
    (d.address = a ∨ ∃ j b, i = j + 1 ∧ instrs[j]? = some b ∧ b.address < a ∧ a < d.address)

lemma heads_iff {code : Bytecode} (h : ofCode code = .ok instrs) {op : Opcode} {a : Nat} :
    (∃ i d, landing instrs a = some (i, d) ∧ d.opcode = op) ↔ Heads op instrs a := by
  obtain ⟨hapart, hfirst⟩ := laid_ofCode h
  have hbefore {i j : Nat} {d b} (hd : instrs[i]? = some d) (hj : j < i) (hb : instrs[j]? = some b) :
      b.address < d.address := by
    obtain ⟨hi, rfl⟩ := List.getElem?_eq_some_iff.1 hd
    obtain ⟨hj', rfl⟩ := List.getElem?_eq_some_iff.1 hb
    exact Nat.lt_of_lt_of_le (address_lt_stop _) (pairwise_iff_getElem.1 hapart j i hj' hi hj)
  constructor
  · rintro ⟨i, d, hl, hop⟩
    obtain ⟨hd, hle, hless⟩ := landing_eq_some_iff.1 hl
    refine ⟨i, d, hd, hop, ?_⟩
    by_cases heq : d.address = a
    · exact .inl heq
    cases i with
    | zero =>
      have := hfirst d hd
      omega
    | succ j =>
      obtain ⟨hi, -⟩ := List.getElem?_eq_some_iff.1 hd
      have hb := getElem?_eq_getElem (l := instrs) (i := j) (by omega)
      have := hless j (Nat.lt_succ_self j) _ hb
      exact .inr ⟨j, _, rfl, hb, by omega, by omega⟩
  · rintro ⟨i, d, hd, hop, hplace⟩
    refine ⟨i, d, landing_eq_some_iff.2 ⟨hd, ?_, fun k hk c hc => ?_⟩, hop⟩
    · rcases hplace with rfl | ⟨-, -, -, -, -, hlt⟩ <;> omega
    rcases hplace with rfl | ⟨j, b, rfl, hb, hlt, -⟩
    · exact Int.ofNat_lt.2 (hbefore hd hk hc)
    rcases Nat.lt_or_eq_of_le (Nat.le_of_lt_succ hk) with hk | rfl
    · have := hbefore hb hk hc
      omega
    · obtain rfl := Option.some.inj (hb.symm.trans hc)
      omega

end Instr

variable {g g₁ g' : GState} {s s' : Session} {σ : Valuation} {e c : Expr} {a x : Word} {st : Stack}

/-- A copy of the state that goes on at a place under one more condition. -/
def GState.Branches (g : GState) (pc : Int) (e : Expr) (g' : GState) : Prop :=
  ∃ g₁, g.CopyOf g₁ ∧ g.Retains g₁ ∧
    g' = { g₁ with
      machine := { g₁.machine.useGas 10 10 with pc := pc, depth := g₁.machine.depth + 1 }
      world := { g₁.world with constraints := g₁.world.constraints ++ [e] } }

lemma Machine.Sound.withStack (h : g.machine.Sound) {t : Stack} (hst : g.machine.stack = t ++ st) :
    (g.withStack st).machine.Sound := by
  have hsuffix : st <:+ g.machine.stack := hst ▸ suffix_append t st
  exact { h with stack := fun i hi => h.stack i (hsuffix.subset hi), room := Nat.le_trans hsuffix.length_le h.room }

namespace Step

lemma destination_run (h : g.Lists s instrs) (a : Int) : destination a g s = .ok (Instr.landing instrs a, g) s := by
  obtain ⟨p, hp, hinstrs⟩ := h
  have hprogram : Engine.program g.env.code s = .ok p s := by
    show EStateM.Result.ok (s.code.programs.getD g.env.code default) s = _
    rw [Array.getD_eq_getD_getElem?, hp, Option.getD_some]
  rw [destination, bind_ok rfl, bind_ok (lift_ok hprogram)]
  simp only [hinstrs, getElem?_toArray]
  unfold Instr.landing
  cases Instr.indexOf? a instrs <;> rfl

/-! ## Conditional jumps -/

lemma side_does (hg : g.machine.Sound) (pc : Int) (hroom : e.term.overrun .empty = none) :
    Does (side pc e) g s (fun g' g'' => g'' = g ∧ g.Branches pc e g') := by
  refine .get (.after (GState.copy_does hg true) ?_)
  rintro g1 s1 _ ⟨hcopy, -, hkept⟩
  refine (Does.calc (GState.constrain_gives _ hroom)).mono ?_
  rintro _ _ ⟨rfl, rfl⟩
  exact ⟨rfl, g1, hcopy, hkept, rfl⟩

/-- The second half of a conditional jump: unless it is known not to be taken, a state at its destination is added to
those that are there already. -/
abbrev turn (e : Expr) (address : Int) (passed : List GState) : Step Effect := do
  match ← destination address with
  | some (index, ⟨_, .jumpdest, _⟩) =>
    if ← e.isFalse then return .branch passed
    return .branch (passed ++ [← side index e])
  | _ => return .branch passed

lemma turn_does (hg : g.machine.Sound) (hlists : g.Lists s instrs) {a : Int} {b : Bool} (he : e.Says σ b)
    (passed : List GState) : Does (turn e a passed) g s (fun eff _ => ∃ taken, eff = .branch (passed ++ taken.toList) ∧
        (∀ g' ∈ taken, ∃ i d e, Instr.landing instrs a = some (i, d) ∧ d.opcode = .jumpdest ∧ e.Says σ b ∧
          g.Branches i e g') ∧
        ∀ i d, Instr.landing instrs a = some (i, d) → d.opcode = .jumpdest → taken = none → e.term.value? = some 0) := by
  refine .step (destination_run hlists a) ?_
  split
  · rename_i index address argument hl
    refine .given he.isFalse fun isFalse s2 _ hfalse => ?_
    cases isFalse with
    | true => exact .pure ⟨none, by simp, by simp, fun _ _ _ _ _ => hfalse.1 rfl⟩
    | false =>
      refine (side_does hg index he.room).bind ?_
      rintro g1 g2 s3 _ ⟨rfl, hside⟩
      refine .pure ⟨some g1, rfl, ?_, by simp⟩
      intro g' hg'
      obtain rfl := Option.mem_some_iff.1 hg'
      exact ⟨index, _, e, hl, rfl, he, hside⟩
  · rename_i hno
    refine .pure ⟨none, by simp, by simp, ?_⟩
    rintro i ⟨address, _, argument⟩ hl rfl
    exact absurd hl (hno i address argument)

/-- The two sides of a conditional jump. One is left out only if its condition is known not to hold, or if there is no
destination. -/
structure Splits (σ : Valuation) (g : GState) (instrs : List Instr) (a x : Word) (known : Option Nat)
    (passed taken : Option GState) : Prop where
  pass : ∀ g' ∈ passed, ∃ e, e.Says σ (x == 0) ∧ g.Branches (g.machine.pc + 1) e g'
  turn : ∀ g' ∈ taken, ∃ i d e, Instr.landing instrs a.toNat = some (i, d) ∧ d.opcode = .jumpdest ∧
    e.Says σ (x != 0) ∧ g.Branches i e g'
  notPassed : passed = none → x ≠ 0
  notTaken : ∀ i d, Instr.landing instrs a.toNat = some (i, d) → d.opcode = .jumpdest → taken = none → known = some 0

lemma jumpIf_does (hg : g.machine.Sound) (hlists : g.Lists s instrs) (hst : g.machine.stack = .expr e :: .expr c :: st)
    (he : e.Equals a) (hc : c.Denotes σ x) : Does jumpIf g s (fun eff _ => ∃ passed taken,
      eff = .branch (passed.toList ++ taken.toList) ∧ Splits σ (g.withStack st) instrs a x c.term.value? passed taken) := by
  have htop : (Stack.toWord (.expr c)).Gives (· = .expr c) := by
    rw [Stack.toWord_isPushed (i := .expr c) hc.isProp]
    exact .pure rfl
  refine .pop hst (.pop rfl (.given htop ?_))
  rintro _ s1 hs1 rfl
  have hg1 := hg.withStack (t := [.expr e, .expr c]) hst
  have hlists1 : (g.withStack st).Lists s instrs := hlists
  rw [GState.withStack_withStack]
  generalize g.withStack st = g1 at hg1 hlists1 ⊢
  refine .machine (.given (Item.number?_gives he) ?_)
  rintro _ s2 hs2 rfl
  refine .given (Expr.equateInt_value? .eq 0 hc) fun negative s3 hs3 hneg => .given (Expr.simplified_gives hneg.1.room) ?_
  rintro negative s4 hs4 rfl
  refine .given (Expr.equateInt_value? .ne 0 hc) fun positive s5 hs5 hpos => .given (Expr.simplified_gives hpos.1.room) ?_
  rintro positive s6 hs6 rfl
  have hs := hs1.trans (hs2.trans (hs3.trans (hs4.trans (hs5.trans hs6))))
  rw [show CmpOp.eq.eval x.toNat (BitVec.ofInt 256 0).toNat = (x == 0) from Evm.eval_eq x 0] at hneg
  rw [show CmpOp.ne.eval x.toNat (BitVec.ofInt 256 0).toNat = (x != 0) from
    congrArg not (Evm.eval_eq x 0)] at hpos
  have hzero : positive.term.value? = some 0 → c.term.value? = some 0 := by
    rw [hpos.2]
    cases c.term.value? with
    | none => rintro ⟨⟩
    | some v => simp [CmpOp.eval, Term.ofBool]
  have hnonzero : negative.term.value? = some 0 → x ≠ 0 := by
    rw [hneg.2]
    cases hv : c.term.value? with
    | none => rintro ⟨⟩
    | some v =>
      rintro hfalse rfl
      obtain rfl := hc.eq_of_value? hv
      cases hfalse
  refine .given hneg.1.isFalse fun b s7 hs7 hb => ?_
  cases b with
  | true =>
    refine (turn_does hg1 (hlists1.grow (hs.trans hs7)) hpos.1 []).mono ?_
    rintro _ _ ⟨taken, rfl, htaken, hnot⟩
    refine ⟨none, taken, rfl, by simp, htaken, fun _ => hnonzero (hb.1 rfl), ?_⟩
    exact fun i d hl hd hnone => hzero (hnot i d hl hd hnone)
  | false =>
    refine (side_does hg1 (g1.machine.pc + 1) hneg.1.room).bind ?_
    rintro g2 g1 s8 hs8 ⟨rfl, hside⟩
    refine (turn_does hg1 (hlists1.grow (hs.trans (hs7.trans hs8))) hpos.1 [g2]).mono ?_
    rintro _ _ ⟨taken, rfl, htaken, hnot⟩
    refine ⟨some g2, taken, rfl, ?_, htaken, by simp, fun i d hl hd hnone => hzero (hnot i d hl hd hnone)⟩
    intro g' hg'
    obtain rfl := Option.mem_some_iff.1 hg'
    exact ⟨negative, hneg.1, hside⟩

/-! ## Jumps -/

def Fails {α : Type} (x : Step α) (g : GState) (s : Session) (F : Fault → Prop) : Prop := ∃ f s', x g s = .error f s' ∧ F f

lemma Fails.throw {α : Type} {f : Fault} (h : F f) : Fails (throw f : Step α) g s F := ⟨f, s, rfl, h⟩

lemma Fails.step {α β : Type} {x : Step α} {k : α → Step β} {a : α} (hx : x g s = .ok (a, g') s')
    (hk : Fails (k a) g' s' F) : Fails (x >>= k) g s F := by
  unfold Fails
  rwa [bind_ok hx]

def jumped (g : GState) (st : Stack) (pc : Int) : GState :=
  { g with machine := { g.machine.useGas 8 8 with stack := st, pc := pc } }

section

variable (hlists : g.Lists s instrs) (hst : g.machine.stack = .expr e :: st) (he : e.Equals a)
include hlists hst he

lemma jump_does (hg : g.machine.Sound) (hl : Instr.landing instrs a.toNat = some (i, d)) (hd : d.opcode = .jumpdest) :
    Does jump g s (fun eff _ => ∃ g', eff = .branch [g'] ∧ (jumped g st i).CopyOf g') := by
  refine .machine ?_
  simp only [hst]
  refine .pop hst (.given (Item.number?_gives he) ?_)
  rintro _ s1 hs1 rfl
  refine .step (destination_run (g := g.withStack st) (hlists.grow hs1) a.toNat) ?_
  simp only [hl, hd]
  have hsound : (jumped g st i).machine.Sound := { hg.withStack (t := [.expr e]) hst with }
  refine .modify (.modify (.get (.after (GState.copy_does hsound false) ?_)))
  rintro g2 s2 _ ⟨hcopy, -⟩
  exact .pure ⟨g2, rfl, hcopy⟩

lemma jump_fails (hno : ∀ i d, Instr.landing instrs a.toNat = some (i, d) → d.opcode ≠ .jumpdest) :
    Fails jump g s (fun f => ∃ text, f = invalidJump text) := by
  obtain ⟨_, s1, hnumber, hs1, rfl⟩ := Engine.Does.calc (Item.number?_gives he)
  refine .step rfl ?_
  simp only [hst]
  refine .step (pop_run hst) (.step (lift_ok hnumber) ?_)
  refine .step (destination_run (g := g.withStack st) (hlists.grow hs1) a.toNat) ?_
  cases hl : Instr.landing instrs a.toNat with
  | none => exact .throw ⟨_, rfl⟩
  | some p =>
    have hd := beq_false_of_ne (hno p.1 p.2 hl)
    simp only [hd]
    exact ⟨_, _, rfl, _, rfl⟩

end

end Step

end EvmAudit
