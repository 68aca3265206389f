import EvmAudit.Proofs.Immediate
import EvmAudit.Proofs.Layout
import EvmAudit.Proofs.Operands
import EvmAudit.Proofs.Session
import EvmAudit.Step.Perform

/-!
# Instructions on the stack

Each instruction of the reference machine that only works on the stack has the same effect on a stack of expressions: what
it leaves means the words that the machine leaves.
-/

namespace EvmAudit

open Evm (Word)

variable {i : Item} {bytes : List Nat}

def GState.TopKnown (g : GState) : Prop := ∀ e st, g.machine.stack = .expr e :: st → e.Known

variable {σ : Valuation} {g : GState} {s : Session} {e : Expr} {x y : Word} {ws : List Word} {st : Stack}

lemma Evm.eval_eq (x y : Word) : CmpOp.eq.eval x.toNat y.toNat = (x == y) := by
  simp [CmpOp.eval, BitVec.toNat_inj]

lemma Opcode.parse?_dup : ∀ n < 17, Numeral.parse? 10 (Text.drop (dup n).name 3) = some (n : Int) := by
  decide

lemma Text.drop_marker (text : String) : drop ("0x" ++ text) 2 = text := by
  unfold drop
  rw [String.toList_append]
  show .ofList text.toList = text
  exact String.ofList_toList

namespace Step

lemma pop_run (h : g.machine.stack = i :: st) : pop g s = .ok (i, g.withStack st) s := by
  have hpop : g.machine.pop s.ledger = .ok (i, { g.machine with stack := st }) s.ledger := by
    simp only [Machine.pop, h]
    rfl
  have hget : (get : Step GState) g s = .ok (g, g) s := rfl
  exact (bind_ok hget).trans (bind_ok (lift_ok (Engine.lift_ok hpop)))

lemma Does.pop {α : Type} {f : Item → Step α} {R : α → GState → Prop} (h : g.machine.stack = i :: st)
    (hf : Does (f i) (g.withStack st) s R) : Does (pop >>= f) g s R := .step (pop_run h) hf

lemma push_does (h : i.Means σ x) (hroom : g.machine.stack.length < 1024) :
    Does (push i) g s (fun _ g' => ∃ j, j.IsWord σ x ∧ g' = g.withStack (j :: g.machine.stack)) := by
  refine (Does.onMachine (P := fun _ m => ∃ j, Item.IsWord σ j x ∧
    m = { g.machine with stack := j :: g.machine.stack }) ?_).mono ?_
  · have hlim : ¬ g.machine.stack.length ≥ Stack.limit := Nat.not_le.2 hroom
    simp only [Machine.push, Stack.push, hlim, bind_assoc]
    exact (Stack.toWord_gives h).bind fun j hj => .pure ⟨j, hj, rfl⟩
  · rintro a g' ⟨m, rfl, j, hj, rfl⟩
    exact ⟨j, hj, rfl⟩

lemma leave_does (h : i.Means σ x) (hroom : g.machine.stack.length < 1024) :
    Does (do push i; return Effect.next) g s
      (fun eff g' => eff = .next ∧ ∃ j, j.IsWord σ x ∧ g' = g.withStack (j :: g.machine.stack)) := by
  refine (push_does h hroom).bind ?_
  rintro _ g' s' _ hj
  exact .pure ⟨rfl, hj⟩

/-- The frame goes on with a stack that means these words, and nothing else has changed. -/
def Leaves (σ : Valuation) (g : GState) (ws : List Word) (eff : Effect) (g' : GState) : Prop :=
  eff = .next ∧ ∃ st, st.Words σ ws ∧ g' = g.withStack st

lemma leave_leaves (h : i.Means σ x) (hw : st.Words σ ws) (hroom : ws.length < 1024) :
    Does (do push i; return Effect.next) (g.withStack st) s (Leaves σ g (x :: ws)) := by
  refine (leave_does h (by rwa [GState.withStack_stack, hw.length_eq])).mono ?_
  rintro eff g' ⟨rfl, j, hj, rfl⟩
  exact ⟨rfl, j :: st, .cons hj hw, rfl⟩

lemma pop_bind {α : Type} {f : Item → Step α} {R : α → GState → Prop} (hst : Stack.Words σ g.machine.stack (x :: ws))
    (hf : ∀ e st, e.Denotes σ x → st.Words σ ws → Does (f (.expr e)) (g.withStack st) s R) :
    Does (pop >>= f) g s R := by
  obtain ⟨e, st, h, he, hst⟩ := hst.uncons
  exact .pop h (hf e st he hst)

lemma pop_bind_known {α : Type} {f : Item → Step α} {R : α → GState → Prop}
    (hst : Stack.Words σ g.machine.stack (x :: ws)) (hknown : g.TopKnown)
    (hf : ∀ e st, e.Equals x → st.Words σ ws → Does (f (.expr e)) (g.withStack st) s R) : Does (pop >>= f) g s R := by
  obtain ⟨e, st, h, he, hst⟩ := hst.uncons
  obtain ⟨n, hn⟩ := Option.isSome_iff_exists.1 (hknown e st h)
  exact .pop h (hf e st (he.equals hn) hst)

/-! ## Instructions that only move words -/

lemma swap_leaves {n : Nat} (hst : Stack.Words σ g.machine.stack ws) (hx : ws[0]? = some x) (hy : ws[n]? = some y) :
    Does (swap n) g s (Leaves σ g ((ws.set n x).set 0 y)) := by
  obtain ⟨i, hi, hix⟩ := hst.getElem? hx
  obtain ⟨j, hj, hjy⟩ := hst.getElem? hy
  refine .machine (.given (Stack.item_gives hi) ?_)
  rintro i s2 _ rfl
  have hdepth : -(n : Int) - 1 = -((n + 1 : Nat) : Int) := by omega
  rw [hdepth]
  refine .given (Stack.item_gives hj) ?_
  rintro j s3 _ rfl
  refine (Does.onMachine (P := fun _ m => m = { g.machine with stack := (g.machine.stack.set n i).set 0 j }) ?_).bind ?_
  · exact .pure rfl
  rintro _ _ s4 _ ⟨_, rfl, rfl⟩
  exact .pure ⟨rfl, _, (hst.set hix).set hjy, rfl⟩

end Step

variable {s' : Session} {instrs : List Instr} {d : Instr} {k : Nat}

def GState.Lists (g : GState) (s : Session) (instrs : List Instr) : Prop :=
  ∃ p, s.code.programs[g.env.code]? = some p ∧ p.instrs = instrs.toArray

def GState.Runs (g : GState) (s : Session) (bytes : List Nat) : Prop :=
  ∃ p, s.code.programs[g.env.code]? = some p ∧ p.instrs = (Instr.ofBytes bytes).toArray

lemma GState.Lists.grow (h : g.Lists s instrs) (hs : s.Grows s') : g.Lists s' instrs :=
  have ⟨p, hp, hi⟩ := h
  ⟨p, hs.programs hp, hi⟩

lemma GState.Runs.grow (h : g.Runs s bytes) (hs : s.Grows s') : g.Runs s' bytes := Lists.grow h hs

lemma GState.instrAt?_does (h : g.Lists s instrs) (k : Nat) : (g.instrAt? k).Does s (· = instrs[k]?) := by
  obtain ⟨p, hp, hi⟩ := h
  simp only [instrAt?]
  refine (Engine.program_does hp).bind ?_
  rintro _ s' _ rfl
  exact .pure (by rw [hi, Int.toNat_natCast, List.getElem?_toArray])

lemma GState.instr_does (h : g.Lists s instrs) (hpc : g.machine.pc = k) (hd : instrs[k]? = some d) :
    g.instr.Does s (· = d) := by
  unfold instr
  rw [hpc]
  refine (instrAt?_does h k).bind ?_
  rintro _ s' _ rfl
  exact .pure (by rw [hd, Option.getD_some])

namespace Step

section Program

variable {i a b : Nat} (hrun : g.Runs s bytes) (hpc : g.machine.pc = i) (hloc : Instr.Located bytes i a)
  (hb : bytes[a]? = some b) (hst : Stack.Words σ g.machine.stack ws) (hroom : ws.length < 1024)
include hrun hpc hloc hb hst hroom

lemma programCounter_leaves : Does programCounter g s (Leaves σ g (BitVec.ofNat 256 a :: ws)) := by
  refine .get ?_
  rw [hpc]
  refine .after (GState.instrAt?_does hrun i) ?_
  rintro _ s2 _ rfl
  rw [hloc.getElem? hb]
  refine .given (Expr.const_gives σ a 256) fun e s3 _ he => ?_
  exact leave_leaves (.inl he) hst hroom

lemma pushImmediate_leaves (hbytes : ∀ b ∈ bytes, b < 256) (h1 : 0x60 ≤ b) (h2 : b ≤ 0x7f) :
    Does pushImmediate g s (Leaves σ g (Evm.immediate bytes (a + 1) (b - 0x5f) :: ws)) := by
  have hinstr := hloc.getElem? hb
  rw [Instr.ofByte_push bytes a h1 h2] at hinstr
  refine .get (.after (GState.instr_does hrun hpc hinstr) ?_)
  rintro _ s2 _ rfl
  obtain ⟨m, hparse, hm⟩ := Evm.parse?_immediate hbytes (a + 1) (show 0 < b - 0x5f by omega)
  simp only [Text.drop_marker, hparse]
  refine .given (Expr.ofInt_gives σ m 256) fun e s3 _ he => ?_
  rw [BitVec.ofInt_natCast, hm] at he
  exact leave_leaves (.inl he) hst hroom

lemma duplicate_leaves (h1 : 0x80 ≤ b) (h2 : b ≤ 0x8f) (hx : ws[b - 0x80]? = some x) :
    Does duplicate g s (Leaves σ g (x :: ws)) := by
  have hinstr := hloc.getElem? hb
  have hop : (Instr.ofByte bytes a b).opcode = .dup (b - 0x80 + 1) := by
    simp only [Instr.ofByte, Instr.ofCell, Instr.ofByte?_dup h1 h2, Option.getD_some]
    rw [show b - 0x7f = b - 0x80 + 1 by omega]
  refine .get (.after (GState.instr_does hrun hpc hinstr) ?_)
  rintro _ s2 _ rfl
  simp only [hop, Opcode.parse?_dup (b - 0x80 + 1) (by omega)]
  obtain ⟨j, hj, hjx⟩ := hst.getElem? hx
  refine .machine (.given (Stack.item_gives hj) ?_)
  rintro _ s4 _ rfl
  exact leave_leaves hjx.means hst hroom

end Program

end Step
end EvmAudit
