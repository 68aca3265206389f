import EvmAudit.Detect.Watch
import EvmAudit.Proofs.Calls

/-!
# Operands that a detector misses

Detectors are asked before an instruction is performed, when only the operands that the table asks for are known to be
there. The table asks for one operand of a store, the detector of broken ranges reads the second one, and what it misses
is no fault of the machine but ends the analysis.
-/

namespace EvmAudit

open Engine (bind_ok bind_error)

variable {g : GState} {s : Session} {i : Instr} {x : Item}

lemma GState.instr_run (hi : g.due s = some i) : g.instr s = .ok i s := by
  rw [g.instr_eq s, hi]
  rfl

def Detector.isSettled (d : Detector) (g : GState) (i : Instr) (s : Session) : Bool :=
  s.findings.knows d (some (i.address : Int)) (CodeHash.text s.ledger (s.code.programs.getD g.env.code default).code)

/-- Asked about a store with one operand, the detector misses the second one. -/
lemma Detect.integerArithmetics_misses (hi : g.due s = some i) (hop : i.opcode = .sstore)
    (hst : g.machine.stack = [x]) : integerArithmetics g s = .error Stack.accessFault s := by
  have hoperand : (liftM (g.operand 2) : Engine Item) s = .error Stack.accessFault s := by
    unfold GState.operand
    rw [hst]
    rfl
  unfold integerArithmetics
  rw [bind_ok (GState.instr_run hi), hop]
  exact bind_error hoperand

lemma Detector.observer_misses (hi : g.due s = some i) (hop : i.opcode = .sstore) (hst : g.machine.stack = [x])
    (hopen : integerArithmetics.isSettled g i s = false) :
    integerArithmetics.observer .before g s = .error Stack.accessFault s := by
  have hfinds : integerArithmetics.analyse (some .before) g s = .error Stack.accessFault s :=
    bind_error (Detect.integerArithmetics_misses hi hop hst)
  refine bind_error ?_
  unfold inspect
  rw [bind_ok (GState.instr_run hi)]
  have hhash : g.codeHash s = .ok (CodeHash.text s.ledger (s.code.programs.getD g.env.code default).code) s := rfl
  rw [bind_ok hhash, bind_ok (Engine.get_run s), if_neg (by rw [← isSettled, hopen]; decide)]
  exact bind_error hfinds

namespace Explore

/-- Whatever detectors follow, a store with one operand ends the analysis for want of the second one, unless the detector
of broken ranges has settled the place. -/
theorem store_of_one_operand_aborts (ds : List Detector) (hi : g.due s = some i) (hop : i.opcode = .sstore)
    (hst : g.machine.stack = [x]) (hopen : Detector.integerArithmetics.isSettled g i s = false) :
    execute (Detector.hooks (.integerArithmetics :: ds)) g s = .error Stack.accessFault s := by
  have htell : Hooks.tell ((Detector.hooks (.integerArithmetics :: ds)).before .sstore) g s =
      .error Stack.accessFault s := bind_error (Detector.observer_misses hi hop hst hopen)
  have hstate : Engine.attempt (Hooks.tell (Detector.hooks (.integerArithmetics :: ds)).onState g) s = .ok (.ok g) s := rfl
  unfold execute
  rw [bind_ok hstate]
  dsimp only
  rw [bind_ok (g.instrAt?_run s), hi]
  dsimp only
  rw [hop, if_neg (by rw [hst]; exact Nat.lt_irrefl 1), bind_ok (Engine.attempt_error htell)]
  rfl

theorem store_of_a_word_aborts : ∃ (g : GState) (s : Session), g.IsAt .sstore s ∧
    Opcode.sstore.needs ≤ g.machine.stack.length ∧
    execute (Detector.hooks (.integerArithmetics :: Detector.all)) g s = .error Stack.accessFault s := by
  obtain ⟨i, hi, hop⟩ : (GState.ofOperands [1]).IsAt .sstore (.ofCodes ["55"]) := by decide +kernel
  exact ⟨_, _, ⟨i, hi, hop⟩, by decide, store_of_one_operand_aborts _ hi hop rfl rfl⟩

def callbacks : List Detector := Detector.all.filter (·.info.entry == .callback)

/-- One word is pushed and stored. With all of them this ends the analysis. -/
theorem detectors_abort_a_short_store : ∃ (g : GState) (s : Session) (r : GState.Executed) (s₁ : Session) (g₁ : GState)
    (text : String) (s₂ : Session), g.machine.stack = [] ∧ execute (Detector.hooks callbacks) g s = .ok r s₁ ∧
      g₁ ∈ r.successors ∧ execute (Detector.hooks callbacks) g₁ s₁ = .error (.vm .stackUnderflow text) s₂ := by
  obtain ⟨r, s₁, hr, g₁, hg₁, _, s₂, hmiss, rfl⟩ : ∃ r s₁,
      execute (Detector.hooks callbacks) (.ofOperands []) (.ofCodes ["600055"]) = .ok r s₁ ∧ ∃ g₁ ∈ r.successors,
      ∃ f s₂, execute (Detector.hooks callbacks) g₁ s₁ = .error f s₂ ∧ f = Stack.accessFault := by decide +kernel
  exact ⟨_, _, r, s₁, g₁, _, s₂, rfl, hr, hg₁, hmiss⟩

end Explore

end EvmAudit
