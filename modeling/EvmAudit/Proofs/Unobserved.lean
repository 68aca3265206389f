import EvmAudit.Explore.Run
import EvmAudit.Proofs.Session

/-!
# Exploration without observers

When nobody observes an exploration, performing a state comes down to performing its instruction and ending or starting
frames.
-/

namespace EvmAudit

open Engine

/-! ## What is due -/

namespace GState

def due (g : GState) (s : Session) : Option Instr :=
  if g.machine.pc < 0 then none else (s.code.programs.getD g.env.code default).instrs[g.machine.pc.toNat]?

lemma instrAt?_run (g : GState) (s : Session) : g.instrAt? g.machine.pc s = .ok (g.due s) s := by
  unfold instrAt? due
  split <;> rfl

lemma instr_eq (g : GState) (s : Session) :
    g.instr s = .ok ((g.due s).getD ⟨g.machine.pc.toNat, .stop, none⟩) s := bind_ok (g.instrAt?_run s)

def IsAt (g : GState) (op : Opcode) (s : Session) : Prop := ∃ i, g.due s = some i ∧ i.opcode = op

/-- The instruction that is due has its operands, and performing it leads to this. -/
structure Performs (g : GState) (op : Opcode) (s : Session) (o : Outcome) (s' : Session) : Prop where
  isAt : g.IsAt op s
  room : op.needs ≤ g.machine.stack.length
  run : g.perform op s = .ok o s'

/-- The instruction that is due lacks operands, or performing it is a fault of the machine. -/
def Faults (g : GState) (op : Opcode) (s s' : Session) : Prop :=
  g.IsAt op s ∧ (g.machine.stack.length < op.needs ∧ s' = s ∨
    op.needs ≤ g.machine.stack.length ∧ ∃ v text, g.perform op s = .error (.vm v text) s')

/-- The instruction that is due has its operands, and performing it is a fault, but none of the machine. -/
structure Stops (g : GState) (op : Opcode) (s : Session) (f : Fault) (s' : Session) : Prop where
  isAt : g.IsAt op s
  room : op.needs ≤ g.machine.stack.length
  run : g.perform op s = .error f s'
  fault : ∀ v text, f ≠ .vm v text

end GState

/-! ## What is done -/

namespace Explore

variable {g : GState} {op : Opcode} {s s' : Session}

lemma fail_unobserved (g : GState) (op : Opcode) : fail {} g op =
    match g.frames with
    | [] => throw .outOfRange
    | ⟨_, none⟩ :: rest => return ({ g with frames := rest }, [])
    | ⟨_, some waiting⟩ :: rest => do
      let caller ← suspended waiting
      let constraints := caller.world.constraints ++ g.world.constraints
      let caller := { caller with world := { caller.world with constraints := constraints }, lastReturn := none }
      setSuspended waiting caller
      if let some node := caller.node then
        onGraph (fun graph => ((), graph.grow node caller.id constraints))
      return ({ g with frames := rest }, ← resume caller g.node) := rfl

lemma finishFrame_unobserved (g final : GState) (op : Opcode) (data : Option ReturnData) (reverted : Bool) :
    finishFrame {} g final op data reverted =
    match final.frames with
    | [] => throw .outOfRange
    | ⟨tx, none⟩ :: _ => do
      if (tx.kind == .message || data.isSome) && !reverted then
        keepWorld {} { final with world := { final.world with node := g.node } }
        return (g, [])
      return (g, [])
    | ⟨_, some waiting⟩ :: _ => do return (g, ← handBack g waiting data reverted) := by
  unfold finishFrame
  rcases final.frames with _ | ⟨⟨tx, _ | waiting⟩, rest⟩ <;> rfl

def ended (op : Opcode) (r : GState × List GState) : GState.Executed :=
  { state := r.1, successors := r.2, opcode := some op }

/-- At an instruction, a state does what performing it asks for. -/
def executeAt (g : GState) (i : Instr) : Engine GState.Executed := do
  if g.machine.stack.length < i.opcode.needs then return ended i.opcode (← fail {} g i.opcode)
  match ← attempt (g.perform i.opcode) with
  | .ok (.states gs) => return ended i.opcode (g, gs)
  | .ok (.call tx waiting) =>
    return { state := g, successors := [← startFrame g tx waiting.world], opcode := some i.opcode }
  | .ok (.halt final data reverted) => return ended i.opcode (← finishFrame {} g final i.opcode data reverted)
  | .error (.vm _ _) => return ended i.opcode (← fail {} g i.opcode)
  | .error f => throw f

lemma execute_unobserved (g : GState) : execute {} g = (do
    match ← g.instrAt? g.machine.pc with
    | none =>
      keepWorld {} g
      return { state := g }
    | some i => executeAt g i) := rfl

lemma execute_due {i : Instr} (h : g.due s = some i) : execute {} g s = executeAt g i s := by
  rw [execute_unobserved, bind_ok (g.instrAt?_run s), h]

lemma execute_performs {o : Outcome} (h : g.Performs op s o s') : execute {} g s = (match o with
    | .states gs => return ended op (g, gs)
    | .call tx waiting => return { state := g, successors := [← startFrame g tx waiting.world], opcode := some op }
    | .halt final data reverted => return ended op (← finishFrame {} g final op data reverted) :
      Engine GState.Executed) s' := by
  obtain ⟨i, hi, rfl⟩ := h.isAt
  rw [execute_due hi, executeAt, if_neg (Nat.not_lt.2 h.room), bind_ok (attempt_ok h.run)]
  cases o <;> rfl

lemma execute_faults (h : g.Faults op s s') : execute {} g s = (do return ended op (← fail {} g op)) s' := by
  obtain ⟨⟨i, hi, rfl⟩, ⟨hshort, rfl⟩ | ⟨hroom, v, text, hrun⟩⟩ := h
  · rw [execute_due hi, executeAt, if_pos hshort]
  · rw [execute_due hi, executeAt, if_neg (Nat.not_lt.2 hroom), bind_ok (attempt_error hrun)]

lemma execute_stops {f : Fault} (h : g.Stops op s f s') : execute {} g s = .error f s' := by
  obtain ⟨i, hi, rfl⟩ := h.isAt
  rw [execute_due hi, executeAt, if_neg (Nat.not_lt.2 h.room), bind_ok (attempt_error h.run)]
  cases f with
  | vm v text => exact absurd rfl (h.fault v text)
  | _ => rfl

/-- A state is beyond the end of its program, or at an instruction that can be performed or is a fault. -/
lemma execute_split (g : GState) (s : Session) : g.due s = none ∨
    ∃ op s1, g.Faults op s s1 ∨ (∃ o, g.Performs op s o s1) ∨ ∃ f, g.Stops op s f s1 := by
  cases hdue : g.due s with
  | none => exact .inl rfl
  | some i =>
    refine .inr ⟨i.opcode, ?_⟩
    by_cases hroom : g.machine.stack.length < i.opcode.needs
    · exact ⟨s, .inl ⟨⟨i, hdue, rfl⟩, .inl ⟨hroom, rfl⟩⟩⟩
    have hroom := Nat.not_lt.1 hroom
    cases hperform : g.perform i.opcode s with
    | ok o s1 => exact ⟨s1, .inr (.inl ⟨o, ⟨i, hdue, rfl⟩, hroom, hperform⟩)⟩
    | error f s1 =>
      cases f with
      | vm v text => exact ⟨s1, .inl ⟨⟨i, hdue, rfl⟩, .inr ⟨hroom, v, text, hperform⟩⟩⟩
      | _ => exact ⟨s1, .inr (.inr ⟨_, ⟨i, hdue, rfl⟩, hroom, hperform, nofun⟩)⟩

lemma execute_beyond (h : g.due s = none) :
    execute {} g s = .ok { state := g } { s with openWorlds := s.openWorlds ++ [g.world] } := by
  rw [execute_unobserved, bind_ok (g.instrAt?_run s), h]
  rfl

end Explore
end EvmAudit
