import EvmAudit.Engine.Session

/-!
# Observers

Observers are told what happens during an exploration. They may add notes to the state they are shown, drop it, or stop
its world from being kept.
-/

namespace EvmAudit

abbrev Observer := GState → Engine GState

structure TxEnd where
  tx : Option Tx
  hasCaller : Bool
  reverted : Bool

structure Hooks where
  /-- Before anything else is done with a state. -/
  onState : List Observer := []
  before : Opcode → List Observer := fun _ => []
  /-- After an instruction was performed, with each successor. -/
  after : Opcode → List Observer := fun _ => []
  onWorld : List Observer := []
  onEnd : List (TxEnd → Observer) := []
  /-- When an outermost transaction has ended well, with the state before its last instruction. -/
  onSuccess : Observer := pure
  onStart : List (Engine Unit) := []
  onStop : List (Engine Unit) := []
  onTxsStart : List (Engine Unit) := []
  onTxsStop : List (Engine Unit) := []
  onRoundStart : List (Engine Unit) := []
  onRoundStop : List (Engine Unit) := []
  onWorkStart : List (Engine Unit) := []
  onWorkStop : List (Engine Unit) := []

namespace Hooks

/-- All observers of two lists of hooks, the first ones first. -/
def append (a b : Hooks) : Hooks where
  onState := a.onState ++ b.onState
  before op := a.before op ++ b.before op
  after op := a.after op ++ b.after op
  onWorld := a.onWorld ++ b.onWorld
  onEnd := a.onEnd ++ b.onEnd
  onSuccess g := do b.onSuccess (← a.onSuccess g)
  onStart := a.onStart ++ b.onStart
  onStop := a.onStop ++ b.onStop
  onTxsStart := a.onTxsStart ++ b.onTxsStart
  onTxsStop := a.onTxsStop ++ b.onTxsStop
  onRoundStart := a.onRoundStart ++ b.onRoundStart
  onRoundStop := a.onRoundStop ++ b.onRoundStop
  onWorkStart := a.onWorkStart ++ b.onWorkStart
  onWorkStop := a.onWorkStop ++ b.onWorkStop

instance : Append Hooks := ⟨append⟩

def tell (observers : List Observer) (g : GState) : Engine GState := observers.foldlM (fun g o => o g) g

/-- Tells an observer about the states from a place on. A state that it drops is taken out of the list, and the state that
then stands in its place is passed over. -/
def tellEach (o : Observer) : Nat → Nat → List GState → Engine (List GState)
  | 0, _, gs => return gs
  | n + 1, i, gs => do
    match gs[i]? with
    | none => return gs
    | some g =>
      match ← Engine.attempt (o g) with
      | .ok g => tellEach o n (i + 1) (gs.set i g)
      | .error .skipState => tellEach o n (i + 1) (gs.eraseIdx i)
      | .error f => throw f

def tellAll (observers : List Observer) (gs : List GState) : Engine (List GState) :=
  observers.foldlM (fun gs o => tellEach o gs.length 0 gs) gs

def runAll (actions : List (Engine Unit)) : Engine Unit := actions.forM id

end Hooks
end EvmAudit
