import EvmAudit.Detect.Calls
import EvmAudit.Detect.ControlFlow
import EvmAudit.Detect.Failures
import EvmAudit.Detect.Overflow
import EvmAudit.Explore.Hooks

/-!
# Detectors at work

A detector is asked about a state, before or after an instruction. What it finds is kept, and it is not asked about that
place again.
-/

namespace EvmAudit

/-- Is an instruction about to be performed, or has it just been? -/
inductive Phase where
  | before
  | after
  deriving DecidableEq, Repr

namespace Detector

def suspecting (r : GState × List Suspicion) : Engine (GState × Option (List Issue)) := return (← r.1.suspect r.2, none)

def finding (r : GState × List Issue) : Engine (GState × Option (List Issue)) := return (r.1, some r.2)

/-- Order dependencies are never found; but the target and the amount of the call are looked at. -/
def lookAtCall (g : GState) : Engine Unit := do
  let look : Calc Unit := do
    let target ← (← g.operand 2).expr!
    let amount ← g.operand 3
    if ← target.symbolic then let _ ← (← amount.expr!).symbolic
  let _ ← Engine.attempt (liftM look)

/-- Asks a detector about a state. Outside of an exploration there is no phase. -/
def analyse (d : Detector) (phase : Option Phase) (g : GState) : Engine (GState × Option (List Issue)) := do
  match d with
  | .arbitraryJump => finding (← Detect.arbitraryJump g)
  | .arbitraryStorage => suspecting (← Detect.arbitraryStorage g)
  | .arbitraryDelegateCall => suspecting (← Detect.arbitraryDelegateCall g)
  | .predictableVariables =>
    match phase with
    | some .before => finding (← Detect.beforePredictable g)
    | some .after => finding (← Detect.afterPredictable g)
    | none => throw .broken
  | .txOrigin => finding (← Detect.txOrigin g)
  | .etherThief => suspecting (← Detect.etherThief g)
  | .exceptions => finding (← Detect.exceptions g)
  | .externalCalls => suspecting (← Detect.externalCalls g)
  | .integerArithmetics => finding (← Detect.integerArithmetics g)
  | .multipleSends => finding (← Detect.multipleSends g)
  | .stateChangeAfterCall => suspecting (← Detect.stateChangeAfterCall g)
  | .accidentallyKillable => finding (← Detect.accidentallyKillable g)
  | .uncheckedRetval => finding (← Detect.uncheckedRetval g)
  | .userAssertions => finding (← Detect.userAssertions g)
  | .requirementViolation => finding (← Detect.requirementViolation g)
  | .orderDependency =>
    lookAtCall g
    suspecting (g, [])
  | .checkOldCompiler => finding (g, [])
  | .deprecatedFunctions | .checkVisibility => throw .wrongSort

/-- Asks a detector about a state unless the place is settled, and keeps what it finds. -/
def inspect (d : Detector) (phase : Option Phase) (g : GState) : Engine (GState × Option (List Issue)) := do
  let address := (← g.instr).address
  let hash ← g.codeHash
  let settles := d != .exceptions
  if settles && (← get).findings.knows d (some (address : Int)) hash then return (g, some [])
  let (g, found) ← d.analyse phase g
  if let some issues := found then
    unless issues.isEmpty || (← get).options.useIssueNotes do Detect.keep d issues settles
  return (g, found)

def observer (d : Detector) (phase : Phase) : Observer := fun g => return (← d.inspect (some phase) g).1

def hooks (ds : List Detector) : Hooks where
  before op := (ds.filter (·.info.before.contains op.name)).map (·.observer .before)
  after op := (ds.filter (·.info.after.contains op.name)).map (·.observer .after)
  onSuccess := Detect.review

def choose (o : Options) (entry : Option Entry) (names : List String) : Except Fault (List Detector) := do
  let ds ← DetectorInfo.choose info names all
  let isOff : Detector → Bool
    | .integerArithmetics => !o.useIntegers
    | .deprecatedFunctions => !o.useDeprecated
    | .checkVisibility => !o.useVisibility
    | _ => false
  return ds.filter fun d => !isOff d && entry.all (d.info.entry == ·)

end Detector
end EvmAudit
