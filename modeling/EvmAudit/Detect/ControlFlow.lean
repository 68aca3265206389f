import EvmAudit.Detect.Report

/-!
# Weaknesses of the control flow

Jumps to a place that the caller chooses, and decisions that hang on the origin of the transaction, on values that can be
predicted, or on constants.
-/

namespace EvmAudit.Detect

/-! ## Jumps -/

def jumpAnywhere : Weakness where
  swc := "127"
  title := "Jump to an arbitrary instruction"
  severity := "High"
  head := "The caller can redirect execution to arbitrary bytecode locations."
  tail := "It is possible to redirect the control flow to arbitrary locations in the code. "
    ++ "This may allow an attacker to bypass security controls or manipulate the business logic of the "
    ++ "smart contract. Avoid using low-level-operations and assembly to prevent this issue."

def hasOneTarget (g : GState) (target : Expr) : Engine Bool := do
  match ← found? (Query.solve { items := g.world.constraints.map .expr, isPath := true }) with
  | none => return true
  | some m =>
    match ← m.number (← target.raw) with
    | none => throw .noSuchPart
    | some n => return !(← g.isPossible [← Expr.ne (← Expr.word n) target])

def arbitraryJump (g : GState) : Engine (GState × List Issue) := do
  let target ← g.operandExpr 1
  unless ← target.symbolic do return (g, [])
  if ← hasOneTarget g target then return (g, [])
  g.reportHere [] jumpAnywhere

/-! ## Decisions -/

def reportMarks (g : GState) (e : Expr) (weakness : Mark → Option Weakness) : Engine (GState × List Issue) := do
  (← e.marks).foldlM (fun ((g, issues) : GState × List Issue) m => do
    match weakness m with
    | none => return (g, issues)
    | some w => g.reportHere issues w) (g, [])

def originDecision : Weakness where
  swc := "115"
  title := "Dependence on tx.origin"
  severity := "Low"
  head := "Use of tx.origin as a part of authorization control."
  tail := "The tx.origin environment variable has been found to influence a control flow decision. "
    ++ "Note that using tx.origin as a security control might cause a situation where a user "
    ++ "inadvertently authorizes a smart contract to perform an action on their behalf. It is "
    ++ "recommended to use msg.sender instead."

/-- Before a decision, looks for marks of the origin; anywhere else, marks what is on top of the stack. -/
def txOrigin (g : GState) : Engine (GState × List Issue) := do
  if (← g.instr).opcode == .jumpi then
    reportMarks g (← g.operandExpr 2) (fun m => match m with
      | .origin _ => some originDecision
      | _ => none)
  else
    (← g.operandExpr 1).annotate (.origin (← freshId))
    return (g, [])

def predictableDecision (source : String) : Weakness where
  swc := if Text.contains source "timestamp" then "116" else "120"
  title := "Dependence on predictable environment variable"
  severity := "Low"
  head := "A control flow decision is made based on " ++ source ++ "."
  tail := source ++ " is used to determine a control flow decision. "
    ++ "Note that the values of variables like coinbase, gaslimit, block number and timestamp are "
    ++ "predictable and can be manipulated by a malicious miner. Also keep in mind that "
    ++ "attackers know hashes of earlier blocks. Don't use any of those environment variables "
    ++ "as sources of randomness and be aware that use of these variables introduces "
    ++ "a certain level of trust into miners."

/-- Before a decision, looks for marks of predictable values. The hash of a block counts as predictable if the block
may be an old one. -/
def beforePredictable (g : GState) : Engine (GState × List Issue) := do
  match (← g.instr).opcode with
  | .jumpi =>
    reportMarks g (← g.operandExpr 2) (fun m => match m with
      | .predictable _ source => some (predictableDecision source)
      | _ => none)
  | .blockhash =>
    let block ← g.operandExpr 1
    let now := g.env.blockNumber
    let old ← Expr.ult block now
    let small ← Expr.ult now (← Expr.word (2 ^ 255))
    if ← g.isPossible [old, small] then return (g.annotate .oldBlock, []) else return (g, [])
  | _ => return (g, [])

/-- Marks what an instruction has put on the stack. -/
def afterPredictable (g : GState) : Engine (GState × List Issue) := do
  let op ← g.previousOpcode
  let source : Option String := match op with
    | .blockhash =>
      let isOld := g.notes.any (fun n => match n with
        | .oldBlock => true
        | _ => false)
      if isOld then some "The block hash of a previous block" else none
    | op => some ("The block." ++ op.name.toLower ++ " environment variable")
  if let some source := source then
    (← g.operandExpr 1).annotate (.predictable (← freshId) source)
  return (g, [])

/-! ## Requirements -/

def unmetRequirement : Weakness where
  swc := "123"
  title := "Requirement Violation"
  severity := "Low"
  head := "requirement violation"
  tail := "ERROR"

/-- Marks constants, and reports comparisons of them that do not yield one. -/
def requirementViolation (g : GState) : Engine (GState × List Issue) := do
  if (← g.previousOpcode) == .push 1 then
    (← g.operandExpr 1).annotate (.constant (← freshId))
    return (g, [])
  let look (depth : Nat) (g : GState) : Engine (GState × List Issue) := do
    (← (← g.operandExpr depth).marks).foldlM (fun ((g, issues) : GState × List Issue) m => do
      match m with
      | .constant _ =>
        match ← g.scenario? [] with
        | none => return (g, issues)
        | some s =>
          if ← (← Expr.neInt (← g.operandExpr 1) 1).holds then
            return (g.annotate .issue, issues ++ [← g.issueHere unmetRequirement s])
          return (g, issues)
      | _ => return (g, issues)) (g, [])
  let (g, first) ← look 1 g
  let (g, second) ← look 2 g
  return (g, first ++ second)

end EvmAudit.Detect
