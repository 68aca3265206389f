import EvmAudit.Detect.Report

/-!
# Weaknesses around calls

Calls of a contract that the caller chooses, what happens after a call, and calls whose result nobody looks at.
-/

namespace EvmAudit.Detect

open EvmAudit.Expr

def enoughGas (gas : Expr) : Calc Expr := do ugt gas (← word 2300)

/-! ## Chosen targets -/

def delegateAnywhere : Weakness where
  swc := "112"
  title := "Delegatecall to user-supplied address"
  severity := "High"
  head := "The contract delegates execution to another contract with a user-supplied address."
  tail := "The smart contract delegates execution to a user-supplied address.This could allow an attacker to "
    ++ "execute arbitrary code in the context of this contract account and manipulate the state of the "
    ++ "contract account or execute actions on its behalf."

def arbitraryDelegateCall (g : GState) : Engine (GState × List Suspicion) := do
  let gas ← g.operand 1
  let target ← g.operand 2
  let attacker ← attacker
  let address := (← g.instr).address
  let chosen ← same target (.expr attacker)
  let enough ← enoughGas (← gas.expr!)
  let success ← eqInt (← g.unknown ("retval_" ++ toString address) 256) 1
  let senders ← (g.world.txs.filter (·.kind == .message)).mapM (m := Calc) (fun tx => do
    same tx.caller (.expr attacker))
  return (g, [← g.suspicion .arbitraryDelegateCall address delegateAnywhere ([chosen, enough, success] ++ senders)])

def callAnywhere : Weakness where
  swc := "107"
  title := "External Call To User-Supplied Address"
  severity := "Low"
  head := "A call to a user-supplied address is executed."
  tail := "An external message call to an address specified by the caller is executed. Note that "
    ++ "the callee account might contain arbitrary code and could re-enter any function "
    ++ "within this contract. Reentering the contract in an intermediate state may lead to "
    ++ "unexpected behaviour. Make sure that no state modifications "
    ++ "are executed after this call and/or reentrancy guards are in place."

def externalCalls (g : GState) : Engine (GState × List Suspicion) := do
  let gas ← g.operand 1
  let target ← g.operand 2
  let conditions := [← enoughGas (← gas.expr!), ← same target (.expr (← attacker))]
  match ← found? (Scenario.of g (conditions ++ g.world.constraints)) with
  | none => return (g, [])
  | some _ => return (g, [← g.suspicion .externalCalls (← g.instr).address callAnywhere conditions])

def isPrecompileCall (g : GState) : Engine Bool := do
  let target ← g.operand 2
  let below ← Item.order .lt target (.expr (← word 1))
  let above ← Item.order .gt target (.expr (← word Precompile.count))
  return !(← g.isPossible [← disj [below, above]])

/-! ## Money -/

def openWithdrawal : Weakness where
  swc := "105"
  title := "Unprotected Ether Withdrawal"
  severity := "High"
  head := "Any sender can withdraw Ether from the contract account."
  tail := "Arbitrary senders other than the contract creator can profitably extract Ether "
    ++ "from the contract account. Verify the business logic carefully and make sure that appropriate "
    ++ "security controls are in place to prevent unexpected loss of funds."

/-- After a call: can the attacker be richer than before? -/
def etherThief (g : GState) : Engine (GState × List Suspicion) := do
  let attacker ← attacker
  let tx ← match g.tx? with
    | some tx => pure tx
    | none => throw .noSuchPart
  let richer ← ugt (← g.world.balance attacker) (← select g.world.startBalances attacker)
  let sender ← same g.env.sender (.expr attacker)
  let direct ← same tx.caller tx.origin
  let conditions := g.under [richer, sender, direct]
  if ← g.isPossible [richer, sender, direct] then
    return (g, [← g.suspicion .etherThief ((← g.instr).address - 1) openWithdrawal conditions])
  return (g, [])

/-! ## Several calls -/

def severalCalls : Weakness where
  swc := "113"
  title := "Multiple Calls in a Single Transaction"
  severity := "Low"
  head := "Multiple calls are executed in the same transaction."
  tail := "This call is executed following another call within the same transaction. It is possible "
    ++ "that the call never gets executed if a prior call fails permanently. This might be caused "
    ++ "intentionally by a malicious callee. If possible, refactor the code such that each transaction "
    ++ "only executes one external call or "
    ++ "make sure that all callees can be trusted (i.e. they’re part of your own codebase)."

/-- Writes down calls; at the end the first call after another one is reported. -/
def multipleSends (g : GState) : Engine (GState × List Issue) := do
  let isSends : Note → Bool := fun n => match n with
    | .sends _ => true
    | _ => false
  let g := if g.notes.any isSends then g else g.annotate (.sends [])
  let calls := (g.notes.findSome? (fun n => match n with
    | .sends xs => some xs
    | _ => none)).getD []
  let i ← g.instr
  match i.opcode with
  | .call | .delegatecall | .staticcall | .callcode =>
    match g.notes.findIdx? isSends with
    | some k => return ({ g with notes := g.notes.set k (.sends (calls ++ [(i.address : Int)])) }, [])
    | none => return (g, [])
  | _ => firstPossible g (calls.drop 1)
where
  firstPossible (g : GState) : List Int → Engine (GState × List Issue)
    | [] => return (g, [])
    | address :: rest => do
      match ← g.scenario? [] with
      | none => firstPossible g rest
      | some s => return (g.annotate .issue, [← g.issue address severalCalls s])

/-! ## Changes after a call -/

def ordinaryTarget (target : Item) : Calc Expr := do
  disj [← Item.order .gt target (.expr (← word 16)), ← same target (.expr (← word 0))]

def fixedAttacker : Int := 0xDEADBEEFDEADBEEFDEADBEEFDEADBEEFDEADBEEF

def changeAfterCall (isRead chosen : Bool) : Weakness where
  swc := "107"
  title := "State access after external call"
  severity := if chosen then "Medium" else "Low"
  head := (if isRead then "Read of" else "Write to") ++ " persistent state following external call"
  tail := "The contract account state is accessed after an external call to a "
    ++ (if chosen then "user defined" else "fixed") ++ " address. "
    ++ "To prevent reentrancy issues, consider accessing the state only before the call, especially if the "
    ++ "callee is untrusted. "
    ++ "Alternatively, a reentrancy lock can be used to prevent "
    ++ "untrusted callees from re-entering the contract in an intermediate state."

def movesEther (g : GState) (amount : Expr) : Engine Bool := do
  match ← amount.value? with
  | some n => return n > 0
  | none => g.isPossible [← sgt amount (← word 0)]

def noteCall (g : GState) : Engine GState := do
  let gas ← g.operand 1
  let target ← g.operand 2
  unless ← g.isPossible [← enoughGas (← gas.expr!), ← ordinaryTarget target] do return g
  let chosen ← g.isPossible [← same target (.int fixedAttacker)]
  return g.annotate (.externalCall [gas, target] chosen 0)

/-- The suspicion that a change after a call gives rise to. -/
def changeIssue (g : GState) (top : List Item) (chosen : Bool) : Engine (Option Suspicion) := do
  match top with
  | [gas, target] =>
    let base := [← enoughGas (← gas.expr!), ← ordinaryTarget target]
    let conditions ← if chosen then do pure (base ++ [← same target (.int fixedAttacker)]) else pure base
    match ← found? (Scenario.of g (conditions ++ g.world.constraints)) with
    | none => return none
    | some _ =>
      let i ← g.instr
      return some (← g.suspicion .stateChangeAfterCall i.address (changeAfterCall (i.opcode == .sload) chosen)
        conditions)
  | _ => return none

def stateChangeAfterCall (g : GState) : Engine (GState × List Suspicion) := do
  let isCall : Note → Bool := fun n => match n with
    | .externalCall _ _ _ => true
    | _ => false
  let count := (g.notes.filter isCall).length
  let op := (← g.instr).opcode
  let isAccess := [Opcode.sstore, .sload, .create, .create2].contains op
  let isCallOp := [Opcode.call, .delegatecall, .callcode].contains op
  if count == 0 && isAccess then return (g, [])
  let changed (g : GState) : GState :=
    { g with notes := g.notes.map (fun n => match n with
        | .externalCall top chosen changes => .externalCall top chosen (changes + 1)
        | n => n) }
  let g := if isAccess then changed g else g
  let g ← if isCallOp then do
      let moves ← movesEther g (← g.operandExpr 3)
      pure (if moves then changed g else g)
    else pure g
  let earlier := g.notes.filter isCall
  let g ← if isCallOp then noteCall g else pure g
  let found ← earlier.filterMapM (fun n => do
    match n with
    | .externalCall top chosen changes => if changes == 0 then return none else changeIssue g top chosen
    | _ => return none)
  return (g, found)

/-! ## Results of calls -/

def ignoredResult : Weakness where
  swc := "104"
  title := "Unchecked return value from external call."
  severity := "Medium"
  head := "The return value of a message call is not checked."
  tail := "External calls return a boolean value. If the callee halts with an exception, 'false' is "
    ++ "returned and execution continues in the caller. "
    ++ "The caller should check whether an exception happened and react accordingly to avoid unexpected behavior. "
    ++ "For example it is often desirable to wrap external calls in require() so the transaction is reverted if the "
    ++ "call fails."

/-- Writes down the results of calls; at the end those that may be zero as well as one are reported. -/
def uncheckedRetval (g : GState) : Engine (GState × List Issue) := do
  let isResults : Note → Bool := fun n => match n with
    | .callResults _ => true
    | _ => false
  let g := if g.notes.any isResults then g else g.annotate (.callResults [])
  let results := (g.notes.findSome? (fun n => match n with
    | .callResults xs => some xs
    | _ => none)).getD []
  let i ← g.instr
  match i.opcode with
  | .stop | .ret =>
    results.foldlM (fun ((g, issues) : GState × List Issue) (address, result) => do
      match ← g.scenario? [← same result (.int 1)] with
      | none => return (g, issues)
      | some _ =>
        match ← g.scenario? [← same result (.int 0)] with
        | none => return (g, issues)
        | some s => return (g.annotate .issue, issues ++ [← g.issue address ignoredResult s])) (g, [])
  | _ =>
    let op ← g.previousOpcode
    unless [Opcode.call, .delegatecall, .staticcall, .callcode].contains op do return (g, [])
    let result ← g.operand 1
    match g.notes.findIdx? isResults with
    | some k =>
      return ({ g with notes := g.notes.set k (.callResults (results ++ [((i.address : Int) - 1, result)])) }, [])
    | none => return (g, [])

/-! # Slots that a call hangs on

Names of slots in the text of an expression, and whether the slots of a call could have changed. -/

/-- Characters that go on the name of a slot. -/
def isSlotChar (c : Char) : Bool := ('a' ≤ c && c ≤ 'z') || ('0' ≤ c && c ≤ '9') || c == '_' || c == '&' || c == '^'

def slotStart : List Char := "storage_".toList

def slotNames : Nat → List Char → List String
  | 0, _ => []
  | _ + 1, [] => []
  | n + 1, c :: rest =>
    let tail := ((c :: rest).drop slotStart.length).takeWhile isSlotChar
    if Chars.startsWith slotStart (c :: rest) && !tail.isEmpty then
      String.ofList (slotStart ++ tail) :: slotNames n ((c :: rest).drop (slotStart.length + tail.length))
    else slotNames n rest

def slotsOf (e : Expr) : Calc (List String) := do
  let text ← (← e.simplified).text
  return slotNames (text.length + 1) text.toList

/-- The slot of a name is never known; but the name has to have a number. -/
def slotVariable (name : String) : Except Fault Unit :=
  if name.any Chars.isDigit then .ok () else .error .noSuchPart

/-- Can a value change while there is enough gas? If there is, this cannot be told. -/
def canChange (g : GState) (gas : Expr) : Engine Bool := do
  if ← g.isPossible [← enoughGas gas] then throw .noSuchPart
  return false

/-- The slots that the target and the amount of a call hang on: none, as long as both are unknown. -/
def slotsOfCall (g : GState) : Engine (List String) := do
  let _ ← g.operand 1
  let target ← g.operand 2
  let amount ← g.operand 3
  unless ← (← target.expr!).symbolic do throw .noSuchPart
  unless ← (← amount.expr!).symbolic do throw .noSuchPart
  return []

end EvmAudit.Detect
