import EvmAudit.Detect.Report

/-!
# Failures and writes

Failed assertions, contracts that anyone can destroy, and writes to any slot.
-/

namespace EvmAudit.Detect

/-! ## Assertions -/

def failedAssertion : Weakness where
  swc := "110"
  title := "Exception State"
  severity := "Medium"
  head := "An assertion violation was triggered."
  tail := "It is possible to trigger an assertion violation. Note that Solidity assert() statements should "
    ++ "only be used to check invariants. Review the transaction trace generated for this issue and "
    ++ "either make sure your program logic is correct, or use require() instead of assert() if your goal "
    ++ "is to constrain user inputs or enforce preconditions. Remember to validate inputs from both callers "
    ++ "(for instance, via passed arguments) and callees (for instance, via return values)."

def isByteOf (i : Item) (n : Nat) : Calc Bool := do
  match i with
  | .expr e => (← Expr.eqInt e n).holds
  | i => return i.int? == some (n : Int)

def panicSelector : List Nat := [78, 72, 123, 113]

/-- Does the data of a revert say that an assertion failed? -/
def isPanic (g : GState) : Engine Bool := do
  let start ← g.operand 1
  let length ← g.operand 2
  match ← start.number?, ← (Item.expr (← Item.plus .add start length)).number? with
  | some a, some b =>
    let data ← g.machine.memory.slice (.int a) (.int b)
    let front := data.take 4
    let isSelector ← if front.length == 4
      then (front.zip panicSelector).allM (m := Calc) (fun (i, n) => isByteOf i n) else pure false
    if !isSelector then return false
    match data.getLast? with
    | some last => isByteOf last 1
    | none => return false
  | _, _ => return false

def lastJump (g : GState) : Option Int :=
  (g.notes.findSome? (fun n => match n with
    | .lastJump a => some a
    | _ => none)).getD none

def isJump : Note → Bool
  | .lastJump _ => true
  | _ => false

def withJumps (g : GState) : GState := if g.notes.any isJump then g else g.annotate (.lastJump none)

/-- The place of an assertion that failed: the jump that led there, and the code. -/
def failedAt? (g : GState) (i : Instr) : Engine (Option (Option Int × String)) := do
  if i.opcode == .revert then
    unless ← isPanic g do return none
  return some (lastJump g, ← g.codeHash)

/-- Reports failed assertions. Places are told apart by the jump that led there. -/
def exceptions (g : GState) : Engine (GState × List Issue) := do
  let g := withJumps g
  let i ← g.instr
  if i.opcode == .jump then
    match g.notes.findIdx? isJump with
    | some k => return ({ g with notes := g.notes.set k (.lastJump (some (i.address : Int))) }, [])
    | none => return (g, [])
  match ← failedAt? g i with
  | none => return (g, [])
  | some (last, hash) =>
    if (← get).findings.knows .exceptions last hash then return (g, [])
    match ← g.scenario? [] with
    | none => return (g, [])
    | some s =>
      let issue := { (← g.issueHere failedAssertion s) with sourceLocation := last }
      Engine.onFindings fun f => { f with settled := (.exceptions, last, hash) :: f.settled }
      return (g.annotate .issue, [issue])

def failedUserAssertion (message : Option String) : Weakness where
  swc := "110"
  title := "Exception State"
  severity := "Medium"
  head := "A user-provided assertion failed."
  tail := match message with
    | some m => "A user-provided assertion failed with the message '" ++ m ++ "'"
    | none => "A user-provided assertion failed."

def assertionTopic : Nat := 0xB42604CB105A16C8F6DB8A41E6B00C0C1B4826465E8BC504B3EB3E88B3E6A4A0

def propertyMark : String := String.join (List.replicate 15 "cafe")

/-- The message of an assertion that the user has written; `none` if there is no such assertion here. -/
def userAssertion? (g : GState) : Engine (Option (Option String)) := do
  if (← g.instr).opcode == .mstore then
    match ← (← g.operandExpr 2).value? with
    | none => return none
    | some v =>
      if Text.startsWith (Hex.ofNat v) propertyMark then
        return some (some ("Failed property id " ++ toString (v % 2 ^ 16)))
      return none
  else
    match g.machine.stack with
    | start :: size :: topic :: _ =>
      if (← (← topic.expr!).value?) != some assertionTopic then return none
      unless ← (← start.expr!).symbolic do let _ ← (← size.expr!).symbolic
      return some none
    | _ => throw .malformed

def userAssertions (g : GState) : Engine (GState × List Issue) := do
  match ← userAssertion? g with
  | none => return (g, [])
  | some message => g.reportHere [] (failedUserAssertion message)

/-! ## Destruction -/

def openDestruction (withdraws : Bool) : Weakness where
  swc := "106"
  title := "Unprotected Selfdestruct"
  severity := "High"
  head := "Any sender can cause the contract to self-destruct."
  tail := if withdraws then
      "Any sender can trigger execution of the SELFDESTRUCT instruction to destroy this "
      ++ "contract account and withdraw its balance to an arbitrary address. Review the transaction trace "
      ++ "generated for this issue and make sure that appropriate security controls are in place to prevent "
      ++ "unrestricted access."
    else
      "Any sender can trigger execution of the SELFDESTRUCT instruction to destroy this "
      ++ "contract account. Review the transaction trace generated for this issue and make sure that "
      ++ "appropriate security controls are in place to prevent unrestricted access."

def accidentallyKillable (g : GState) : Engine (GState × List Issue) := do
  let target ← g.operand 1
  let attacker ← attacker
  let senders ← (g.world.txs.filter (·.kind == .message)).mapM (m := Calc) (fun tx => do
    Expr.conj [← same tx.caller (.expr attacker), ← same tx.caller tx.origin])
  let found ← match ← g.scenario? ([← same target (.expr attacker)] ++ senders) with
    | some s => pure (some (true, s))
    | none => do pure ((← g.scenario? senders).map (fun s => (false, s)))
  match found with
  | none => return (g, [])
  | some (withdraws, s) => return (g.annotate .issue, [← g.issueHere (openDestruction withdraws) s])

/-! ## Writes -/

def writeAnywhere : Weakness where
  swc := "124"
  title := "Write to an arbitrary storage location"
  severity := "High"
  head := "The caller can write to arbitrary storage locations."
  tail := "It is possible to write to arbitrary storage locations. By modifying the values of "
    ++ "storage variables, attackers may bypass security controls or manipulate the business logic of "
    ++ "the smart contract."

/-- A write may go anywhere if it can go to a slot that nobody would choose. -/
def arbitraryStorage (g : GState) : Engine (GState × List Suspicion) := do
  let slot ← g.operand 1
  let odd ← same slot (.expr (← Expr.word 324345425435))
  return (g, [← g.suspicion .arbitraryStorage (← g.instr).address writeAnywhere (g.under [odd])])

/-! ## Deprecated functions -/

def deprecatedCall : Weakness where
  swc := "111"
  title := "Deprecated Solidity Functions Usage"
  severity := "Low"
  head := ""
  tail := ""

def deprecatedHere (g : GState) : Engine (GState × List Issue) := g.reportHere [] deprecatedCall

end EvmAudit.Detect
