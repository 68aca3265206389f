import EvmAudit.Code.Instr
import EvmAudit.Text.Json

/-!
# Registered weaknesses

Titles of weaknesses by their number in the registry of smart contract weaknesses.
-/

namespace EvmAudit.Registry

def titles : List (String × String) :=
  [
    ("100", "Function Default Visibility"),
    ("101", "Integer Overflow and Underflow"),
    ("102", "Outdated Compiler Version"),
    ("103", "Floating Pragma"),
    ("104", "Unchecked Call Return Value"),
    ("105", "Unprotected Ether Withdrawal"),
    ("106", "Unprotected SELFDESTRUCT Instruction"),
    ("107", "Reentrancy"),
    ("108", "State Variable Default Visibility"),
    ("109", "Uninitialized Storage Pointer"),
    ("110", "Assert Violation"),
    ("111", "Use of Deprecated Solidity Functions"),
    ("112", "Delegatecall to Untrusted Callee"),
    ("113", "DoS with Failed Call"),
    ("114", "Transaction Order Dependence"),
    ("115", "Authorization through tx.origin"),
    ("116", "Timestamp Dependence"),
    ("117", "Signature Malleability"),
    ("118", "Incorrect Constructor Name"),
    ("119", "Shadowing State Variables"),
    ("120", "Weak Sources of Randomness from Chain Attributes"),
    ("121", "Missing Protection against Signature Replay Attacks"),
    ("122", "Lack of Proper Signature Verification"),
    ("123", "Requirement Violation"),
    ("124", "Write to Arbitrary Storage Location"),
    ("125", "Incorrect Inheritance Order"),
    ("127", "Arbitrary Jump with Function Type Variable"),
    ("128", "DoS With Block Gas Limit"),
    ("129", "Typographical Error"),
    ("132", "Unexpected Ether Balance"),
    ("135", "Effect Free Code")
  ]

def title (number : String) : String := (titles.lookup number).getD "Unspecified Security Issue"

end EvmAudit.Registry

/-! # Detectors

A detector looks for one kind of weakness. Most of them are told about instructions before or after these are performed;
others read the source. What a detector is called, and which instructions it wants to hear about, is data. -/

namespace EvmAudit

inductive Entry where
  | post
  | callback
  | compile
  deriving DecidableEq, Repr, Inhabited

structure DetectorInfo where
  name : String
  title : String
  swc : String
  description : String
  entry : Entry := .callback
  /-- Instructions it hears about before they are performed. -/
  before : List String := []
  /-- Instructions it hears about after they were performed. -/
  after : List String := []

inductive Detector where
  | arbitraryJump
  | arbitraryStorage
  | arbitraryDelegateCall
  | predictableVariables
  | txOrigin
  | etherThief
  | exceptions
  | externalCalls
  | integerArithmetics
  | multipleSends
  | stateChangeAfterCall
  | accidentallyKillable
  | uncheckedRetval
  | userAssertions
  | deprecatedFunctions
  | checkVisibility
  | checkOldCompiler
  | requirementViolation
  | orderDependency
  deriving DecidableEq, Repr, Inhabited

namespace Detector

def all : List Detector := [
  .arbitraryJump, .arbitraryStorage, .arbitraryDelegateCall, .predictableVariables, .txOrigin, .etherThief,
  .exceptions, .externalCalls, .integerArithmetics, .multipleSends, .stateChangeAfterCall, .accidentallyKillable,
  .uncheckedRetval, .userAssertions, .deprecatedFunctions, .checkVisibility, .checkOldCompiler,
  .requirementViolation, .orderDependency]

def info : Detector → DetectorInfo
  | .arbitraryJump => {
      name := "ArbitraryJump"
      title := "Caller can redirect execution to arbitrary bytecode locations"
      swc := "127"
      description := "\n\nSearch for jumps to arbitrary locations in the bytecode\n"
      before := ["JUMP", "JUMPI"] }
  | .arbitraryStorage => {
      name := "ArbitraryStorage"
      title := "Caller can write to arbitrary storage locations"
      swc := "124"
      description := "\n\nSearch for any writes to an arbitrary storage slot\n"
      before := ["SSTORE"] }
  | .arbitraryDelegateCall => {
      name := "ArbitraryDelegateCall"
      title := "Delegatecall to a user-specified address"
      swc := "112"
      description := "Check for invocations of delegatecall to a user-supplied address."
      before := ["DELEGATECALL"] }
  | .predictableVariables => {
      name := "PredictableVariables"
      title := "Control flow depends on a predictable environment variable"
      swc := "116 120"
      description := "Check whether control flow decisions are influenced by block.coinbase,"
        ++ "block.gaslimit, block.timestamp or block.number."
      before := ["JUMPI", "BLOCKHASH"]
      after := [
        "BLOCKHASH", "COINBASE", "GASLIMIT", "TIMESTAMP", "NUMBER", "DIFFICULTY", "ORIGIN", "GASPRICE"] }
  | .txOrigin => {
      name := "TxOrigin"
      title := "Control flow depends on tx.origin"
      swc := "115"
      description := "Check whether control flow decisions are influenced by tx.origin"
      before := ["JUMPI"]
      after := ["ORIGIN"] }
  | .etherThief => {
      name := "EtherThief"
      title := "Any sender can withdraw ETH from the contract account"
      swc := "105"
      description := "\nSearch for cases where Ether can be withdrawn to a user-specified address.\n"
        ++ "An issue is reported if there is a valid end state where the attacker has successfully\n"
        ++ "increased their Ether balance.\n"
      after := ["CALL", "STATICCALL"] }
  | .exceptions => {
      name := "Exceptions"
      title := "Assertion violation"
      swc := "110"
      description := "Checks whether any exception states are reachable."
      before := ["INVALID", "JUMP", "REVERT"] }
  | .externalCalls => {
      name := "ExternalCalls"
      title := "External call to another contract"
      swc := "107"
      description := "\n\nSearch for external calls with unrestricted gas to a user-specified address.\n\n"
      before := ["CALL"] }
  | .integerArithmetics => {
      name := "IntegerArithmetics"
      title := "Integer overflow or underflow"
      swc := "101"
      description := "For every SUB instruction, check if there's a possible state "
        ++ "where op1 > op0. For every ADD, MUL instruction, check if "
        ++ "there's a possible state where op1 + op0 > 2^32 - 1"
      before := ["ADD", "MUL", "EXP", "SUB", "SSTORE", "JUMPI", "STOP", "RETURN", "CALL"] }
  | .multipleSends => {
      name := "MultipleSends"
      title := "Multiple external calls in the same transaction"
      swc := "113"
      description := "Check for multiple sends in a single transaction"
      before := ["CALL", "DELEGATECALL", "STATICCALL", "CALLCODE", "RETURN", "STOP"] }
  | .stateChangeAfterCall => {
      name := "StateChangeAfterCall"
      title := "State change after an external call"
      swc := "107"
      description := "\n\nCheck whether the account state is accesses after the execution of an external call\n"
      before := ["CALL", "DELEGATECALL", "CALLCODE", "SSTORE", "SLOAD", "CREATE", "CREATE2"] }
  | .accidentallyKillable => {
      name := "AccidentallyKillable"
      title := "Contract can be accidentally killed by anyone"
      swc := "106"
      description := "\nCheck if the contact can be 'accidentally' killed by anyone.\n"
        ++ "For kill-able contracts, also check whether it is possible to direct the contract balance to the "
        ++ "attacker.\n"
      before := ["SELFDESTRUCT"] }
  | .uncheckedRetval => {
      name := "UncheckedRetval"
      title := "Return value of an external call is not checked"
      swc := "104"
      description := "Test whether CALL return value is checked. "
        ++ "For direct calls, the Solidity compiler auto-generates this check. E.g.:\n"
        ++ "    Alice c = Alice(address);\n"
        ++ "    c.ping(42);\n"
        ++ "Here the CALL will be followed by IZSERO(retval), if retval = ZERO then state is reverted. "
        ++ "For low-level-calls this check is omitted. E.g.:\n"
        ++ "    c.call.value(0)(bytes4(sha3(\"ping(uint256)\")),1);"
      before := ["STOP", "RETURN"]
      after := ["CALL", "DELEGATECALL", "STATICCALL", "CALLCODE"] }
  | .userAssertions => {
      name := "UserAssertions"
      title := "A user-defined assertion has been triggered"
      swc := "110"
      description := "\n\nSearch for reachable user-supplied exceptions.\n"
        ++ "Report a warning if an log message is emitted: 'emit AssertionFailed(string)'\n\n"
      before := ["LOG1", "MSTORE"] }
  | .deprecatedFunctions => {
      name := "DeprecatedFunctionsUsage"
      title := "Contract uses deprecated Solidity functions"
      swc := "111"
      description := "\nCheck if the contract uses deprecated Solidity functions\n"
      entry := .compile }
  | .checkVisibility => {
      name := "CheckVisibility"
      title := "Function Visibility is not declared"
      swc := "100"
      description := "\nIn Solidity, when using a function, a function visibility must be used.\n"
        ++ "Otherwise, Solidity specifies public as the default visibility.\n"
        ++ "If the function visibility is specified as public, it can be called externally, \n"
        ++ "so if you don't want it, you have to code it using private, external and internal. \n"
      entry := .compile }
  | .checkOldCompiler => {
      name := "CheckOldCompiler"
      title := "Contract version is outdated"
      swc := "102 103"
      description := "\ncheck compiler version.\n"
      entry := .compile }
  | .requirementViolation => {
      name := "ReViolation"
      title := "Requirement violation"
      swc := "123"
      description := "Check requirement"
      after := ["PUSH1", "SLT", "SGT"] }
  | .orderDependency => {
      name := "TransactionOrderDependency"
      title := "Transaction Order Dependency"
      swc := "144"
      description := "\nMODULE DESCRIPTION:\n"
        ++ "This module finds the existance of transaction order dependence vulnerabilities.\n"
        ++ "The following webpage contains an extensive description of the vulnerability: \n"
        ++ "https://consensys.github.io/smart-contract-best-practices/known_attacks/"
        ++ "#transaction-ordering-dependence-tod-front-running\n"
      before := ["CALL"] }

def name (d : Detector) : String := d.info.name

def ofName? (name : String) : Option Detector := all.find? (·.name == name)

end Detector

namespace DetectorInfo

def choose {α : Type} (infoOf : α → DetectorInfo) (names : List String) (known : List α) : Except Fault (List α) :=
  match names.find? (fun n => known.all (fun d => (infoOf d).name != n)) with
  | some n => .error (.failure .unknownDetector ("Invalid detection module: " ++ n))
  | none => .ok (if names.isEmpty then known else known.filter (fun d => names.contains (infoOf d).name))

/-- The instructions that a name stands for: one, or all that begin with what stands before a star. -/
def instructions (name : String) : List String :=
  let name := name.toUpper
  let known := Opcode.all.map Opcode.name
  if known.contains name then [name]
  else if Text.endsWith name "*" then known.filter (Text.startsWith · (Text.dropEnd name 1))
  else []

def text (d : DetectorInfo) : String :=
  let list (names : List String) : String := "[" ++ ", ".intercalate (names.map (fun n => "'" ++ n ++ "'")) ++ "]"
  "<DetectionModule name=" ++ d.title ++ " swc_id=" ++ d.swc ++ " pre_hooks=" ++ list d.before
    ++ " post_hooks=" ++ list d.after ++ " description=" ++ d.description ++ ">"

end DetectorInfo

/-! # Issues

An issue is a weakness that was found, with its place and, where there is one, a scenario of transactions that leads
there. A suspicion becomes an issue at the end of its transaction, if its conditions are possible then. -/

structure Issue where
  contract : String
  function : String
  address : Json
  swc : String
  title : String
  codeHash : String
  minGas : Option Int := none
  maxGas : Option Int := none
  severity : Option String := none
  head : String := ""
  tail : String := ""
  scenario : Json := .null
  sourceLocation : Option Int := none
  filename : Option String := none
  line : Option Int := none
  code : Option String := none
  sourceMap : Json := .null
  deriving Inhabited

def Issue.description (i : Issue) : String := i.head ++ "\n" ++ i.tail

def Issue.toJson (i : Issue) : Json :=
  let place := match i.filename, i.line with
    | some f, some l => if f.isEmpty || l == 0 then [] else [("filename", Json.str f), ("lineno", .int l)]
    | _, _ => []
  let code := (i.code.filter (!·.isEmpty)).toList.map fun c => ("code", .str c)
  .obj ([
    ("title", .str i.title), ("swc-id", .str i.swc), ("contract", .str i.contract),
    ("description", .str i.description), ("function", .str i.function),
    ("severity", .orNull .str i.severity), ("address", i.address), ("tx_sequence", i.scenario),
    ("min_gas_used", .orNull .int i.minGas), ("max_gas_used", .orNull .int i.maxGas), ("sourceMap", i.sourceMap)]
    ++ place ++ code)

structure Weakness where
  swc : String
  title : String
  severity : String
  head : String
  tail : String
  deriving Inhabited

structure Suspicion extends Weakness where
  detector : Detector
  contract : String
  function : String
  address : Int
  codeHash : String
  conditions : List Expr
  deriving Inhabited

/-- The state in which an operation can leave its range. -/
structure OverflowSite where
  contract : String
  function : String
  address : Int
  codeHash : String
  constraints : List Expr
  deriving Inhabited

structure Findings where
  issues : List (Detector × Issue) := []
  /-- Places and codes that a detector need not look at again. -/
  settled : List (Detector × Option Int × String) := []
  /-- States in which operations can leave their range, by number. -/
  sites : List (Nat × OverflowSite) := []
  /-- States of which it is known whether an operation can leave its range there. -/
  satisfiable : List Nat := []
  unsatisfiable : List Nat := []

namespace Findings

def of (f : Findings) (d : Detector) : List Issue := (f.issues.filter (·.1 == d)).reverse.map (·.2)

def ofAll (f : Findings) (ds : List Detector) : List Issue := ds.flatMap f.of

def knows (f : Findings) (d : Detector) (address : Option Int) (codeHash : String) : Bool :=
  f.settled.any fun (d', a, h) => d' == d && a == address && h == codeHash

/-- What is left when detectors begin again. -/
def reset (f : Findings) (ds : List Detector) : Findings :=
  let isFresh := ds.contains .integerArithmetics
  { f with
    issues := f.issues.filter fun (d, _) => !ds.contains d
    satisfiable := if isFresh then [] else f.satisfiable
    unsatisfiable := if isFresh then [] else f.unsatisfiable }

end Findings
end EvmAudit
