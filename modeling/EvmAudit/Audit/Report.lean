import EvmAudit.Audit.Basic
import EvmAudit.Source

/-!
# Weaknesses of the source

These detectors read the source line by line, without parsing it.
-/

namespace EvmAudit.Detect

open Text

structure Reading where
  line : Nat := 0
  contract : String := ""
  function : String := ""
  found : List Issue := []

/-- The second word of a line; words are parted by single blanks. -/
def secondWord? (line : String) : Option String := (splitAt line ' ')[1]?

/-! ## Visibility -/

def visibilities : List String := ["public", "private", "internal", "external"]

/-- Reads one line, which still has its end. Nothing is the answer if the line cannot be read. -/
def readVisibility (r : Reading) (line : String) : Option Reading := do
  let r := { r with line := r.line + 1 }
  if contains line "contract" then
    return { r with contract := ← secondWord? line }
  if contains line "function" then
    let name := dropEnd (← afterFirst? line ' ') 2
    let r := { r with function := name }
    if visibilities.any (contains line) then return r
    let issue : Issue := {
      contract := r.contract, function := name, address := .int r.line, swc := "100"
      title := "Not Declare function visibility", codeHash := CodeHash.ofHex "", severity := some "MID"
      head := Detector.checkVisibility.info.description }
    return { r with found := r.found ++ [issue] }
  return r

/-- Reads lines up to the first one that cannot be read. -/
def readVisibilities (r : Reading) : List String → List Issue
  | [] => r.found
  | l :: rest => match readVisibility r l with
    | some r => readVisibilities r rest
    | none => r.found

/-- Functions that do not say who may call them. -/
def visibility (source : String) : List Issue :=
  let lines := splitAt (unifyLines source) '\n'
  let ended := lines.dropLast.map (· ++ "\n")
  let last := (lines.getLast?.getD "")
  readVisibilities {} (if last.isEmpty then ended else ended ++ [last])

/-! ## Deprecated functions -/

def deprecatedWords : List String :=
  ["suicide(", "block.blockhash(", "sha3(", "callcode(", "throw", "msg.gas", "constant", "var"]

def deprecatedHead : String :=
  "Several functions and operators in Solidity are deprecated."
  ++ "Using them leads to reduced code quality."
  ++ "With new major versions of the Solidity compiler, deprecated functions and operators may result in side effects "
  ++ "and compile errors."

def readDeprecated (r : Reading) (line : String) : Except Fault Reading := do
  let r := { r with line := r.line + 1 }
  let r ← if contains line "contract" then
      match secondWord? line with
      | some w => pure { r with contract := w }
      | none => throw .outOfRange
    else if contains line "function" then
      match afterFirst? (trim line) ' ' with
      | some w => pure { r with function := dropEnd w 9 }
      | none => throw .outOfRange
    else pure r
  let found := (deprecatedWords.filter (contains line)).map (fun _ => ({
    contract := r.contract, function := r.function, address := .int r.line, swc := "111"
    title := "DEPRECATED_FUNCTIONS_USAGE", codeHash := CodeHash.ofHex "", severity := some "severity", head := deprecatedHead
    tail := "line " ++ toString r.line ++ ": " ++ trim line ++ " this function is deprecated" } : Issue))
  return { r with found := r.found ++ found }

def deprecated (source : String) : Except Fault (List Issue) := do
  let r ← (splitAt (unifyLines source) '\n').foldlM readDeprecated {}
  return r.found

def inSource (d : Detector) (source : String) : Except Fault (List Issue) :=
  match d with
  | .checkVisibility => .ok (visibility source)
  | .deprecatedFunctions => deprecated source
  | _ => .ok []

end EvmAudit.Detect

/-! # Reports

A report holds each issue once by contract, function, address and title. It is written as a list of issues or in the
standard format for tools. -/

namespace EvmAudit

namespace Issue

/-! ## Places in the source -/

/-- Code of the compiler's own weighs little. -/
def markInternal (i : Issue) : Issue :=
  { i with severity := some "Low", code := some ""
           tail := i.tail ++ " This issue is reported for internal compiler generated code." }

/-- Does the last transaction of a scenario create the contract? -/
def isCreation (i : Issue) (c : Contract) : Except Fault Bool := do
  let steps ← (← i.scenario.part "steps").elements
  let some last := steps.getLast? | throw .outOfRange
  let input ← (← last.part "input").text
  return Text.contains input c.creationCode && i.function == "constructor"

/-- Adds the place in the source, if the contract has one. -/
def locate (i : Issue) : Subject → Except Fault Issue
  | .bare _ => .ok { i with sourceMap := i.address }
  | .sourced s =>
    if !i.address.isGiven then .ok { i with sourceMap := i.address }
    else do
      let ofCreation ← i.isCreation s.contract
      let address := match i.sourceLocation with
        | some n => if n == 0 then i.address else .int n
        | none => i.address
      match ← s.sourceAt address ofCreation with
      | none => return { i with sourceMap := i.address, filename := some "Internal File" }
      | some t =>
        let i := { i with filename := some t.filename, code := some t.code, line := t.line.map Int.ofNat }
        let i := if t.line.isNone then i.markInternal else i
        return { i with sourceMap := .str t.written }

/-! ## Functions in the scenario -/

/-- Cuts at the commas outside of brackets: where a bracket closes before one opens, a comma is inside. -/
def cutTypes : List Char → List Char → List (List Char)
  | acc, [] => [acc.reverse]
  | acc, c :: rest =>
    if c == ',' && (rest.dropWhile (fun d => d != '(' && d != ')')).head? != some ')' then
      acc.reverse :: cutTypes [] (rest.dropWhile Chars.isBlank)
    else cutTypes (c :: acc) rest
  termination_by _ cs => cs.length
  decreasing_by
    · have h := (List.dropWhile_suffix (l := rest) Chars.isBlank).length_le
      simp only [List.length_cons]
      omega
    · simp

def parameterTypes (signature : String) : List String :=
  let cs := signature.toList
  let start := ((cs.findIdx? (· == '(')).map (· + 1)).getD 0
  (cutTypes [] ((cs.take (cs.length - 1)).drop start)).map String.ofList

/-- The value that stands for a parameter: nothing is decoded. -/
def placeholder (type : String) : Json :=
  if Text.contains type "int" then .int 0
  else if type == "bool" then .bool false
  else if type == "address" then .str ("0x" ++ String.ofList (List.replicate 40 '0'))
  else if type == "string" then .str ""
  else .str "b''"

/-- Values of the parameters in call data; none if the data is not written in hexadecimal digits. -/
def parameters (data signature : String) : Json :=
  let digits := Text.drop data 10
  let gap := if digits.length % 64 == 0 then 0 else 64 - digits.length % 64
  match Hex.toBytes? (digits ++ String.ofList (List.replicate gap '0')) with
  | some _ => .arr ((parameterTypes signature).map placeholder)
  | none => .null

def withMembers (j : Json) (ms : List (String × Json)) : Json :=
  .obj (ms.foldl (fun all (k, v) => Sequence.put k v all) j.members)

def nameStep (known : Selectors) (step : Json) : Except Fault Json := do
  let input ← (← step.part "input").text
  match known.find (Text.take input 10) with
  | .ok (signature :: _, _) =>
    let data ← (← step.part "calldata").text
    return withMembers step [("name", .str signature), ("resolved_input", parameters data signature)]
  | .error f => if f.cause? != some .malformed then throw f
  | .ok ([], _) => pure ()
  return withMembers step [("name", .str "unknown")]

/-- Names the functions that the steps of the scenario call. -/
def nameFunctions (known : Selectors) (i : Issue) : Except Fault Issue := do
  let some steps := i.scenario.get? "steps" | return i
  let steps ← (← steps.elements).mapM (nameStep known)
  return { i with scenario := withMembers i.scenario [("steps", .arr steps)] }

/-! ## Test cases -/

/-- Data of a block that every step of a test case gets. -/
def blockData : List (String × Json) :=
  [("gasLimit", .str "0x7d000"), ("gasPrice", .str "0x773594000"),
   ("blockCoinbase", .str "0xcbcbcbcbcbcbcbcbcbcbcbcbcbcbcbcbcbcbcbcb"), ("blockDifficulty", .str "0xa7d7343662e26"),
   ("blockGasLimit", .str "0x7d0000"), ("blockNumber", .str "0x66e393"), ("blockTime", .str "0x5bfa4639")]

def testCase? (i : Issue) : Except Fault (Option Json) :=
  if !i.scenario.isGiven then .ok none
  else do
    let steps ← (← i.scenario.part "steps").elements
    return some (withMembers i.scenario [("steps", .arr (steps.map (withMembers · blockData)))])

def key (i : Issue) : String := i.contract ++ i.function ++ Shown.plain i.address ++ i.title

end Issue

structure Report where
  /-- Issues by key, in the order in which they came. -/
  issues : List (String × Issue) := []
  origin : Origin := {}
  exceptions : List String := []

namespace Report

def make (subjects : List Subject) (exceptions : List String) : Except Fault Report := do
  return { origin := ← Origin.ofSubjects subjects, exceptions := exceptions }

def add (known : Selectors) (r : Report) (i : Issue) : Except Fault Report := do
  let i ← i.nameFunctions known
  return { r with issues := Sequence.put i.key i r.issues }

def filename? (r : Report) : Option String := r.issues.head?.bind (·.2.filename)

/-- The order of addresses, which have to be all numbers or all texts. -/
def addressLe? : Json → Json → Option Ordering
  | .int a, .int b => some (compare a b)
  | .str a, .str b => some (compare a b)
  | .null, .null => some .eq
  | _, _ => none

def sorted (r : Report) : Except Fault (List Issue) :=
  let all := r.issues.map (·.2)
  let first := (all.head?.map Issue.address).getD .null
  if all.all (fun i => (addressLe? first i.address).isSome) || all.length ≤ 1 then
    .ok (all.mergeSort (fun a b => match addressLe? a.address b.address with
      | some .lt => true
      | some .eq => Text.le a.title b.title
      | _ => false))
  else .error .wrongSort

def toJson (r : Report) : Except Fault Json := do
  return .obj [("success", .bool true), ("error", .null), ("issues", .arr ((← r.sorted).map Issue.toJson))]

def standardIssue (i : Issue) (index : Nat) : Except Fault Json := do
  let cases := match ← i.testCase? with
    | some c => [("testCases", Json.arr [c])]
    | none => []
  let address ← i.address.number
  return .obj [
    ("swcID", .str ("SWC-" ++ i.swc)), ("swcTitle", .str (Registry.title i.swc)),
    ("description", .obj [("head", .str i.head), ("tail", .str i.tail)]),
    ("severity", .orNull .str i.severity),
    ("locations", .arr [.obj [("sourceMap", .str (toString address ++ ":1:" ++ toString index))]]),
    ("extra", .obj cases)]

/-- The issues in the standard format; hashes of code that are not listed yet are added to the origin. -/
def standardIssues : Origin → List Issue → Except Fault (List Json × Origin)
  | o, [] => .ok ([], o)
  | o, i :: rest => do
    let (index, o) := o.indexOf i.codeHash
    let j ← standardIssue i index
    let (js, o) ← standardIssues o rest
    return (j :: js, o)

def toStandard (r : Report) : Except Fault Json := do
  let (issues, origin) ← standardIssues r.origin (r.issues.map (·.2))
  let logs := r.exceptions.map (fun e => Json.obj [("level", .str "error"), ("hidden", .bool true), ("msg", .str e)])
  let about := (if logs.isEmpty then [] else [("logs", Json.arr logs)]) ++ [("mythril_execution_info", .obj [])]
  return .arr [.obj [
    ("issues", .arr issues), ("sourceType", .orNull .str origin.kind), ("sourceFormat", .orNull .str origin.format),
    ("sourceList", .arr (origin.sources.map .str)), ("meta", .obj about)]]

end Report

/-! # Surveys

A survey audits contracts one after the other and reports on all of them. Detectors that read the source are asked once,
before the first contract. A contract whose audit fails does not stop the survey: what was found up to then is
reported, and so is the fault. -/

structure Survey where
  audit : Audit
  subjects : List Subject
  /-- Where the contracts stand, in hexadecimal digits. -/
  address : String
  createsSourced : Bool := true
  /-- The source for the detectors that read it, or the fault of reading it. -/
  source : Option (Except Fault String) := none

namespace Survey

def readSource (source : Except Fault String) : Engine Unit := do
  let ds ← Engine.ofExcept (Detector.choose (← get).options (some .compile) [])
  ds.forM (fun d => do
    -- the compiler version is not worth a fault
    unless d == .checkOldCompiler do
      let found ← Engine.ofExcept (do Detect.inSource d (← source))
      Detect.keep d found false)

/-- Forgets what is only known about one contract. -/
def renew (s : Session) : Session :=
  { s with
    graph := {}, work := {}, openWorlds := [], total := 0, coverage := [], pruner := {}
    loader := s.loader.map (fun l => { active := l.active }) }

/-- Takes what detectors of some kinds have found; they begin again with nothing. -/
def take (entries : List Entry) (names : List String) : Engine (List Issue) := do
  let options := (← get).options
  let ds ← entries.mapM fun e => Engine.ofExcept (Detector.choose options (some e) names)
  let ds := ds.flatten
  let issues := (← get).findings.ofAll ds
  Engine.onFindings (·.reset ds)
  return issues

/-- Does the exploration of a contract begin with its creation? -/
def creates (s : Survey) (c : Subject) : Bool :=
  match c with
  | .sourced _ => s.createsSourced || !c.contract.creationCode.isEmpty
  | .bare c => !c.creationCode.isEmpty

def explore (s : Survey) (c : Subject) : Engine Unit := do
  modify renew
  match Numeral.parse? 16 s.address with
  | some address => s.audit.explore c.contract address (s.creates c)
  | none => throw .malformed

/-- Audits one contract: what was found, and the fault that ended the audit if one did. -/
def one (s : Survey) (c : Subject) : Engine (List Issue × Option Fault) := do
  let names := s.audit.detectors
  let (issues, fault) ← match ← Engine.attempt (s.explore c) with
    | .ok () => do pure (← take [.compile, .callback] names, none)
    | .error f =>
      if f.cause? == some .unknownDetector then throw f
      pure (← take [.callback] names, some f)
  let issues ← issues.mapM (fun i =>
    if i.scenario.isNull then pure i else Engine.ofExcept (i.locate c))
  return (issues, fault)

def report (s : Survey) (wording : Fault → String) : Engine Report := do
  s.source.forM readSource
  let found ← s.subjects.mapM s.one
  let faults := found.filterMap (·.2)
  let r ← Engine.ofExcept (Report.make s.subjects (faults.map wording))
  let known := (← get).code.selectors
  Engine.ofExcept ((found.flatMap (·.1)).foldlM (fun r i => r.add known i) r)

end Survey

end EvmAudit
