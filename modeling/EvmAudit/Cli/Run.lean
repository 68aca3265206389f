import EvmAudit.Audit.Report
import EvmAudit.Cli.Commands
import EvmAudit.Explore.StateSpace

/-!
# What a run starts from and ends with

A run of the program sees files, a compiler, a node and a table of signatures. It ends with what it has printed and
written, and with how it ended.
-/

namespace EvmAudit.Cli

open Text

inductive Exit where
  | returned
  | quit (code : Option Int)
  deriving DecidableEq, Repr

structure Outcome where
  exit : Exit
  printed : String := ""
  written : Files := []

structure Setting where
  disk : Files := []
  compiler : Option String := none
  /-- What nodes reply by method; none if no node can be reached. -/
  replies : Option (List (String × Json)) := none
  known : Selectors := {}
  /-- How a fault that nobody has foreseen is reported. -/
  wording : Fault → String

def Setting.hasFile (s : Setting) (path : String) : Bool := (s.disk.lookup path).isSome

/-- Directories in front of a file name, each with the slash at its end. -/
def Setting.directory (path : String) : String := String.ofList ((path.toList.reverse.dropWhile (· != '/')).reverse)

/-- Why a file cannot be written: there has to be such a directory. -/
def Setting.writeFault? (s : Setting) (path : String) : Option String :=
  let dir := directory path
  let exists_ := ["", "./"].contains dir || s.disk.any (fun (p, _) => startsWith p dir)
  if !exists_ then some ("[Errno 2] No such file or directory: " ++ Shown.str path)
  else if dir == path || path == "." then some ("[Errno 21] Is a directory: " ++ Shown.str path)
  else none

inductive Format where
  | text
  | markdown
  | json
  | standard
  deriving DecidableEq, Repr

def Format.ofName : String → Format
  | "markdown" => .markdown
  | "json" => .json
  | "jsonv2" => .standard
  | _ => .text

namespace Outcome

def line (s : String) : String := s ++ "\n"

def jsonLine (j : Json) : String := line (j.render Json.spacedStyle 0)

def say (printed : String) : Outcome := ⟨.quit none, printed, []⟩

/-- Leaves because of an error; only formats for tools tell about it. -/
def error (format : Format) (message : String) : Outcome :=
  match format with
  | .text | .markdown => say ""
  | .json => say (jsonLine (.obj [("success", .bool false), ("error", .str message), ("issues", .arr [])]))
  | .standard =>
    let log := Json.obj [("level", .str "error"), ("hidden", .bool true), ("msg", .str message)]
    say (jsonLine (.arr [.obj [
      ("issues", .arr []), ("sourceType", .str ""), ("sourceFormat", .str ""), ("sourceList", .arr []),
      ("meta", .obj [("logs", .arr [log])])]]))

end Outcome

/-! # Running commands

Arguments are checked first; then the node and the code are looked up, and the command is carried out. From then on every
fault ends the run with a message in the wanted format. -/

structure Task where
  setting : Setting
  level : Int
  command : Command
  args : Values
  /-- The number of transactions, where it is not the argument. -/
  rounds : Option Int := none
  sequences : Json := .null

namespace Task

/-- The format for errors; commands without the option have texts. -/
def format (t : Task) : Format := .ofName ((t.args.text? "outform").getD "text")

/-! ## Checks -/

mutual

def valueOf : Literal → Json
  | .text s => .str s
  | .number n => .int n
  | .fraction digits places => .float (Float.ofScientific digits true places)
  | .truth b => .bool b
  | .nothing => .null
  | .list xs => .arr (valuesOf xs)
  | .table xs => .obj (entriesOf xs)
  | .other => .null

def valuesOf : List Literal → List Json
  | [] => []
  | x :: xs => valueOf x :: valuesOf xs

def entriesOf : List (Literal × Literal) → List (String × Json)
  | [] => []
  | (k, v) :: xs => (Shown.plain (valueOf k), valueOf v) :: entriesOf xs

end

def sizeOf? : Json → Option Nat
  | .str s => some s.length
  | .arr xs => some xs.length
  | .obj ms => some ms.length
  | _ => none

def badSequence : String :=
  "The transaction sequence is in incorrect format, It should be [list of possible function hashes in 1st transaction, "
    ++ "list of possible func hashes in 2nd tx, ...] If any list is empty then all possible functions are considered "
    ++ "for that transaction"

/-- The level of the log has to be one of six; commands without a format cannot say so. -/
def checkLevel (t : Task) : Except Fault (Option Outcome) :=
  if 0 ≤ t.level && t.level < 6 then .ok none
  else if t.args.has "outform" then
    .ok (some (.error t.format "Invalid -v value, you can find valid values in usage"))
  else .error .noSuchPart

/-- Reads the selectors for each transaction, which give the number of transactions too. -/
def readSequences (t : Task) : Except Fault (Except Outcome Task) := do
  let some text := t.args.filled? "transaction_sequences" | return .ok t
  let x ← need (.failure .badSyntax "") (Literal.parse? text)
  if !x.isPlain then return .error (.error t.format badSequence)
  let n ← need .wrongSort (sizeOf? (valueOf x))
  return .ok { t with sequences := valueOf x, rounds := some n }

def checkOptions (t : Task) : Option Outcome :=
  if t.command != .analyze then none
  else if t.args.flag "query_signature" then
    some (.error t.format "The --query-signature function requires the python package ethereum-input-decoder")
  else if t.args.flag "enable_iprof" && t.level < 4 then
    some (.error t.format "--enable-iprof must be used with -v LOG_LEVEL where LOG_LEVEL >= 4")
  else none

/-- All checks: the task to carry out, or how the run ends without it. -/
def check (t : Task) : Except Fault (Except Outcome Task) := do
  if let some o := ← t.checkLevel then return .error o
  if t.command == .disassemble && (t.args.texts "solidity_files").length > 1 then
    return .error (.error .text "Only a single arg is supported for using disassemble")
  match ← t.readSequences with
  | .error o => return .error o
  | .ok t => return t.checkOptions.elim (.ok t) .error

/-! ## The node -/

def endpoint? (t : Task) : Except Fault (Option Endpoint) := do
  let config ← ChainConfig.read ""
  let config := { config with serviceId := (t.args.filled? "infura_id").or config.serviceId }
  match t.args.filled? "rpc" with
  | some rpc => config.endpointOf rpc (.bool (t.args.flag "rpctls"))
  | none =>
    if t.command == .analyze && !t.args.flag "no_onchain_data" then throw .noSuchPart
    return none

def connect (t : Task) : Except Fault (Option Line) := do
  (← t.endpoint?).mapM fun e => return { node := .http e (← need .noSuchPart t.setting.replies) }

/-! ## Code -/

def loadSources (t : Task) (paths : List String) : Engine (List Subject) := do
  let isFixed := (t.args.filled? "solv").isSome
  let compiler : Compiler := {
    printed := if isFixed then none else t.setting.compiler
    settings := (t.args.filled? "solc_json").mapM t.setting.disk.read }
  match (Loading.paths t.setting.disk compiler isFixed paths).run { known := (← get).code.selectors } with
  | .ok _ l =>
    modify fun s => { s with code := { s.code with selectors := l.known } }
    return l.subjects
  | .error f _ => throw f

def unmarked (code : String) : String := if startsWith code "0x" then drop code 2 else code

def noCode : String :=
  "No input bytecode. Please provide EVM code via -c BYTECODE, -a ADDRESS, -f BYTECODE_FILE or <SOLIDITY_FILE>"

/-- Loads the code that the arguments name: where it stands, and the contracts. -/
def load (t : Task) : Engine (Except Outcome (String × List Subject)) := do
  let ofCode (code : String) : Engine (Except Outcome (String × List Subject)) := do
    let c ← Engine.contractOfCode (unmarked code) (t.args.flag "bin_runtime")
    return .ok (Engine.defaultAddress, [.bare c])
  if let some code := t.args.filled? "code" then ofCode code
  else if let some path := t.args.text? "codefile" then
    let text ← Engine.ofExcept (t.setting.disk.read path)
    ofCode (join "" ((splitAt (unifyLines text) '\n').map trim))
  else if let some address := t.args.filled? "address" then
    return .ok (address, [.bare (← Engine.contractAt address)])
  else
    match t.args.texts "solidity_files" with
    | [] => return .error (.error t.format noCode)
    | paths =>
      if t.command == .analyze && (t.args.filled? "graph").isSome && paths.length > 1 then
        return .error (.error t.format
          "Cannot generate call graphs from multiple input files. Please do it one at a time.")
      return .ok (Engine.defaultAddress, ← t.loadSources paths)

/-! ## Commands -/

def number (t : Task) (name : String) (default : Int) : Int := (t.args.whole? name).getD default

def search (t : Task) : String :=
  match t.number "beam_search" 0 with
  | 0 => (t.args.text? "strategy").getD "bfs"
  | n => Search.beamName ++ toString n

def detectors (t : Task) : List String :=
  match t.args.filled? "modules" with
  | some names => (splitAt (trim names) ',').map trim
  | none => []

def allowance (t : Task) (name : String) : Allowance := .ofSeconds (Float.ofInt (t.number name 0))

def audit (t : Task) : Audit :=
  { search := t.search
    maxDepth := t.number "max_depth" 128
    loopBound := some (t.number "loop_bound" 3)
    rounds := (t.rounds.getD (t.number "transaction_count" 2)).toNat
    detectors := t.detectors
    keepsGraph := false
    prunes := !t.args.flag "disable_dependency_pruning"
    time := t.allowance "execution_timeout"
    creationTime := t.allowance "create_timeout" }

def survey (t : Task) (address : String) (subjects : List Subject) (audit : Audit) : Survey :=
  { audit := audit, subjects := subjects, address := address
    createsSourced := t.number "create_timeout" 10 != 0
    source := (t.args.texts "solidity_files").head?.map t.setting.disk.read }

def setOptions (t : Task) : Engine Unit :=
  modify (fun s => { s with options := { s.options with
    pruning := 0 < t.args.decimalD "pruning_factor" 1
    solverTimeout := t.number "solver_timeout" 10000
    parallelSolving := t.args.flag "parallel_solving"
    unconstrainedStorage := t.args.flag "unconstrained_storage"
    callDepthLimit := t.number "call_depth_limit" 3
    profile := t.args.flag "enable_iprof"
    solverLog := t.args.text? "solver_log"
    sequences := t.sequences } })

/-- Goes on with the report of an analysis; a fault that is foreseen ends the run. -/
def reported (t : Task) (s : Survey) (format : Format) (finish : Report → Except Fault Outcome) : Engine Outcome := do
  match ← Engine.attempt (s.report t.setting.wording) with
  | .ok r => Engine.ofExcept (finish r)
  | .error f => match f.cause? with
    | some .unknownDetector => return .error format f.message
    | some .critical => return .error format ("Analysis error encountered: " ++ f.message)
    | _ => throw f

def printReport (t : Task) (r : Report) : Except Fault Outcome := do
  let json ← r.toJson
  let standard ← r.toStandard
  let printed := match t.format with
    | .json => Outcome.jsonLine json
    | .standard => Outcome.jsonLine standard
    | .text | .markdown => Outcome.line ""
  return ⟨.quit (some (if r.issues.isEmpty then 0 else 1)), printed, []⟩

def setActor (name : String) (address : Option String) : Engine Bool := do
  let some text := address | return true
  let .ok n := Actors.readAddress text | return false
  modify fun s => { s with actors := s.actors.put name n }
  return true

def write (t : Task) (what path text : String) : Outcome :=
  match t.setting.writeFault? path with
  | some fault => .error t.format ("Error saving " ++ what ++ ": " ++ fault)
  | none => ⟨.returned, "", [(path, text)]⟩

/-- There is no template to draw a graph with, so the page stays empty. -/
def drawGraph (t : Task) (s : Survey) (c : Subject) (path : String) : Engine Outcome := do
  s.explore c
  let g := (← get).graph
  let _ ← Audit.calls
  let _ ← StateSpace.callNodes g
  let _ ← g.edges.mapM (m := Calc) StateSpace.edgeLabel
  return t.write "graph" path ""

def dumpStates (t : Task) (s : Survey) (c : Subject) (path : String) : Engine Outcome := do
  s.explore c
  let _ ← Audit.calls
  let known ← Audit.outsiders c.contract.creationCode
  let space ← StateSpace.toJson (← get).graph (known.map (fun (_, a) => a.name))
  match space with
  | .ok j => return t.write "json" path (j.render Json.spacedStyle 0)
  | .error f => return .error t.format ("Error saving json: " ++ (t.setting.writeFault? path).getD f.message)

def analyze (t : Task) (address : String) (subjects : List Subject) : Engine Outcome := do
  match subjects with
  | [] => return .error t.format "input files do not contain any valid contracts"
  | c :: _ =>
    unless ← setActor "ATTACKER" (t.args.filled? "attacker_address") do
      return .error t.format "Attacker address is invalid"
    unless ← setActor "CREATOR" (t.args.filled? "creator_address") do
      return .error t.format "Creator address is invalid"
    let plain := { t.audit with loopBound := some 3, detects := false, keepsGraph := true }
    match t.args.filled? "graph", t.args.filled? "statespace_json" with
    | some path, _ => t.drawGraph (t.survey address subjects plain) c path
    | none, some path => t.dumpStates (t.survey address subjects { plain with rounds := 2 }) c path
    | none, none => t.reported (t.survey address subjects t.audit) t.format t.printReport

def safeFunctions (subjects : List Subject) (r : Report) : Except Fault String := do
  let table := subjects.foldl (fun table s =>
    Sequence.put s.contract.name (s.contract.program.addressToName.map (·.2)).eraseDups table) []
  let table ← r.issues.foldlM (fun table (_, i) =>
    match table.lookup i.contract with
    | some names => .ok (Sequence.put i.contract (names.erase i.function) table)
    | none => .error .noSuchKey) table
  return join "" (table.map (fun (name, functions) =>
    Outcome.line ("Contract " ++ name ++ ": \n") ++ Outcome.line (toString functions.length
      ++ " functions are deemed safe in this contract: " ++ join ", " functions ++ "\n\n")))

/-- Checks functions: storage is unknown, nothing is left out, and there is one transaction. -/
def checkFunctions (t : Task) (address : String) (subjects : List Subject) : Engine Outcome := do
  modify (fun s => { s with
    options := { s.options with unconstrainedStorage := true, pruning := true }
    loader := s.loader.map (fun l => { l with active := false }) })
  let audit := { t.audit with prunes := false, rounds := 1 }
  t.reported (t.survey address subjects audit) .text fun r => return ⟨.returned, ← safeFunctions subjects r, []⟩

def disassemble (subjects : List Subject) : Engine Outcome := do
  match subjects with
  | [] => throw .outOfRange
  | s :: _ =>
    let c := s.contract
    let part (title code : String) (p : Program) : Engine String := do
      if code.isEmpty then return ""
      return Outcome.line (title ++ (← Engine.ofExcept p.listing))
    let deployed ← part "Runtime Disassembly: \n" c.code c.program
    return ⟨.returned, deployed ++ (← part "Disassembly: \n" c.creationCode c.creationProgram), []⟩

def readStorage (t : Task) (address : String) : Engine Outcome := do
  let words := (splitAt (trim ((t.args.text? "storage_slots").getD "")) ',').map trim
  return ⟨.returned, Outcome.line (← Engine.slotsAt address words), []⟩

/-- Prints the digest of a signature and the selector in it. -/
def hashFunction (t : Task) : Engine Outcome := do
  let digest ← Engine.ofExcept (CodeHash.ofText ((t.args.text? "func_name").getD ""))
  return .say (Outcome.line (Shown.octets digest) ++ Outcome.line ("0x" ++ Hex.ofBytes (digest.take 4)))

def execute (t : Task) (address : String) (subjects : List Subject) : Engine Outcome :=
  match t.command with
  | .readStorage => t.readStorage address
  | .disassemble => disassemble subjects
  | .safeFunctions => do
    t.setOptions
    t.checkFunctions address subjects
  | .analyze => do
    t.setOptions
    t.analyze address subjects
  | _ => return ⟨.returned, mainPage.render, []⟩

/-- Looks up the node and the code, and carries out the command. -/
def perform (t : Task) : Engine Outcome := do
  if t.command == .functionToHash then return ← t.hashFunction
  let line ← Engine.ofExcept t.connect
  let version := (t.args.filled? "solv").map (fun v => if startsWith v "v" then drop v 1 else v)
  -- a compiler of any version finds for itself what these detectors look for
  let isChecked := (version.getD "") != ""
  modify (fun s => { s with
    line := line
    loader := some { active := !t.args.flag "no_onchain_data" }
    code := { s.code with selectors :=
      { t.setting.known with online := t.setting.known.online || t.args.flag "query_signature" } }
    options := { s.options with useIntegers := !isChecked, useDeprecated := !isChecked, useVisibility := !isChecked } })
  match ← t.load with
  | .error o => return o
  | .ok (address, subjects) => t.execute address subjects

/-- Carries out a task; a fault ends it with a message. -/
def run (t : Task) : Outcome :=
  match t.perform.run {} with
  | .ok o _ => o
  | .error f _ => .error t.format (if f.cause? == some .critical then f.message else t.setting.wording f)

end Task

/-! ## The program -/

def version : String := "v0.23.13"

def listDetectors : Format → Outcome
  | .json => .say (Outcome.jsonLine (.arr (Detector.all.map (fun d =>
      .obj [("classname", .str d.name), ("title", .str d.info.title)]))))
  | _ => .say (join "" (Detector.all.map (fun d => Outcome.line (d.name ++ ": " ++ d.info.title))))

/-- Runs the program on a command line. Arguments that do not fit together in an unforeseen way are a fault. -/
def run (setting : Setting) (words : List String) : Except Fault Outcome :=
  match parseWords setting.hasFile words with
  | .misuse => .ok ⟨.quit (some 2), "", []⟩
  | .help page => .ok ⟨.quit (some 0), page.render, []⟩
  | .idle outer => if outer.flag "epic" then epic else .ok (.say mainPage.render)
  | .run outer command inner =>
    if outer.flag "epic" then epic
    else
      let format := Format.ofName ((inner.text? "outform").getD "text")
      match command with
      | .version => .ok (.say (match format with
        | .json => Outcome.jsonLine (.obj [("version_str", .str version)])
        | _ => Outcome.line ("Mythril version " ++ version)))
      | .listDetectors => .ok (listDetectors format)
      | .help => .ok (.say mainPage.render)
      | _ => do
        let level := (outer.whole? "v").getD 0
        match ← Task.check { setting := setting, level := level, command := command, args := inner } with
        | .ok t => return t.run
        | .error o => return o
where
  /-- The program starts itself again in colour, which needs the whole word. -/
  epic : Except Fault Outcome :=
    if words.contains "--epic" then .ok (.say "") else .error .malformed

end EvmAudit.Cli
