import EvmAudit.Chain
import EvmAudit.Code.Program
import EvmAudit.Detect.Detector
import EvmAudit.Explore.Basic

/-!
# Options of an analysis
-/

namespace EvmAudit

structure Options where
  solverTimeout : Int := 10000
  /-- Are paths dropped that turn out to be impossible? -/
  pruning : Bool := true
  unconstrainedStorage : Bool := false
  parallelSolving : Bool := false
  callDepthLimit : Int := 3
  profile : Bool := true
  solverLog : Option String := none
  sequences : Json := .null
  useIntegers : Bool := true
  useDeprecated : Bool := true
  useVisibility : Bool := true
  useIssueNotes : Bool := false
  compilerArguments : Json := .null

/-! # Sessions

All that an analysis remembers beside the states themselves: expressions, programs, the node and what it has answered,
hashes, answers to queries, and the tables of what states share. -/

/-- Programs by number, and the signatures they were read with. -/
structure CodeTable where
  programs : Array Program := #[]
  selectors : Selectors := {}

/-- What a node is asked about: an address, and a slot of its storage. -/
structure NodeKey where
  address : Json
  slot : Int := 0

/-- Only texts and whole numbers are told to be the same. -/
instance : BEq NodeKey where
  beq a b := a.slot == b.slot && match a.address, b.address with
    | .str s, .str t => s == t
    | .int m, .int n => m == n
    | _, _ => false

/-- Answers of a node. The 4096 that were used last are not asked for again. -/
structure Answers (β : Type) where
  known : Recency NodeKey β := { capacity := 4096 }
  /-- What was asked for, the latest first. -/
  asked : List NodeKey := []

def Answers.keep {β : Type} (a : Answers β) (key : NodeKey) (v : β) : Answers β :=
  match a.known.put key v with
  | .ok known => { a with known := known }
  | .error _ => a

structure Loader where
  active : Bool := true
  storage : Answers Json := {}
  balances : Answers Int := {}
  codes : Answers (Option ProgramId) := {}

inductive QueryPart where
  | truth (b : Bool)
  | plain (n : Int)
  | expr (id : Nat)
  deriving DecidableEq, Hashable, Repr

/-- What a query is known by: how it was put, and its conditions. -/
structure QueryKey where
  form : String
  parts : List QueryPart
  deriving DecidableEq, Hashable, Repr

structure Queries where
  /-- No time is left for further queries. -/
  exhausted : Bool := false
  models : Models := {}
  answered : Std.HashMap QueryKey Model := {}

structure Shared where
  suspended : Array GState := #[]
  dependencies : Array Dependency := #[]
  writes : Array KeySet := #[]
  /-- Lists of what is to be checked at the end of a transaction. -/
  suspicions : Array (List Suspicion) := #[]

structure Session where
  ledger : Ledger := {}
  code : CodeTable := {}
  line : Option Line := none
  loader : Option Loader := none
  hashes : Hashes := {}
  queries : Queries := {}
  options : Options := {}
  txCount : Nat := 0
  shared : Shared := {}
  graph : Graph := {}
  work : Work GState := {}
  /-- Worlds that finished transactions have left behind. -/
  openWorlds : List World := []
  nextState : Nat := 0
  total : Nat := 0
  /-- What observers wrote down, the latest first. -/
  journal : List Json := []
  /-- How transactions have ended, the latest first. -/
  ended : List Json := []
  actors : Actors := {}
  findings : Findings := {}
  coverage : Coverage := []
  pruner : Pruner := {}
  /-- Scenarios that turn off at a branch, if there are any. -/
  turns : List (String × Option Json) := []
  isTimed : Bool := false

instance : Inhabited Session := ⟨{}⟩

/-- Computations of an analysis; what has been recorded stays recorded when they fail. -/
abbrev Engine := EStateM Fault Session

instance : MonadLift Calc Engine where
  monadLift c := fun s =>
    let l := s.ledger
    let s := { s with ledger := {} }
    match c l with
    | .ok a l => .ok a { s with ledger := l }
    | .error f l => .error f { s with ledger := l }

namespace Engine

def ofExcept {α : Type} : Except Fault α → Engine α
  | .ok a => return a
  | .error f => throw f

def attempt {α : Type} (c : Engine α) : Engine (Except Fault α) := fun s =>
  match c s with
  | .ok a s => .ok (.ok a) s
  | .error f s => .ok (.error f) s

/-- Runs a computation; faults of the kind that is asked for are replaced. -/
def rescue {α : Type} (c : Engine α) (handle : Fault → Option (Engine α)) : Engine α := fun s =>
  match c s with
  | .ok a s => .ok a s
  | .error f s => match handle f with
    | some h => h s
    | none => .error f s

def shared {α : Type} (f : Shared → α × Shared) : Engine α := fun s =>
  let sh := s.shared
  let s := { s with shared := {} }
  let (a, sh) := f sh
  .ok a { s with shared := sh }

def freshState : Engine Nat := modifyGet fun s => (s.nextState, { s with nextState := s.nextState + 1 })

def newDependency (d : Dependency) : Engine Nat :=
  shared fun sh => (sh.dependencies.size, { sh with dependencies := sh.dependencies.push d })

def dependency (r : Nat) : Engine Dependency := return (← get).shared.dependencies.getD r default

def setDependency (r : Nat) (d : Dependency) : Engine Unit :=
  shared fun sh => ((), { sh with dependencies := sh.dependencies.setIfInBounds r d })

def newWrites (keys : KeySet) : Engine Nat :=
  shared fun sh => (sh.writes.size, { sh with writes := sh.writes.push keys })

def writes (n : Nat) : Engine KeySet := return (← get).shared.writes.getD n []

def setWrites (n : Nat) (keys : KeySet) : Engine Unit :=
  shared fun sh => ((), { sh with writes := sh.writes.setIfInBounds n keys })

def suspend (g : GState) : Engine Nat :=
  shared fun sh => (sh.suspended.size, { sh with suspended := sh.suspended.push g })

def suspended (n : Nat) : Engine GState := return (← get).shared.suspended.getD n default

def setSuspended (n : Nat) (g : GState) : Engine Unit :=
  shared fun sh => ((), { sh with suspended := sh.suspended.setIfInBounds n g })

def newSuspicions (xs : List Suspicion) : Engine Nat :=
  shared fun sh => (sh.suspicions.size, { sh with suspicions := sh.suspicions.push xs })

def suspicions (n : Nat) : Engine (List Suspicion) := return (← get).shared.suspicions.getD n []

def setSuspicions (n : Nat) (xs : List Suspicion) : Engine Unit :=
  shared fun sh => ((), { sh with suspicions := sh.suspicions.setIfInBounds n xs })

def onFindings (f : Findings → Findings) : Engine Unit := modify fun s => { s with findings := f s.findings }

def nextTx : Engine String := modifyGet fun s => (toString (s.txCount + 1), { s with txCount := s.txCount + 1 })

def hash (data : Expr) : Engine Expr := do
  let (h, r) ← (← get).hashes.create data
  modify fun s => { s with hashes := h }
  ofExcept r

def onGraph {α : Type} (f : Graph → α × Graph) : Engine α := fun s =>
  let g := s.graph
  let s := { s with graph := {} }
  let (a, g) := f g
  .ok a { s with graph := g }

def onWork {α : Type} (f : Work GState → α × Work GState) : Engine α := fun s =>
  let w := s.work
  let s := { s with work := {} }
  let (a, w) := f w
  .ok a { s with work := w }

def record (j : Json) : Engine Unit := modify fun s => { s with journal := j :: s.journal }

/-! ## Programs -/

def newProgram (code : Bytecode) : Engine ProgramId := do
  let (p, known) ← ofExcept (Program.make (← get).code.selectors code)
  modifyGet fun s => (s.code.programs.size, { s with code := ⟨s.code.programs.push p, known⟩ })

def adopt (p : Program) : Engine ProgramId :=
  modifyGet fun s => (s.code.programs.size, { s with code := { s.code with programs := s.code.programs.push p } })

def program (id : ProgramId) : Engine Program := return (← get).code.programs.getD id default

def copyProgram (id : ProgramId) : Engine ProgramId := do adopt (← program id)

def assign (id : ProgramId) (code : Bytecode) : Engine Unit := do
  let s ← get
  let r := (s.code.programs.getD id default).assign s.code.selectors code
  set { s with code := { programs := s.code.programs.setIfInBounds id r.program, selectors := r.known } }
  match r.fault with
  | some f => throw f
  | none => return ()

/-! ## The node -/

def talk {α : Type} (t : Talk α) (missing : Fault) : Engine α := fun s =>
  match s.line with
  | none => .error missing s
  | some l =>
    match t l with
    | .ok a l => .ok a { s with line := some l }
    | .error f l => .error f { s with line := some l }

def noNode : Fault :=
  .failure .malformed "Cannot load from the chain when eth is None, please use rpc, or specify infura-id"

def setLoader (f : Loader → Loader) : Engine Unit := modify fun s => { s with loader := s.loader.map f }

/-- An answer of one kind, which is found out and kept if it is not known. Its kind is given by where the loader has it. -/
def cached {β : Type} (part : Loader → Answers β) (change : (Answers β → Answers β) → Loader → Loader) (key : NodeKey)
    (find : Bool → Engine β) : Engine β := do
  let l ← match (← get).loader with
    | some l => pure l
    | none => throw .noSuchPart
  let (found, known) := (part l).known.get key
  setLoader (change fun a => { known := known, asked := key :: a.asked })
  match found with
  | some v => return v
  | none =>
    let v ← find l.active
    setLoader (change (·.keep key v))
    return v

/-- A slot of storage on the node. -/
def readStorage (address : Json) (slot : Int) : Engine Json :=
  cached (·.storage) (fun f l => { l with storage := f l.storage }) ⟨address, slot⟩ fun active => do
    unless active do throw (.failure .malformed "Loader is disabled")
    let v ← talk (Rpc.storageAt address (.int slot))
      (.failure .malformed "Cannot load from the storage when eth is None")
    return match v with
      | .str "0x" => .str ("0x" ++ String.ofList (List.replicate 64 '0'))
      | v => v

def readBalance (address : Json) : Engine Int :=
  cached (·.balances) (fun f l => { l with balances := f l.balances }) { address := address } fun active => do
    unless active do throw (.failure .malformed "Cannot load from storage when the loader is disabled")
    talk (Rpc.balance address) noNode

def longAddress (n : Int) : String :=
  let digits := (Hex.ofNat n.natAbs).toUpper
  if n < 0 then "0x-" ++ Text.padLeft digits 39 '0' else "0x" ++ Text.padLeft digits 40 '0'

def isAddress (s : String) : Bool :=
  match s.toList with
  | '0' :: 'x' :: digits => digits.length == 40 && digits.all fun c => (Hex.digitValue? c).isSome
  | _ => false

def codeAddress : Json → Except Fault String
  | .int n => .ok (longAddress n)
  | .str s => .ok ("0x" ++ String.ofList (List.replicate (42 - s.length) '0') ++ Text.drop s 2)
  | _ => .error .wrongSort

/-- The program at an address on the node; nothing if there is no code or no such address. -/
def loadCode (address : Json) : Engine (Option ProgramId) :=
  cached (·.codes) (fun f l => { l with codes := f l.codes }) { address := address } fun active => do
    unless active do throw (.failure .malformed "Loader is disabled")
    if (← get).line.isNone then throw noNode
    let text ← ofExcept (codeAddress address)
    -- a newline may follow the digits
    unless isAddress text || (text.endsWith "\n" && isAddress (Text.take text 42)) do return none
    match ← talk (Rpc.code (.str (Text.take text 42))) noNode with
    | .str "0x" => return none
    | .str s => return some (← newProgram (.hex s))
    | _ => throw .wrongSort

end Engine
end EvmAudit
