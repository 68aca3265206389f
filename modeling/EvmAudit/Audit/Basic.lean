import EvmAudit.Detect.Watch
import EvmAudit.Explore.Messages
import EvmAudit.Explore.Plugin

/-!
# Audits

An audit explores a contract, with the usual plugins and the wanted detectors watching, and gathers what they have found.
-/

namespace EvmAudit

inductive Allowance where
  | ample
  /-- Queries find no time, but nothing else is stopped. -/
  | none
  | instant
  deriving DecidableEq, Repr, Inhabited

/-- A number of seconds. Zero is no limit for the exploration, but none of it is left for queries. -/
def Allowance.ofSeconds (t : Float) : Allowance :=
  if t ≤ 0 then .none else if t < 0.001 then .instant else .ample

structure Audit where
  search : String := "bfs"
  maxDepth : Int := 22
  loopBound : Option Int := some 3
  rounds : Nat := 2
  detectors : List String := []
  keepsGraph : Bool := true
  /-- Are blocks left out that nothing new can happen in? -/
  prunes : Bool := true
  detects : Bool := true
  time : Allowance := .ample
  creationTime : Allowance := .ample

/-- The name of a search with a width is followed by the width. -/
def Search.beamName : String := "beam-search: "

def Search.ofText (name : String) : Except Fault Search :=
  match name with
  | "dfs" => .ok .depthFirst
  | "bfs" => .ok .breadthFirst
  | "naive-random" => .ok .anyState
  | "weighted-random" => .ok .weighted
  | name =>
    if Text.contains name beamName then
      match Numeral.parse? 10 ((name.splitOn beamName).getD 1 "") with
      | some n => .ok (.beam n)
      | none => .error .malformed
    else if Text.contains name "delayed" then .ok .delayed
    else .error (.failure .malformed "Invalid strategy argument supplied")

namespace Audit

def plugins (a : Audit) : List Plugin :=
  [.coverage, .mutationPruner, .callDepthLimit, .instructionProfiler]
    ++ (if a.prunes then [.dependencyPruner] else [])

def outsider (address : Int) : Engine (Nat × Account) := do
  let e ← Expr.ofInt address 256
  return (address.toNat, ← Account.make e none false false 0 none)

/-- The accounts that are there before the contract: the attacker, and the creator of a contract that is created. -/
def outsiders (creationCode : String) : Engine (List (Nat × Account)) := do
  let actors := (← get).actors
  (if creationCode.isEmpty then [actors.attacker] else [actors.creator, actors.attacker]).mapM outsider

/-- The account of the contract, with the balance that the node knows. -/
def target (w : World) (c : Contract) (address : Int) : Engine World := do
  let e ← Expr.ofInt address 256
  let program ← Engine.adopt c.program
  let isActive := (← get).loader.any (·.active)
  let a ← Account.make e (some c.name) isActive (← get).loader.isSome 0 (some program)
  let w ← if (← get).loader.isSome then do
      let text := "0x" ++ Text.padLeft (Hex.ofNat ((← e.value?).getD 0)) 40 '0'
      match ← Engine.attempt (Engine.readBalance (.str text)) with
      | .ok n => w.setBalance e (← Expr.ofInt n 256)
      | .error _ => pure w
    else pure w
  return w.put (← e.value?) a

/-- Explores a contract at an address. With creation code, exploration begins with the creation. -/
def explore (a : Audit) (c : Contract) (address : Int) (creates : Bool) : Engine Unit := do
  let search ← Engine.ofExcept (Search.ofText a.search)
  let options := (← get).options
  unless a.keepsGraph do
    let _ ← Engine.ofExcept (Detector.choose options (some .post) a.detectors)
  let w := (← outsiders c.creationCode).foldl (fun (w : World) (key, account) => w.put (some key) account) {}
  let plan : Explore.Plan := {
    search := search, maxDepth := some a.maxDepth, keepsGraph := a.keepsGraph, rounds := a.rounds
    isOver := a.time == .instant, isCreationOver := a.creationTime == .instant
    extensions := match a.loopBound with
      | some n => [.loops n]
      | none => [] }
  let ds ← if a.detects then Engine.ofExcept (Detector.choose options (some .callback) a.detectors) else pure []
  let h := Plugin.allHooks a.plugins ++ Detector.hooks ds
  modify fun s => { s with queries := { s.queries with exhausted := a.time != .ample } }
  if creates then Explore.creation h plan w (.hex c.creationCode) c.name
  else Explore.messages h plan (← target w c address) address

def findings (detectors : List String) : Engine (List Issue) := do
  let options := (← get).options
  let _ ← Engine.ofExcept (Detector.choose options (some .post) detectors)
  let compile ← Engine.ofExcept (Detector.choose options (some .compile) detectors)
  let callback ← Engine.ofExcept (Detector.choose options (some .callback) detectors)
  let f := (← get).findings
  return f.ofAll compile ++ f.ofAll callback

/-! ## Calls -/

/-- The calls of a node with the place of their state among the states of the node. A call of a precompiled contract is
left out, and its state is not counted. -/
def callsOf : Nat → List GState → Engine (List (CallSite × Nat))
  | _, [] => return []
  | i, g :: rest => do
    if [Opcode.call, .callcode, .delegatecall, .staticcall].contains (← g.instr).opcode then
      match ← CallSite.of? g true with
      | some c => return (c, i) :: (← callsOf (i + 1) rest)
      | none => callsOf i rest
    else callsOf (i + 1) rest

def calls : Engine (List (CallSite × Nat)) := do
  let found ← (← get).graph.nodes.toList.mapM (callsOf 0 ·.states)
  return found.flatten

end Audit
end EvmAudit

/-! # Contracts from code and from a chain -/

namespace EvmAudit.Engine

/-- Where a contract stands if nothing else is said. -/
def defaultAddress : String := "0x" ++ String.ofList (List.replicate 40 '0')

def makeContract (code creationCode name : String) : Engine Contract := do
  let (c, known) ← ofExcept (Contract.make (← get).code.selectors code creationCode name)
  modify fun s => { s with code := { s.code with selectors := known } }
  return c

/-- A contract from its code, which either is what stands on the chain or creates that. -/
def contractOfCode (code : String) (isRuntime : Bool) : Engine Contract :=
  if isRuntime then makeContract code "" "MAIN" else makeContract "" code "MAIN"

def contractAt (address : String) : Engine Contract := do
  unless Lookup.looksLikeAddress address do
    throw (.failure .critical "Invalid contract address. Expected format is '0x...'.")
  if (← get).line.isNone then
    throw (.failure .critical "Please check whether the Infura key is set or use a different RPC method.")
  match ← attempt (talk (Rpc.code (.str address)) Fault.noSuchPart) with
  | .error f => throw (Lookup.codeFault f)
  | .ok code => makeContract (← ofExcept (Lookup.checkCode code)) "" address

/-- Slots of a contract on the chain, one in a line. -/
def slotsAt (address : String) (words : List String) : Engine String := do
  let slots ← ofExcept (Lookup.slots words)
  match ← attempt (slots.mapM (fun s => talk (Lookup.slot address s) Fault.noSuchPart)) with
  | .ok lines => return "\n".intercalate lines
  | .error f => throw (Lookup.slotFault f)

def selectorOf (signature : String) : Engine String := do
  return "0x" ++ Hex.ofBytes ((← ofExcept (CodeHash.ofText signature)).take 4)

end EvmAudit.Engine
