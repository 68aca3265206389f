import EvmAudit.Detect.Report
import EvmAudit.Explore.Run

/-!
# Transactions with unknown input

A contract is sent messages by any of the actors, with unknown value and data, round after round. Each round starts from
the worlds that the round before has left open.
-/

namespace EvmAudit.Explore

open Engine
open EvmAudit.Expr
open Fault

def bySomeActor (tx : Tx) : Engine Expr := do
  let actors := (← get).actors.all
  let cases ← actors.mapM (m := Calc) (fun (_, n) => do
    Item.equate .eq tx.caller (.expr (← ofInt n 256)))
  disj cases

/-! ## Chosen functions -/

/-- The bytes of a selector: as many digits as it takes. -/
def selectorBytes (n : Int) : Except Fault (List Nat) :=
  if n < 0 then .error malformed
  else match Hex.toBytes? (Hex.ofNat n.toNat) with
    | some bs => .ok bs
    | none => .error malformed

/-- The selectors that a round may call; nothing if every one is allowed. -/
def selectors (o : Options) (round : Nat) : Except Fault (List (List Nat)) := do
  let selector (j : Json) : Except Fault (List Nat) :=
    match j with
    | .int n => selectorBytes n
    | .bool b => selectorBytes (if b then 1 else 0)
    | _ => .error wrongSort
  if !o.sequences.isGiven then return []
  match o.sequences with
  | .arr rounds => match rounds[round]? with
    | some (.arr choice) => choice.mapM selector
    | some choice => if choice.isGiven then .error wrongSort else .ok []
    | none => .error outOfRange
  | .str s => .error (if round < s.length then wrongSort else outOfRange)
  | .obj _ => .error noSuchKey
  | _ => .error wrongSort

def callsOneOf (data : Calldata) (choices : List (List Nat)) : Calc (List Expr) := do
  if choices.isEmpty then return []
  (List.range 4).mapM (fun (i : Nat) => do
    choices.foldlM (fun acc bs => do
      let b ← data.load (.int i)
      match bs[i]? with
      | none => throw .outOfRange
      | some n => disj [acc, ← Item.equate .eq b (.expr (← ofInt (Int.ofNat n) 8))]) (← truth false))

/-! ## Transactions -/

def sendUnknown (h : Hooks) (plan : Plan) (target : Expr) (choices : List (List Nat)) : Engine Unit := do
  (← takeWorlds).forM (fun w => do
    let (callee, w) ← w.lookup target
    unless callee.deleted do
      let id ← nextTx
      let sender ← symbol ("sender_" ++ id) 256
      let data ← Calldata.unknown id
      let price ← symbol ("gas_price" ++ id) 256
      let value ← symbol ("call_value" ++ id) 256
      let tx ← Tx.message {
        identifier := some id, caller := .expr sender, origin := .expr sender, value := .expr value
        gasPrice := .expr price, gasLimit := .int 8000000, data := some data } callee w.accounts
      let someActor ← bySomeActor tx
      begin plan tx w (fun g => do
        let chosen ← callsOneOf data choices
        (g.world.constraints ++ chosen).append someActor))
  let _ ← run h plan false

def beginUnknown (plan : Plan) (w : World) (code : Bytecode) (name : String) (creator : Expr) : Engine Expr := do
  modify fun s => { s with openWorlds := [] }
  let id ← nextTx
  let price ← symbol ("gas_price" ++ id) 256
  let program ← newProgram code
  let value ← symbol ("call_value" ++ id) 256
  let (tx, w) ← Tx.creation w {
    identifier := some id, caller := .expr creator, origin := .expr creator, value := .expr value
    gasPrice := .expr price, gasLimit := .int 8000000, code := some program } name none
  let someActor ← bySomeActor tx
  begin plan tx w (·.world.constraints.append someActor)
  return tx.callee.address

def createUnknown (h : Hooks) (plan : Plan) (w : World) (code : Bytecode) (name : String) (creator : Expr) :
    Engine Expr := do
  let address ← beginUnknown plan w code name creator
  let _ ← run h plan true
  return address

/-! ## Rounds -/

def rounds (h : Hooks) (plan : Plan) (target : Expr) : Nat → Nat → Engine Unit
  | 0, _ => return ()
  | n + 1, i => do
    if (← get).openWorlds.isEmpty then return ()
    if plan.checksReach then
      let worlds ← (← get).openWorlds.filterM (·.constraints.isPossible)
      modify fun s => { s with openWorlds := worlds }
    let choices ← Engine.ofExcept (selectors (← get).options i)
    Hooks.runAll h.onRoundStart
    sendUnknown h plan target choices
    Hooks.runAll h.onRoundStop
    rounds h plan target n (i + 1)

def transactions (h : Hooks) (plan : Plan) (target : Expr) : Engine Unit := do
  Hooks.runAll h.onTxsStart
  rounds h plan target plan.rounds 0
  Hooks.runAll h.onTxsStop

def messages (h : Hooks) (plan : Plan) (w : World) (target : Int) : Engine Unit := do
  Hooks.runAll h.onStart
  modify fun s => { s with openWorlds := [w] }
  transactions h plan (← ofInt target 256)
  Hooks.runAll h.onStop

def creation (h : Hooks) (plan : Plan) (w : World) (code : Bytecode) (name : String) : Engine Unit := do
  Hooks.runAll h.onStart
  let address ← createUnknown h plan w code name (← ofInt ({} : Actors).creator 256)
  transactions h plan address
  Hooks.runAll h.onStop

/-! # Transactions with known input

Each open world is the start of one run of the transaction. -/

structure KnownTx where
  caller : Item
  origin : Item
  gasLimit : Item
  gasPrice : Item
  value : Item
  data : List Nat

/-- Sends a message to an account in each open world. Without code of its own it runs the code that the account has in
the first of them. -/
def sendKnown (h : Hooks) (plan : Plan) (target : Expr) (t : KnownTx) (code : Option Bytecode) :
    Engine (List GState) := do
  let _ ← (← takeWorlds).foldlM (fun (code : Option Bytecode) w => do
    let id ← nextTx
    let (callee, w) ← w.lookup target
    let code ← match code with
      | some c => pure c
      | none => do pure (← program callee.code).code
    let program ← newProgram code
    let data ← Calldata.ofBytes id (t.data.map (fun (b : Nat) => .int b))
    let tx ← Tx.message {
      identifier := some id, caller := t.caller, origin := t.origin, value := t.value, gasPrice := t.gasPrice
      gasLimit := t.gasLimit, data := some data, code := some program } callee w.accounts
    begin plan tx w fun g => return g.world.constraints
    return if code.isEmptyText then none else some code) code
  run h plan false

def createKnown (h : Hooks) (plan : Plan) (t : KnownTx) : Engine (List GState) := do
  (← takeWorlds).forM (fun w => do
    let id ← nextTx
    let program ← newProgram (.hex (Hex.ofBytes t.data))
    let (tx, w) ← Tx.creation w {
      identifier := some id, caller := t.caller, origin := t.origin, value := t.value, gasPrice := t.gasPrice
      gasLimit := t.gasLimit, code := some program } "" none
    begin plan tx w (fun g => return g.world.constraints))
  run h plan true

/-! # Following a trace

Transactions are run again with unknown input along the steps of a known run. At chosen branches a scenario is sought
that turns off there. -/

structure Route where
  /-- Program counters with the transaction they belong to. -/
  steps : List (Int × String)
  /-- Only the last transaction is left at branches. -/
  txCount : Nat
  /-- Addresses of the branches at which to turn off. -/
  branches : List String

namespace Route

def stepsOf (w : World) : List (Int × String) :=
  (w.notes.findSome? (fun n => match n with
    | .trace steps => some steps
    | _ => none)).getD []

def addStep (w : World) (step : Int × String) : World :=
  let steps := stepsOf w ++ [step]
  let isTrace : Note → Bool := fun n => match n with
    | .trace _ => true
    | _ => false
  match w.notes.findIdx? isTrace with
  | some i => { w with notes := w.notes.set i (.trace steps) }
  | none => { w with notes := w.notes ++ [.trace steps] }

/-- Seeks a scenario that takes the other side of the last condition. -/
def turnOff (g : GState) (branch : String) : Engine Unit := do
  let scenario ← match g.world.constraints.getLast? with
    | none => throw .outOfRange
    | some last => do
      let cs ← Constraints.append g.world.constraints.dropLast (← not last)
      Detect.found? (Scenario.of g cs)
  modify fun s => { s with turns := s.turns ++ [(branch, scenario)] }

/-- What becomes of a state: it is left aside, or it is the next one. -/
def consider (r : Route) (g : GState) : Engine (Option GState) := do
  let tx ← match g.tx? with
    | some tx => pure tx
    | none => throw .noSuchPart
  let g := { g with world := addStep g.world (g.machine.pc, tx.id) }
  let steps := stepsOf g.world
  let follows := steps == r.steps.take steps.length
  if steps.length < 2 then return if follows then some g else none
  let before ← match steps[steps.length - 2]? with
    | some (pc, _) => pure pc
    | none => throw .outOfRange
  let i ← match ← g.instrAt? before with
    | some i => pure i
    | none => throw .outOfRange
  let branch := toString i.address
  let turns := (← get).turns
  if follows && g.world.txs.length == r.txCount && r.branches.contains branch && (turns.lookup branch).isNone then
    if i.opcode != .jumpi then return none
    turnOff g branch
    return some g
  return if follows then some g else none

/-- Takes states from the end until one of them follows the route. -/
def takeLast (r : Route) : Nat → Engine (Option GState)
  | 0 => return none
  | n + 1 => do
    let w := (← get).work
    match w.queue.getLast? with
    | none => return none
    | some g =>
      modify fun s => { s with work := { w with queue := w.queue.dropLast } }
      match ← r.consider g with
      | some g => return some g
      | none => takeLast r n

/-- Takes the next state on the route; a place that is not there ends the way. -/
def take (r : Route) : Engine (Option GState) := do
  match ← attempt (do takeLast r ((← get).work.size + 1)) with
  | .ok g => return g
  | .error f => if f.cause? == some .outOfRange then return none else throw f

end Route

/-- Sends a recorded transaction again, with unknown input. -/
def sendAgain (plan : Plan) (record : Json) : Engine Unit := do
  let h : Hooks := { onSuccess := Detect.review }
  let address ← Engine.ofExcept (record.part "address")
  let _ ← Engine.ofExcept (do Rpc.number (← record.part "origin"))
  let input ← match ← Engine.ofExcept (record.part "input") with
    | .str s => pure (Text.drop s 2)
    | _ => throw .wrongSort
  if address.str? == some "" then
    (← get).openWorlds.forM (fun w => do
      let creator ← ofInt ({} : Actors).creator 256
      let _ ← createUnknown h plan w (.hex input) "" creator)
  else sendUnknown h plan (← ofInt (← Engine.ofExcept (Rpc.number address)) 256) []

/-- Scenarios that turn off at the branches of a route, in the order of the branches. -/
def turnOffs (w : World) (r : Route) (record : Json) : Engine (List (Option Json)) := do
  let world ← w.copy true
  modify fun s => { s with openWorlds := [world], txCount := 0 }
  let plan : Plan := { maxDepth := some 100, checksReach := false, taker := some r.take }
  (← Engine.ofExcept (record.part "steps")).items.forM (sendAgain plan)
  let turns := (← get).turns
  if turns.isEmpty then return []
  r.branches.mapM (fun b => match turns.lookup b with
    | some s => pure s
    | none => throw .noSuchKey)

end EvmAudit.Explore
