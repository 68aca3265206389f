import EvmAudit.Engine.Query
import EvmAudit.Explore.Hooks
import EvmAudit.Step.Perform

/-!
# Exploration

States are taken from the list of work in the order of the plan, performed, and replaced by their successors. A frame
that ends resumes the state that waits for it; an outermost transaction that ends well leaves its world behind.
-/

namespace EvmAudit

open Engine
open Hooks

inductive Explore.Extension where
  /-- Loops are left after a number of rounds. -/
  | loops (bound : Int)
  /-- States at instructions that were not reached yet come first. -/
  | fresh
  deriving DecidableEq, Repr

/-- How an exploration goes about its work. -/
structure Explore.Plan where
  search : Search := .depthFirst
  /-- What the order is wrapped in, the outermost first. -/
  extensions : List Extension := []
  maxDepth : Option Int := none
  keepsGraph : Bool := true
  /-- Are worlds that cannot be reached dropped between transactions? -/
  checksReach : Bool := true
  rounds : Nat := 2
  /-- Is the time for the exploration over from the start? -/
  isOver : Bool := false
  isCreationOver : Bool := false
  isReached : GState → Engine Bool := fun _ => return false
  /-- A way of its own to take the next state, in place of the search order. -/
  taker : Option (Engine (Option GState)) := none

/-- The result of performing an instruction: the state itself, as its observers left it, its successors, and the
instruction, unless the state was dropped. -/
structure GState.Executed where
  state : GState
  successors : List GState := []
  opcode : Option Opcode := none

/-- How much a state matters to a search that looks at importance. -/
def GState.importance (g : GState) (suspicions : Array (List Suspicion)) : Int :=
  (g.notes.map (fun n => match n with
    | .potential pool => 10 * ((suspicions.getD pool []).length : Int)
    | .weight n => n
    | _ => 1)).foldl (· + ·) 0

namespace Explore

/-! ## Ends of frames -/

def keepWorld (h : Hooks) (g : GState) : Engine Unit := do
  match ← attempt (tell h.onWorld g) with
  | .ok g => modify fun s => { s with openWorlds := s.openWorlds ++ [g.world] }
  | .error .skipWorld => return ()
  | .error f => throw f

/-- Finishes the call that a state has been waiting in. Its successors belong to the node of the frame that ended. -/
def resume (waiting : GState) (node : Option Nat) : Engine (List GState) := do
  match ← waiting.instrAt? waiting.machine.pc with
  | none => throw .outOfRange
  | some i =>
    match ← attempt (waiting.finish i.opcode) with
    | .ok (.states gs) => return gs.map fun g => { g with node := node }
    | .ok _ => return []
    | .error (.vm _ _) => return []
    | .error f => throw f

/-- Ends a frame that has met a fault of the machine. Nothing that it did remains, but its conditions do, in the state
that waits for it itself. -/
def fail (h : Hooks) (g : GState) (op : Opcode) : Engine (GState × List GState) := do
  match g.frames with
  | [] => throw .outOfRange
  | ⟨_, none⟩ :: rest => return ({ g with frames := rest }, [])
  | ⟨_, some waiting⟩ :: rest =>
    let g := { g with frames := rest }
    let g := (← tellAll (h.after op) [g]).headD g
    let caller ← suspended waiting
    let constraints := caller.world.constraints ++ g.world.constraints
    let caller := { caller with world := { caller.world with constraints := constraints }, lastReturn := none }
    setSuspended waiting caller
    if let some node := caller.node then
      onGraph fun graph => ((), graph.grow node caller.id constraints)
    return (g, ← resume caller g.node)

/-- Hands what a frame has done back to the state that waits for it. -/
def handBack (g : GState) (waiting : Nat) (data : Option ReturnData) (reverted : Bool) : Engine (List GState) := do
  let caller ← suspended waiting
  let caller := { caller with notes := caller.notes ++ g.notes.filter Note.followsCalls }
  setSuspended waiting caller
  let c ← caller.copy
  let c := { c with
    world := { c.world with constraints := c.world.constraints ++ g.world.constraints }, lastReturn := data }
  if reverted then return ← resume c g.node
  let world ← g.world.copy false
  if (g.world.find? c.env.active).isNone then throw .noSuchKey
  let isCreation := g.tx?.any (·.kind == .creation)
  let m := if isCreation then c.machine.useGas g.machine.minGas g.machine.maxGas else c.machine
  resume { c with world := world, machine := m } g.node

def finishFrame (h : Hooks) (g final : GState) (op : Opcode) (data : Option ReturnData) (reverted : Bool) :
    Engine (GState × List GState) := do
  match final.frames with
  | [] => throw .outOfRange
  | ⟨tx, waiting⟩ :: _ =>
    let ending : TxEnd := ⟨some tx, waiting.isSome, reverted⟩
    let final ← tell (h.onEnd.map (· ending)) final
    match waiting with
    | none =>
      if (tx.kind == .message || data.isSome) && !reverted then
        let g ← h.onSuccess g
        let final := { final with world := { final.world with node := g.node } }
        keepWorld h final
        return (g, [])
      return (g, [])
    | some waiting =>
      let _ ← tellAll (h.after op) [final]
      return (g, ← handBack g waiting data reverted)

def startFrame (g : GState) (tx : Tx) (world : World) : Engine GState := do
  let new ← tx.start world
  let waiting ← suspend g
  return { new with frames := ⟨tx, some waiting⟩ :: g.frames, node := g.node }

/-! ## One state -/

/-- Performs the instruction that is due in a state, and tells the observers. -/
def execute (h : Hooks) (g : GState) : Engine GState.Executed := do
  match ← attempt (tell h.onState g) with
  | .error .skipState => return { state := g }
  | .error f => throw f
  | .ok g =>
    match ← g.instrAt? g.machine.pc with
    | none =>
      keepWorld h g
      return { state := g }
    | some i =>
      let op := i.opcode
      let told (r : GState × List GState) : Engine GState.Executed := do
        return { state := r.1, successors := ← tellAll (h.after op) r.2, opcode := some op }
      if g.machine.stack.length < op.needs then return ← told (← fail h g op)
      match ← attempt (tell (h.before op) g) with
      | .error .skipState => return { state := g }
      | .error f => throw f
      | .ok g =>
        match ← attempt (g.perform op) with
        | .ok (.states gs) => told (g, gs)
        | .ok (.call tx waiting) =>
          return { state := g, successors := [← startFrame g tx waiting.world], opcode := some op }
        | .ok (.halt final data reverted) => told (← finishFrame h g final op data reverted)
        | .error (.vm _ _) =>
          let g ← tell (h.onEnd.map (fun o => o ⟨g.tx?, false, false⟩)) g
          told (← fail h g op)
        | .error f => throw f

/-! ## The graph -/

def enterNode (plan : Plan) (kind : EdgeKind) (condition : Option Expr) (g : GState) : Engine GState := do
  match ← g.instrAt? g.machine.pc with
  | none => return g
  | some i =>
    let last ← match g.world.txs.getLast? with
      | some tx => pure tx
      | none => throw .outOfRange
    let name := (← program g.env.code).addressToName.lookup (i.address : Int)
    let (function, isEntry) :=
      if last.kind == .creation then ("constructor", false)
      else match name with
        | some n => (n, true)
        | none => (if i.address == 0 then "fallback" else g.env.function, false)
    let node : FlowNode := {
      contract := g.active.name, function := function, isEntry := isEntry, isReturn := kind == .ret
      constraints := g.world.constraints, owner := some g.id }
    let n ← onGraph (fun graph =>
      let (n, graph) := graph.add node
      (n, if plan.keepsGraph then graph.connect ⟨g.node, n, kind, condition⟩ else graph))
    return { g with node := some n, env := { g.env with function := function } }

/-- Puts the successors of an instruction into the graph. -/
def chart (plan : Plan) (op : Option Opcode) (gs : List GState) : Engine (List GState) := do
  let branch (g : GState) : Engine GState := do
    match g.world.constraints.getLast? with
    | some c => enterNode plan .conditional (some c) g
    | none => throw .outOfRange
  let gs ← match op with
    | some .jump => gs.mapM (enterNode plan .unconditional none)
    | some .jumpi => gs.mapM branch
    | some .sload | some .sstore => if gs.length > 1 then gs.mapM branch else pure gs
    | some .ret => gs.mapM (enterNode plan .ret none)
    | _ => pure gs
  gs.forM (fun g => match g.node with
    | some n => onGraph fun graph => ((), graph.visit n g)
    | none => throw .noSuchPart)
  return gs

/-! ## The order of work -/

/-- Takes the first state whose conditions hold in a known model. States whose conditions do not are put off until no
other state is left. -/
def takeDelayed : Nat → Engine (Option GState)
  | 0 => return none
  | n + 1 => do
    let w := (← get).work
    match w.queue with
    | g :: rest =>
      let all ← Expr.conj g.world.constraints
      match w.models.ask (← all.raw) with
      | .ok (some _, models) =>
        modify fun s => { s with work := { w with queue := rest, models := models } }
        return some g
      | .ok (none, models) =>
        modify fun s => { s with work := { w with queue := rest, pending := w.pending ++ [g], models := models } }
        takeDelayed n
      | .error f =>
        modify fun s => { s with work := { w with queue := rest } }
        throw f
    | [] =>
      match w.pending with
      | [] => return none
      | g :: rest =>
        modify fun s => { s with work := { w with pending := rest } }
        match ← g.world.constraints.model? with
        | some m =>
          modify fun s => { s with work := { s.work with models := s.work.models.keep m } }
          return some g
        | none => takeDelayed n

def takeNext (s : Search) : Engine (Option GState) := do
  match s with
  | .delayed => takeDelayed (2 * (← get).work.size + 1)
  | s =>
    let suspicions := (← get).shared.suspicions
    onWork (fun w => match w.take s (·.importance suspicions) with
      | some (g, w) => (some g, w)
      | none => (none, { w with queue := [] }))

/-- The trace that a state has left so far, the latest address first. -/
def traceOf (g : GState) : List Int :=
  (g.notes.findSome? (fun n => match n with
    | .blocks t => some t
    | _ => none)).getD []

def addToTrace (g : GState) (address : Int) : GState :=
  let isTrace : Note → Bool := fun n => match n with
    | .blocks _ => true
    | _ => false
  let trace := address :: traceOf g
  match g.notes.findIdx? isTrace with
  | some i => { g with notes := g.notes.set i (.blocks trace) }
  | none => { g with notes := g.notes ++ [.blocks trace] }

/-- Takes the next state that is not too deep in a loop. Creations may go round more often. -/
def takeBounded (bound : Int) (inner : Engine (Option GState)) : Nat → Engine (Option GState)
  | 0 => return none
  | n + 1 => do
    match ← inner with
    | none => return none
    | some g =>
      let i ← g.instr
      let g := addToTrace g i.address
      unless i.opcode == .jumpdest do return some g
      match Loops.count (traceOf g).reverse with
      | .error f => if f.cause? == some .outOfRange then return none else throw f
      | .ok count =>
        let isCreation := g.tx?.any (·.kind == .creation)
        if isCreation && (count : Int) < max 128 bound then return some g
        if (count : Int) > bound then takeBounded bound inner n else return some g

/-- The place of the first state that is not known to be reached. -/
def firstFresh (isReached : GState → Engine Bool) : Nat → List GState → Engine (Option Nat)
  | _, [] => return none
  | i, g :: rest => do
    if ← isReached g then firstFresh isReached (i + 1) rest else return some i

def takeWith (plan : Plan) : List Extension → Engine (Option GState)
  | [] => takeNext plan.search
  | .loops bound :: rest => do takeBounded bound (takeWith plan rest) ((← get).work.size + 1)
  | .fresh :: rest => do
    match ← firstFresh plan.isReached 0 (← get).work.queue with
    | none => takeWith plan rest
    | some i => onWork (fun w => match w.takeAt i with
      | some (g, w) => (some g, w)
      | none => (none, { w with queue := [] }))

def takeShallow (plan : Plan) : Nat → Engine (Option GState)
  | 0 => return none
  | n + 1 => do
    match ← plan.taker.getD (takeWith plan plan.extensions) with
    | none => return none
    | some g =>
      if plan.maxDepth.any (fun d => (g.machine.depth : Int) ≥ d) then takeShallow plan n else return some g

/-! ## The loop -/

def isTimeOver (plan : Plan) (isCreation : Bool) : Engine Bool := do
  if isCreation && !(← get).openWorlds.isEmpty then return plan.isCreationOver
  return plan.isOver

/-- How many states are looked at in one go before an exploration gives up. -/
def patience : Nat := 1000000000

/-- Executes a state and adds its successors to the work. A state that led nowhere is the result. -/
def expand (h : Hooks) (plan : Plan) (g : GState) : Engine (Option GState) := do
  match ← attempt (execute h g) with
  | .error f => if f == .failure .unsupported "" then return none else throw f
  | .ok r =>
    let gs ← if r.successors.length > 1 && (← get).options.pruning
      then r.successors.filterM (·.world.constraints.isPossible)
      else pure r.successors
    let gs ← chart plan r.opcode gs
    onWork fun w => ((), w.push gs)
    modify fun s => { s with total := s.total + gs.length }
    return if gs.isEmpty then some r.state else none

/-- Works on the list of states until it is empty. The result are the states that led nowhere. -/
def work (h : Hooks) (plan : Plan) (isCreation : Bool) : Nat → List GState → Engine (List GState)
  | 0, finals => return finals.reverse
  | n + 1, finals => do
    match ← takeShallow plan ((← get).work.size + 1) with
    | none =>
      runAll h.onWorkStop
      return finals.reverse
    | some g =>
      if ← isTimeOver plan isCreation then return (g :: finals).reverse
      let final ← expand h plan g
      work h plan isCreation n (final.toList ++ finals)

def run (h : Hooks) (plan : Plan) (isCreation : Bool) : Engine (List GState) := do
  runAll h.onWorkStart
  work h plan isCreation patience []

def begin (plan : Plan) (tx : Tx) (w : World) (conditions : GState → Calc Constraints) : Engine Unit := do
  let g ← tx.start w
  let g := { g with frames := [⟨tx, none⟩] }
  let g := { g with world := { g.world with constraints := ← conditions g } }
  let node : FlowNode := { contract := g.active.name, function := g.env.function }
  let node := if w.node.isSome then { node with constraints := g.world.constraints, owner := some g.id } else node
  let n ← onGraph (fun graph =>
    let (n, graph) := graph.add node
    (n, if plan.keepsGraph && w.node.isSome then graph.connect ⟨w.node, n, .transaction, none⟩ else graph))
  let g := { g with world := { g.world with txs := g.world.txs ++ [tx] }, node := some n }
  onGraph fun graph => ((), graph.visit n g)
  onWork fun work => ((), work.push [g])

def takeWorlds : Engine (List World) := modifyGet fun s => (s.openWorlds, { s with openWorlds := [] })

end Explore
end EvmAudit
