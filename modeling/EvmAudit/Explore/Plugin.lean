import EvmAudit.Detect.Report
import EvmAudit.Explore.Hooks

/-!
# What paths depend on

Each path has a record of what it reads and writes in storage. A block that was seen before is entered again in a later
round only if something that was written in the round before may be read there.
-/

namespace EvmAudit

open Engine

namespace Dependency

def writtenIn (d : Dependency) (round : Int) : Engine KeySet :=
  match d.written.lookup round with
  | some n => writes n
  | none => return []

def write (d : Dependency) (round : Int) (key : Item) : Engine Dependency := do
  match d.written.lookup round with
  | some n =>
    setWrites n (← (← writes n).insert key)
    return d
  | none =>
    let n ← newWrites (← KeySet.insert [] key)
    return { d with written := d.written ++ [(round, n)] }

/-- Can two records be made one? Only if they agree on calls and on the path. -/
def canMerge (a b : Dependency) : Bool := a.hasCall == b.hasCall && a.path == b.path

def merge (a b : Dependency) : Engine Dependency := do
  let rounds := (b.written ++ a.written).foldl (fun rs (r, _) => Sequence.insertNew r rs) []
  let written ← rounds.mapM (fun r => do
    return (r, ← newWrites ((← a.writtenIn r).union (← b.writtenIn r))))
  return {
    loaded := a.loaded.union b.loaded, written := written, hasCall := a.hasCall, path := a.path
    blocks := b.blocks.foldl (fun bs x => Sequence.insertNew x bs) a.blocks }

end Dependency

/-- Records left by earlier transactions, the latest last. -/
def World.records (w : World) : List Nat := (w.notes.findSome? Note.records?).getD []

def World.setRecords (w : World) (records : List Nat) : World :=
  match w.notes.findIdx? (·.records?.isSome) with
  | some k => { w with notes := w.notes.set k (.dependencies records) }
  | none => { w with notes := w.notes ++ [.dependencies records] }

/-- The record of a state. A new transaction goes on with the latest record that its world has, if there is one. -/
def GState.dependency (g : GState) : Engine (Nat × GState) := do
  match g.notes.findSome? Note.record? with
  | some r => return (r, g)
  | none =>
    let records := g.world.records
    let r ← match records.getLast? with
      | some r => pure r
      | none => newDependency {}
    return (r, ({ g with world := g.world.setRecords records.dropLast }).annotate (.dependency r))

def GState.leaveRecord (g : GState) (r : Nat) : GState :=
  { g with world := g.world.setRecords (g.world.records ++ [r]) }

namespace Pruner

def maySame (a b : Item) : Engine Bool := do
  let condition ← match a.int?, b.int? with
    | some m, some n => pure (Item.bool (m == n))
    | _, _ => do pure (Item.expr (← Item.equate .eq a b))
  return (← Detect.found? (Query.solve { items := [condition], isPath := false })).isSome

/-- Is a block that was seen before worth another look? -/
def wants (p : Pruner) (address : Int) (d : Dependency) : Engine Bool := do
  if p.calls.contains address then return true
  match p.reads.lookup address with
  | none => return false
  | some slots =>
    (← d.writtenIn (p.round - 1)).anyM (fun k => do
      if ← slots.anyM (maySame k.item) then return true
      d.loaded.anyM (maySame k.item ·.item))

def enter (g : GState) : Engine GState := do
  let address : Int := (← g.instr).address
  let (r, g) ← g.dependency
  let d ← dependency r
  let d := { d with path := d.path ++ [address] }
  setDependency r d
  let p := (← get).pruner
  if p.round < 2 then return g
  unless d.blocks.contains address do
    setDependency r { d with blocks := d.blocks ++ [address] }
    return g
  if ← p.wants address d then return g
  throw .skipState

def noteWrite (g : GState) : Engine GState := do
  let (r, g) ← g.dependency
  let d ← dependency r
  let slot ← g.operand 1
  modify fun s => { s with pruner := s.pruner.addWrite d.path }
  setDependency r (← d.write (← get).pruner.round slot)
  return g

def noteRead (g : GState) : Engine GState := do
  let (r, g) ← g.dependency
  let d ← dependency r
  let slot ← g.operand 1
  setDependency r { d with loaded := ← d.loaded.insert slot }
  let p ← (← get).pruner.addRead d.path slot
  modify fun s => { s with pruner := p }
  return g

def noteCall (g : GState) : Engine GState := do
  let (r, g) ← g.dependency
  let d ← dependency r
  modify fun s => { s with pruner := s.pruner.addCall d.path }
  setDependency r { d with hasCall := true }
  return g

/-- A transaction is about to end: all blocks of its path depend on what it has read. -/
def noteEnd (g : GState) : Engine GState := do
  let (r, g) ← g.dependency
  let d ← dependency r
  let p ← d.loaded.foldlM (m := Calc) (fun p k => p.addRead d.path k.item) (← get).pruner
  let p := if d.written.isEmpty then p else p.addWrite d.path
  let p := if d.hasCall then p.addCall d.path else p
  modify fun s => { s with pruner := p }
  return g

/-- A world is about to be kept: the next transaction goes on with the record, but on a new path. -/
def noteWorld (g : GState) : Engine GState := do
  if g.tx?.any (·.kind == .creation) then
    modify fun s => { s with pruner := { s.pruner with round := 0 } }
    return g
  let (r, g) ← g.dependency
  let d ← dependency r
  setDependency r { d with path := [0], loaded := [] }
  return g.leaveRecord r

def hooks : Hooks where
  before
    | .sstore => [noteWrite]
    | .sload => [noteRead]
    | .call | .staticcall => [noteCall]
    | .stop | .ret => [noteEnd]
    | _ => []
  after
    | .jump | .jumpi => [enter]
    | _ => []
  onRoundStart := [modify (fun s => { s with pruner := { s.pruner with round := s.pruner.round + 1 } })]
  onWorld := [noteWorld]

end Pruner

/-! # Plugins

Observers that an exploration can be given by name. They leave out work that would not show anything new, and count what
was reached. -/

inductive Plugin where
  | benchmark
  | callDepthLimit
  | coverage
  | dependencyPruner
  | instructionProfiler
  | mutationPruner
  deriving DecidableEq, Repr

namespace Plugin

def all : List Plugin :=
  [.benchmark, .callDepthLimit, .coverage, .dependencyPruner, .instructionProfiler, .mutationPruner]

def name : Plugin → String
  | .benchmark => "benchmark"
  | .callDepthLimit => "call-depth-limit"
  | .coverage => "coverage"
  | .dependencyPruner => "dependency-pruner"
  | .instructionProfiler => "instruction-profiler"
  | .mutationPruner => "mutation-pruner"

def ofName? (name : String) : Option Plugin := all.find? (·.name == name)

def mutationHooks : Hooks where
  before
    | .sstore | .call | .staticcall => [fun g => return g.annotate .mutation]
    | _ => []
  onWorld := [fun g => do
    if g.tx?.any (·.kind == .creation) then return g
    let amount ← g.env.callValue.toWidth 256
    if ← g.isPossible [← Expr.ugt amount (← Expr.word 0)] then return g
    if g.notes.any Note.isMutation then return g else throw .skipWorld]

def depthHooks : Hooks where
  before
    | .call => [fun g => do
        if (g.frames.length : Int) - 1 == (← get).options.callDepthLimit then throw .skipState
        return g]
    | _ => []

def coverageHooks : Hooks where
  onState := [fun g => do
    let p ← program g.env.code
    let c ← (← get).coverage.reach p.code p.instrs.size g.machine.pc
    modify fun s => { s with coverage := c }
    return g]

/-- Draws coverage over time. There is nothing to draw it with, and no coverage to draw. -/
def benchmarkHooks : Hooks where
  onStart := [modify (fun s => { s with isTimed := true })]
  onState := [fun _ => do
    if (← get).isTimed then throw .noSuchPart else throw .wrongSort]
  onStop := [throw .noSuchPart]

def hooks : Plugin → Hooks
  | .benchmark => benchmarkHooks
  | .callDepthLimit => depthHooks
  | .coverage => coverageHooks
  | .dependencyPruner => Pruner.hooks
  | .instructionProfiler => {}
  | .mutationPruner => mutationHooks

def allHooks (ps : List Plugin) : Hooks := ps.foldl (fun h p => h ++ p.hooks) {}

end Plugin

/-! # Registered observers

How many observers are registered for what, and which plugins are on the shelf. -/

/-! ## Counts of observers -/

/-- When an observer of instructions is told. -/
inductive Side where
  | before
  | after
  deriving DecidableEq, Repr

def moments : List String := [
  "start_execute_transactions", "stop_execute_transactions", "add_world_state", "execute_state", "start_sym_exec",
  "stop_sym_exec", "start_sym_trans", "stop_sym_trans", "start_exec", "stop_exec", "transaction_end"]

abbrev Counts := List (String × Nat)

def Counts.add (c : Counts) (name : String) (n : Nat) : Counts := Sequence.put name ((c.lookup name).getD 0 + n) c

structure HookTable where
  moments : Counts := []
  before : Counts := []
  after : Counts := []
  beforeInstr : Counts := []
  afterInstr : Counts := []

namespace HookTable

def sideFault (name : String) : Fault :=
  .failure .malformed ("('Invalid hook type %s. Must be one of \x7bpre, post\x7d', '" ++ name ++ "')")

def addMoment (t : HookTable) (name : String) : Except Fault HookTable :=
  if EvmAudit.moments.contains name then .ok { t with moments := t.moments.add name 1 }
  else .error (.failure .malformed ("Invalid hook type " ++ name))

def count (t : HookTable) : Side → Counts
  | .before => t.before
  | .after => t.after

def add (t : HookTable) (side : Side) (name : String) (n : Nat) : HookTable :=
  match side with
  | .before => { t with before := t.before.add name n }
  | .after => { t with after := t.after.add name n }

def countInstr (t : HookTable) : Side → Counts
  | .before => t.beforeInstr
  | .after => t.afterInstr

/-- Registers an observer of an instruction, or of all of them. -/
def addInstr (t : HookTable) (side : Side) (name : Option String) : Except Fault HookTable := do
  let known := Opcode.all.map Opcode.name
  let names ← match name with
    | none => pure known
    | some n => if known.contains n then pure [n] else throw .noSuchKey
  let counts := names.foldl (fun (c : Counts) n => c.add n 1) (t.countInstr side)
  return match side with
  | .before => { t with beforeInstr := counts }
  | .after => { t with afterInstr := counts }

end HookTable

/-! ## Plugins on the shelf -/

/-- Plugins that were loaded, and whether they are switched on. -/
abbrev Shelf := List (String × Bool)

namespace Shelf

def load (s : Shelf) (name : String) : Shelf := if (s.lookup name).isSome then s else s ++ [(name, true)]

def isOn (s : Shelf) (name : String) : Bool := (s.lookup name).getD false

def turn (s : Shelf) (name : String) (on : Bool) : Option Shelf :=
  if (s.lookup name).isSome then some (Sequence.put name on s) else none

def missing (name : String) : String := "Plugin with name: " ++ name ++ " was not loaded"

def notInstalled (name : String) : Fault := .failure .malformed ("Plugin with name: `" ++ name ++ "` is not installed")

end Shelf
end EvmAudit
