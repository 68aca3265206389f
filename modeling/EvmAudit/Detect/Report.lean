import EvmAudit.Engine.Query
import EvmAudit.Step.Basic

/-!
# Call sites

What the operands on the stack say about the call that is due.
-/

namespace EvmAudit

open Engine
open EvmAudit.Expr

/-- An operand: a number, or something without a value. -/
inductive CallSite.Value where
  | number (n : Int)
  | unknown (i : Item)

def CallSite.Value.of (i : Item) : Calc Value := do
  match ← i.number? with
  | some n => return .number n
  | none => return .unknown i

structure CallSite where
  kind : Opcode
  target : CallSite.Value
  gas : CallSite.Value
  value : CallSite.Value := .number 0
  /-- The beginning of the input, if it is at a known place. -/
  data : Option (List Item) := none

/-- The call that is due in a state; a call of a precompiled contract that carries a value operand is none. The input
reaches to its end, or else to the fourfold of its size. -/
def CallSite.of? (g : GState) (toEnd : Bool) : Engine (Option CallSite) := do
  let op := (← g.instr).opcode
  let operand (depth : Nat) : Engine Value := do
    let i ← g.machine.stack.item (-(depth : Int))
    Value.of i
  let gas ← operand 1
  let target ← operand 2
  if op == .call || op == .callcode then
    let value ← operand 3
    let start ← operand 4
    let size ← operand 5
    let _ ← operand 6
    let _ ← operand 7
    if let .number n := target then
      if 0 < n && n ≤ Precompile.count then return none
    match start, size with
    | .number a, .number n =>
      let data ← g.machine.memory.slice (.int a) (.int (if toEnd then n + a else n * 4))
      return some { kind := op, target := target, gas := gas, value := value, data := some data }
    | _, _ => return some { kind := op, target := target, gas := gas, value := value }
  else
    let _ ← operand 3
    let _ ← operand 4
    let _ ← operand 5
    let _ ← operand 6
    return some { kind := op, target := target, gas := gas }

/-! # Scenarios

A scenario is a state of the chain and a list of transactions with known input that lead to a given place. It is read
off a model of the conditions of the path; sums and sizes are kept small. -/

/-- The hashes of unknown inputs under a model, for each width. Hashes that the model does not know are left out. -/
def Hashes.under (h : Hashes) (m : Model) : Calc (List (Nat × List Nat)) :=
  h.results.mapM (fun (width, hashes) => do
    let values ← hashes.filterMapM (fun e => do
      match ← m.eval (← e.raw) false with
      | some (.const v _) => return some v
      | _ => return none)
    return (width, values))

/-- Digits that a hash of unknown data usually begins with. -/
def Hashes.matcher : String := "fffffff"

namespace Scenario

/-- The conditions together with those that keep a scenario small, and what is to be made as small as possible. -/
def bounded (g : GState) (cs : Constraints) : Calc (Constraints × List Expr) := do
  let start := g.world.startBalances
  let (cs, sizes) ← g.world.txs.foldlM (fun (cs, sizes) tx => do
    let size ← tx.calldata.sizeWord
    let cs ← Constraints.append cs (← uge (← word 5000) size)
    let value ← tx.value.expr!
    let most ← word 1000000000000000000000
    let cs ← Constraints.append cs (← uge most (← select start (← tx.caller.expr!)))
    return (cs, sizes ++ [size, value])) (cs, [])
  let cs ← g.world.accounts.foldlM (fun cs (_, a) => do
    let most ← word 100000000000000000000
    Constraints.append cs (← uge most (← select start a.address))) cs
  return (cs, sizes)

def number (m : Model) (i : Item) : Calc Nat := do
  match ← m.number (← (← i.expr!).raw) with
  | some n => return n
  | none => throw .noSuchPart

/-- A byte of input: an even number of digits. -/
def byteText (i : Item) : Calc String := do
  match i.int? with
  | none => throw .wrongSort
  | some n =>
    let digits := Hex.ofNat n.natAbs
    if n < 0 then return if digits.length % 2 == 1 then "x" ++ digits else "0x" ++ digits
    return if digits.length % 2 == 0 then digits else "0" ++ digits

structure Call where
  input : String
  value : String
  origin : String
  address : String
  calldata : String := ""

def call (m : Model) (tx : Tx) : Engine Call := do
  let some address ← tx.callee.address.value? | throw .wrongSort
  let value ← number m tx.value
  let caller ← number m tx.caller
  let (address, code) ← match tx.kind with
    | .message => pure ("0x" ++ Hex.ofNat address, "")
    | .creation => match (← program (tx.code.getD tx.callee.code)).code with
      | .hex s => pure ("", s)
      | _ => throw .wrongSort
  let bytes ← tx.calldata.bytesIn (some m)
  let bytes ← bytes.mapM (m := Calc) byteText
  return {
    input := "0x" ++ code ++ String.join bytes, value := "0x" ++ Hex.ofNat value
    origin := "0x" ++ Text.padLeft (Hex.ofNat caller) 40 '0', address := address }

/-- Looks for hashes of unknown data in an input. As such a hash is zero under every model, and what looks like one is
not, there is nothing to be put in its place; but everything that looks like one has to be a number. -/
def checkInput (code : Option Bytecode) (input : String) : Except Fault Unit := do
  unless Text.contains input Hashes.matcher do return ()
  let start ← match code with
    | none => pure 10
    | some (.hex s) => pure (if Text.contains input s then s.length + 2 else 10)
    | some _ => throw .wrongSort
  let rest := input.toList.drop start
  (List.range rest.length).forM (fun i => do
    let part := String.ofList ((rest.drop i).take 64)
    if part.length == 64 && Text.contains part Hashes.matcher && (Numeral.parse? 16 part).isNone then
      throw .malformed)

def account (m : Model) (start : ArrayTerm) (key : Nat) (a : Account) : Engine (String × Json) := do
  let balance ← number m (.expr (← select start (← word key)))
  return ("0x" ++ Hex.ofNat key, .obj [
    ("nonce", .int a.nonce), ("code", .str (← a.codeText)), ("storage", .str (← a.storage.text)),
    ("balance", .str ("0x" ++ Hex.ofNat balance))])

def Call.toJson (c : Call) : Json :=
  .obj [
    ("input", .str c.input), ("value", .str c.value), ("origin", .str c.origin), ("address", .str c.address),
    ("calldata", .str c.calldata)]

def ofModel (g : GState) (m : Model) : Engine Json := do
  let some first := g.world.txs.head? | throw .outOfRange
  let calls ← g.world.txs.mapM (call m)
  let accounts ← first.before.mapM (fun (key, a) => do
    match key with
    | some k => account m g.world.startBalances k a
    | none => throw .wrongSort)
  let code ← match first.kind with
    | .creation => do pure (some (← program (first.code.getD first.callee.code)).code)
    | .message => pure none
  calls.forM fun c => Engine.ofExcept (checkInput code c.input)
  let calls := calls.map fun c => { c with calldata := c.input }
  let calls := match code, calls with
    | some code, c :: rest => { c with calldata := Text.drop c.input (code.length + 2) } :: rest
    | _, calls => calls
  return .obj [
    ("initialState", .obj [("accounts", .obj accounts)]), ("steps", .arr (calls.map Call.toJson))]

/-- A scenario that leads to a state under some conditions. If there is none, the conditions cannot be met. -/
def of (g : GState) (cs : Constraints) : Engine Json := do
  let (cs, sizes) ← bounded g cs
  let m ← Query.solve { items := cs.map .expr, isPath := true, minimize := sizes }
  ofModel g m

end Scenario

/-! # Reporting what was found

An issue is reported at the place that a state has reached. A suspicion is put down with the state, and its list is
gone through when the transaction has ended well. -/

/-- Does a computation find what it looks for? Only that the conditions cannot be met is taken for a no. -/
def Detect.found? {α : Type} (c : Engine α) : Engine (Option α) := do
  match ← attempt c with
  | .ok a => return some a
  | .error f => if f.cause? == some .unsatisfiable then return none else throw f

def Detect.attacker : Engine Expr := do ofInt (← get).actors.attacker 256

/-- The condition that two values are the same; of plain values it is known whether they are. -/
def Detect.same (a b : Item) : Calc Expr := do
  match a.int?, b.int? with
  | some m, some n => truth (m == n)
  | _, _ => Item.equate .eq a b

namespace GState

def codeHash (g : GState) : Engine String := do
  let code := (← program g.env.code).code
  return CodeHash.text (← get).ledger code

def operand (g : GState) (depth : Nat) : Calc Item := g.machine.stack.item (-(depth : Int))

def operandExpr (g : GState) (depth : Nat) : Calc Expr := do (← g.operand depth).expr!

/-- The instruction before the one that is due. Before the first one comes the last one. -/
def previousOpcode (g : GState) : Engine Opcode := do
  let instrs := (← program g.env.code).instrs.toList
  match Sequence.at? instrs (g.machine.pc - 1) with
  | some i => return i.opcode
  | none => throw .outOfRange

def under (g : GState) (conditions : List Expr) : Constraints := g.world.constraints ++ conditions

def isPossible (g : GState) (conditions : List Expr) : Engine Bool :=
  return (← Detect.found? (Query.solve { items := (g.under conditions).map .expr, isPath := true })).isSome

/-- A scenario that leads to the state under further conditions, if there is one. -/
def scenario? (g : GState) (conditions : List Expr) : Engine (Option Json) :=
  Detect.found? (Scenario.of g (g.under conditions))

def issue (g : GState) (address : Int) (w : Weakness) (scenario : Json) : Engine Issue := do
  return {
    contract := g.active.name, function := g.env.function, address := .int address, swc := w.swc, title := w.title
    codeHash := ← g.codeHash, minGas := some g.machine.minGas, maxGas := some g.machine.maxGas
    severity := some w.severity, head := w.head, tail := w.tail, scenario := scenario }

def issueHere (g : GState) (w : Weakness) (scenario : Json) : Engine Issue := do
  g.issue (← g.instr).address w scenario

/-- Adds an issue about the place that a state has reached, if it can be reached. -/
def reportHere (g : GState) (issues : List Issue) (w : Weakness) : Engine (GState × List Issue) := do
  match ← g.scenario? [] with
  | none => return (g, issues)
  | some s => return (g.annotate .issue, issues ++ [← g.issueHere w s])

def suspicion (g : GState) (d : Detector) (address : Int) (w : Weakness) (conditions : List Expr) :
    Engine Suspicion := do
  return { w with
    detector := d, contract := g.active.name, function := g.env.function, address := address
    codeHash := ← g.codeHash, conditions := conditions }

/-- The list of suspicions of a state, which is made if there is none. -/
def suspicionList (g : GState) : Engine (Nat × GState) := do
  match g.notes.findSome? Note.pool? with
  | some pool => return (pool, g)
  | none =>
    let pool ← newSuspicions []
    return (pool, g.annotate (.potential pool))

/-- Puts suspicions down with a state, and with all that share its list. -/
def suspect (g : GState) (xs : List Suspicion) : Engine GState := do
  let (pool, g) ← g.suspicionList
  setSuspicions pool ((← suspicions pool) ++ xs)
  return g

end GState

namespace Detect

def keep (d : Detector) (issues : List Issue) (remember : Bool) : Engine Unit :=
  onFindings (fun f =>
    let f := { f with issues := (issues.map (fun i => (d, i))).reverse ++ f.issues }
    if remember then { f with settled := issues.map (fun i => (d, i.address.int?, i.codeHash)) ++ f.settled }
    else f)

def issueOf (s : Suspicion) (m : Machine) (scenario : Json) : Issue := {
  contract := s.contract, function := s.function, address := .int s.address, swc := s.swc, title := s.title
  codeHash := s.codeHash, minGas := some m.minGas, maxGas := some m.maxGas, severity := some s.severity, head := s.head
  tail := s.tail, scenario := scenario }

/-- Examines a suspicion, and puts it behind those that are left if no scenario is found for it. -/
def examine (ask : GState → List Expr → Engine (Option Json)) (found : GState × List Suspicion) (s : Suspicion) :
    Engine (GState × List Suspicion) := do
  let (g, left) := found
  match ← ask g s.conditions with
  | none => return (g, left ++ [s])
  | some scenario =>
    unless (← get).options.useIssueNotes do keep s.detector [issueOf s g.machine scenario] true
    return (g.annotate .issue, left)

/-- Turns suspicions into issues. Those whose conditions cannot be met stay suspicions of this state alone. -/
def reviewWith (ask : GState → List Expr → Engine (Option Json)) (g : GState) : Engine GState := do
  let (pool, g) ← g.suspicionList
  let (g, left) ← (← suspicions pool).foldlM (examine ask) (g, [])
  let pool' ← newSuspicions left
  return { g with notes := g.notes.map (·.movePool pool pool') }

def review : GState → Engine GState := reviewWith GState.scenario?

end Detect
end EvmAudit
