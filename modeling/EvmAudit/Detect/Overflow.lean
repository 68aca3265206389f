import EvmAudit.Detect.Report

/-!
# Arithmetic that leaves its range

An operand of an operation that can leave its range is marked, and so is what is computed from it. When a marked value is
stored, decides a jump, is sent or is returned, the mark is noted; at the end of the transaction it becomes an issue if
the range can be left on this path.
-/

namespace EvmAudit.Detect

/-- A word of the stack at a depth. A plain number on the stack becomes a word there; a Boolean does not. -/
def wordAt (g : GState) (depth : Nat) : Engine (Expr × GState) := do
  match ← g.operand depth with
  | .expr e =>
    if e.isProp then return (← Item.choose (.expr e) (.int 1) (.int 0), g) else return (e, g)
  | i =>
    let e ← i.toWidth 256
    let m := g.machine
    return (e, { g with machine := { m with stack := m.stack.set (depth - 1) (.expr e) } })

/-- Marks an operand: in this state the operation can leave its range under a condition. -/
def markOverflow (g : GState) (e : Expr) (operation : String) (condition : Expr) : Engine Unit := do
  let site : OverflowSite := {
    contract := g.active.name, function := g.env.function, address := (← g.instr).address
    codeHash := ← g.codeHash, constraints := g.world.constraints }
  Engine.onFindings fun f => { f with sites := Sequence.put g.id site f.sites }
  e.annotate (.overflow (← freshId) g.id operation condition)

def operands (g : GState) : Engine (Expr × Expr × GState) := do
  let (a, g) ← wordAt g 1
  let (b, g) ← wordAt g 2
  return (a, b, g)

/-- Marks the operands of an operation unless it stays in its range. -/
def beforeArith (g : GState) (operation : String) (op : CmpOp) : Engine GState := do
  let (a, b, g) ← operands g
  markOverflow g a operation (← Expr.not (← Expr.inRange op a b))
  return g

/-- The least exponent with which a power of the base leaves the range. -/
def leastExponent (base : Nat) : Nat := (Float.ceil (256 / Float.log2 (Float.ofNat base))).toUInt64.toNat

def beforePower (g : GState) : Engine GState := do
  let (base, exponent, g) ← operands g
  match ← exponent.value?, ← base.value? with
  | some 0, _ | _, some 0 | _, some 1 => return g
  | none, none =>
    let large ← Expr.sgt exponent (← Expr.word 256)
    let proper ← Expr.sgt base (← Expr.word 1)
    markOverflow g base "exponentiation" (← Expr.conj [large, proper])
    return g
  | some n, none =>
    let least ← Expr.word (2 ^ ((256 + n - 1) / n))
    markOverflow g base "exponentiation" (← Item.order .ge (.expr base) (.expr least))
    return g
  | _, some b =>
    let least ← Expr.word (leastExponent b)
    markOverflow g base "exponentiation" (← Item.order .ge (.expr exponent) (.expr least))
    return g

def noteMarks (g : GState) (used : List Expr) : Engine GState := do
  let isOverflows : Note → Bool := fun n => match n with
    | .overflows _ => true
    | _ => false
  let g := if g.notes.any isOverflows then g else g.annotate (.overflows [])
  match g.notes.findIdx? isOverflows with
  | none => return g
  | some k =>
    let known := match g.notes[k]? with
      | some (.overflows ms) => ms
      | _ => []
    let marks ← used.foldlM (m := Calc) (fun known e => do
      let ms := (← e.marks).filter (fun m => match m with
        | .overflow _ _ _ _ => true
        | _ => false)
      return Mark.union known ms) known
    return { g with notes := g.notes.set k (.overflows marks) }

def noteReturned (g : GState) : Engine GState := do
  let start ← g.operand 1
  let length ← g.operand 2
  let g ← noteMarks g []
  let stop ← Item.plus .add start length
  let bytes ← g.machine.memory.slice start (.expr stop)
  noteMarks g (bytes.filterMap (fun i => match i with
    | .expr e => some e
    | _ => none))

def brokenRange (operation : String) : Weakness where
  swc := "101"
  title := "Integer Arithmetic Bugs"
  severity := "High"
  head := "The arithmetic operator can " ++ (if operation == "subtraction" then "underflow" else "overflow") ++ "."
  tail := "It is possible to cause an integer overflow or underflow in the arithmetic operation. "

/-- Can the range be left where the operation was met? The answer is remembered for each state. -/
def canLeave (state : Nat) (site : OverflowSite) (condition : Expr) : Engine Bool := do
  let f := (← get).findings
  if f.unsatisfiable.contains state then return false
  if f.satisfiable.contains state then return true
  match ← Engine.attempt (Query.solve { items := (site.constraints ++ [condition]).map .expr, isPath := true }) with
  | .ok _ =>
    Engine.onFindings fun f => { f with satisfiable := state :: f.satisfiable }
    return true
  | .error _ =>
    Engine.onFindings fun f => { f with unsatisfiable := state :: f.unsatisfiable }
    return false

/-- At the end of a transaction, reports what the noted marks lead to. -/
def atEnd (g : GState) : Engine (GState × List Issue) := do
  let g ← noteMarks g []
  let marks := (g.notes.findSome? (fun n => match n with
    | .overflows ms => some ms
    | _ => none)).getD []
  marks.foldlM (fun ((g, issues) : GState × List Issue) m => do
    match m with
    | .overflow _ state operation condition =>
      let site := ((← get).findings.sites.lookup state).getD default
      unless ← canLeave state site condition do return (g, issues)
      match ← g.scenario? [condition] with
      | none => return (g, issues)
      | some s =>
        let issue := { (← g.issue site.address (brokenRange operation) s) with
          contract := site.contract, function := site.function, codeHash := site.codeHash }
        return (g.annotate .issue, issues ++ [issue])
    | _ => return (g, issues)) (g, [])

def integerArithmetics (g : GState) : Engine (GState × List Issue) := do
  match (← g.instr).opcode with
  | .add => return (← beforeArith g "addition" .noOverflow, [])
  | .sub => return (← beforeArith g "subtraction" .noUnderflow, [])
  | .mul => return (← beforeArith g "multiplication" .noOverflow, [])
  | .exp => return (← beforePower g, [])
  | .sstore =>
    match ← g.operand 2 with
    | .expr e => return (← noteMarks g [e], [])
    | _ => return (g, [])
  | .jumpi => return (← noteUsed g 2, [])
  | .call => return (← noteUsed g 3, [])
  | .ret => atEnd (← noteReturned g)
  | .stop => atEnd g
  | _ => throw .noSuchKey
where
  noteUsed (g : GState) (depth : Nat) : Engine GState := do
    let i ← g.operand depth
    let g ← noteMarks g []
    noteMarks g [← i.expr!]

end EvmAudit.Detect
