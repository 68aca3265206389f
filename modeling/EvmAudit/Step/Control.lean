import EvmAudit.Step.Basic

/-!
# Jumps and halts

A conditional jump branches into copies of the state that share nothing, one for each side that is not known to be
impossible.
-/

namespace EvmAudit.Step

open Item

/-- The place of the first instruction at or after an address. -/
def destination (address : Int) : Step (Option (Nat × Instr)) := do
  let instrs := (← Engine.program (← env).code).instrs
  match Instr.indexOf? address instrs.toList with
  | some i => return instrs[i]?.map fun instr => (i, instr)
  | none => return none

/-- Pushes the immediate of the instruction that is due. Cut off digits count as zero. -/
def pushImmediate : Step Effect := do
  let i ← (← get).instr
  let length : Nat := match i.opcode with
    | .push n => n
    | _ => 0
  match i.argument with
  | none => throw .noSuchKey
  | some (.hex text) =>
    let digits := Text.drop text 2
    let digits := digits ++ String.ofList (List.replicate (2 * length - digits.length) '0')
    match Numeral.parse? 16 digits with
    | some n => leave (← Expr.ofInt n 256)
    | none => throw .malformed
  | some (.cells items) =>
    let cells ← items.mapM (m := Calc) (fun c => match c with
      | .expr e => return e
      | c => c.toWidth 8)
    match cells with
    | [] => throw .outOfRange
    | first :: rest =>
      let value ← rest.foldlM (m := Calc) (fun acc c => Expr.concat [acc, c]) first
      let missing := length - items.length
      let value ← if missing > 0 then do Expr.concat [value, ← Expr.const 0 missing] else pure value
      let value ← if value.width < 256 then do Expr.concat [← Expr.const 0 (256 - value.width), value]
        else pure value
      leave value

/-- Pushes the item at a depth, which the name of the instruction that is due ends with. -/
def duplicate : Step Effect := do
  let name := (← (← get).instr).opcode.name
  match Numeral.parse? 10 (Text.drop name 3) with
  | some n =>
    push (← (← machine).stack.item (-n))
    return .next
  | none => throw .malformed

def swap (depth : Nat) : Step Effect := do
  let s := (← machine).stack
  let top ← s.item (-1)
  let other ← s.item (-(depth : Int) - 1)
  onMachine fun m => return ((), { m with stack := (s.set depth top).set 0 other })
  return .next

def invalidJump (text : String) : Fault := .vm .invalidJump text

def jump : Step Effect := do
  let target ← match (← machine).stack with
    | [] => throw (.vm .stackUnderflow "")
    | _ => pop
  let some address ← target.number? | throw (invalidJump "Invalid jump argument (symbolic address)")
  let some (index, instr) ← destination address | throw (invalidJump "JUMP to invalid address")
  unless instr.opcode == .jumpdest do
    throw (invalidJump ("Skipping JUMP to invalid destination (not JUMPDEST): " ++ toString address))
  let (least, most) := Opcode.cost .jump
  charge least most
  modify fun g => { g with machine := { g.machine with pc := index } }
  let g ← get
  let g ← g.copy
  return .branch [g]

/-- A copy of the state on one side of a conditional jump. -/
def side (pc : Int) (condition : Expr) : Step GState := do
  let g ← (← get).copy true
  let (least, most) := Opcode.cost .jumpi
  let m := g.machine.useGas least most
  let g := { g with machine := { m with pc := pc, depth := m.depth + 1 } }
  g.constrain condition

def jumpIf : Step Effect := do
  let target ← pop
  let condition ← Stack.toWord (← pop)
  let (least, most) := Opcode.cost .jumpi
  let pc := (← machine).pc
  let some address ← target.number? | do
    charge least most
    modify fun g => { g with machine := { g.machine with pc := pc + 1 } }
    return .branch [← get]
  let negative ← (← equate .eq condition (.int 0)).simplified
  let positive ← (← equate .ne condition (.int 0)).simplified
  let passed ← if ← negative.isFalse then pure [] else do pure [← side (pc + 1) negative]
  match ← destination address with
  | some (index, ⟨_, .jumpdest, _⟩) =>
    if ← positive.isFalse then return .branch passed
    return .branch (passed ++ [← side index positive])
  | _ => return .branch passed

def jumpSub : Step Effect := do
  let target ← pop
  let some address ← target.number? | throw (.vm .general "Encountered symbolic JUMPSUB location")
  let some (_, instr) ← destination address | throw .wrongSort
  unless instr.opcode == .beginsub do
    throw (.vm .general ("Encountered invalid JUMPSUB location :" ++ toString instr.address))
  onMachine (fun m => do
    let returns ← Stack.push m.returns (.int (m.pc + 1))
    return ((), { m with returns := returns, pc := address }))
  return .next

/-- Leaves a subroutine. The place to go back to is kept as a word, and a word is no place. -/
def returnSub : Step Effect := do
  let _ ← Stack.pop (← machine).returns
  throw .wrongSort

/-- Drops a number of topics and the range of a log entry. -/
def logEntry (topics : Nat) : Step Effect := do
  for _ in List.range (topics + 2) do
    let _ ← pop
  return .next

/-! ## Halts -/

/-- The data become the code of the active account, whose address is handed back. -/
def deploy (items : List Item) (reverted : Bool) : Step Effect := do
  let g ← get
  Engine.assign g.active.code (.cells items)
  match g.env.active with
  | none => throw .wrongSort
  | some v =>
    if (← Engine.program g.active.code).instrs.isEmpty then throw .broken
    return .halt (some (.address ("0x" ++ Hex.ofNat v))) reverted

/-- Ends the frame. What a creation returns becomes the code of the new account, and its address is returned. -/
def halt (data : Option ReturnData) (reverted : Bool) : Step Effect := do
  unless ← isCreation do return .halt data reverted
  match data with
  | some (.bytes items size) =>
    let isEmpty ← match size.int? with
      | some n => pure (n == 0)
      | none => do (← equate .eq size (.int 0)).holds
    if isEmpty then return .halt none reverted
    deploy items reverted
  | _ => return .halt none reverted

/-- What is returned: the bytes of a range of memory, and how many they are. -/
def returned : Step (List Item × Expr) := do
  let start ← pop
  let length ← (← pop).expr!
  if ← length.symbolic then
    return ([expr (← unknown "return_data" 8)], length)
  extend start (.expr length)
  (← get).checkGas
  return (← bytesIn start (.expr (← plus .add start (.expr length))), length)

def returnRange : Step Effect := do
  let (data, length) ← returned
  halt (some (.bytes data (.expr length))) false

/-- What is handed out by a frame that takes back what it did; nobody knows a range without numbers. -/
def revoked : Step (List Item × Expr) := do
  let start ← pop
  let length ← (← pop).expr!
  let id := ((← get).tx?.map (·.id)).getD ""
  let name (i : Nat) : String := id ++ "_return_data_" ++ toString i
  let symbols : List Item ← match ← length.value? with
    | some n => (List.range n).mapM fun i => return expr (← unknown (name i) 8)
    | none => (List.range 300).mapM (fun (i : Nat) => do
        let inside ← Item.order .lt (.int i) (.expr length)
        return expr (← choose (.expr inside) (.expr (← unknown (name i) 8)) (.int 0)))
  let stop ← plus .add start (.expr length)
  let data ← match ← start.number? with
    | none => pure symbols
    | some a => match ← number? (.expr stop) with
      | none => pure symbols
      | some b => bytesIn (.int a) (.int b)
  return (data, length)

def revert : Step Effect := do
  let (data, length) ← revoked
  halt (some (.bytes data (.expr length))) true

/-- Ends the frame and gives up the account: what it has goes to the target. The balance of the account itself is not
touched. -/
def selfDestruct : Step Effect := do
  let target ← (← pop).expr!
  let g ← get
  let a := g.active
  let amount ← g.world.balance a.address
  let w ← g.world.addBalance target amount
  let code ← Engine.copyProgram a.code
  set (GState.setActive { g with world := w } { a with deleted := true, code := code, storage := ← a.storage.copy })
  halt none false

end EvmAudit.Step
