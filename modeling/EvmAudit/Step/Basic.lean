import EvmAudit.Precompile
import EvmAudit.World.Accounts

/-!
# Steps

A step works on a state of its own: a copy of the state that the instruction was met in. When it fails, that copy is
lost, and the state it was made from is as before.
-/

namespace EvmAudit

/-- What an instruction does with the frame it runs in. -/
inductive Effect where
  | next
  | branch (states : List GState)
  | call (tx : Tx)
  | halt (data : Option ReturnData) (reverted : Bool)

abbrev Step := StateT GState Engine

namespace GState

def instrAt? (g : GState) (index : Int) : Engine (Option Instr) := do
  if index < 0 then return none
  return (← Engine.program g.env.code).instrs[index.toNat]?

/-- The instruction that is due. Beyond the end of the program it is a halt. -/
def instr (g : GState) : Engine Instr := do
  return (← g.instrAt? g.machine.pc).getD ⟨g.machine.pc.toNat, .stop, none⟩

/-- The limit of the running transaction has to be above what was used. -/
def checkGas (g : GState) : Calc Unit := do
  g.machine.checkGas
  let limit : Option Int ← match g.tx? with
    | none => throw .noSuchPart
    | some tx => match tx.gasLimit with
      | .expr e => if e.isProp then throw .wrongSort else pure ((← e.value?).map Int.ofNat)
      | i => match i.int? with
        | some n => pure (some n)
        | none => throw .wrongSort
  match limit with
  | some n => if g.machine.minGas ≥ n then throw (.vm .outOfGas "")
  | none => return ()

def setActive (g : GState) (a : Account) : GState := { g with world := g.world.put g.env.active a }

def unknown (g : GState) (name : String) (width : Nat) : Calc Expr := do
  match g.tx? with
  | some tx => Expr.symbol (tx.id ++ "_" ++ name) width
  | none => throw .noSuchPart

def constrain (g : GState) (condition : Expr) : Calc GState := do
  return { g with world := { g.world with constraints := ← g.world.constraints.append condition } }

end GState

namespace Step

def onMachine {α : Type} (f : Machine → Calc (α × Machine)) : Step α := do
  let g ← get
  let (a, m) ← f g.machine
  set { g with machine := m }
  return a

def pop : Step Item := onMachine Machine.pop

def popWord : Step Expr := onMachine Machine.popWord

def take (n : Nat) : Step (List Item) := onMachine (·.take n)

def push (i : Item) : Step Unit := onMachine fun m => return ((), ← m.push i)

def pushExpr (e : Expr) : Step Unit := push (.expr e)

def pushInt (n : Int) : Step Unit := push (.int n)

def leave (e : Expr) : Step Effect := do
  pushExpr e
  return .next

def machine : Step Machine := return (← get).machine

def world : Step World := return (← get).world

def setWorld (w : World) : Step Unit := modify fun g => { g with world := w }

def env : Step Environment := return (← get).env

def isCreation : Step Bool := return (← get).tx?.any (·.kind == .creation)

def unknown (name : String) (width : Nat := 256) : Step Expr := do (← get).unknown name width

def constrain (condition : Expr) : Step Unit := do set (← (← get).constrain condition)

def charge (least most : Int) : Step Unit := modify fun g => { g with machine := g.machine.useGas least most }

def chargeHash (length : Int) : Step Unit := do
  let fee := Precompile.hashGas length
  charge fee fee
  (← get).checkGas

def extend (start length : Item) : Step Unit := onMachine fun m => return ((), ← m.extend start length)

def byteAt (i : Item) : Step Item := do (← machine).memory.get i

def setByte (i content : Item) : Step Unit :=
  onMachine fun m => return ((), { m with memory := ← m.memory.set i content })

def setBytes : Int → List Item → Step Unit
  | _, [] => return ()
  | n, b :: rest => do
    setByte (.int n) b
    setBytes (n + 1) rest

def bytesIn (start stop : Item) : Step (List Item) := do (← machine).memory.slice start stop

/-- The account at an address, which may have to be loaded. What was made on the way stays in the world. -/
def account (address : Int) : Step (Except Fault Account) := do
  let (w, r) ← (← world).findOrLoad (.int address)
  setWorld w
  return r

def orThrow {α : Type} : Except Fault α → Step α
  | .ok a => return a
  | .error f => throw f

def codeOf (id : ProgramId) : Engine Bytecode := return (← Engine.program id).code

end Step
end EvmAudit
