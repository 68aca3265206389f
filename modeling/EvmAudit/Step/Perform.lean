import EvmAudit.Step.Arithmetic
import EvmAudit.Step.Call
import EvmAudit.Step.Control

/-!
# Performing an instruction

`Opcode.perform` is the meaning of an instruction in a state. Afterwards its cost is booked and the place in the program
moves on, unless the instruction says otherwise.
-/

namespace EvmAudit

open Step

inductive Outcome where
  | states (successors : List GState)
  | call (tx : Tx) (waiting : GState)
  | halt (final : GState) (data : Option ReturnData) (reverted : Bool)

namespace Opcode

/-- Instructions that change the world and are not allowed in a static frame. -/
def mutates : Opcode → Bool
  | .sstore | .log _ | .create | .create2 | .selfdestruct => true
  | _ => false

/-- Does the place in the program move on by one? -/
def advances : Opcode → Bool
  | .jump | .jumpi | .returnsub => false
  | _ => true

/-- Is the cost of the instruction taken from the table? -/
def isMetered : Opcode → Bool
  | .jump | .jumpi | .sha3 => false
  | _ => true

/-- The name of an instruction in messages; families go by their common name. -/
def plainName : Opcode → String
  | .push _ => "push"
  | .dup _ => "dup"
  | .swap _ => "swap"
  | .log _ => "log"
  | op => op.name.toLower

def effectOf : Opcode → Step Effect
  | .stop => halt none false
  | .add => arithmetic .add
  | .mul => arithmetic .mul
  | .sub => arithmetic .sub
  | .div => division .udiv
  | .sdiv => division .sdiv
  | .mod => division .urem
  | .smod => division .srem
  | .addmod => modular .add
  | .mulmod => modular .mul
  | .exp => power
  | .signextend => signExtend
  | .lt => unsignedOrder .ult
  | .gt => unsignedOrder .ugt
  | .slt => order .lt
  | .sgt => order .gt
  | .eq => equality
  | .iszero => isZero
  | .and => bitwise .and
  | .or => bitwise .or
  | .xor => bitwise .xor
  | .not => complement
  | .byte => byteOf
  | .shl => shift .shl
  | .shr => shift .lshr
  | .sar => shift .ashr
  | .sha3 => hash
  | .address => do Step.leave (← Step.env).address
  | .balance => Step.balance
  | .origin => constant (·.origin)
  | .caller => constant (·.sender)
  | .callvalue => constant (·.callValue)
  | .calldataload => callDataWord
  | .calldatasize => do leave (← (← env).calldata.sizeWord)
  | .calldatacopy => callDataCopy
  | .codesize => codeSize
  | .codecopy => codeCopy
  | .gasprice => constant (·.gasPrice)
  | .extcodesize => foreignCodeSize
  | .extcodecopy => foreignCodeCopy
  | .extcodehash => foreignCodeHash
  | .returndatasize => returnDataSize
  | .returndatacopy => returnDataCopy
  | .blockhash => blockHash
  | .coinbase => do leave (← unknown "coinbase")
  | .timestamp => do leave (← unknown "timestamp")
  | .number => do leave (← env).blockNumber
  | .difficulty => do leave (← unknown "block_difficulty")
  | .gaslimit => do
    Step.push (← Step.machine).gasLimit
    return .next
  | .chainid => do leave (← env).chainId
  | .selfbalance => selfBalance
  | .basefee => constant (·.baseFee)
  | .pop => do
    let _ ← Step.pop
    return .next
  | .mload => memoryLoad
  | .mstore => memoryStore
  | .mstore8 => memoryStoreByte
  | .sload => storageLoad
  | .sstore => Step.storageStore
  | .jump => Step.jump
  | .jumpi => Step.jumpIf
  | .pc => programCounter
  | .msize => do
    pushInt (← machine).memory.size
    return .next
  | .gas => do leave (← unknown "gas")
  | .jumpdest => return .next
  | .beginsub => throw (.vm .outOfGas "Encountered BEGINSUB")
  | .returnsub => returnSub
  | .jumpsub => Step.jumpSub
  | .create => Step.create
  | .create2 => Step.createSalted
  | .call => Step.call .call
  | .callcode => Step.call .callcode
  | .ret => Step.returnRange
  | .delegatecall => Step.call .delegatecall
  | .staticcall => Step.call .staticcall
  | .revert => Step.revert
  | .selfdestruct => Step.selfDestruct
  | .invalid => throw (.vm .invalidInstruction "")
  | .push _ => pushImmediate
  | .dup _ => Step.duplicate
  | .swap n => Step.swap n
  | .log n => Step.logEntry n
where
  constant (f : Environment → Item) : Step Effect := do
    Step.push (f (← Step.env))
    return .next

/-- What finishing a call or a creation does; other instructions are never waiting. -/
def finish? : Opcode → Option (Step Effect)
  | .create => some (finishCreate 3)
  | .create2 => some (finishCreate 4)
  | .call => some (finishCall .call)
  | .callcode => some (finishCall .callcode)
  | .delegatecall => some (finishCall .delegatecall)
  | .staticcall => some (finishCall .staticcall)
  | _ => none

end Opcode

namespace GState

/-- Books the cost of the instruction that is due. -/
def meter (g : GState) : Engine GState := do
  let (least, most) := (← g.instr).opcode.cost
  let g := { g with machine := g.machine.useGas least most }
  g.checkGas
  return g

def advance (g : GState) : GState := { g with machine := { g.machine with pc := g.machine.pc + 1 } }

/-- Runs a step on a copy of a state, books its cost and moves on. -/
def run (g : GState) (step : Step Effect) (isMetered advances : Bool) : Engine Outcome := do
  let (effect, g) ← step.run (← g.copy)
  let settle (gs : List GState) : Engine Outcome := do
    let gs ← if isMetered then gs.mapM meter else pure gs
    return .states (if advances then gs.map advance else gs)
  match effect with
  | .next => settle [g]
  | .branch gs => settle gs
  | .call tx => return .call tx g
  | .halt data reverted => return .halt g data reverted

def perform (g : GState) (op : Opcode) : Engine Outcome := do
  if op.mutates && g.env.isStatic then
    throw (.vm .writeProtection ("The function " ++ op.plainName ++ " cannot be executed in a static call"))
  g.run op.effectOf op.isMetered op.advances

/-- Finishes an instruction that has been waiting for another frame. -/
def finish (g : GState) (op : Opcode) : Engine Outcome := do
  match op.finish? with
  | some step => g.run step true true
  | none => throw (.failure .unsupported "")

end GState
end EvmAudit
