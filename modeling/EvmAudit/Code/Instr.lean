import EvmAudit.Expr
import EvmAudit.Text.Basic

/-!
# Instructions of the virtual machine

The instruction set with the byte, the cost range and the stack effect of each instruction. `effect` is what
the cost table says about operands; a few entries differ from what the instruction really takes.
-/

namespace EvmAudit

/-- An instruction; families carry their number. -/
inductive Opcode where
  | stop | add | mul | sub | div | sdiv | mod | smod | addmod | mulmod | exp | signextend | lt
  | gt | slt | sgt | eq | iszero | and | or | xor | not | byte | shl | shr | sar | sha3 | address
  | balance | origin | caller | callvalue | calldataload | calldatasize | calldatacopy | codesize
  | codecopy | gasprice | extcodesize | extcodecopy | extcodehash | returndatasize
  | returndatacopy | blockhash | coinbase | timestamp | number | difficulty | gaslimit | chainid
  | selfbalance | basefee | pop | mload | mstore | mstore8 | sload | sstore | jump | jumpi | pc
  | msize | gas | jumpdest | beginsub | returnsub | jumpsub | create | create2 | call | callcode
  | ret | delegatecall | staticcall | revert | selfdestruct | invalid
  | push (n : Nat)
  | dup (n : Nat)
  | swap (n : Nat)
  | log (n : Nat)
  deriving DecidableEq, Repr, Inhabited

namespace Opcode

/-- The instructions outside of the numbered families, by byte. -/
def singles : List Opcode := [
  .stop, .add, .mul, .sub, .div, .sdiv, .mod, .smod, .addmod, .mulmod, .exp, .signextend, .lt,
  .gt, .slt, .sgt, .eq, .iszero, .and, .or, .xor, .not, .byte, .shl, .shr, .sar, .sha3, .address,
  .balance, .origin, .caller, .callvalue, .calldataload, .calldatasize, .calldatacopy, .codesize,
  .codecopy, .gasprice, .extcodesize, .extcodecopy, .extcodehash, .returndatasize,
  .returndatacopy, .blockhash, .coinbase, .timestamp, .number, .difficulty, .gaslimit, .chainid,
  .selfbalance, .basefee, .pop, .mload, .mstore, .mstore8, .sload, .sstore, .jump, .jumpi, .pc,
  .msize, .gas, .jumpdest, .beginsub, .returnsub, .jumpsub, .create, .create2, .call, .callcode,
  .ret, .delegatecall, .staticcall, .revert, .selfdestruct, .invalid]

/-- What the table of instructions says: the name, the byte, the least and the greatest cost, and how many operands are
taken and left. -/
structure Row where
  name : String
  encoding : Nat
  cost : Nat × Nat
  effect : Nat × Nat

def row : Opcode → Row
  | .stop => ⟨"STOP", 0x00, (0, 0), (0, 0)⟩
  | .add => ⟨"ADD", 0x01, (3, 3), (2, 1)⟩
  | .mul => ⟨"MUL", 0x02, (5, 5), (2, 1)⟩
  | .sub => ⟨"SUB", 0x03, (3, 3), (2, 1)⟩
  | .div => ⟨"DIV", 0x04, (5, 5), (2, 1)⟩
  | .sdiv => ⟨"SDIV", 0x05, (5, 5), (2, 1)⟩
  | .mod => ⟨"MOD", 0x06, (5, 5), (2, 1)⟩
  | .smod => ⟨"SMOD", 0x07, (5, 5), (2, 1)⟩
  | .addmod => ⟨"ADDMOD", 0x08, (8, 8), (2, 1)⟩
  | .mulmod => ⟨"MULMOD", 0x09, (8, 8), (3, 1)⟩
  | .exp => ⟨"EXP", 0x0a, (10, 340), (2, 1)⟩
  | .signextend => ⟨"SIGNEXTEND", 0x0b, (5, 5), (2, 1)⟩
  | .lt => ⟨"LT", 0x10, (3, 3), (2, 1)⟩
  | .gt => ⟨"GT", 0x11, (3, 3), (2, 1)⟩
  | .slt => ⟨"SLT", 0x12, (3, 3), (2, 1)⟩
  | .sgt => ⟨"SGT", 0x13, (3, 3), (2, 1)⟩
  | .eq => ⟨"EQ", 0x14, (3, 3), (2, 1)⟩
  | .iszero => ⟨"ISZERO", 0x15, (3, 3), (1, 1)⟩
  | .and => ⟨"AND", 0x16, (3, 3), (2, 1)⟩
  | .or => ⟨"OR", 0x17, (3, 3), (2, 1)⟩
  | .xor => ⟨"XOR", 0x18, (3, 3), (2, 1)⟩
  | .not => ⟨"NOT", 0x19, (3, 3), (1, 1)⟩
  | .byte => ⟨"BYTE", 0x1a, (3, 3), (2, 1)⟩
  | .shl => ⟨"SHL", 0x1b, (3, 3), (2, 1)⟩
  | .shr => ⟨"SHR", 0x1c, (3, 3), (2, 1)⟩
  | .sar => ⟨"SAR", 0x1d, (3, 3), (2, 1)⟩
  | .sha3 => ⟨"SHA3", 0x20, (30, 78), (2, 1)⟩
  | .address => ⟨"ADDRESS", 0x30, (2, 2), (0, 1)⟩
  | .balance => ⟨"BALANCE", 0x31, (700, 700), (1, 1)⟩
  | .origin => ⟨"ORIGIN", 0x32, (2, 2), (0, 1)⟩
  | .caller => ⟨"CALLER", 0x33, (2, 2), (0, 1)⟩
  | .callvalue => ⟨"CALLVALUE", 0x34, (2, 2), (0, 1)⟩
  | .calldataload => ⟨"CALLDATALOAD", 0x35, (3, 3), (1, 1)⟩
  | .calldatasize => ⟨"CALLDATASIZE", 0x36, (2, 2), (0, 1)⟩
  | .calldatacopy => ⟨"CALLDATACOPY", 0x37, (2, 2306), (3, 0)⟩
  | .codesize => ⟨"CODESIZE", 0x38, (2, 2), (0, 1)⟩
  | .codecopy => ⟨"CODECOPY", 0x39, (2, 2306), (3, 0)⟩
  | .gasprice => ⟨"GASPRICE", 0x3a, (2, 2), (0, 1)⟩
  | .extcodesize => ⟨"EXTCODESIZE", 0x3b, (700, 700), (0, 1)⟩
  | .extcodecopy => ⟨"EXTCODECOPY", 0x3c, (700, 3004), (4, 0)⟩
  | .extcodehash => ⟨"EXTCODEHASH", 0x3f, (700, 700), (1, 1)⟩
  | .returndatasize => ⟨"RETURNDATASIZE", 0x3d, (2, 2), (0, 1)⟩
  | .returndatacopy => ⟨"RETURNDATACOPY", 0x3e, (3, 3), (3, 0)⟩
  | .blockhash => ⟨"BLOCKHASH", 0x40, (20, 20), (1, 1)⟩
  | .coinbase => ⟨"COINBASE", 0x41, (2, 2), (0, 1)⟩
  | .timestamp => ⟨"TIMESTAMP", 0x42, (2, 2), (0, 1)⟩
  | .number => ⟨"NUMBER", 0x43, (2, 2), (0, 1)⟩
  | .difficulty => ⟨"DIFFICULTY", 0x44, (2, 2), (0, 1)⟩
  | .gaslimit => ⟨"GASLIMIT", 0x45, (2, 2), (0, 1)⟩
  | .chainid => ⟨"CHAINID", 0x46, (2, 2), (0, 1)⟩
  | .selfbalance => ⟨"SELFBALANCE", 0x47, (2, 2), (0, 1)⟩
  | .basefee => ⟨"BASEFEE", 0x48, (2, 2), (0, 1)⟩
  | .pop => ⟨"POP", 0x50, (2, 2), (1, 0)⟩
  | .mload => ⟨"MLOAD", 0x51, (3, 96), (1, 1)⟩
  | .mstore => ⟨"MSTORE", 0x52, (3, 98), (2, 0)⟩
  | .mstore8 => ⟨"MSTORE8", 0x53, (3, 98), (2, 0)⟩
  | .sload => ⟨"SLOAD", 0x54, (800, 800), (1, 1)⟩
  | .sstore => ⟨"SSTORE", 0x55, (5000, 25000), (1, 0)⟩
  | .jump => ⟨"JUMP", 0x56, (8, 8), (1, 0)⟩
  | .jumpi => ⟨"JUMPI", 0x57, (10, 10), (2, 0)⟩
  | .pc => ⟨"PC", 0x58, (2, 2), (0, 1)⟩
  | .msize => ⟨"MSIZE", 0x59, (2, 2), (0, 1)⟩
  | .gas => ⟨"GAS", 0x5a, (2, 2), (0, 1)⟩
  | .jumpdest => ⟨"JUMPDEST", 0x5b, (1, 1), (0, 0)⟩
  | .beginsub => ⟨"BEGINSUB", 0x5c, (2, 2), (0, 0)⟩
  | .returnsub => ⟨"RETURNSUB", 0x5d, (5, 5), (0, 0)⟩
  | .jumpsub => ⟨"JUMPSUB", 0x5e, (10, 10), (1, 0)⟩
  | .create => ⟨"CREATE", 0xf0, (32000, 32000), (3, 1)⟩
  | .create2 => ⟨"CREATE2", 0xf5, (32000, 32000), (4, 1)⟩
  | .call => ⟨"CALL", 0xf1, (700, 34700), (7, 1)⟩
  | .callcode => ⟨"CALLCODE", 0xf2, (700, 34700), (7, 1)⟩
  | .ret => ⟨"RETURN", 0xf3, (0, 0), (2, 0)⟩
  | .delegatecall => ⟨"DELEGATECALL", 0xf4, (700, 34700), (6, 1)⟩
  | .staticcall => ⟨"STATICCALL", 0xfa, (700, 34700), (6, 1)⟩
  | .revert => ⟨"REVERT", 0xfd, (0, 0), (2, 0)⟩
  | .selfdestruct => ⟨"SELFDESTRUCT", 0xff, (5000, 30000), (1, 0)⟩
  | .invalid => ⟨"INVALID", 0xfe, (0, 0), (0, 0)⟩
  | .push n => ⟨"PUSH" ++ toString n, 0x5f + n, (3, 3), (0, 1)⟩
  | .dup n => ⟨"DUP" ++ toString n, 0x7f + n, (3, 3), (0, 0)⟩
  | .swap n => ⟨"SWAP" ++ toString n, 0x8f + n, (3, 3), (0, 1)⟩
  | .log n => ⟨"LOG" ++ toString n, 0xa0 + n, (375 * (n + 1), 375 * (n + 1) + 256), (n + 2, 0)⟩

def name (op : Opcode) : String := op.row.name

def encoding (op : Opcode) : Nat := op.row.encoding

def cost (op : Opcode) : Nat × Nat := op.row.cost

def effect (op : Opcode) : Nat × Nat := op.row.effect

def needs (op : Opcode) : Nat := op.effect.1

def ofByte? (b : Nat) : Option Opcode :=
  if 0x60 ≤ b ∧ b ≤ 0x7f then some (.push (b - 0x5f))
  else if 0x80 ≤ b ∧ b ≤ 0x8f then some (.dup (b - 0x7f))
  else if 0x90 ≤ b ∧ b ≤ 0x9f then some (.swap (b - 0x8f))
  else if 0xa0 ≤ b ∧ b ≤ 0xa4 then some (.log (b - 0xa0))
  else singles.find? (·.encoding == b)

def all : List Opcode :=
  singles ++ (List.range 32).map (fun i => .push (i + 1))
    ++ (List.range 16).flatMap (fun i => [.dup (i + 1), .swap (i + 1)])
    ++ (List.range 5).map .log

def ofName? (name : String) : Option Opcode := all.find? (·.name == name)

end Opcode

/-! # Bytecode

Code comes as hexadecimal text, as plain bytes, or as a sequence of cells of which some may be symbolic (what a
constructor returned). -/

inductive Bytecode where
  | hex (text : String)
  | raw (bytes : List Nat)
  | cells (items : List Item)
  deriving Inhabited

namespace Bytecode

def plain? (items : List Item) : Option (List Int) := items.mapM Item.int?

/-- The bytes of plain cells; a symbolic cell is of the wrong sort, and an integer has to be a byte. -/
def bytesOf (items : List Item) : Except Fault (List Nat) :=
  match plain? items with
  | none => .error .wrongSort
  | some ns =>
    if ns.all (fun n => 0 ≤ n && n < 256) then .ok (ns.map Int.toNat) else .error .malformed

/-- A byte as it shows between quotes: printable characters as they are, others escaped. -/
def shownByte (b : Nat) : List Char :=
  if b == 9 then ['\\', 't']
  else if b == 10 then ['\\', 'n']
  else if b == 13 then ['\\', 'r']
  else if b == 92 then ['\\', '\\']
  else if b < 32 || b ≥ 127 then '\\' :: 'x' :: Hex.byteDigits b
  else [Char.ofNat b]

/-- The metadata trailer is recognised by its mark in the shown form of the last 43 bytes. -/
def hasTrailer (tail : List Nat) : Bool := Chars.contains ['b', 'z', 'z', 'r'] (tail.flatMap shownByte)

def length : Bytecode → Nat
  | .hex text => text.length
  | .raw bytes => bytes.length
  | .cells items => items.length

/-- Text of the form that has two digits for a byte, without the marker; other forms stay as they are. -/
def unmarked : Bytecode → Bytecode
  | .hex text => .hex (if Text.take text 2 == "0x" then Text.drop text 2 else text)
  | c => c

def isEmptyText : Bytecode → Bool
  | .hex text => text.isEmpty
  | _ => false

def lastOf {α : Type} (n : Nat) (xs : List α) : List α := xs.drop (xs.length - n)

end Bytecode

/-! # Disassembly

Instructions with the address of their first byte. A byte that encodes nothing is an `INVALID` instruction. A
push takes the bytes that follow as its argument, cut off at the end of the code. -/

inductive Argument where
  | hex (text : String)
  | cells (items : List Item)

structure Instr where
  address : Nat
  opcode : Opcode
  argument : Option Argument := none
  deriving Inhabited

namespace Instr

/-- Bytes that a push takes after its first one. -/
def immediates : Opcode → Nat
  | .push n => n
  | _ => 0

/-- Decodes the cells from an address on, at most `room` of them. `opcodeOf` names the instruction of a cell and
`argumentOf` makes the immediate. -/
def decode {α : Type} (opcodeOf : α → Option Opcode) (argumentOf : List α → Option Argument) :
    Nat → Nat → List α → List Instr
  | 0, _, _ => []
  | _ + 1, _, [] => []
  | room + 1, address, c :: rest =>
    match opcodeOf c with
    | none => ⟨address, .invalid, none⟩ :: decode opcodeOf argumentOf room (address + 1) rest
    | some op =>
      let n := immediates op
      let argument := if n = 0 then none else argumentOf (rest.take n)
      ⟨address, op, argument⟩
        :: decode opcodeOf argumentOf (room - n) (address + 1 + n) (rest.drop n)

def ofBytes (bytes : List Nat) : List Instr :=
  let length := bytes.length
  let length := if Bytecode.hasTrailer (Bytecode.lastOf 43 bytes) then length - 43 else length
  decode Opcode.ofByte? (fun arg => some (.hex ("0x" ++ Hex.ofBytes arg))) length 0 bytes

/-- The instruction of a cell: only plain integers encode anything. -/
def opcodeOfCell (c : Item) : Option Opcode :=
  match c.int? with
  | some n => if 0 ≤ n then Opcode.ofByte? n.toNat else none
  | none => none

def ofCells (items : List Item) : Except Fault (List Instr) := do
  let tail := Bytecode.lastOf 43 items
  let trailer ← match Bytecode.plain? tail with
    | none => pure false
    | some _ => (Bytecode.bytesOf tail).map Bytecode.hasTrailer
  let length := if trailer then items.length - 43 else items.length
  return decode opcodeOfCell (fun arg => if arg.isEmpty then none else some (.cells arg)) length 0 items

def ofCode : Bytecode → Except Fault (List Instr)
  | .hex text =>
    match Hex.decode? text with
    | some bytes => .ok (ofBytes bytes)
    | none => .error .malformed
  | .raw bytes => .ok (ofBytes bytes)
  | .cells items => ofCells items

/-- One line for each instruction; an immediate of cells has no text. -/
def listing : List Instr → Except Fault String
  | [] => .ok ""
  | i :: rest => do
    let head := toString i.address ++ " " ++ i.opcode.name
    let argument ← match i.argument with
      | none => pure ""
      | some (.hex text) => pure (" " ++ text)
      | some (.cells _) => throw .wrongSort
    let tail ← listing rest
    return head ++ argument ++ "\n" ++ tail

def indexOf? (address : Int) (instrs : List Instr) : Option Nat :=
  instrs.findIdx? fun i => decide (address ≤ (i.address : Int))

end Instr

/-! ## Patterns of instructions -/

namespace Pattern

/-- Does the pattern, one set of alternatives for each position, fit at the front of the list? -/
def fits {α : Type} [BEq α] : List (List α) → List α → Bool
  | [], _ => true
  | _ :: _, [] => false
  | slot :: slots, x :: xs => slot.contains x && fits slots xs

/-- The positions at which the pattern fits, the front of the list being at `i`. -/
def findFrom {α : Type} [BEq α] (pattern : List (List α)) : Nat → List α → List Nat
  | i, [] => if fits pattern [] then [i] else []
  | i, x :: xs =>
    if fits pattern (x :: xs) then i :: findFrom pattern (i + 1) xs else findFrom pattern (i + 1) xs

/-- All positions at which the pattern fits, in increasing order. -/
def find {α : Type} [BEq α] (pattern : List (List α)) (xs : List α) : List Nat := findFrom pattern 0 xs

/-- Does the pattern fit from a position on? Positions below zero count from the end, each for itself. -/
def fitsAt {α : Type} [BEq α] (xs : List α) : List (List α) → Int → Bool
  | [], _ => true
  | slot :: slots, i =>
    match Sequence.at? xs i with
    | some x => slot.contains x && fitsAt xs slots (i + 1)
    | none => false

end Pattern
end EvmAudit
