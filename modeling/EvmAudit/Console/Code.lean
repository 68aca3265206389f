import EvmAudit.Console.Basic
import EvmAudit.Precompile
import EvmAudit.Source

/-!
# Code, signatures and small functions in the console
-/

namespace EvmAudit.Console

open Bytes

def intD (j : Json) (key : String) : Int := (j.member key).int?.getD 0

def readSelectors (j : Json) : Except Fault Selectors :=
  (j.list "sigs").foldlM (fun t pair =>
    match pair.items with
    | [.str selector, .str signature] => t.add selector signature
    | _ => throw .wrongSort) {}

instance : Seen Argument where
  view
    | .hex text => view text
    | .cells items => view items

instance : Seen Instr where
  view i := return .list ([told i.address, i.opcode.name] ++ (← i.argument.mapM view).toList)

def disassembleRequest (j : Json) : Engine Reply := do
  let instrs ← Instr.ofCode (← (j.member "code").code)
  return .record [("instructions", ← view instrs), ("easm", Instr.listing instrs)]

def findSequenceRequest (j : Json) : Reply :=
  let pattern := (j.list "pattern").map Json.strings
  let opcodes := j.texts "opcodes"
  .record [("found", Pattern.find pattern opcodes), ("match", Pattern.fitsAt opcodes pattern (intD j "index"))]

def opcodeRequest (j : Json) : Except Fault Reply := do
  match Opcode.ofName? (← need .wrongSort (j.string? "name")) with
  | some op => return .record [("byte", op.encoding), ("gas", [op.cost.1, op.cost.2]), ("needs", op.needs)]
  | none => return .record [
      ("byte", .fault (.failure .badOpcode "Unknown opcode")), ("gas", .fault .noSuchKey),
      ("needs", .fault .noSuchKey)]

/-- A program; the list of selectors is one that later codes add to. -/
def programReply (p : Program) (selectors : List String) : Reply :=
  .record [
    ("count", p.instrs.size), ("func_hashes", selectors), ("name_to_address", p.nameToAddress),
    ("address_to_name", p.addressToName.map (fun (a, n) => (toString a, n))),
    ("easm", Instr.listing p.instrs.toList)]

def assignAll (known : Selectors) (p : Program) : List Json → Calc (List Program)
  | [] => return []
  | j :: js => do
    let r := p.assign known (← j.code)
    match r.fault with
    | some f => throw f
    | none => return r.program :: (← assignAll r.known r.program js)

def programRequest (j : Json) : Calc Reply := do
  let known ← readSelectors j
  let (p, known) ← Program.make known (← (j.member "code").code)
  let rest ← assignAll known p (j.list "assign")
  let selectors := ((rest.getLast?).getD p).selectors
  return .record [("results", (p :: rest).map (programReply · selectors))]

def contractRequest (j : Json) : Except Fault Reply := do
  let (c, _) ← Contract.make {} (j.strD "code") (j.strD "creation_code") (j.strD "name" "Unknown")
  return .record [
    ("name", c.name), ("code", c.code), ("creation_code", c.creationCode),
    ("hash", c.codeHash), ("creation_hash", c.creationHash),
    ("easm", Instr.listing c.program.instrs.toList), ("creation_easm", Instr.listing c.creationProgram.instrs.toList),
    ("keys", ["code", "creation_code", "disassembly", "name"]),
    ("matches", (j.list "exprs").map (fun e => c.satisfies (e.str?.getD "")))]

def functionInfoRequest (j : Json) : Except Fault Reply := do
  let known ← readSelectors j
  let arguments := (j.list "instructions").map (fun i =>
    match i.items with
    | [_, .str s] => some (Argument.hex s)
    | [_, .arr xs] => some (Argument.cells (xs.map (fun x => Item.int (x.int?.getD 0))))
    | _ => none)
  let (info, _) ← FunctionInfo.read known arguments (intD j "index")
  return .record [("hash", info.selector), ("entry", info.entry.map (·.1)), ("name", info.entry.map (·.2))]

def selectorStep : StepOf Selectors := fun t name args => do
  match name, args with
  | "add", [.str s, .str text] => done (← t.add s text)
  | "get", [.str s] | "item", [.str s] =>
    let (names, t) ← t.find s
    shown (Text.sort names) t
  | "solidity", [.str s, .arr names] => done (t.setSource s (names.filterMap Json.str?))
  | "online", [.bool b] => done { t with online := b }
  | "missed", [] => shown (Text.sort t.missed) t
  | "same", [] => shown true t
  | _, _ => throw .wrongSort

/-! ## Small functions -/

/-- Values of bytes for a big-endian number: numbers count, symbolic ones are of the wrong sort. -/
def byteValue : Item → Calc Int
  | .expr e => do
    if e.isProp then throw .wrongSort
    return ← need .wrongSort (← e.value?)
  | i => need .wrongSort i.int?

def numberAt (bytes : List Item) (start : Int) : Calc Nat := do
  let ns ← (Sequence.slice bytes start (start + 32)).mapM byteValue
  unless ns.all (fun n => 0 ≤ n && n < 256) do throw .malformed
  return toNat (ns.map Int.toNat)

def bytesOfValue (i : Item) : Calc (List Nat) := do
  match i with
  | .int n => encode32 n
  | .expr e =>
    e.settle
    encode32 (← need .noSuchPart (← e.raw).value?)
  | _ => throw .noSuchPart

/-- Line of a trace: address, instruction and stack, the top first. -/
def traceLine (address : Int) (opcode : String) (items : List Item) : Calc String := do
  let stack := "[" ++ ", ".intercalate (← items.reverse.mapM Item.text) ++ "]"
  return toString address ++ " " ++ opcode ++ "\tSTACK: " ++ String.ofList (stack.toList.filter (· != '\n'))

def helper (fn : String) (args : List Json) : Engine Reply := do
  let hex (s : String) : Engine (List Nat) := Json.hexBytes s
  let octets (bs : List Nat) : Engine Reply := return Hex.ofBytes bs
  let twice (g : Int) : Engine Reply := return [g, g]
  let ints (j : Json) : Except Fault (List Int) := j.items.mapM Json.num
  match fn, args with
  | "safe_decode", [.str s] | "eth_safe_decode", [.str s] => octets (← need .malformed (Hex.decode? s))
  | "indexed_address", [n] => return "0x" ++ String.join (List.replicate 40 (Text.drop (Hex.ofInt (← n.num)) 2))
  | "extract_version", [.str s] => return ← Pragma.version s
  | "to_signed", [n] => return toSigned (← n.num)
  | "instruction_index", [xs, n] =>
    let addresses ← ints xs
    let n ← n.num
    return addresses.findIdx? fun a => decide (n ≤ a)
  | "trace_line", [a, .str op, vs] => return ← traceLine (← a.num) op (← vs.vals)
  | "pop_bitvec", [v] => view (← (← v.val).settledWord)
  | "concrete_int", [v] =>
    let (isTruth, n) ← (← v.val).concrete
    return if isTruth then n != 0 else n
  | "int_from_bytes", [bs, start] => return ← numberAt (← bs.items.mapM (·.value 8)) (← start.num)
  | "int_to_bytes", [v] => octets (← bytesOfValue (← v.val))
  | "bytes_to_int", [.str s] => return toNat (← hex s)
  | "extract_copy", [.str data, .str mem, a, b, n] =>
    let data ← hex data
    let mem ← hex mem
    let pos ← a.num
    let src ← b.num
    octets (← copyInto data (← n.num).toNat mem pos src)
  | "extract32", [.str s, i] => return word (← hex s) (← i.num)
  | "code_hash", [.str s] => return CodeHash.ofHex s
  | "code_hash", [v] =>
    let code ← v.code
    return CodeHash.text (← get).ledger code
  | "sha3", [.str s] => octets (← CodeHash.ofText s)
  | "sha3_bytes", [.str s] => octets (Digest.Sha3.hash (← hex s))
  | "zpad", [.str s, n] => octets (padLeft (← hex s) (← n.num).toNat)
  | "rzpad", [.str s, n] => octets (padRight (← hex s) (← n.num).toNat)
  | "sha3_gas", [n] => twice (Precompile.hashGas (← n.num))
  | "native_gas", [n, .str name] => twice (Precompile.gas (← n.num) name)
  | "hex_to_dec", [.str s] => return ← need .malformed (Numeral.parse? 16 s)
  | "clean_hex", [n] => return Hex.ofInt (← n.num)
  | "validate_block", [j] => return ← Rpc.block j
  | "wei_to_ether", [n] => return Decimal.ofFloat (Decimal.quotient (← n.num) 1 / 1e18)
  | "ether_to_wei", [n] => return ((← n.num) * 10 ^ 18 : Int)
  | "padded_address", [n] => return "0x" ++ Text.padLeft (Text.drop (Hex.ofInt (← n.num)) 2) 40 '0'
  | "int32bytes", [n] => return low32 (← n.num)
  | "encode_int32", [n] => octets (← encode32 (← n.num))
  | "loop_hash", [i, j, t] => return ← Loops.key (← ints t) (← i.num) (← j.num)
  | "count_key", [t, k, start, size] => return ← Loops.countKey (← ints t) (← k.num) (← start.num) (← size.num)
  | "loop_count", [t] => return ← Loops.count (← ints t)
  | _, _ => throw .wrongSort

def helperRequest (j : Json) : Engine Reply := return .record [("result", ← helper (j.strD "fn") (j.list "args"))]

def precompileRequest (j : Json) : Engine Reply := do
  let address ← (j.member "address").num
  let data ← match j.member "data" with
    | .str "symbolic" => throw Precompile.unusable
    | .str s => pure (Precompile.ofBytes (← Json.hexBytes s))
    | data => data.bytes
  return .record [("result", ← view (← Precompile.run address data))]

def recencyStep : StepOf (Recency String Json) := fun c name args => do
  match name, args with
  | "put", [.str k, v] =>
    let c ← c.put k v
    shown (c.entries.map (fun (k, v) => [Json.str k, v])) c
  | "get", [.str k] =>
    let (v, c) := c.get k
    shown [v.getD (.int (-1)), .arr (c.keys.map .str)] c
  | _, _ => throw .wrongSort

def recencyRequest (j : Json) : Engine Reply :=
  stepped recencyStep { capacity := (intD j "size").toNat } j

end EvmAudit.Console
