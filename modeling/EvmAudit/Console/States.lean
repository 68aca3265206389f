import EvmAudit.Console.Code
import EvmAudit.Explore.Messages
import EvmAudit.Explore.StateSpace

/-!
# Nodes, storage and worlds in the console
-/

namespace EvmAudit.Console

open Engine Rpc

/-! ## Calls to a node -/

def callMethod (method : String) (args : List Json) : Talk Reply := do
  match method, args with
  | "eth_coinbase", [] => return ← coinbase
  | "eth_blockNumber", [] => return ← blockNumber
  | "eth_getBalance", [] => return ← balance .null
  | "eth_getBalance", [a] => return ← balance a
  | "eth_getBalance", [a, b] => return ← balance a b
  | "eth_getStorageAt", [] => return ← storageAt .null (.int 0)
  | "eth_getStorageAt", [a] => return ← storageAt a (.int 0)
  | "eth_getStorageAt", [a, p] => return ← storageAt a p
  | "eth_getStorageAt", [a, p, b] => return ← storageAt a p b
  | "eth_getCode", [a] => return ← code a
  | "eth_getCode", [a, b] => return ← code a b
  | "eth_getBlockByNumber", [] => return ← blockByNumber
  | "eth_getBlockByNumber", [b] => return ← blockByNumber b
  | "eth_getBlockByNumber", [b, f] => return ← blockByNumber b f
  | "eth_getTransactionReceipt", [h] => return ← receipt h
  | "close", [] =>
    modify (fun l => { l with log := Json.arr [.str "close"] :: l.log })
    return .null
  | _, _ => throw .wrongSort

def tryMethod (method : String) (args : List Json) : Talk Reply := fun l =>
  match callMethod method args l with
  | .ok r l => .ok r l
  | .error f l => .ok (.fault f) l

def talkReply (node : Node) (log : List Json) (j : Json) : Reply :=
  let calls : Talk (List Reply) := (j.list "calls").mapM (fun c => match c.items with
    | .str method :: args => tryMethod method args
    | _ => pure (.fault .wrongSort))
  match calls.run { node := node, log := log } with
  | .ok rs l => .record [("results", rs), ("log", l.log.reverse)]
  | .error f _ => .fault f

def rpcRequest (j : Json) : Reply := talkReply (.table (j.member "chain").members) [] j

/-- Request `http`: the connection is logged first. -/
def httpRequest (j : Json) : Reply :=
  let at_ (i : Nat) (default : Json) : Json := ((j.list "connect")[i]?).getD default
  let endpoint : Endpoint := ⟨at_ 0 (.str "localhost"), at_ 1 (.int 8545), at_ 2 (.bool false)⟩
  talkReply (.http endpoint (j.member "http").members) [.arr [.str "mount", endpoint.host]] j

/-! ## Loading from a node -/

def loaderStep : StepOf Unit := fun _ name args => do
  match name, args with
  | "storage", [a, i] => shown (← readStorage a (← i.num)) ()
  | "balance", [a] => shown (← readBalance a) ()
  | "code", [a] =>
    let p? ← (← loadCode a).mapM program
    shown (p?.map (fun p => programReply p p.selectors)) ()
  | _, _ => throw .wrongSort

/-! ## Storage -/

def keyTexts (s : KeySet) : Calc (List String) := do
  return Text.sort (← s.mapM (fun k => return Shown.plain (← itemJson k.item)))

def storageStep : StepOf (Storage × Storage) := fun (st, old) name args => do
  match name, args with
  | "set", [k, v] =>
    let (st, f) ← st.set (← k.val) (← v.val)
    shownOr st (st, old) f
  | "get", [k] =>
    let (st, r) ← st.get (← k.val)
    shown r (st, old)
  | "loaded", [] => shown (st.loaded.mergeSort (fun a b => a ≤ b)) (st, old)
  | "keys", [] => shown [← keyTexts st.written, ← keyTexts st.read] (st, old)
  | "text", [] => shown (← st.text) (st, old)
  | "copy", [] => done (← st.copy, st)
  | "show", [] => shown st (st, old)
  | "show_old", [] => shown old (st, old)
  | _, _ => throw .wrongSort

def storageRequest (j : Json) : Engine Reply := do
  let isOpen := j.flag "unconstrained"
  modify fun s => { s with options := { s.options with unconstrainedStorage := isOpen } }
  let address := match ← (j.member "address").val with
    | .expr e => some e
    | _ => none
  let st ← Storage.make isOpen (j.flag "concrete") address (hasChain j)
  steppedOnline storageStep (st, st) j

/-! ## Worlds -/

def readProgram (j : Json) : Engine (Option ProgramId) := (j.field? "code").mapM (fun c => do newProgram (← c.code))

def readNewAccount (j : Json) : Engine World.NewAccount := do
  let code ← readProgram j
  return {
    balance := ← j.numD "balance" 0, address := (← j.num? "address").map Int.toNat
    concrete := j.flag "concrete_storage", creator := (← j.num? "creator").map Int.toNat
    code := code, nonce := ← j.numD "nonce" 0 }

/-- An address as text of hexadecimal digits or as a value. -/
def readAddress (j : Json) : Calc Expr := do
  match j with
  | .str _ => Expr.ofInt (← Rpc.number j) 256
  | j => j.word

def worldStep : StepOf (World × World) := fun (w, old) name args => do
  let found (a : Json) : Engine (Account × World) := do w.lookup (← a.word)
  let balance (w : World) (a : Account) : Engine (Reply × (World × World)) := do
    shown (← w.balance a.address) (w, old)
  let put (w : World) (a : Account) (s : Storage) : Engine (World × World) :=
    return (w.put (← a.address.value?) { a with storage := s }, old)
  match name, args with
  | "create", [fields] =>
    let (w, r) ← w.createAccount (← readNewAccount fields)
    shown r (w, old)
  | "put", [address, name, nonce] =>
    let a ← Account.make (← readAddress address) name.str? false false (← nonce.num) none
    shown a (← put w a a.storage)
  | "get", [a] =>
    let (a, w) ← found a
    shown a (w, old)
  | "load", [a] =>
    let address ← match a with
      | .str _ => pure (Item.int (← Rpc.number a))
      | .int n => pure (.int n)
      | j => j.val
    let (w, r) ← w.findOrLoad address
    shown r (w, old)
  | "copy_account", [a] =>
    let (a, w) ← found a
    shown (← a.copy) (w, old)
  | "balance", [a] =>
    let (a, w) ← found a
    balance w a
  | "set_balance", [a, v] =>
    let (a, w) ← found a
    balance (← w.setBalance a.address (← v.word)) a
  | "add_balance", [a, v] =>
    let (a, w) ← found a
    balance (← w.addBalance a.address (← v.word)) a
  | "set_storage", [a, slots] =>
    let (a, w) ← found a
    let (st, f) ← a.storage.fill (slots.members.map (fun (k, v) => (.str k, v)))
    shownOr st (← put w a st) f
  | "sstore", [a, k, v] =>
    let (a, w) ← found a
    let (st, f) ← a.storage.set (← k.val) (← v.val)
    shownOr st (← put w a st) f
  | "sload", [a, k] =>
    let (a, w) ← found a
    let (st, r) ← a.storage.get (← k.val)
    shown r (← put w a st)
  | "constrain", [e] =>
    let w := { w with constraints := ← w.constraints.appendItem (← e.item) }
    shown w.constraints (w, old)
  | "annotate", [.str label] =>
    let w := { w with notes := w.notes ++ [.label label] }
    let labels := w.notes.filterMap (fun n => match n with
      | .label t => some t
      | _ => none)
    shown (Text.sort labels) (w, old)
  | "copy", [deep] =>
    let c ← w.copy deep.isGiven
    shown c (c, w)
  | "show", [] => shown w (w, old)
  | "show_old", [] => shown old (w, old)
  | _, _ => throw .wrongSort

/-! # States and single instructions in the console -/

namespace Read

def account (w : World) (j : Json) : Engine World := do
  let address ← Expr.ofInt (← (j.member "address").num) 256
  let code ← readProgram j
  let a ← Account.make address (j.string? "name") (j.flag "concrete" true) (← get).line.isSome
    (← j.numD "nonce" 0) code
  let (storage, f) ← a.storage.fill ((j.member "storage").members.map (fun (k, v) => (.str k, v)))
  if let some f := f then throw f
  let w := w.put (← address.value?) { a with storage := storage }
  match ← j.num? "balance" with
  | some b => w.setBalance address (← Expr.ofInt b 256)
  | none => return w

def accounts (j : Json) : Engine World := (j.list "accounts").foldlM account {}

/-- Bytes as digits or one by one. -/
def content : Json → Calc (List Item)
  | .str s => return (← Json.hexBytes s).map fun (b : Nat) => .int b
  | j => j.bytes

def valOr (j : Json) (key : String) (default : Json := .null) : Calc Item := ((j.field? key).getD default).val

/-- Writes bytes to memory; the fee is given back. -/
def writeMemory (m : Machine) (j : Json) : Engine Machine := do
  match j.items with
  | [start, bytes] =>
    let items ← content bytes
    let m ← m.writeBytes (← start.idx) items
    return { m with minGas := 0, maxGas := 0 }
  | _ => throw .wrongSort

/-- The target of the transaction unless another one is given. -/
def defaultTarget : String := "0x0f572e5295c57f15886f9b263e2f6d2d6c7b5ec6"

def defaultCaller : String := "0xcd1722f3947def4cf144679da39c4c32bdc35681"

def transaction (w : World) (j : Json) : Engine (Tx × World) := do
  let target ← valOr j "target" (.str defaultTarget)
  let program ← readProgram j
  let limit ← match j.field? "gas_limit" with
    | some (.obj o) => Json.val (.obj o)
    | _ => pure (.int (← j.numD "gas_limit" 8000000))
  let request : TxRequest := {
    identifier := some "1", caller := ← valOr j "caller" (.str defaultCaller), origin := ← valOr j "origin"
    value := ← valOr j "value", gasPrice := ← valOr j "gas_price", gasLimit := limit
    baseFee := ← valOr j "base_fee"
    data := ← (j.field? "data").mapM (fun d => do Calldata.ofBytes "1" (← content d)), code := program
    isStatic := j.flag "static" }
  if j.flag "creation" then
    Tx.creation w request (j.strD "name") (← (← target.expr!).value?)
  else
    let (callee, w) ← w.lookup (← target.expr!)
    return (← Tx.message request callee w.accounts, w)

def state (j : Json) : Engine GState := do
  let (tx, w) ← transaction (← accounts j) j
  let g ← tx.start w
  let m := g.machine
  let m := { m with memory := m.memory.extend (← j.numD "msize" 0).toNat }
  let m ← (j.list "memory").foldlM writeMemory m
  let stack ← Stack.pushAll m.stack (← (j.member "stack").vals)
  let plain ← (j.member "plain_stack").vals
  let returns ← Stack.pushAll [] (← (j.member "sub").vals)
  let pc ← j.numD "pc" 0
  let limit ← j.num? "machine_gas_limit"
  let ret ← (j.field? "ret").mapM (fun r => do
    return ReturnData.bytes (← (r.member "data").bytes) (← (r.member "size").val))
  return { g with
    machine := { m with
      stack := plain.reverse ++ stack, returns := returns, pc := pc, gasLimit := limit.elim m.gasLimit Item.int }
    frames := [⟨tx, none⟩], lastReturn := ret }

end Read

instance : Seen GState where
  view g := return .record [
    ("machine", ← view g.machine), ("constraints", ← view g.world.constraints),
    ("storage", ← view g.active.storage), ("deleted", g.active.deleted), ("ret", ← view g.lastReturn)]

instance : Seen Tx where
  view tx := do
    let code ← tx.code.mapM fun c => Account.codeText { (default : Account) with code := c }
    let data ← match tx.calldata with
      | .concrete _ xs _ => view xs
      | _ => view "symbolic"
    return .record [
      ("type", tx.kindText), ("id", tx.id), ("caller", ← view tx.caller), ("callee", ← view tx.callee.address),
      ("origin", ← view tx.origin), ("value", ← view tx.value), ("gas_limit", ← view tx.gasLimit),
      ("gas_price", ← view tx.gasPrice), ("static", tx.isStatic), ("data_size", ← view tx.calldata.size),
      ("data", data), ("code", code), ("text", ← tx.text)]

/-- What an instruction leads to; successors show as the given view has them. -/
def View.outcome (shown : GState → Engine Reply) (o : Outcome) : Engine (List (String × Reply)) := do
  match o with
  | .states gs => return [("states", ← gs.mapM shown)]
  | .call tx g => return [("start", ← view tx), ("state", ← view g)]
  | .halt g data reverted => return [("end", ← view data), ("revert", reverted), ("state", ← view g)]

/-! ## Instructions -/

/-- The instruction that a name stands for; the members of a family may have any number. -/
def namedOpcode (name : String) : Except Fault Opcode := do
  let name := name.toUpper
  let number (family : String) : Except Fault Nat :=
    return (← need .malformed (Numeral.parse? 10 (Text.drop name family.length))).toNat
  if name.startsWith "PUSH" then return .push 0
  else if name.startsWith "DUP" then return .dup 0
  else if name.startsWith "SWAP" then return .swap (← number "SWAP")
  else if name.startsWith "LOG" then return .log (← number "LOG")
  else if name == "ASSERT_FAIL" then return .invalid
  else need (.failure .unsupported "") (Opcode.ofName? name)

def performNamed (g : GState) (name : String) (post : Bool) : Engine Outcome := do
  let op ← namedOpcode name
  if post then g.finish op else g.perform op

def instrRequest (j : Json) : Engine Reply := do
  let g ← Read.state j
  let name ← match j.string? "instr" with
    | some n => pure n
    | none => pure (← g.instr).opcode.name
  match ← attempt (performNamed g name (j.flag "post")) with
  | .ok o => return .record (("op", told name) :: (← View.outcome view o))
  | .error f => return .failed f [("op", name)]

/-! ## Calls as detectors see them -/

instance : Seen CallSite.Value where
  view
    | .number n => return .list ["CONCRETE", n]
    | .unknown i => return .list ["SYMBOLIC", ← view i]

def View.callSite (c : CallSite) (index : Reply) : Engine Reply := do
  return .record [
    ("type", c.kind.name), ("to", ← view c.target), ("gas", ← view c.gas), ("value", ← view c.value),
    ("data", ← view c.data), ("index", index)]

def callSiteRequest (j : Json) : Engine Reply := do
  let g ← Read.state j
  return .record [("call", ← (← CallSite.of? g false).mapM (View.callSite · .null))]

/-! # Explorations in the console -/

instance : Seen FlowNode where
  view n := return .record [
    ("contract", n.contract), ("function", n.function), ("flags", n.flags), ("start", (0 : Int)),
    ("code", cut (← n.codeText)), ("constraints", n.constraints.length)]

instance : Seen Edge where
  view e := return .list [(e.source.elim (-1) Int.ofNat : Int), e.target, e.kind.name, ← view e.condition]

instance : Seen Graph where
  view g := return .record [("nodes", ← view g.nodes.toList), ("edges", ← view g.edges.reverse)]

def Read.search (name : String) (width : Int) : Search :=
  match name with
  | "dfs" => .depthFirst
  | "naive" => .anyState
  | "weighted" => .weighted
  | "beam" => .beam width
  | "delayed" => .delayed
  | _ => .breadthFirst

end EvmAudit.Console
