import EvmAudit.Engine.Session
import EvmAudit.Text.Literal

/-!
# Accounts of a world

Making, finding, copying and loading accounts.
-/

namespace EvmAudit

open Engine
open EvmAudit.Expr

def paddedAddress (n : Nat) : String := "0x" ++ Text.padLeft (Hex.ofNat n) 40 '0'

namespace Account

def nameOf : Option Nat → String
  | some v => paddedAddress v
  | none => "unknown"

/-- A new account; without code it gets a program of its own for no code. -/
def make (address : Expr) (name : Option String) (concrete live : Bool) (nonce : Int)
    (code : Option ProgramId) : Engine Account := do
  let code ← match code with
    | some c => pure c
    | none => newProgram (.hex "")
  let storage ← Storage.make (← get).options.unconstrainedStorage concrete (some address) live
  let name ← match name with
    | some n => pure n
    | none => pure (nameOf (← address.value?))
  return { address := address, name := name, nonce := nonce, code := code, concrete := concrete, storage := storage }

def copy (a : Account) : Calc Account := do
  return { a with deleted := false, storage := ← a.storage.copy }

/-- Code in text form; what is not a plain byte shows as call data. -/
def codeText (a : Account) : Engine String := do
  match (← program a.code).code with
  | .hex s => return s
  | .raw bytes => return "0x" ++ String.join (bytes.map (fun b => "0x" ++ Hex.ofNat b))
  | .cells items => return "0x" ++ String.join (items.map (fun i => match i with
      | .int n => Hex.ofInt n
      | _ => "<call_data>"))

end Account

/-- The content of a slot. A slot that is not known yet is fetched from the node first, if that is possible. -/
def Storage.get (s : Storage) (key : Item) : Engine (Storage × Except Fault Expr) := do
  let s ← s.noteRead key
  let session ← MonadState.get
  let active := session.loader.any (·.active)
  let body : Engine (Storage × Expr) := do
    let k ← key.expr!
    let s ← match ← s.missing active session.options.unconstrainedStorage k with
      | none => pure s
      | some (none, _) => throw .wrongSort
      | some (some owner, slot) =>
        rescue (do
            let v ← Engine.readStorage (.str (Engine.longAddress owner)) slot
            let n ← Engine.ofExcept (Rpc.number v)
            s.fetched k slot (n % ((2 ^ 256 : Nat) : Int)).toNat)
          (fun f => if f.cause? == some .malformed then some (pure s) else none)
    return (s, ← s.select k)
  match ← attempt body with
  | .ok (s, e) => return (s, .ok e)
  | .error f => return (s, .error f)

namespace World

/-- The account at an address that has been evaluated to a key, which is made if it is not there. -/
def lookupAt (w : World) (key : Option Nat) (address : Expr) : Engine (Account × World) := do
  match w.find? key with
  | some a => return (a, w)
  | none =>
    let a ← Account.make address (some (Account.nameOf key)) false false 0 none
    return (a, w.put key a)

def lookup (w : World) (address : Expr) : Engine (Account × World) := do w.lookupAt (← address.value?) address

/-- The address of a contract made by a creator: the digest of as many zero bytes as the creator's address says, and of
the nonce. -/
def newAddress (creator : Nat) (nonce : Int) : Except Fault Nat :=
  if creator ≥ 2 ^ 63 ∨ nonce < 0 ∨ nonce ≥ 2 ^ 64 then .error .tooLarge
  else
    let tail := (List.range 8).map fun i => nonce.toNat / 256 ^ (7 - i) % 256
    let digest := Digest.Sha256.hash (List.replicate creator 0 ++ tail)
    .ok ((digest.drop 12).foldl (fun acc b => acc * 256 + b) 0)

structure NewAccount where
  balance : Int := 0
  address : Option Nat := none
  concrete : Bool := false
  live : Bool := false
  creator : Option Nat := none
  code : Option ProgramId := none
  nonce : Int := 0

def create (w : World) (n : NewAccount) (address : Nat) (nonce : Int) : Engine (Account × World) := do
  let a ← Account.make (← word address) none n.concrete n.live nonce none
  let a := match n.code with
    | some c => { a with code := c }
    | none => a
  let w ← w.setBalance a.address (← ofInt n.balance 256)
  return (a, w.put (← a.address.value?) a)

/-- The address of a new account. Without a given one, the creator's own address and nonce decide. -/
def addressFor (w : World) (n : NewAccount) : Except Fault Nat :=
  match n.address with
  | some a => .ok (a % 2 ^ 256)
  | none => match w.find? n.creator, n.creator.filter (· != 0) with
    | none, _ => .error .noSuchKey
    | some _, none => .error (.failure .unsupported "")
    | some c, some k => newAddress k c.nonce

def count (w : World) (creator : Option Nat) : World :=
  match creator.bind (fun c => w.find? (some c)) with
  | some c => w.put creator { c with nonce := c.nonce + 1 }
  | none => w

/-- Makes an account. A creator that is not there is made itself; that stays when the account cannot be made. -/
def createAccount (w : World) (n : NewAccount) : Engine (World × Except Fault Account) := do
  let known := w.find? n.creator
  let nonce := match known with
    | some c => c.nonce
    | none => n.nonce
  let creator := n.creator.filter (· != 0)
  let w ← match known, creator with
    | none, some c => do
      let (_, w) ← w.create {} c 0
      pure w
    | _, _ => pure w
  match w.addressFor n with
  | .error f => return (w, .error f)
  | .ok address =>
    let (a, w) ← (w.count creator).create n address nonce
    return (w, .ok a)

def findOrLoad (w : World) (address : Item) : Engine (World × Except Fault Account) := do
  let word ← address.toWidth 256
  let key ← word.value?
  match w.find? key with
  | some a => return (w, .ok a)
  | none =>
    if (← get).loader.isNone then
      return (w, .error (.failure .malformed "dynamic_loader is None"))
    let isMalformed (f : Fault) : Bool := f.cause? == some .malformed
    let body : Engine (World × Except Fault Account) := do
      let found : Option (Int × Option ProgramId) ← match address.int? with
        | none => pure none
        | some n => rescue (do
            let text := if n < 0 then "-0x" ++ Text.padLeft (Hex.ofNat n.natAbs) 39 '0'
              else paddedAddress n.toNat
            let balance ← readBalance (.str text)
            let code ← loadCode (.int n)
            return some (balance, code)) (fun f => if isMalformed f then some (pure none) else none)
      match found with
      | some (balance, code) =>
        w.createAccount { balance := balance, address := key, live := true, code := code, concrete := true }
      | none =>
        let code ← rescue (loadCode (match address.int? with
          | some n => .int n
          | none => .null)) (fun f => if isMalformed f then some (pure none) else none)
        w.createAccount { address := key, live := true, code := code }
    match ← attempt body with
    | .ok r => return r
    | .error f => return (w, .error f)

/-- Takes over the account or the fault of a step that changes the world. -/
def orFail {α : Type} (r : World × Except Fault α) : Engine (α × World) := do
  return (← Engine.ofExcept r.2, r.1)

end World

/-- A copy of a note; a record of dependencies is copied with it, but for the sets of written keys. -/
def Note.copy (n : Note) : Engine Note := do
  match n with
  | .dependency r => return .dependency (← Engine.newDependency (← Engine.dependency r))
  | n => return n

def World.copy (w : World) (deep : Bool) : Engine World := do
  let notes ← w.notes.mapM Note.copy
  let accounts ← w.accounts.mapM fun (k, a) => return (k, ← a.copy)
  let constraints ← if deep then w.constraints.copy else pure w.constraints
  return { w with notes := notes, accounts := accounts, constraints := constraints }

def GState.copy (g : GState) (deep : Bool := false) : Engine GState := do
  let world ← g.world.copy deep
  let machine ← g.machine.copy
  let (_, world) ← world.lookupAt g.env.active g.env.address
  let notes ← g.notes.mapM Note.copy
  let id ← freshState
  return { g with id := id, world := world, machine := machine, notes := notes }

/-! # Transactions

A transaction is either a message to an account or the creation of one. What is not given about it is a variable.
Beginning a transaction moves its value from the sender to the receiver, under the condition that the sender has it. -/

/-- Moves an amount from one account to another, on the condition that it is there. -/
def World.transfer (w : World) (sender receiver amount : Expr) : Calc World := do
  let enough ← uge (← w.balance sender) amount
  let w := { w with constraints := ← w.constraints.append enough }
  let w ← w.addBalance receiver amount
  w.subBalance sender amount

/-- How a transaction is asked for. An absent part is unknown. -/
structure TxRequest where
  identifier : Option String := none
  caller : Item
  origin : Item := .absent
  value : Item := .absent
  gasPrice : Item := .absent
  gasLimit : Item := .absent
  baseFee : Item := .absent
  data : Option Calldata := none
  code : Option ProgramId := none
  isStatic : Bool := false

namespace Tx

def orVariable (i : Item) (name : String) : Calc Item := do
  match i with
  | .absent => return .expr (← symbol name 256)
  | i => return i

/-- Fills in what is unknown about a transaction. -/
def make (r : TxRequest) (kind : TxKind) (callee : Account) (before : Accounts) : Engine Tx := do
  let id ← match r.identifier.filter (· != "") with
    | some id => pure id
    | none => nextTx
  let suffix := r.identifier.getD "None"
  let data ← match r.data with
    | some d => pure d
    | none => Calldata.unknown id
  return {
    id := id, kind := kind, callee := callee, caller := r.caller, calldata := data
    gasPrice := ← orVariable r.gasPrice ("gasprice" ++ suffix)
    baseFee := ← orVariable r.baseFee ("basefee" ++ suffix)
    origin := ← orVariable r.origin ("origin" ++ suffix)
    value := ← orVariable r.value ("callvalue" ++ suffix)
    gasLimit := r.gasLimit, code := r.code, isStatic := r.isStatic, before := before }

def message (r : TxRequest) (callee : Account) (before : Accounts := []) : Engine Tx := make r .message callee before

/-- The creation of an account, which is there at once, without code. -/
def creation (w : World) (r : TxRequest) (name : String) (address : Option Nat) : Engine (Tx × World) := do
  let creator ← (← r.caller.expr!).value?
  let (callee, w') ← World.orFail (← w.createAccount { concrete := true, creator := creator, address := address })
  let callee := if name.isEmpty then callee else { callee with name := name }
  let w' := w'.put (← callee.address.value?) callee
  return (← make { r with isStatic := false } .creation callee w.accounts, w')

def start (tx : Tx) (w : World) : Engine GState := do
  let code := tx.code.getD tx.callee.code
  let active ← tx.callee.address.value?
  let env : Environment := {
    active := active
    function := if tx.kind == .creation then "constructor" else "fallback"
    address := tx.callee.address
    blockNumber := ← symbol "block_number" 256
    chainId := ← symbol "chain_id" 256
    code := code, sender := tx.caller, calldata := tx.calldata, gasPrice := tx.gasPrice, callValue := tx.value
    origin := tx.origin, baseFee := tx.baseFee, isStatic := tx.isStatic }
  let amount ← tx.value.toWidth 256
  let w ← w.transfer (← tx.caller.expr!) tx.callee.address amount
  let id ← freshState
  return { id := id, world := w, env := env, machine := { gasLimit := .int 1000000000 } }

def kindText (tx : Tx) : String :=
  match tx.kind with
  | .message => "MessageCallTransaction"
  | .creation => "ContractCreationTransaction"

def text (tx : Tx) : Calc String := do
  let receiver ← match ← tx.callee.address.value? with
    | some v => pure (Text.padLeft ("0x" ++ Hex.ofNat v) 42 ' ')
    | none => tx.callee.address.text
  return tx.kindText ++ " " ++ tx.id ++ " from " ++ (← tx.caller.text) ++ " to " ++ receiver

end Tx

/-! # Recorded worlds

Accounts as a record of a run gives them: by address, with code, nonce, balance and slots. The slots stand there as a
table or as the text of one. -/

/-- Sets slots from texts of hexadecimal digits, up to the first that cannot be set. -/
def Storage.fill (st : Storage) : List (Json × Json) → Engine (Storage × Option Fault)
  | [] => return (st, none)
  | (k, v) :: rest => do
    match Rpc.number k, Rpc.number v with
    | .ok k, .ok v =>
      let (st, f) ← st.set (.expr (← ofInt k 256)) (.expr (← ofInt v 256))
      match f with
      | some f => return (st, some f)
      | none => st.fill rest
    | .error f, _ => return (st, some f)
    | _, .error f => return (st, some f)

namespace Recorded

/-- A literal as a key or value of a slot; only texts give numbers. -/
def ofLiteral : Literal → Json
  | .text s => .str s
  | .number n => .int n
  | _ => .null

def slots (j : Json) : Except Fault (List (Json × Json)) :=
  match j with
  | .obj entries => .ok (entries.map (fun (k, v) => (.str k, v)))
  | .str s => match Literal.parse? s with
    | some x =>
      if x.isPlain then match x with
        | .table entries => .ok (entries.map (fun (k, v) => (ofLiteral k, ofLiteral v)))
        | _ => .error .noSuchPart
      else .error (.failure .unknownName "")
    | none => .error (.failure .badSyntax "")
  | _ => .error .noSuchPart

def addAccount (w : World) (entry : String × Json) : Engine World := do
  let (address, details) := entry
  let address ← ofInt (← Engine.ofExcept (Rpc.number (.str address))) 256
  let a ← Account.make address none true false 0 none
  let code ← match ← Engine.ofExcept (details.part "code") with
    | .str s => Engine.newProgram (.hex (Text.drop s 2))
    | _ => throw .wrongSort
  let nonce ← match ← Engine.ofExcept (details.part "nonce") with
    | .int n => pure n
    | _ => throw .wrongSort
  let (storage, f) ← a.storage.fill (← Engine.ofExcept (do slots (← details.part "storage")))
  if let some f := f then throw f
  let w := w.put (← address.value?) { a with code := code, nonce := nonce, storage := storage }
  let balance ← Engine.ofExcept (do Rpc.number (← details.part "balance"))
  w.setBalance address (← ofInt balance 256)

def world (record : Json) : Engine World := do
  let accounts ← Engine.ofExcept (record.path ["initialState", "accounts"])
  match accounts with
  | .obj entries => entries.foldlM addAccount {}
  | _ => throw .noSuchPart

end Recorded

end EvmAudit
