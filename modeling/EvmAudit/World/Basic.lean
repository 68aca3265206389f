import EvmAudit.Machine
import EvmAudit.Path

/-!
# Keys

How values are found again in tables and sets. A number is found by its value and width, as it was when it was put
there; an expression without a value only by being the very same expression.
-/

namespace EvmAudit

open EvmAudit.Expr

inductive KeyPrint where
  | const (value width : Nat)
  | truth (b : Bool)
  | id (n : Nat)
  | plain (n : Int)
  | absent
  deriving DecidableEq, Repr, Inhabited

def KeyPrint.of (i : Item) : Calc KeyPrint := do
  match i with
  | .expr e => match ← e.raw with
    | .const v w => return .const v w
    | .truth b => return .truth b
    | _ => return .id e.id
  | .absent => return .absent
  | i => return .plain (i.int?.getD 0)

/-- A value in a set, with the print it had when it was put there. -/
structure Key where
  item : Item
  print : KeyPrint
  deriving Inhabited

abbrev KeySet := List Key

namespace KeySet

def has (s : KeySet) (p : KeyPrint) : Bool := s.any (·.print == p)

def contains (s : KeySet) (i : Item) : Calc Bool := return s.has (← KeyPrint.of i)

def insert (s : KeySet) (i : Item) : Calc KeySet := do
  let p ← KeyPrint.of i
  return if s.has p then s else s ++ [⟨i, p⟩]

def union (a b : KeySet) : KeySet := b.foldl (fun acc k => if acc.has k.print then acc else acc ++ [k]) a

/-- A copy whose values have identities of their own. -/
def copy : KeySet → Calc KeySet
  | [] => return []
  | s => s.foldlM (fun acc k => do
      match k.item with
      | .expr e => match ← e.raw with
        | .const _ _ | .truth _ => KeySet.insert acc k.item
        | _ => KeySet.insert acc (.expr (← e.copy))
      | i => KeySet.insert acc i) []

end KeySet

/-! # Storage

The storage of a contract is an array that starts out as zero everywhere or as a variable. Beside the array stand
the writes that can be shown, in the order of their first write, the slots that are known not to be on the node any
more, and the keys that were written and read. -/

structure StorageEntry where
  key : Key
  value : Item

structure Storage where
  array : ArrayTerm
  /-- Does the storage start out as zero everywhere? -/
  filled : Bool
  address : Option Expr
  /-- May missing slots be asked for at a node? -/
  live : Bool := false
  entries : List StorageEntry := []
  /-- Slots that have been written or fetched. -/
  loaded : List Nat := []
  written : KeySet := []
  read : KeySet := []
  deriving Inhabited

namespace Storage

/-- Empty storage of an address. Unconstrained storage is a variable in any case. -/
def make (unconstrained concrete : Bool) (address : Option Expr) (live : Bool) : Calc Storage := do
  if concrete && !unconstrained then
    return { array := .filled 256 256 0, filled := true, address := address, live := live }
  let name ← match address with
    | some a => a.text
    | none => pure "None"
  return { array := .named ("Storage" ++ name) 256 256, filled := false, address := address, live := live }

def noteLoaded (s : Storage) (slot : Nat) : Storage :=
  if s.loaded.contains slot then s else { s with loaded := s.loaded ++ [slot] }

def putShown (key : Key) (value : Item) : List StorageEntry → List StorageEntry
  | [] => [⟨key, value⟩]
  | e :: rest => if e.key.print = key.print then ⟨e.key, value⟩ :: rest else e :: putShown key value rest

def putEntry (s : Storage) (key value : Item) : Calc Storage := do
  return { s with entries := putShown ⟨key, ← KeyPrint.of key⟩ value s.entries }

/-- Writes a slot. A Boolean is written as one or zero. What was written before a fault stays. -/
def set (s : Storage) (key value : Item) : Calc (Storage × Option Fault) := do
  let value ← match value with
    | .expr e => if e.isProp then Item.expr <$> bit e else pure value
    | v => pure v
  let s ← s.putEntry key value
  match key, value with
  | .expr k, .expr v =>
    let s := { s with array := ← store s.array k v, written := ← s.written.insert key }
    if k.isProp then return (s, some Fault.noSuchPart)
    match ← k.value? with
    | some slot => return (s.noteLoaded slot, none)
    | none => return (s, none)
  | _, _ => return (s, some Fault.noSuchPart)

def noteRead (s : Storage) (key : Item) : Calc Storage := do
  return { s with read := ← s.read.insert key }

/-- The slot that has to be fetched before a key can be read, with the address it belongs to. -/
def missing (s : Storage) (active unconstrained : Bool) (key : Expr) : Calc (Option (Option Nat × Nat)) := do
  match s.address with
  | none => return none
  | some a =>
    let owner ← a.value?
    if owner == some 0 then return none
    if key.isProp then throw .noSuchPart
    match ← key.value? with
    | none => return none
    | some slot =>
      if s.loaded.contains slot || !s.live || !active || unconstrained then return none
      return some (owner, slot)

/-- Chooses the array's own content for every key that was written. -/
def guarded (s : Storage) (key : Expr) (value : Expr) : List Key → Calc Expr
  | [] => return value
  | k :: rest => do
    let same ← Item.equate .eq k.item (.expr key)
    guarded s key (← ite same (← select s.array key) value) rest

def fetched (s : Storage) (key : Expr) (slot : Nat) (content : Nat) : Calc Storage := do
  let value ← s.guarded key (← word content) s.written
  let s := { s with array := ← store s.array key value }
  (s.noteLoaded slot).putEntry (.expr key) (.expr (← select s.array key))

/-- The content of a slot as the array has it. -/
def select (s : Storage) (key : Expr) : Calc Expr := Expr.select s.array key

/-- A copy; its keys have identities of their own. -/
def copy (s : Storage) : Calc Storage := do
  return { s with written := ← s.written.copy, read := ← s.read.copy }

def text (s : Storage) : Calc String := do
  let parts ← s.entries.mapM (fun e => return (← e.key.item.text) ++ ": " ++ (← e.value.text))
  return "\x7b" ++ ", ".intercalate parts ++ "\x7d"

end Storage

/-! # Call data

The input of a transaction. Known input is kept as an array or as a plain list; unknown input is an array variable with
a variable for its size. A byte beyond the size reads as zero. -/

inductive Calldata where
  | concrete (tx : String) (items : List Item) (array : ArrayTerm)
  /-- Known bytes, read from the list itself. -/
  | listed (tx : String) (items : List Item)
  | symbolic (tx : String) (size : Expr)
  /-- Unknown bytes with one variable for each byte. -/
  | sampled (tx : String) (size : Expr)
  deriving Inhabited

namespace Calldata

def fill (a : ArrayTerm) : Nat → List Item → Calc ArrayTerm
  | _, [] => return a
  | n, i :: rest => do
    let e ← match i with
      | .expr e => pure e
      | i => match i.int? with
        | some k => ofInt k 8
        | none => throw .noSuchPart
    fill (← store a (← word n) e) (n + 1) rest

def ofBytes (tx : String) (items : List Item) : Calc Calldata := do
  return .concrete tx items (← fill (.filled 256 8 0) 0 items)

def sizeName (tx : String) : String := tx ++ "_calldatasize"

def unknown (tx : String) : Calc Calldata := do
  return .symbolic tx (← symbol (sizeName tx) 256)

def unknownBytes (tx : String) : Calc Calldata := do
  return .sampled tx (← symbol (sizeName tx) 256)

def size : Calldata → Item
  | .concrete _ items _ => .int items.length
  | .listed _ items => .int items.length
  | .symbolic _ n => .expr n
  | .sampled _ n => .expr n

def sizeWord (c : Calldata) : Calc Expr := c.size.toWidth 256

/-- A choice among known bytes by a symbolic position. -/
def chain (index : Expr) (acc : Expr) : Nat → List Item → Calc Expr
  | _, [] => return acc
  | n, i :: rest => do
    let here ← eqInt index n
    chain index (← Item.choose (.expr here) i (.expr acc)) (n + 1) rest

def load (c : Calldata) (i : Item) : Calc Item := do
  if let .absent := i then throw .malformed
  match c with
  | .concrete _ _ array =>
    let index ← match i with
      | .expr e => pure e
      | i => i.toWidth 256
    return .expr (← select array index)
  | .listed _ items =>
    match i with
    | .expr e => return .expr (← chain e (← const 0 8) 0 items)
    | i => return (Sequence.at? items (i.int?.getD 0)).getD (.int 0)
  | .symbolic tx size =>
    let index ← i.toWidth 256
    let inside ← compare .lt index size
    let byte ← select (.named (tx ++ "_calldata") 256 8) index
    return .expr (← (← ite inside byte (← const 0 8)).simplified)
  | .sampled _ _ => throw .wrongSort

def bytesIn (c : Calldata) (model : Option Model) : Calc (List Item) := do
  match c with
  | .concrete _ items _ => return items
  | .listed _ items => return items
  | .symbolic _ size =>
    match model with
    | none => throw .noSuchPart
    | some m =>
      match ← m.number (← size.raw) with
      | some n => return List.replicate n (.int 0)
      | none => throw .noSuchPart
  | .sampled _ _ =>
    match model with
    | none => throw .noSuchPart
    | some _ => throw (.failure .wrongSort "Got a symbolic BitVecRef")

end Calldata

/-! ## Returned data -/

/-- What a frame returned: bytes with their number, or the address of a new contract as text. -/
inductive ReturnData where
  | bytes (data : List Item) (size : Item)
  | address (text : String)

namespace ReturnData

def size : ReturnData → Item
  | .bytes _ n => n
  | .address text => .int (text.length / 2)

/-- Is a position below the size? Without a value it is not. -/
def inside (i n : Item) : Calc Bool := do
  match i.int?, n.int? with
  | some a, some b => return a < b
  | _, _ => (← Item.order .lt i n).holds

/-- The byte at a position; zero at or beyond the size. -/
def get (r : ReturnData) (i : Item) : Calc Item := do
  if ← inside i r.size then
    match r, i.int? with
    | .bytes data _, some n => match Sequence.at? data n with
      | some x => return x
      | none => throw .outOfRange
    | _, _ => throw .wrongSort
  else return .int 0

end ReturnData

/-! # Accounts, worlds, frames and states

A state of the analysis is a world of accounts, the environment and machine of the running frame, and the frames below
it. All of this is plain data: two states never share anything that one of them could change, except for what is named
by number (programs, nodes of the control-flow graph, suspended callers and a few notes). -/

abbrev ProgramId := Nat

structure Account where
  address : Expr
  name : String
  nonce : Int := 0
  deleted : Bool := false
  code : ProgramId
  /-- Does the storage start out as zero everywhere? -/
  concrete : Bool := false
  storage : Storage
  deriving Inhabited

/-- Accounts by address; all accounts with a symbolic address share one place. -/
abbrev Accounts := List (Option Nat × Account)

inductive TxKind where
  | message
  | creation
  deriving DecidableEq, Repr, Inhabited

structure Tx where
  id : String
  kind : TxKind
  callee : Account
  caller : Item
  calldata : Calldata
  gasPrice : Item
  baseFee : Item
  origin : Item
  value : Item
  gasLimit : Item
  code : Option ProgramId
  isStatic : Bool := false
  before : Accounts := []
  deriving Inhabited

/-- What a path has read and written in storage. The sets of written keys are named by number, because copies of a
record go on sharing them. -/
structure Dependency where
  loaded : KeySet := []
  /-- Number of the set of keys written in each transaction. -/
  written : List (Int × Nat) := []
  hasCall : Bool := false
  path : List Int := [0]
  blocks : List Int := []
  deriving Inhabited

/-- What detectors and plugins remember about a path. -/
inductive Note where
  | label (text : String)
  | mutation
  /-- What was read and written on the path; the number names the record. -/
  | dependency (record : Nat)
  /-- Records left by earlier transactions, the latest last. -/
  | dependencies (records : List Nat)
  /-- Addresses of the instructions on the path, the latest first. -/
  | blocks (trace : List Int)
  /-- Program counters with the transaction they belong to. -/
  | trace (steps : List (Int × String))
  | issue
  | oldBlock
  | overflows (marks : List Mark)
  | lastJump (address : Option Int)
  /-- An external call: the top of the stack at the call, whether the target can be chosen, and how often the state was
  changed since. -/
  | externalCall (top : List Item) (chosen : Bool) (changes : Nat)
  | callResults (results : List (Int × Item))
  | sends (addresses : List Int)
  /-- Issues to be checked at the end of the transaction; the number names the list. -/
  | potential (pool : Nat)
  | weight (n : Int)

namespace Note

def followsCalls : Note → Bool
  | .mutation | .trace _ | .issue => true
  | _ => false

def staysWithWorld : Note → Bool
  | .issue => true
  | _ => false

def isMutation : Note → Bool
  | .mutation => true
  | _ => false

def record? : Note → Option Nat
  | .dependency r => some r
  | _ => none

/-- The records of earlier transactions that the note names. -/
def records? : Note → Option (List Nat)
  | .dependencies rs => some rs
  | _ => none

/-- The list of suspicions that the note names. -/
def pool? : Note → Option Nat
  | .potential p => some p
  | _ => none

/-- The note with another list in the place of one. -/
def movePool (pool pool' : Nat) : Note → Note
  | .potential p => .potential (if p == pool then pool' else p)
  | n => n

end Note

structure World where
  accounts : Accounts := []
  balances : ArrayTerm := .named "balance" 256 256
  startBalances : ArrayTerm := .named "balance" 256 256
  constraints : Constraints := []
  node : Option Nat := none
  txs : List Tx := []
  notes : List Note := []
  deriving Inhabited

structure Environment where
  /-- Address of the active account, as it is found in the world. -/
  active : Option Nat
  function : String := ""
  address : Expr
  blockNumber : Expr
  chainId : Expr
  code : ProgramId
  sender : Item
  calldata : Calldata
  gasPrice : Item
  callValue : Item
  origin : Item
  baseFee : Item
  isStatic : Bool := false
  deriving Inhabited

/-- A running frame and the number of its suspended caller. -/
structure Frame where
  tx : Tx
  caller : Option Nat

structure GState where
  id : Nat
  world : World
  env : Environment
  node : Option Nat := none
  machine : Machine
  frames : List Frame := []
  lastReturn : Option ReturnData := none
  notes : List Note := []
  deriving Inhabited

namespace World

def find? (w : World) (key : Option Nat) : Option Account := w.accounts.lookup key

def put (w : World) (key : Option Nat) (a : Account) : World := { w with accounts := Sequence.put key a w.accounts }

def balance (w : World) (address : Expr) : Calc Expr := select w.balances address

def setBalance (w : World) (address value : Expr) : Calc World := do
  return { w with balances := ← store w.balances address value }

def addBalance (w : World) (address value : Expr) : Calc World := do
  w.setBalance address (← add (← w.balance address) value)

def subBalance (w : World) (address value : Expr) : Calc World := do
  w.setBalance address (← sub (← w.balance address) value)

end World

def GState.tx? (g : GState) : Option Tx := g.frames.head?.map (·.tx)

/-- The account whose code or storage is at work. -/
def GState.active (g : GState) : Account := (g.world.find? g.env.active).getD default

/-- Adds a note, and to the world as well if it stays there. -/
def GState.annotate (g : GState) (n : Note) : GState :=
  let g := { g with notes := g.notes ++ [n] }
  if n.staysWithWorld then { g with world := { g.world with notes := g.world.notes ++ [n] } } else g
end EvmAudit
