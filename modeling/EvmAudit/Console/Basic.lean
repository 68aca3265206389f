import EvmAudit.Engine.Query

/-!
# Replies of the console

The console takes one JSON object as a request and answers with one value. A reply is JSON in which a fault may
stand in the place of any value.
-/

namespace EvmAudit.Console

inductive Reply where
  | json (j : Json)
  | list (items : List Reply)
  | record (fields : List (String × Reply))
  | fault (f : Fault)
  /-- A fault with more that is known about it. -/
  | failed (f : Fault) (fields : List (String × Reply))

def Reply.null : Reply := .json .null

/-- Integers beyond what a double holds exactly are written as text. -/
def number (n : Int) : Json := if n.natAbs ≤ 2 ^ 53 then .int n else .str (toString n)

class Told (α : Type) where
  told : α → Reply

export Told (told)

section

variable {α : Type} [Told α]

instance : CoeOut α Reply := ⟨told⟩
instance : Told Reply := ⟨id⟩
instance : Told Json := ⟨.json⟩
instance : Told Bool := ⟨fun b => .json (.bool b)⟩
instance : Told String := ⟨fun s => .json (.str s)⟩
instance : Told Int := ⟨fun n => .json (number n)⟩
instance : Told Nat := ⟨fun n => .json (number n)⟩
instance : Told (Option α) := ⟨fun o => o.elim .null told⟩
instance : Told (List α) := ⟨fun xs => .list (xs.map told)⟩
instance : Told (List (String × α)) := ⟨fun fs => .record (fs.map (fun (k, a) => (k, told a)))⟩
instance : Told (Except Fault α) := ⟨fun
  | .ok a => told a
  | .error f => .fault f⟩

end

end EvmAudit.Console

/-! # Values in requests

How numbers, expressions and code are written in a request. A number or a text stands for a word of 256 bits;
objects name constants of other widths, variables, Booleans and plain values; a list is an operation with
its operands. -/

namespace EvmAudit

/-- An expression operand: a value or an array. -/
inductive Console.Operand where
  | item (i : Item)
  | array (a : ArrayTerm) (filled : Bool)

open Console

namespace Json

/-! ## Members -/

def member (j : Json) (key : String) : Json := j.getD key .null

def list (j : Json) (key : String) : List Json := (j.member key).items

def string? (j : Json) (key : String) : Option String := (j.get? key).bind str?

def strD (j : Json) (key : String) (default : String := "") : String := (j.string? key).getD default

def strings (j : Json) : List String := j.items.filterMap str?

def texts (j : Json) (key : String) : List String := (j.member key).strings

/-- A member that is there and is not null. -/
def field? (j : Json) (key : String) : Option Json :=
  match j.get? key with
  | some .null => none
  | v => v

def flag (j : Json) (key : String) (default : Bool := false) : Bool := ((j.get? key).map isGiven).getD default

/-! ## Numbers and words -/

/-- An integer: a JSON number, or a text in which a marker may give the base. -/
def num : Json → Except Fault Int
  | .int n => .ok n
  | .bool b => .ok (if b then 1 else 0)
  | .str s => need .malformed (Numeral.parse? 0 s)
  | _ => .error .wrongSort

def num? (j : Json) (key : String) : Except Fault (Option Int) := (j.field? key).mapM num

def numD (j : Json) (key : String) (default : Int) : Except Fault Int := return (← j.num? key).getD default

/-- A value whose width is given or else the default. -/
def value (default : Nat) (j : Json) : Calc Item := do
  let width := match j.get? "size" with
    | some (.int n) => n.toNat
    | _ => default
  match j with
  | .null => return .absent
  | .bool b => return .bool b
  | .int _ | .str _ => return .expr (← Expr.ofInt (← j.num) default)
  | .obj _ =>
    match j.get? "v", j.get? "sym", j.get? "int", j.get? "bool", j.get? "boolsym", j.get? "plain" with
    | some v, _, _, _, _, _ => return .expr (← Expr.ofInt (← v.num) width)
    | _, some (.str s), _, _, _, _ => return .expr (← Expr.symbol s width)
    | _, _, some v, _, _, _ => return .int (← v.num)
    | _, _, _, some (.bool b), _, _ => return .expr (← Expr.truth b)
    | _, _, _, _, some (.str s), _ => return .expr (← Expr.ofTerm (.prop s))
    | _, _, _, _, _, some (.bool b) => return .bool b
    | _, _, _, _, _, _ => throw .noSuchKey
  | _ => throw .wrongSort

def val (j : Json) : Calc Item := j.value 256

def vals (j : Json) : Calc (List Item) := j.items.mapM val

def word (j : Json) : Calc Expr := do (← j.val).expr!

/-- An index: numbers and texts are plain integers. -/
def idx (j : Json) : Calc Item := do
  match j with
  | .int _ | .str _ => return .int (← j.num)
  | j => j.val

/-- A byte: numbers are plain integers, other values have eight bits. -/
def byte (j : Json) : Calc Item := do
  match j with
  | .int n => return .int n
  | j => j.value 8

def bytes (j : Json) : Calc (List Item) := j.items.mapM byte

def hexBytes (s : String) : Except Fault (List Nat) := need .malformed (Hex.toBytes? s)

def code (j : Json) : Calc Bytecode := do
  match j with
  | .str s => return .hex s
  | j => match j.get? "bytes" with
    | some (.str s) => return .raw (← hexBytes s)
    | _ => return .cells (← (j.member "tuple").bytes)

/-! ## Expressions -/

def itemOf : Operand → Calc Item
  | .item i => return i
  | .array _ _ => throw .wrongSort

def exprOf : Operand → Calc Expr
  | .item i => i.expr!
  | .array _ _ => throw .noSuchPart

def binary : String → Item → Item → Calc Expr
  | "add" => Item.plus .add
  | "sub" => Item.plus .sub
  | "mul" => Item.times .mul
  | "div" => Item.times .sdiv
  | "and" => Item.bitwise .and
  | "or" => Item.bitwise .or
  | "xor" => Item.bitwise .xor
  | "lt" => Item.order .lt
  | "gt" => Item.order .gt
  | "le" => Item.order .le
  | "ge" => Item.order .ge
  | "eq" => Item.equate .eq
  | "ne" => Item.equate .ne
  | "shl" => Item.shift .shl
  | "sar" => Item.shift .ashr
  | "lshr" => Item.applied .lshr
  | "udiv" => Item.applied .udiv
  | "urem" => Item.applied .urem
  | "srem" => Item.applied .srem
  | "ult" => Item.unsigned .ult
  | "ugt" => Item.unsigned .ugt
  | "ule" => Item.unsignedOrEqual .ult
  | "uge" => Item.unsignedOrEqual .ugt
  | "add_no_overflow" | "mul_no_overflow" => Item.inRange .noOverflow
  | "sub_no_underflow" => Item.inRange .noUnderflow
  | "bxor" => fun a b => do Expr.xor (← a.expr!) (← b.expr!)
  | _ => fun _ _ => throw .noSuchKey

def operation (op : String) (args : List Operand) : Calc Operand := do
  let made (c : Calc Expr) : Calc Operand := return .item (.expr (← c))
  let prop (o : Operand) : Calc Expr := do (← itemOf o).toProp
  match op, args with
  | "concat", es => made (do Expr.concat (← es.mapM exprOf))
  | "sum", es => made (do Expr.sum (← es.mapM exprOf))
  | "band", es => made (do Expr.conj (← es.mapM prop))
  | "bor", es => made (do Expr.disj (← es.mapM prop))
  | "not", [e] => made (do Expr.not (← exprOf e))
  | "simplify", [e] => made (do (← exprOf e).simplified)
  | "select", [.array a _, i] => made (do Expr.select a (← exprOf i))
  | "store", [.array a k, i, v] => return .array (← Expr.store a (← exprOf i) (← exprOf v)) k
  | "if", [c, .array a _, .array b _] => return .array (.choice (← (← prop c).raw) a b) false
  | "if", [c, a, b] => made (do Item.choose (← itemOf c) (← itemOf a) (← itemOf b))
  | op, a :: b :: _ => made (do binary op (← itemOf a) (← itemOf b))
  | _, _ => throw .wrongSort

mutual

def operand : Json → Calc Operand
  | .arr (.str op :: args) => do
    match op, args with
    | "extract", [.int hi, .int lo, e] =>
      return .item (.expr (← Expr.extract hi.toNat lo.toNat (← exprOf (← operand e))))
    | "func", [.str name, _, .int range, .arr xs] =>
      return .item (.expr (← Expr.apply name range.toNat (← (← operands xs).mapM exprOf)))
    | "array", [.str name, .int domain, .int range] => return .array (.named name domain.toNat range.toNat) false
    | "karray", [.int domain, .int range, v] =>
      return .array (.filled domain.toNat range.toNat ((← v.num) % ((2 ^ range.toNat : Nat) : Int)).toNat) true
    | "ann", [e, .str tag] =>
      let e ← exprOf (← operand e)
      e.annotate (.tag tag)
      return .item (.expr e)
    | op, args => operation op (← operands args)
  | j => return .item (← j.val)

def operands : List Json → Calc (List Operand)
  | [] => return []
  | j :: js => return (← operand j) :: (← operands js)

end

def item (j : Json) : Calc Item := do itemOf (← operand j)

def expr (j : Json) : Calc Expr := do exprOf (← operand j)

end EvmAudit.Json

/-! # How values show in replies

An expression shows the value it would have after simplification, without being simplified by that. -/

namespace EvmAudit.Console

/-- Long texts show only their length and digest. -/
def cut (s : String) : String :=
  let n := s.length
  if n > 600 then "len=" ++ toString n ++ " sha256=" ++ Hex.ofBytes (Digest.Sha256.hash (Utf8.octets s)) else s

/-- Values in the order of a text that belongs to each. -/
def inOrder {α : Type} (xs : List (String × α)) : List α := (xs.mergeSort (fun a b => Text.le a.1 b.1)).map (·.2)

def termJson (t : Term) : Except Fault Json := do
  match ← t.evaluate .empty with
  | some v =>
    if t.isProp then return .obj [("bool", .bool (v != 0))]
    else
      let w := t.width
      return .str ("0x" ++ Hex.ofNat (v % 2 ^ w) ++ (if w = 256 then "" else ":" ++ toString w))
  | none =>
    if t.isProp then return .obj [("boolsym", .str (cut t.text))]
    else return .obj [("sym", .str (cut t.text)), ("size", .int t.width)]

def itemJson : Item → Calc Json
  | .expr e => do termJson (← e.raw)
  | .int n => return number n
  | .bool b => return .bool b
  | .absent => return .null

def tagsOf (ms : List Mark) : List String :=
  Text.sort (ms.filterMap (fun m => match m with
    | .tag t => some t
    | _ => none))

/-- Values that show as what the session knows about them. -/
class Seen (α : Type) where
  view : α → Engine Reply

export Seen (view)

instance (priority := low) {α : Type} [Told α] : Seen α := ⟨fun a => return a⟩
instance : Seen Item := ⟨fun i => return ← itemJson i⟩
instance : Seen Expr := ⟨fun e => view (Item.expr e)⟩
instance {α : Type} [Seen α] : Seen (List α) := ⟨fun xs => return ← xs.mapM view⟩
instance {α : Type} [Seen α] : Seen (Option α) := ⟨fun o => return ← o.mapM view⟩
instance {α : Type} [Seen α] : Seen (Except Fault α) := ⟨fun
  | .ok a => view a
  | .error f => return .fault f⟩

/-! ## Memory and machines -/

def runs : List (Nat × Nat) → List (Nat × List Nat)
  | [] => []
  | (i, b) :: rest =>
    match runs rest with
    | (j, bs) :: more => if j == i + 1 then (i, b :: bs) :: more else (i, [b]) :: (j, bs) :: more
    | [] => [(i, [b])]

/-- A cell of memory: a byte, or something without a value. -/
def cell (i : Item) : Calc (Nat ⊕ Json) := do
  match i with
  | .expr e =>
    let t ← e.raw
    return (← t.evaluate .empty).elim (.inr (← termJson t)) .inl
  | i => return .inl (i.int?.getD 0).toNat

/-- Shows the cells in order: runs of bytes that are not zero, and cells without a value. -/
def cells : List (Nat × (Nat ⊕ Json)) → List (Nat × Nat) → List Json
  | [], pending => flush pending
  | (i, .inl b) :: rest, pending => cells rest (if b == 0 then pending else (i, b) :: pending)
  | (i, .inr j) :: rest, pending => flush pending ++ Json.arr [.int i, j] :: cells rest []
where
  flush (pending : List (Nat × Nat)) : List Json :=
    (runs pending.reverse).map fun (i, bs) => Json.arr [.int i, .str (Hex.ofBytes bs)]

instance : Seen Memory where
  view m := do
    let numbered ← m.cells.toList.mapM fun (i, x) => return (i, ← cell x)
    let other ← m.odd.mapM (fun c => do
      let t ← c.index.raw
      match ← t.evaluate .empty with
      | some v => return Sum.inl (v, ← cell c.content)
      | none => return Sum.inr (Json.arr [.str "sym", .str (cut t.text), ← itemJson c.content]))
    let numbered := (numbered ++ other.filterMap Sum.getLeft?).mergeSort fun a b => a.1 ≤ b.1
    return .record [("size", m.size), ("data", cells numbered [] ++ other.filterMap Sum.getRight?)]

instance : Seen Machine where
  view m := return .record [
    ("pc", m.pc), ("stack", ← view m.stack.reverse), ("sub", ← view m.returns.reverse), ("mem", ← view m.memory),
    ("gas", [m.minGas, m.maxGas]), ("depth", m.depth)]

/-! ## Worlds -/

/-- Shown writes, in the order of their text. -/
instance : Seen Storage where
  view s := do
    let pairs ← s.entries.mapM fun e => return Json.arr [← itemJson e.key.item, ← itemJson e.value]
    return inOrder (pairs.map (fun p => (Shown.json p, p)))

instance : Seen Account where
  view a := return .record [
    ("address", ← view a.address), ("name", a.name), ("nonce", a.nonce), ("deleted", a.deleted),
    ("code", ← a.codeText), ("storage", ← view a.storage)]

instance : Seen World where
  view w := do
    let accounts ← w.accounts.mapM fun (_, a) => return (Shown.plain (← termJson (← a.address.raw)), ← view a)
    return .record [
      ("accounts", inOrder accounts), ("constraints", ← view w.constraints), ("txs", w.txs.length)]

instance : Seen ReturnData where
  view r := return .record [
    ("data", ← match r with
      | .bytes data _ => view data
      | .address text => view text),
    ("size", ← view r.size)]

/-! # Requests with steps

Steps work on a state one after the other. A step that fails is answered by its fault, and the next step goes on with
the state as it is. -/

def runEngine (s : Session) (c : Engine Reply) : Reply :=
  match c.run s with
  | .ok r _ => r
  | .error f _ => .fault f

/-- A step of a request: its name and its arguments. -/
abbrev StepOf (σ : Type) := σ → String → List Json → Engine (Reply × σ)

def shown {α σ : Type} [Seen α] (a : α) (s : σ) : Engine (Reply × σ) := return (← view a, s)

def done {σ : Type} (s : σ) : Engine (Reply × σ) := return (.null, s)

/-- Ends a step that may have failed after its effect. -/
def shownOr {α σ : Type} [Seen α] (a : α) (s : σ) : Option Fault → Engine (Reply × σ)
  | none => shown a s
  | some f => return (.fault f, s)

def stepAll {σ : Type} (step : StepOf σ) : σ → List Json → Engine (List Reply)
  | _, [] => return []
  | s, j :: js => do
    match ← Engine.attempt (named s j.items) with
    | .ok (r, s) => return r :: (← stepAll step s js)
    | .error f => return .fault f :: (← stepAll step s js)
where
  named (s : σ) : List Json → Engine (Reply × σ)
    | .str name :: args => step s name args
    | _ => throw .wrongSort

def stepped {σ : Type} (step : StepOf σ) (s : σ) (j : Json) : Engine Reply :=
  return .record [("results", ← stepAll step s (j.list "ops"))]

/-- Steps that may reach the node, with what was asked there. -/
def steppedOnline {σ : Type} (step : StepOf σ) (s : σ) (j : Json) : Engine Reply := do
  let results ← stepAll step s (j.list "ops")
  return .record [("results", results), ("log", (← get).line.map (·.log.reverse))]

def hasChain (j : Json) : Bool := match j.get? "chain" with
  | some (.obj _) => true
  | _ => false

/-- A session with the node and the loader that a request gives. -/
def withChain (j : Json) (active : String) : Session :=
  let isActive := ((j.get? active).bind Json.bool?).getD true
  { line := if hasChain j then some { node := .table (j.member "chain").members } else none
    loader := some { active := isActive } }

def withNode (j : Json) : Session := if hasChain j then withChain j "chain_active" else {}

def outOfTime : Engine Unit := modify fun s => { s with queries := { s.queries with exhausted := true } }

end EvmAudit.Console
