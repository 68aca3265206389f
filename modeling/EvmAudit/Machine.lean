import EvmAudit.Expr

/-!
# Memory

Cells that hold a byte: a plain integer or an expression of eight bits. A cell is found by its index. An index
with a value is found again by that value; an index without one only by being the very same expression.
Writes at or beyond the size are ignored, cells that were never written hold zero. Each write asks for the size, which is
told only below 2 ^ 63.
-/

namespace EvmAudit

open EvmAudit.Expr

/-- A cell whose index is not a number of 256 bits. -/
structure OddCell where
  index : Expr
  content : Item

structure Memory where
  size : Nat := 0
  cells : Std.TreeMap Nat Item := {}
  /-- Cells with other indexes, in the order of their first write. -/
  odd : List OddCell := []

namespace Memory

/-- What a copy of a machine keeps of its memory: memory of size zero is new. -/
def copy (m : Memory) : Memory := if m.size = 0 then {} else m

def extend (m : Memory) (n : Nat) : Memory := { m with size := m.size + n }

/-- Do two settled indexes name the same cell? -/
def sameIndex (a b : Expr) (s t : Term) : Bool :=
  match s, t with
  | .const v w, .const v' w' => v == v' && w == w'
  | _, _ => a.id == b.id

def toIndex (i : Item) : Calc Expr := do (← i.toWidth 256).simplified

def findOdd (index : Expr) (t : Term) : List OddCell → Calc (Option Item)
  | [] => return none
  | c :: rest => do
    if sameIndex index c.index t (← c.index.raw) then return some c.content else findOdd index t rest

def putOdd (index : Expr) (t : Term) (content : Item) : List OddCell → Calc (List OddCell)
  | [] => return [⟨index, content⟩]
  | c :: rest => do
    if sameIndex index c.index t (← c.index.raw) then return ⟨c.index, content⟩ :: rest
    else return c :: (← putOdd index t content rest)

def get (m : Memory) (i : Item) : Calc Item := do
  let index ← toIndex i
  match ← index.raw with
  | .const v 256 => return (m.cells.get? v).getD (.int 0)
  | t => return (← findOdd index t m.odd).getD (.int 0)

def isByte : Item → Bool
  | .expr e => e.isProp || e.width == 8
  | i => match i.int? with
    | some n => 0 ≤ n && n ≤ 255
    | none => true

def set (m : Memory) (i : Item) (content : Item) : Calc Memory := do
  let index ← toIndex i
  if m.size ≥ 2 ^ 63 then throw .tooLarge
  match ← index.raw with
  | .const v w =>
    if v ≥ m.size % 2 ^ w then return m
    unless isByte content do throw .broken
    if w = 256 then return { m with cells := m.cells.insert v content }
    return { m with odd := ← putOdd index (.const v w) content m.odd }
  | t =>
    unless isByte content do throw .broken
    return { m with odd := ← putOdd index t content m.odd }

/-! ## Ranges

A range has a length only if the difference of its ends has a value; otherwise it is empty. -/

def offset (start : Expr) (distance : Nat) : Calc Item := do
  let t ← start.raw
  return .expr (← const ((t.value?.getD 0) + distance) t.width)

def steps (start stop step : Expr) : Calc Nat := do
  let length ← (Term.arith .sub (← stop.raw) (← start.raw)).evaluate .empty
  let step ← (← step.raw).evaluate .empty
  match length, step with
  | some n, some k => return if k = 0 then 0 else n / k
  | _, _ => return 0

def ends (start stop step : Item) : Calc (Expr × Expr × Expr) := do
  let start ← match start with
    | .absent => word 0
    | i => i.toWidth 256
  let stop ← match stop with
    | .absent => throw (.failure .outOfRange "Invalid Memory Slice")
    | i => i.toWidth 256
  let step ← match step with
    | .absent => word 1
    | i => i.toWidth 256
  return (start, stop, step)

def slice (m : Memory) (start stop : Item) (step : Item := .absent) : Calc (List Item) := do
  let (start, stop, step) ← ends start stop step
  let n ← steps start stop step
  let k := (← step.raw).value?.getD 1
  (List.range n).mapM fun i => do m.get (← offset start (i * k))

/-- The written part stays when a later byte of a range cannot be written. -/
structure Written where
  memory : Memory
  fault : Option Fault := none

def writeAll (m : Memory) (start : Expr) : Nat → Nat → List Item → Calc Written
  | 0, _, _ => return ⟨m, none⟩
  | _ + 1, _, [] => return ⟨m, some Fault.outOfRange⟩
  | n + 1, at_, b :: rest => do
    let index ← offset start at_
    match (Memory.set m index b).run (← EStateM.get) with
    | .ok m' l => EStateM.set l; writeAll m' start n (at_ + 1) rest
    | .error f l => EStateM.set l; return ⟨m, some f⟩

def setSlice (m : Memory) (start stop : Item) (content : List Item) : Calc Written := do
  let (start, stop, step) ← ends start stop .absent
  let n ← steps start stop step
  writeAll m start n 0 content

/-! ## Words -/

/-- `index + n`, for a plain or symbolic index. -/
def shifted (i : Item) (n : Int) : Calc Item := do
  match i with
  | .expr e => return .expr (← arithInt .add e n)
  | i => match i.int? with
    | some k => return .int (k + n)
    | none => throw .wrongSort

/-- A number that an item has without any assignment; asking settles it. -/
def concrete? (i : Item) : Calc (Option Nat) := do
  match i with
  | .expr e => if e.isProp then return (← e.truth?).map Term.ofBool else e.value?
  | i => return i.int?.map Int.toNat

def concreteAll? : List Item → Calc (Option (List Nat))
  | [] => return some []
  | i :: rest => do
    match ← concrete? i with
    | none => return none
    | some n => return (← concreteAll? rest).map (n :: ·)

def natOf (bytes : List Nat) : Nat := bytes.foldl (fun acc b => acc * 256 + b) 0

def word (m : Memory) (i : Item) : Calc Expr := do
  let bytes ← m.slice i (← shifted i 32)
  match ← concreteAll? bytes with
  | some ns => Expr.word (natOf ns)
  | none =>
    let parts ← bytes.mapM (Item.toWidth 8)
    let e ← (← concat parts).simplified
    unless e.width == 256 do throw .broken
    return e

def bytes32 (n : Nat) : List Item := (List.range 32).map fun i => .int ((n / 256 ^ (31 - i) % 256 : Nat) : Int)

/-- Writes 32 extracted bytes, the last one first. -/
def writeParts (m : Memory) (i : Item) (value : Expr) : Nat → Nat → Calc Memory
  | 0, _ => return m
  | n + 1, k => do
    let part ← extract (8 * k + 7) (8 * k) value
    let index ← match i with
      | .expr e => do pure (Item.expr (← arithInt .sub (← arithInt .add e 31) k))
      | i => shifted i (31 - k)
    writeParts (← m.set index (.expr part)) i value n (k + 1)

/-- Writes a word at an index. What was written before a fault stays. -/
def writeWord (m : Memory) (i : Item) (value : Item) : Calc Written := do
  let number : Option Int ← match value with
    | .expr e => do
      e.settle
      pure ((← e.raw).value?.map Int.ofNat)
    | v => pure v.int?
  match number with
  | some n =>
    if n < 0 ∨ n ≥ (2 ^ 256 : Nat) then return ⟨m, some Fault.tooLarge⟩
    m.setSlice i (← shifted i 32) (bytes32 n.toNat)
  | none =>
    match value with
    | .expr e =>
      let e ← if e.isProp then bit e else pure e
      if e.width != 256 then return ⟨m, some Fault.broken⟩
      return ⟨← writeParts m i e 32 0, none⟩
    | _ => return ⟨m, some Fault.noSuchPart⟩

end Memory

/-! # The operand stack

Items from the top down, at most 1024 of them. Pushing makes a word of what is pushed: an integer becomes a number
of 256 bits and a Boolean the word one or zero. -/

abbrev Stack := List Item

namespace Stack

def limit : Nat := 1024

def popFault : Fault := .vm .stackUnderflow "Trying to pop from an empty stack"

def accessFault : Fault := .vm .stackUnderflow "Trying to access a stack element which doesn't exist"

def overflowFault : Fault := .vm .stackOverflow "Reached the EVM stack limit of 1024, you can't append more elements"

def toWord (i : Item) : Calc Item := do
  match i with
  | .expr e => if e.isProp then return .expr (← bit e) else return .expr e
  | i => match i.int? with
    | some n => return .expr (← ofInt n 256)
    | none => return i

def push (s : Stack) (i : Item) : Calc Stack := do
  let w ← toWord i
  if s.length ≥ limit then throw overflowFault
  return w :: s

def pushAll (s : Stack) (items : List Item) : Calc Stack := items.foldlM push s

/-- A copy: every item is pushed anew. -/
def copy (s : Stack) : Calc Stack := pushAll [] s.reverse

/-- Position from the top of a position from the bottom; positions below zero count from the top. -/
def position? (s : Stack) (i : Int) : Option Nat :=
  let n := s.length
  if 0 ≤ i then (if i < n then some (n - 1 - i.toNat) else none)
  else if -i ≤ n then some ((-i).toNat - 1) else none

def item (s : Stack) (i : Int) : Calc Item :=
  match (position? s i).bind (fun k => s[k]?) with
  | some x => return x
  | none => throw accessFault

def popAt (s : Stack) (i : Int) : Calc (Item × Stack) :=
  match position? s i with
  | some k => match s[k]? with
    | some x => return (x, s.eraseIdx k)
    | none => throw popFault
  | none => throw popFault

def pop (s : Stack) : Calc (Item × Stack) :=
  match s with
  | x :: rest => return (x, rest)
  | [] => throw popFault

end Stack

namespace Item

/-- An item taken as a word: what is not a bit-vector is made one, a bit-vector is settled. -/
def settledWord (i : Item) : Calc Expr := do
  match i with
  | .expr e => if e.isProp then bit e else e.simplified
  | i => match i.int? with
    | some n => ofInt n 256
    | none => throw .noSuchPart

/-- The integer of an item; symbolic items have none. The flag tells a truth value from a number. -/
def concrete (i : Item) : Calc (Bool × Int) := do
  match i with
  | .expr e =>
    if e.isProp then
      match ← e.truth? with
      | some b => return (true, if b then 1 else 0)
      | none => throw (.failure .wrongSort "Symbolic boolref encountered")
    else
      match ← e.value? with
      | some v => return (false, v)
      | none => throw (.failure .wrongSort "Got a symbolic BitVecRef")
  | .int n => return (false, n)
  | .bool b => return (true, if b then 1 else 0)
  | .absent => throw .broken

def number? (i : Item) : Calc (Option Int) := do
  match i with
  | .expr e =>
    if e.isProp then return (← e.truth?).map (fun b => if b then 1 else 0)
    else return (← e.value?).map Int.ofNat
  | .absent => throw .broken
  | i => return i.int?

def concreteInt (i : Item) : Calc Int := return (← i.concrete).2

end Item

/-! # Machine state

Program counter, operand stack, return addresses of subroutines, memory, and a lower and an upper bound of the gas
used so far. -/

structure Machine where
  gasLimit : Item := .int 8000000
  pc : Int := 0
  stack : Stack := []
  /-- Return addresses of subroutines, the latest first. -/
  returns : Stack := []
  memory : Memory := {}
  depth : Nat := 0
  minGas : Int := 0
  maxGas : Int := 0
  deriving Inhabited

namespace Machine

theorem fdiv_word (n : Int) : Int.fdiv n 32 = n / 32 := Int.fdiv_eq_ediv_of_nonneg n (by decide)

def ceil32 (n : Int) : Int := -(Int.fdiv (-n) 32) * 32

def memoryFee (words : Int) : Int := words * 3 + Int.fdiv (words * words) 512

/-- Bytes by which memory has to grow for a range. -/
def extension (size : Nat) (start length : Int) : Int :=
  if (size : Int) > start + length then 0
  else (Int.fdiv (ceil32 (start + length)) 32 - Int.fdiv size 32) * 32

/-- Cost of growing memory so far that it holds a range. -/
def extensionFee (size : Nat) (start length : Int) : Int :=
  memoryFee (Int.fdiv (ceil32 (start + length)) 32) - memoryFee (Int.fdiv size 32)

/-- Is the amount above the limit? A symbolic limit is never reached. -/
def exceeds (used : Int) (limit : Item) : Calc Bool := do
  match limit with
  | .expr e => if e.isProp then throw .wrongSort else (← compareInt .lt e used).holds
  | l => match l.int? with
    | some n => return used > n
    | none => throw .wrongSort

def checkGas (m : Machine) : Calc Unit := do
  if ← exceeds m.minGas m.gasLimit then throw (.vm .outOfGas "")

def useGas (m : Machine) (least most : Int) : Machine :=
  { m with minGas := m.minGas + least, maxGas := m.maxGas + most }

def extent (i : Item) : Calc (Option Int) := do
  match i with
  | .expr e => if e.isProp then throw .wrongSort else return (← e.value?).map Int.ofNat
  | i => match i.int? with
    | some n => return some n
    | none => throw .wrongSort

/-- Grows memory so that it holds a range, and pays for it. A symbolic range does nothing. The fee stays booked when
it cannot be paid. -/
def grow (m : Machine) (start length : Item) : Calc (Machine × Option Fault) := do
  match ← extent start with
  | none => return (m, none)
  | some a =>
    match ← extent length with
    | none => return (m, none)
    | some n =>
      let more := extension m.memory.size a n
      if more = 0 then return (m, none)
      let fee := extensionFee m.memory.size a n
      let m := m.useGas fee fee
      if ← exceeds m.minGas m.gasLimit then return (m, some (.vm .outOfGas ""))
      return ({ m with memory := m.memory.extend more.toNat }, none)

def extend (m : Machine) (start length : Item) : Calc Machine := do
  match ← m.grow start length with
  | (m, none) => return m
  | (_, some f) => throw f

def write (m : Machine) (start : Item) (bytes : List Item) : Calc (Machine × Option Fault) := do
  match ← m.grow start (.int bytes.length) with
  | (m, some f) => return (m, some f)
  | (m, none) =>
    let r ← m.memory.setSlice start (← Memory.shifted start bytes.length) bytes
    return ({ m with memory := r.memory }, r.fault)

def writeBytes (m : Machine) (start : Item) (bytes : List Item) : Calc Machine := do
  match ← m.write start bytes with
  | (m, none) => return m
  | (_, some f) => throw f

/-- Takes a number of items, the top first. None at all means every item. -/
def take (m : Machine) (amount : Int) : Calc (List Item × Machine) := do
  let n := m.stack.length
  if amount > n then throw (.vm .stackUnderflow "")
  -- how many of the bottom items stay
  let kept : Nat := if amount > 0 then n - amount.toNat else (min (-amount) n).toNat
  return (m.stack.take (n - kept), { m with stack := m.stack.drop (n - kept) })

def pop (m : Machine) : Calc (Item × Machine) := do
  let (x, s) ← m.stack.pop
  return (x, { m with stack := s })

def popWord (m : Machine) : Calc (Expr × Machine) := do
  let (x, m) ← m.pop
  return (← x.settledWord, m)

def push (m : Machine) (i : Item) : Calc Machine := do
  return { m with stack := ← m.stack.push i }

/-- A copy; the items of both stacks are pushed anew. -/
def copy (m : Machine) : Calc Machine := do
  let stack ← m.stack.copy
  let returns ← m.returns.copy
  return { m with stack := stack, returns := returns, memory := m.memory.copy }

end Machine
end EvmAudit
