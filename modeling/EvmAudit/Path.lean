import EvmAudit.Digest
import EvmAudit.Expr
import EvmAudit.Support

/-!
# Path constraints

The conditions under which a path is taken, in the order in which they were met. A condition is settled when it is
appended; joining two lists settles nothing.
-/

namespace EvmAudit

open EvmAudit.Expr

abbrev Constraints := List Expr

namespace Constraints

/-- The conditions of a list; what is not a condition is read as a decision. -/
def ofItems (items : List Item) : Calc Constraints := items.mapM Item.toProp

def append (cs : Constraints) (condition : Expr) : Calc Constraints := do
  return cs ++ [← condition.simplified]

/-- Adds a condition; anything else is read as a decision. -/
def appendItem (cs : Constraints) (i : Item) : Calc Constraints := do
  match i with
  | .expr e => if e.isProp then cs.append e else return cs ++ [← i.toProp]
  | i => return cs ++ [← i.toProp]

/-- A copy whose conditions settle apart from those copied. There is room for their values, since each was evaluated when
it was appended. -/
def copy (cs : Constraints) : Calc Constraints := cs.mapM fun e => do
  let e ← e.twin
  e.replace
  return e

end Constraints

/-! # Models

A model gives numbers to variables. It may consist of several parts, one for each group of conditions that were solved
apart. A term is evaluated in the part that knows it by name, otherwise in the last part. -/

structure Model where
  parts : List (List (String × Int)) := []

namespace Model

def names (m : Model) : List String := m.parts.flatMap (·.map (·.1))

/-- The number of a name in the first part that has it. -/
def get? (m : Model) (name : String) : Option Int := m.parts.findSome? (·.lookup name)

/-- The number at a position of the first part that is long enough. The model without parts has none, in any other a
position beyond all parts is a fault. -/
def at? (parts : List (List (String × Int))) (i : Int) : Option (Option Int) :=
  match parts with
  | [] => some none
  | [p] => (Sequence.at? p i).map fun (_, n) => some n
  | p :: rest => match Sequence.at? p i with
    | some (_, n) => some (some n)
    | none => at? rest i

def headName : Term → String
  | .const _ _ => "val"
  | .symbol name _ => name
  | .prop name => name
  | .apply name _ _ => name
  | .truth _ => "bool"
  | .arith op _ _ => op.text
  | .cmp op _ _ => op.text
  | .ite _ _ _ => "if"
  | .extract _ _ _ => "extract"
  | .concat _ => "concat"
  | .sum _ => "sum"
  | .select _ _ => "select"
  | .conj _ => "and"
  | .disj _ => "or"
  | .not _ => "not"
  | .xor _ _ => "xor"

def partFor (t : Term) : List (List (String × Int)) → Option (List (String × Int))
  | [] => none
  | [p] => some p
  | p :: rest => if p.any (·.1 == headName t) then some p else partFor t rest

/-- The term under a model; without a value it stays, or becomes zero if the model is completed. -/
def eval (m : Model) (t : Term) (complete : Bool) : Except Fault (Option Term) :=
  (partFor t m.parts).mapM fun p => do
    match ← t.evaluate (.ofList p) with
    | some v => return t.constLike v
    | none => return if complete then t.constLike 0 else t

def number (m : Model) (t : Term) : Except Fault (Option Nat) := do
  match ← m.eval t true with
  | some (.const v _) => return some v
  | _ => return none

/-- The model that gives zero to every variable of the conditions. -/
def zeros (conditions : List Term) : Model := ⟨[(Term.collectList [] conditions).map (fun (name, _) => (name, 0))]⟩

/-- Does a condition hold under the completed model? -/
def satisfies (m : Model) (t : Term) : Except Fault Bool := do
  match ← m.eval t true with
  | some (.truth b) => return b
  | some (.const v _) => return v == 1
  | _ => return false

/-- Evaluates conditions under the zeros for their variables, up to one that is false. None of them is refused. -/
def check (conditions : List Term) : Except Fault Model := do
  let m := zeros conditions
  for t in conditions do
    let v ← t.evaluate (.ofList m.parts.flatten)
    if t.isProp && v == some 0 then break
  return m

end Model

/-- Models that are tried again before a new one is looked for. -/
structure Models where
  /-- A hundred models by number. -/
  known : Recency Nat Model := { capacity := 100 }
  next : Nat := 0
  /-- The answer for the condition that is true in itself, once it was asked for. -/
  truth : Option (Option Model) := none

namespace Models

def keep (ms : Models) (m : Model) : Models :=
  match ms.known.put ms.next m with
  | .ok known => { ms with known := known, next := ms.next + 1 }
  | .error _ => ms

/-- The first model of a list that makes a condition true. -/
def first (t : Term) : List (Nat × Model) → Except Fault (Option (Nat × Model))
  | [] => return none
  | (n, m) :: rest => do if ← m.satisfies t then return some (n, m) else first t rest

/-- The latest model that makes a condition true, which is the latest used then. -/
def ask (ms : Models) (condition : Term) : Except Fault (Option Model × Models) := do
  let _ ← condition.evaluate .empty
  let t := condition.simplify
  match t, ms.truth with
  | .truth true, some r => return (r, ms)
  | _, _ =>
    let found ← first t ms.known.entries.reverse
    let known := match found with
      | some (n, _) => (ms.known.get n).2
      | none => ms.known
    let answer := found.map (·.2)
    let truth := match t with
      | .truth true => some answer
      | _ => ms.truth
    return (answer, { ms with known := known, truth := truth })

end Models

/-! # Hashes of symbolic data

The hash of a known input is computed. The hash of an unknown input is an uninterpreted function of it, one function
for each input width, with three conditions: it has an inverse, its values are multiples of 64, and the values of
functions of different widths lie in intervals of their own. Where a known input has the same width, the
unknown input may also be that one. -/

structure Hashes where
  /-- Widths that have a function, with the hashes of unknown inputs. -/
  results : List (Nat × List Expr) := []
  intervals : List (Nat × Int) := []
  next : Int := 10 ^ 40 - 34534
  concrete : List (Expr × Expr) := []
  inputs : List (Nat × List Expr) := []

namespace Hashes

def part : Nat := (2 ^ 256 - 1) / 10 ^ 40

/-- Distance between the intervals of two widths. -/
def gap : Int := 10 ^ 30

def ofNothing : Nat := 89477152217924674838424037953991966239322087453347756267410168184682657981552

def function (length : Nat) (input : Expr) : Calc Expr := apply ("keccak256_" ++ toString length) 256 [input]

def inverse (length : Nat) (hash : Expr) : Calc Expr := apply ("keccak256_" ++ toString length ++ "-1") length [hash]

/-- Forgets everything but the intervals that are taken. -/
def reset (h : Hashes) : Hashes := { next := h.next }

def addWidth (h : Hashes) (length : Nat) : Hashes :=
  if h.results.any (·.1 == length) then h else { h with results := h.results ++ [(length, [])] }

def push (length : Nat) (e : Expr) (table : List (Nat × List Expr)) : List (Nat × List Expr) :=
  Sequence.put length ((table.lookup length).getD [] ++ [e]) table

/-- The hash of a known input, which has to fit into whole bytes. -/
def ofValue (value width : Nat) : Except Fault Nat :=
  let n := width / 8
  if value ≥ 256 ^ n then .error .tooLarge
  else
    let bytes := (List.range n).map (fun i => value / 256 ^ (n - 1 - i) % 256)
    .ok ((Digest.Sha3.hash bytes).foldl (fun acc b => acc * 256 + b) 0)

def concreteHash (data : Expr) : Calc Expr := do
  match ← data.value? with
  | none => throw .noSuchPart
  | some v => match ofValue v data.width with
    | .ok n => word n
    | .error f => throw f

/-- Records the hash of a known input; inputs are told apart by value and width. -/
def putConcrete (data hash : Expr) : List (Expr × Expr) → Calc (List (Expr × Expr))
  | [] => return [(data, hash)]
  | (d, h) :: rest => do
    match ← d.raw, ← data.raw with
    | .const v w, .const v' w' =>
      if v == v' && w == w' then return (d, hash) :: rest
      else return (d, h) :: (← putConcrete data hash rest)
    | _, _ => return (d, h) :: (← putConcrete data hash rest)

/-- Hashes some data. The width gets its function even if the data cannot be hashed. -/
def create (h : Hashes) (data : Expr) : Calc (Hashes × Except Fault Expr) := do
  let length := data.width
  let h := h.addWidth length
  match ← data.value? with
  | some v =>
    match ofValue v length with
    | .error f => return (h, .error f)
    | .ok n =>
      let hash ← word n
      return ({ h with concrete := ← putConcrete data hash h.concrete }, .ok hash)
  | none =>
    let stored ← function length data
    let h := { h with inputs := push length data h.inputs, results := push length stored h.results }
    return (h, .ok (← function length data))

/-- The known inputs of one width that an unknown input may equal. -/
def sameAsKnown (length : Nat) (input : Expr) (acc : Expr) : List (Expr × Expr) → Calc Expr
  | [] => return acc
  | (key, hash) :: rest => do
    if key.width == length then
      let both ← conj [← eq (← function length input) hash, ← eq key input]
      sameAsKnown length input (← disj [acc, both]) rest
    else sameAsKnown length input acc rest

def condition (h : Hashes) (input : Expr) : Calc (Hashes × Expr) := do
  let length := input.width
  let (h, index) := match h.intervals.lookup length with
    | some i => (h, i)
    | none => ({ h with intervals := h.intervals ++ [(length, h.next)], next := h.next - gap }, h.next)
  let lower := index * part
  let upper := lower + part
  let f := function length input
  let inverted ← eq (← inverse length (← f)) input
  let inside ← ule (← ofInt lower 256) (← f)
  let below ← ult (← f) (← ofInt upper 256)
  let aligned ← eqInt (← urem (← f) (← word 64)) 0
  let free ← conj [inverted, inside, below, aligned]
  let known ← sameAsKnown length input (← truth false) h.concrete
  let inverted ← eq (← inverse length (← f)) input
  return (h, ← conj [inverted, ← disj [free, known]])

def conditionAll (h : Hashes) (acc : Expr) : List Expr → Calc (Hashes × Expr)
  | [] => return (h, acc)
  | e :: rest => do
    let (h, c) ← h.condition e
    h.conditionAll (← conj [acc, c]) rest

def concreteAll (acc : Expr) : List (Expr × Expr) → Calc Expr
  | [] => return acc
  | (data, hash) :: rest => do
    let n := data.width
    let computed ← eq (← function n data) hash
    let inverted ← eq (← inverse n (← function n data)) data
    concreteAll (← conj [acc, computed, inverted]) rest

def conditions (h : Hashes) : Calc (Hashes × Expr) := do
  let (h, acc) ← h.conditionAll (← truth true) (h.inputs.flatMap (·.2))
  return (h, ← concreteAll acc h.concrete)

end Hashes
end EvmAudit

/-! # Powers

Powers of numbers are computed. Otherwise a power is an uninterpreted function with two conditions: it is positive,
and for the base 256 its values at exponents below 32 are the known ones. -/

namespace EvmAudit.Power

def function (base exponent : Expr) : Calc Expr := Expr.apply "Power" 256 [base, exponent]

def known : Calc Expr := do
  let base ← Expr.word 256
  let facts ← (List.range 32).mapM (fun i => do
    Expr.eq (← function base (← Expr.word i)) (← Expr.word (256 ^ i)))
  Expr.conj facts

def create (base exponent : Expr) : Calc (Expr × Expr) := do
  let power ← function base exponent
  let n ← exponent.value?
  let b ← match n with
    | none => pure none
    | some _ => base.value?
  match n, b with
  | some n, some b =>
    let value ← Expr.make (.const (powMod b n (2 ^ 256)) 256) (← Expr.marks2 base exponent)
    return (value, ← Expr.eq value power)
  | _, _ =>
    let positive ← Expr.compareInt .gt power 0
    let condition ← Expr.conj [positive, ← known]
    if (← base.value?) == some 256 then
      let reduced ← Expr.urem exponent (← Expr.word 32)
      let periodic ← Expr.eq (← function base reduced) (← function base exponent)
      return (power, ← Expr.conj [condition, periodic])
    return (power, condition)

end EvmAudit.Power

/-! # Independent groups of conditions

Conditions that share a variable belong to the same group; groups can be solved apart from one another. A truth
constant and an extraction have parts that are no terms and cannot be sorted into groups. -/

namespace EvmAudit

/-- Conditions with the variables they are about. -/
structure Bucket where
  names : List String
  conditions : List Term
  deriving Inhabited

namespace Bucket

mutual

def leaves : Term → Except Fault (List String)
  | .const _ _ => .ok []
  | .symbol name _ => .ok [name]
  | .prop name => .ok [name]
  | .truth _ => .error .noSuchPart
  | .extract _ _ _ => .error .noSuchPart
  | .arith _ a b => do return (← leaves a) ++ (← leaves b)
  | .cmp _ a b => do return (← leaves a) ++ (← leaves b)
  | .xor a b => do return (← leaves a) ++ (← leaves b)
  | .ite c a b => do return (← leaves c) ++ (← leaves a) ++ (← leaves b)
  | .not e => leaves e
  | .select a i => do return a.text :: (← leaves i)
  | .concat ps => leavesAll "concat" ps
  | .sum ps => leavesAll "sum" ps
  | .apply name ps _ => leavesAll name ps
  | .conj ps => leavesAll "and" ps
  | .disj ps => leavesAll "or" ps

/-- Leaves of all operands; an operation without operands is a leaf itself. -/
def leavesAll (name : String) : List Term → Except Fault (List String)
  | [] => .ok [name]
  | ts => leavesList ts

def leavesList : List Term → Except Fault (List String)
  | [] => .ok []
  | t :: ts => do return (← leaves t) ++ (← leavesList ts)

end

def meets (a b : List String) : Bool := a.any (b.contains ·)

/-- Adds a condition: all groups that share one of its variables become one group with it. -/
def add (buckets : List Bucket) (condition : Term) : Except Fault (List Bucket) := do
  let vars := (← leaves condition).eraseDups
  let (related, others) := buckets.partition (meets ·.names vars)
  let merged : Bucket := ⟨(related.flatMap (·.names) ++ vars).eraseDups, related.flatMap (·.conditions) ++ [condition]⟩
  return others ++ [merged]

def ofConditions (conditions : List Term) : Except Fault (List Bucket) := conditions.foldlM add []

end Bucket
end EvmAudit
