import EvmAudit.Code.Instr
import EvmAudit.World.Basic

/-!
# Actors

The accounts that transactions may come from. One of them creates contracts, another one attacks them; these two are
always there.
-/

namespace EvmAudit

structure Actors where
  creator : Int := 0xAFFEAFFEAFFEAFFEAFFEAFFEAFFEAFFEAFFEAFFE
  attacker : Int := 0xDEADBEEFDEADBEEFDEADBEEFDEADBEEFDEADBEEF
  others : List (String × Int) := [("SOMEGUY", 0xAAAAAAAAAAAAAAAAAAAAAAAAAAAAAAAAAAAAAAAA)]

namespace Actors

def all (a : Actors) : List (String × Int) := ("CREATOR", a.creator) :: ("ATTACKER", a.attacker) :: a.others

def get? (a : Actors) (name : String) : Option Int := a.all.lookup name

def size (a : Actors) : Nat := a.all.length

def put (a : Actors) (name : String) (address : Int) : Actors :=
  match name with
  | "CREATOR" => { a with creator := address }
  | "ATTACKER" => { a with attacker := address }
  | name => { a with others := Sequence.put name address a.others }

def readAddress (text : String) : Except Fault Int :=
  if Text.take text 2 != "0x" then .error (.failure .malformed "Actor address not in valid format")
  else match Numeral.parse? 16 (Text.drop text 2) with
    | some n => .ok n
    | none => .error .malformed

def remove (a : Actors) (name : String) : Except Fault Actors :=
  if name == "CREATOR" || name == "ATTACKER" then
    .error (.failure .malformed "Can't delete creator or attacker address")
  else if (a.others.lookup name).isNone then .error .noSuchKey
  else .ok { a with others := a.others.filter (·.1 != name) }

end Actors

/-! # Coverage

Which instructions of which code have been reached. -/

structure CodeCoverage where
  code : Bytecode
  reached : Array Bool

/-- Coverage of each code, in the order in which the codes were met. -/
abbrev Coverage := List CodeCoverage

namespace Coverage

def sameCode (a b : Bytecode) : Calc Bool := do
  match a, b with
  | .hex s, .hex t => return s == t
  | .raw s, .raw t => return s == t
  | .cells xs, .cells ys =>
    if xs.length != ys.length then return false
    (xs.zip ys).allM fun (x, y) => return (← KeyPrint.of x) == (← KeyPrint.of y)
  | _, _ => return false

def find? (c : Coverage) (code : Bytecode) : Calc (Option CodeCoverage) := c.findM? (sameCode ·.code code)

def reach (c : Coverage) (code : Bytecode) (count : Nat) (index : Int) : Calc Coverage := do
  match c with
  | [] => return [mark ⟨code, Array.replicate count false⟩]
  | e :: rest =>
    if ← sameCode e.code code then return mark e :: rest
    else return e :: (← reach rest code count index)
where
  mark (e : CodeCoverage) : CodeCoverage :=
    if index < 0 then e else { e with reached := e.reached.setIfInBounds index.toNat true }

/-- Does an instruction count as reached? Only the first two of a code that was met before do. -/
def isReached (c : Coverage) (code : Bytecode) (index : Int) : Calc Bool := do
  match ← find? c code with
  | none => return false
  | some e => return (index == 0 || index == 1) && e.reached.size > 0

end Coverage

/-! # The control-flow graph

A node is a stretch of states without a jump; edges say how one node leads to another. -/

inductive EdgeKind where
  | conditional
  | unconditional
  | call
  | ret
  | transaction
  deriving DecidableEq, Repr, Inhabited

def EdgeKind.name : EdgeKind → String
  | .conditional => "CONDITIONAL"
  | .unconditional => "UNCONDITIONAL"
  | .call => "CALL"
  | .ret => "RETURN"
  | .transaction => "Transaction"

structure FlowNode where
  contract : String
  function : String := "unknown"
  isEntry : Bool := false
  /-- Does a call come back here? -/
  isReturn : Bool := false
  constraints : Constraints := []
  /-- The state whose conditions are those of the node. -/
  owner : Option Nat := none
  /-- The states of the node, the latest first. -/
  visited : List GState := []

structure Edge where
  source : Option Nat
  target : Nat
  kind : EdgeKind
  condition : Option Expr := none

structure Graph where
  nodes : Array FlowNode := #[]
  edges : List Edge := []

def FlowNode.states (n : FlowNode) : List GState := n.visited.reverse

def FlowNode.flags (n : FlowNode) : Nat := (if n.isEntry then 1 else 0) + (if n.isReturn then 2 else 0)

namespace Graph

def add (g : Graph) (n : FlowNode) : Nat × Graph := (g.nodes.size, { g with nodes := g.nodes.push n })

def connect (g : Graph) (e : Edge) : Graph := { g with edges := e :: g.edges }

def visit (g : Graph) (node : Nat) (s : GState) : Graph :=
  { g with nodes := g.nodes.modify node (fun n => { n with visited := s :: n.visited }) }

/-- The conditions of a state have grown, and with them those of the node that has them. -/
def grow (g : Graph) (node : Nat) (owner : Nat) (cs : Constraints) : Graph :=
  { g with nodes := g.nodes.modify node (fun n =>
      if n.owner == some owner then { n with constraints := cs } else n) }

end Graph

/-! # Blocks worth another look

For each block, what has been read from storage on paths through it, and whether such a path calls another contract. In
later rounds of transactions a block is looked at again only if something that it depends on may have changed. -/

structure Pruner where
  round : Int := 0
  calls : List Int := []
  /-- Slots that are read on paths through a block. -/
  reads : List (Int × List Item) := []
  writes : List Int := []

namespace Pruner

def addReadAt (slot : Item) (reads : List (Int × List Item)) (address : Int) : Calc (List (Int × List Item)) := do
  let slots := (reads.lookup address).getD []
  let print ← KeyPrint.of slot
  let known ← slots.anyM fun s => return (← KeyPrint.of s) == print
  return if known then reads else Sequence.put address (slots ++ [slot]) reads

def addRead (p : Pruner) (path : List Int) (slot : Item) : Calc Pruner := do
  return { p with reads := ← path.foldlM (addReadAt slot) p.reads }

def addWrite (p : Pruner) (path : List Int) : Pruner :=
  { p with writes := path.foldl (fun ws a => Sequence.insertNew a ws) p.writes }

def addCall (p : Pruner) (path : List Int) : Pruner :=
  { p with calls := path.foldl (fun cs a => if p.writes.contains a then Sequence.insertNew a cs else cs) p.calls }

end Pruner

/-! # Search orders

The states that wait to be looked at, and the order in which they are taken. Where the order leaves the choice to
chance, the first one is taken. A choice that has been shown stays the next one to be taken. -/

inductive Search where
  | depthFirst
  | breadthFirst
  | anyState
  /-- Any state, the less likely the deeper it is. -/
  | weighted
  /-- The most important states; all but a number of them are dropped. -/
  | beam (width : Int)
  /-- States whose conditions hold in a known model first. -/
  | delayed
  deriving DecidableEq, Repr, Inhabited

structure Work (α : Type) where
  queue : List α := []
  pending : List α := []
  /-- The place of the state that was shown as the next one. -/
  shown : Option Nat := none
  models : Models := {}

namespace Work

variable {α : Type}

def size (w : Work α) : Nat := w.queue.length + w.pending.length

def push (w : Work α) (states : List α) : Work α := { w with queue := w.queue ++ states }

def takeAt (w : Work α) (i : Nat) : Option (α × Work α) :=
  match w.queue[i]? with
  | some a => some (a, { w with queue := w.queue.eraseIdx i })
  | none => none

/-- Sorts by importance, the greatest first, and drops what is beyond the width. -/
def narrow (w : Work α) (importance : α → Int) (width : Int) : Work α :=
  let sorted := w.queue.mergeSort fun a b => importance a ≥ importance b
  { w with queue := sorted.take (Sequence.bound sorted.length width) }

/-- Takes a state that was shown before, or else the first one. -/
def takeShown (w : Work α) : Option (α × Work α) :=
  match w.shown with
  | some i => ({ w with shown := none } : Work α).takeAt i
  | none => w.takeAt 0

/-- Takes the next state. Orders that look at conditions are not among these. -/
def take (s : Search) (importance : α → Int) (w : Work α) : Option (α × Work α) :=
  match s with
  | .depthFirst => w.takeAt (w.queue.length - 1)
  | .breadthFirst | .delayed => w.takeAt 0
  | .anyState | .weighted => w.takeShown
  | .beam width => (w.narrow importance width).takeAt 0

def view (s : Search) (importance : α → Int) (w : Work α) : Option α × Work α :=
  match s with
  | .depthFirst => (w.queue.getLast?, w)
  | .breadthFirst | .delayed => (w.queue.head?, w)
  | .anyState | .weighted =>
    match w.queue with
    | [] => (none, w)
    | a :: _ => (some a, { w with shown := some 0 })
  | .beam width =>
    let w := w.narrow importance width
    (w.queue.head?, w)

end Work
end EvmAudit

/-! # Counting loops

A trace of instruction addresses is searched for the latest earlier place where its last two entries stand side by
side. The addresses from there on, packed into one number at eight bits each, are the key of the cycle. -/

namespace EvmAudit.Loops

/-- Packs the entries from `i` up to `j`, eight bits apart. -/
def key (trace : List Int) (i j : Int) : Except Fault Int :=
  (List.range (j - i).toNat).foldlM (fun acc (k : Nat) =>
    match Sequence.at? trace (i + k) with
    | some x =>
      if x < 0 then .error .malformed
      else .ok ((acc.toNat ||| (x.toNat <<< (8 * k)) : Nat) : Int)
    | none => .error .outOfRange) (0 : Int)

/-- Counts the copies of a cycle that end one after the other before `start + size`. -/
def copies (trace : List Int) (k : Int) (size : Int) : Nat → Int → Nat → Except Fault Nat
  | 0, _, count => .ok count
  | fuel + 1, i, count => do
    if i < 0 then return count
    if (← key trace i (i + size)) ≠ k then return count
    copies trace k size fuel (i - size) (count + 1)

/-- One more than the number of copies of a cycle, going back from a start. -/
def countKey (trace : List Int) (k start size : Int) : Except Fault Nat := copies trace k size (start.toNat + 1) start 1

/-- The latest position, from `i` down to 1, at which the last two entries stand side by side. -/
def earlier (visits : Array Int) : Nat → Option Nat
  | 0 => none
  | i + 1 =>
    let n := visits.size
    if visits[i + 1]? == visits[n - 2]? && visits[i + 2]? == visits[n - 1]? then some (i + 1)
    else earlier visits i

/-- How often the loop at the end of a trace has been run through. -/
def count (trace : List Int) : Except Fault Nat :=
  match earlier trace.toArray (trace.length - 3) with
  | none => .ok 0
  | some i => do
    let n := trace.length
    let k ← key trace (i + 1) (n - 1)
    countKey trace k (i + 1) (n - i - 2)

end EvmAudit.Loops
