import Std.Data.TreeMap
import Std.Data.TreeSet
import EvmAudit.Term

/-!
# Expressions

An expression is a term together with an identity and a set of marks (annotations). Two expressions with the
same term are different things: they can be marked apart, and only the one that was simplified shows
its value. The `Ledger` holds what changes about expressions: which of them have been replaced by their
value, and the marks in every mark set. Expressions that were derived from one another may share a
mark set (`cell`), and then a mark put on one shows on the other.
-/

namespace EvmAudit

/-- A term with an identity and the name of its mark set. -/
structure Expr where
  id : Nat
  cell : Nat
  term : Term
  deriving Inhabited

/-- What an expression can be marked with. Marks with a number are told apart by it, tags by their
text. -/
inductive Mark where
  | tag (text : String)
  /-- The operation can leave its range in the given state. -/
  | overflow (id : Nat) (state : Nat) (operation : String) (condition : Expr)
  /-- The value depends on the sender of the outermost transaction. -/
  | origin (id : Nat)
  /-- The value can be predicted; the text says what it comes from. -/
  | predictable (id : Nat) (source : String)
  /-- The value depends on a constant of the program. -/
  | constant (id : Nat)

def Mark.same : Mark → Mark → Bool
  | .tag a, .tag b => a == b
  | .overflow a _ _ _, .overflow b _ _ _ => a == b
  | .origin a, .origin b => a == b
  | .predictable a _, .predictable b _ => a == b
  | .constant a, .constant b => a == b
  | _, _ => false

def Mark.insert (m : Mark) (set : List Mark) : List Mark :=
  if set.any (same m) then set else set ++ [m]

def Mark.union (a b : List Mark) : List Mark := b.foldl (fun acc m => insert m acc) a

structure Ledger where
  next : Nat := 1
  /-- Expressions that have been replaced by their value. -/
  settled : Std.TreeSet Nat := {}
  /-- The marks of every mark set that is not empty. -/
  marks : Std.TreeMap Nat (List Mark) := {}

instance : Inhabited Ledger := ⟨{}⟩

/-- Computations on expressions; what has been recorded stays recorded when they fail. -/
abbrev Calc := EStateM Fault Ledger

instance : MonadLift (Except Fault) Calc where
  monadLift
    | .ok a => return a
    | .error f => throw f

def Ledger.termOf (l : Ledger) (e : Expr) : Term := if l.settled.contains e.id then e.term.simplify else e.term

def Ledger.marksOf (l : Ledger) (e : Expr) : List Mark := (l.marks.get? e.cell).getD []

def freshId : Calc Nat := fun l => .ok l.next { l with next := l.next + 1 }

namespace Expr

def raw (e : Expr) : Calc Term := return (← get).termOf e

def marks (e : Expr) : Calc (List Mark) := return (← get).marksOf e

def make (t : Term) (ms : List Mark) : Calc Expr := fun l =>
  let id := l.next
  let l := { l with next := id + 1 }
  if ms.isEmpty then .ok ⟨id, id, t⟩ l
  else
    let marks := l.marks
    let l := { l with marks := {} }
    .ok ⟨id, id, t⟩ { l with marks := marks.insert id ms }

def ofTerm (t : Term) : Calc Expr := make t []

/-- A new expression that shares the mark set of another one, if there is anything in it. -/
def derive (t : Term) (parent : Expr) : Calc Expr := do
  let ms ← parent.marks
  if ms.isEmpty then make t []
  else
    let id ← freshId
    return ⟨id, parent.cell, t⟩

def const (value : Nat) (width : Nat) : Calc Expr := ofTerm (Term.ofNat value width)

def ofInt (value : Int) (width : Nat) : Calc Expr := ofTerm (Term.ofInt value width)

def word (value : Nat) : Calc Expr := const value 256

def symbol (name : String) (width : Nat) : Calc Expr := ofTerm (.symbol name width)

def truth (b : Bool) : Calc Expr := ofTerm (.truth b)

/-- Puts a mark on an expression, and so on all that share its mark set. -/
def annotate (e : Expr) (m : Mark) : Calc Unit := fun l =>
  let marks := l.marks
  let l := { l with marks := {} }
  .ok () { l with marks := marks.insert e.cell (Mark.insert m ((marks.get? e.cell).getD [])) }

/-- Replaces an expression by its value, if it has one. -/
def replace (e : Expr) : Calc Unit := fun l =>
  match e.term with
  | .const _ _ => .ok () l
  | .truth _ => .ok () l
  | t =>
    if t.value?.isNone then .ok () l
    else
      let settled := l.settled
      let l := { l with settled := {} }
      .ok () { l with settled := settled.insert e.id }

/-- Evaluates an expression, which is replaced by its value then. -/
def settle (e : Expr) : Calc Unit := do
  match e.term.overrun .empty with
  | some f => throw f
  | none => e.replace

def simplified (e : Expr) : Calc Expr := do
  e.settle
  return e

/-- The value of an expression, which is settled by asking. -/
def value? (e : Expr) : Calc (Option Nat) := do
  e.settle
  match ← e.raw with
  | .const v _ => return some v
  | _ => return none

def symbolic (e : Expr) : Calc Bool := return (← e.value?).isNone

/-- The truth value of a Boolean, which is settled by asking. -/
def truth? (e : Expr) : Calc (Option Bool) := do
  e.settle
  return (← e.raw).value?.map (· != 0)

/-- A Boolean read as a decision: without a value it is false. -/
def holds (e : Expr) : Calc Bool := return (← e.truth?).getD false

def isFalse (e : Expr) : Calc Bool := return (← e.truth?) == some false

def isProp (e : Expr) : Bool := e.term.isProp

def width (e : Expr) : Nat := e.term.width

def text (e : Expr) : Calc String := return (← e.raw).text

/-- The same expression under another name: it settles apart, but its marks are shared. -/
def twin (e : Expr) : Calc Expr := do
  let t ← e.raw
  let id ← freshId
  return ⟨id, e.cell, t⟩

def copy (e : Expr) : Calc Expr := do
  make (← e.raw) (← e.marks)

end Expr
end EvmAudit

/-! # Operations on expressions

Each operation makes a new expression from the terms its operands now stand for. The result carries the marks of
all operands. Where the other operand is a plain integer, and in extraction and negation, the result
shares the mark set of its operand. -/

namespace EvmAudit.Expr

def marks2 (a b : Expr) : Calc (List Mark) := return Mark.union (← a.marks) (← b.marks)

def marksAll (es : List Expr) : Calc (List Mark) := es.foldlM (fun acc e => return Mark.union acc (← e.marks)) []

def rawAll (es : List Expr) : Calc (List Term) := es.mapM raw

def arith (op : ArithOp) (a b : Expr) : Calc Expr := do
  if a.isProp || b.isProp then throw .wrongSort
  make (.arith op (← a.raw) (← b.raw)) (← marks2 a b)

/-- An operation with a plain integer on the right, which shares the marks of the left side. -/
def arithInt (op : ArithOp) (a : Expr) (n : Int) : Calc Expr := do
  if a.isProp then throw .wrongSort
  derive (.arith op (← a.raw) (Term.ofInt n a.width)) a

def add := arith .add
def sub := arith .sub
def urem := arith .urem
def shl := arith .shl

def relate (op : CmpOp) (a b : Expr) : Calc Expr := do
  if a.isProp || b.isProp then throw .wrongSort
  make (.cmp op (← a.raw) (← b.raw)) (← marks2 a b)

/-- A relation written between operands: a number on the right comes to the left. -/
def compare (op : CmpOp) (a b : Expr) : Calc Expr := do
  if a.isProp || b.isProp then throw .wrongSort
  make (Term.compare op (← a.raw) (← b.raw)) (← marks2 a b)

def equate (op : CmpOp) (a b : Expr) : Calc Expr := do
  if a.isProp then make (.cmp op (← a.raw) (← b.raw)) (← marks2 a b)
  else if b.isProp then throw .wrongSort
  else make (Term.comparePadded op (← a.raw) (← b.raw)) (← marks2 a b)

def eq := equate .eq
def ne := equate .ne

/-- Equality or inequality with a plain integer, which stays on the right. -/
def equateInt (op : CmpOp) (a : Expr) (n : Int) : Calc Expr := do
  if a.isProp then derive (.cmp op (← a.raw) (.truth (n != 0))) a
  else derive (.cmp op (← a.raw) (Term.ofInt n a.width)) a

def eqInt := equateInt .eq
def neInt := equateInt .ne

/-- A relation with a plain integer, which is made a number of the same width first. -/
def compareInt (op : CmpOp) (a : Expr) (n : Int) : Calc Expr := do
  compare op a (← ofInt n a.width)

def sgt := compare .gt
def ult := relate .ult
def ugt := relate .ugt

def conj (es : List Expr) : Calc Expr := do
  make (.conj ((← rawAll es).map Term.asProp)) (← marksAll es)

def disj (es : List Expr) : Calc Expr := do
  make (.disj ((← rawAll es).map Term.asProp)) (← marksAll es)

def not (e : Expr) : Calc Expr := do
  derive (.not (← e.raw).asProp) e

def xor (a b : Expr) : Calc Expr := do
  make (.xor (← a.raw).asProp (← b.raw).asProp) (← marks2 a b)

def uge (a b : Expr) : Calc Expr := do
  disj [← ugt a b, ← eq a b]

def ule (a b : Expr) : Calc Expr := do
  disj [← ult a b, ← eq a b]

def ite (cond a b : Expr) : Calc Expr := do
  if a.isProp || b.isProp then throw .wrongSort
  let ms ← marksAll [cond, a, b]
  make (.ite (← cond.raw).asProp (← a.raw) (← b.raw)) ms

def bit (cond : Expr) : Calc Expr := do
  ite cond (← word 1) (← word 0)

def concat (es : List Expr) : Calc Expr := do
  make (.concat (← rawAll es)) (← marksAll es)

def extract (hi lo : Nat) (e : Expr) : Calc Expr := do
  derive (.extract hi lo (← e.raw)) e

def sum (es : List Expr) : Calc Expr := do
  match ← rawAll es with
  | [] => const 0 256
  | ts => make (.sum ts) (← marksAll es)

def apply (name : String) (width : Nat) (args : List Expr) : Calc Expr := do
  make (.apply name (← rawAll args) width) (← marksAll args)

def select (a : ArrayTerm) (index : Expr) : Calc Expr := do
  ofTerm (.select a (← index.raw))

def store (a : ArrayTerm) (key value : Expr) : Calc ArrayTerm := do
  return .store a (← (← key.raw).evaluate .empty) (← value.raw)

/-- The predicate that an operation on two words stays in range. -/
def inRange (op : CmpOp) (a b : Expr) : Calc Expr := do
  ofTerm (.cmp op (← a.raw) (← b.raw))

end EvmAudit.Expr

/-! # Operands

What stands on a stack or is handed to an operation: usually an expression, but also a plain integer or a
plain truth value, or nothing. A plain truth value counts as an integer. The operations say which mixtures
they take: arithmetic wants its left side to be a bit-vector, relations can be read from either side, and a
Boolean only knows equality. -/

namespace EvmAudit

inductive Item where
  | expr (e : Expr)
  | int (n : Int)
  | bool (b : Bool)
  | absent
  deriving Inhabited

namespace Item

/-- The integer a plain value counts as. -/
def int? : Item → Option Int
  | .int n => some n
  | .bool b => some (if b then 1 else 0)
  | _ => none

/-- The decision a plain value or an expression stands for; a bit-vector always counts as true. -/
def holds : Item → Calc Bool
  | .expr e => if e.isProp then e.holds else return true
  | .int n => return n != 0
  | .bool b => return b
  | .absent => return false

/-- The expression, or the fault of asking something else for its parts. -/
def expr! : Item → Calc Expr
  | .expr e => return e
  | _ => throw .noSuchPart

/-- A bit-vector of the given width: integers are reduced to it. -/
def toWidth (width : Nat) : Item → Calc Expr
  | .expr e => if e.isProp then throw .wrongSort else return e
  | i => match i.int? with
    | some n => Expr.ofInt n width
    | none => throw .wrongSort

/-- A Boolean: anything else is read as a decision first. -/
def toProp : Item → Calc Expr
  | .expr e => if e.isProp then return e else Expr.truth true
  | i => do Expr.truth (← i.holds)

def text : Item → Calc String
  | .expr e => e.text
  | .int n => return toString n
  | .bool b => return if b then "True" else "False"
  | .absent => return "None"

/-- Addition and subtraction take integers on the right. -/
def plus (op : ArithOp) (a b : Item) : Calc Expr := do
  match a with
  | .expr x =>
    if x.isProp then throw .wrongSort
    match b with
    | .expr y => Expr.arith op x y
    | _ => match b.int? with
      | some n => Expr.arithInt op x n
      | none => throw .noSuchPart
  | _ => throw .wrongSort

/-- Multiplication and division take bit-vectors only. -/
def times (op : ArithOp) (a b : Item) : Calc Expr := do
  match a, b with
  | .expr x, .expr y => Expr.arith op x y
  | .expr x, _ => if x.isProp then throw .wrongSort else throw .noSuchPart
  | _, _ => throw .wrongSort

/-- Bitwise operations make an integer on the right a number first. -/
def bitwise (op : ArithOp) (a b : Item) : Calc Expr := do
  match a with
  | .expr x =>
    if x.isProp then throw .wrongSort
    Expr.arith op x (← b.toWidth x.width)
  | _ => throw .wrongSort

def shift (op : ArithOp) (a b : Item) : Calc Expr := do
  match a with
  | .expr x =>
    if x.isProp then throw .wrongSort
    match b with
    | .expr y => Expr.arith op x y
    | _ => match b.int? with
      | some n => Expr.arithInt op x n
      | none => throw .wrongSort
  | _ => throw .wrongSort

/-- An order relation, read from the side that is a bit-vector. -/
def order (op : CmpOp) (a b : Item) : Calc Expr := do
  match a, b with
  | .expr x, .expr y => Expr.compare op x y
  | .expr x, _ => match b.int? with
    | some n => if x.isProp then throw .wrongSort else Expr.compareInt op x n
    | none => throw .wrongSort
  | _, .expr y => match a.int? with
    | some n => if y.isProp then throw .wrongSort else Expr.compareInt op.flip y n
    | none => throw .wrongSort
  | _, _ => throw .wrongSort

def equatePlain (op : CmpOp) (e : Expr) (plain : Item) : Calc Expr := do
  match plain.int? with
  | some n => Expr.equateInt op e n
  | none => if e.isProp then Expr.equateInt op e 0 else throw .wrongSort

def equate (op : CmpOp) (a b : Item) : Calc Expr := do
  match a, b with
  | .expr x, .expr y => Expr.equate op x y
  | .expr x, _ => equatePlain op x b
  | _, .expr y => equatePlain op y a
  | _, _ => throw .noSuchPart

def applied (op : ArithOp) (a b : Item) : Calc Expr := do
  Expr.arith op (← a.expr!) (← b.expr!)

/-- An unsigned relation; between two Booleans there is none. -/
def unsigned (op : CmpOp) (a b : Item) : Calc Expr := do
  let x ← a.expr!
  let y ← b.expr!
  if x.isProp && y.isProp then throw .noSuchKey
  Expr.relate op x y

def unsignedOrEqual (op : CmpOp) (a b : Item) : Calc Expr := do
  Expr.disj [← unsigned op a b, ← equate .eq a b]

/-- A choice; the width of plain branches follows the other branch. -/
def choose (cond a b : Item) : Calc Expr := do
  let c ← cond.toProp
  let width (i : Item) (default : Nat) : Nat := match i with
    | .expr e => if e.isProp then default else e.width
    | _ => default
  let w := width b (width a 256)
  let x ← a.toWidth w
  let y ← b.toWidth w
  Expr.ite c x y

def inRange (op : CmpOp) (a b : Item) : Calc Expr := do
  Expr.inRange op (← a.toWidth 256) (← b.toWidth 256)

end Item
end EvmAudit
