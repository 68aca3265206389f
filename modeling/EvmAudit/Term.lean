import EvmAudit.Basic

/-!
# Terms

Bit-vector and Boolean terms over named variables, arrays and uninterpreted functions. One type holds
both sorts, because a Boolean may stand where a bit-vector of width one is read (in a concatenation,
in an extraction, as an argument).
-/

namespace EvmAudit

/-- Binary operations on bit-vectors. Division and remainder come in two spellings each. -/
inductive ArithOp where
  | add | sub | mul | and | or | xor | shl | ashr | lshr | udiv | sdiv | urem | srem
  deriving DecidableEq, Repr

/-- Relations between two terms; the last two say that an operation does not leave its range. -/
inductive CmpOp where
  | eq | ne | lt | le | gt | ge | ult | ugt | noOverflow | noUnderflow
  deriving DecidableEq, Repr

mutual

inductive Term where
  | const (value width : Nat)
  | symbol (name : String) (width : Nat)
  | arith (op : ArithOp) (a b : Term)
  | ite (cond a b : Term)
  | extract (hi lo : Nat) (e : Term)
  | concat (parts : List Term)
  | sum (parts : List Term)
  | apply (name : String) (args : List Term) (width : Nat)
  | select (array : ArrayTerm) (index : Term)
  | truth (b : Bool)
  | prop (name : String)
  | cmp (op : CmpOp) (a b : Term)
  | conj (parts : List Term)
  | disj (parts : List Term)
  | not (e : Term)
  | xor (a b : Term)

/-- An array: a variable, a constant function, an update of another array, or a choice. -/
inductive ArrayTerm where
  | named (name : String) (domain range : Nat)
  | filled (domain range value : Nat)
  /-- A write; a key without a value is a slot of its own. -/
  | store (base : ArrayTerm) (key : Option Nat) (value : Term)
  | choice (cond : Term) (a b : ArrayTerm)

end

instance : Inhabited Term := ⟨.const 0 256⟩
instance : Inhabited ArrayTerm := ⟨.filled 256 256 0⟩

namespace ArrayTerm

def domain : ArrayTerm → Nat
  | .named _ d _ => d
  | .filled d _ _ => d
  | .store base _ _ => base.domain
  | .choice _ a _ => a.domain

def range : ArrayTerm → Nat
  | .named _ _ r => r
  | .filled _ r _ => r
  | .store base _ _ => base.range
  | .choice _ a _ => a.range

/-- The name an array goes by; updates keep it. -/
def name : ArrayTerm → String
  | .named n _ _ => n
  | .filled _ _ _ => "K"
  | .store base _ _ => base.name
  | .choice _ _ _ => "if"

end ArrayTerm

def CmpOp.flip : CmpOp → CmpOp
  | .lt => .gt
  | .gt => .lt
  | .le => .ge
  | .ge => .le
  | op => op

namespace Term

def isProp : Term → Bool
  | .truth _ | .prop _ | .cmp _ _ _ | .conj _ | .disj _ | .not _ | .xor _ _ => true
  | _ => false

def isConst : Term → Bool
  | .const _ _ => true
  | _ => false

mutual

/-- Number of bits; a Boolean counts as one. -/
def width : Term → Nat
  | .const _ w => w
  | .symbol _ w => w
  | .arith _ a _ => a.width
  | .ite _ a _ => a.width
  | .extract hi lo _ => hi + 1 - lo
  | .concat parts => widthSum parts
  | .sum parts => headWidth parts
  | .apply _ _ w => w
  | .select a _ => a.range
  | .truth _ | .prop _ | .cmp _ _ _ | .conj _ | .disj _ | .not _ | .xor _ _ => 1

def widthSum : List Term → Nat
  | [] => 0
  | t :: ts => t.width + widthSum ts

def headWidth : List Term → Nat
  | [] => 256
  | t :: _ => t.width

end

def ofNat (value width : Nat) : Term := .const (value % 2 ^ width) width

def ofInt (value : Int) (width : Nat) : Term := .const (value % (2 ^ width : Nat)).toNat width

/-- A bit-vector read as a condition: it differs from zero. -/
def asProp (t : Term) : Term :=
  if t.isProp then t else .cmp .ne t (.const 0 t.width)

/-- A choice between two terms; between Booleans it is written with connectives. -/
def choose (cond a b : Term) : Term :=
  if a.isProp || b.isProp then
    .disj [.conj [cond, a.asProp], .conj [.not cond, b.asProp]]
  else .ite cond a b

/-- Relation in written order, except that a number on the right comes to the left. -/
def compare (op : CmpOp) (a b : Term) : Term :=
  if b.isConst && !a.isConst then .cmp op.flip b a else .cmp op a b

/-- Equality or inequality of terms whose widths may differ: the narrower one is extended by zeros and
comes second. -/
def comparePadded (op : CmpOp) (a b : Term) : Term :=
  if a.width = b.width then compare op a b
  else if a.width < b.width then
    compare op b (.concat [.const 0 (b.width - a.width), a])
  else compare op a (.concat [.const 0 (a.width - b.width), b])

end Term

/-! # Values of terms

`eval σ t` is the value of `t` when `σ` gives numbers to variable names, if it has one. Booleans have
the values 0 and 1. A read of an array never has a value of its own, whatever is known about the array;
`ArrayTerm.lookup` is the array's own lookup. An applied function counts as 0 once its arguments have
values. `simplify` replaces a term that has a value without any assignment, and leaves all others alone. -/

abbrev Assignment := String → Option Int

def Assignment.empty : Assignment := fun _ => none

def Assignment.ofList (pairs : List (String × Int)) : Assignment := fun name => pairs.lookup name

def Term.ofBool (b : Bool) : Nat := if b then 1 else 0

/-- Shifts to the right do not depend on amounts beyond the number of bits. -/
def Term.shiftRight (a n : Nat) : Nat :=
  if n > Nat.log2 a then 0 else a >>> n

def ArithOp.eval (op : ArithOp) (w a b : Nat) : Nat :=
  let m := 2 ^ w
  match op with
  | .add => (a + b) % m
  | .sub => (a + (m - b % m)) % m
  | .mul => a * b % m
  | .and => Nat.land a b % m
  | .or => Nat.lor a b % m
  | .xor => Nat.xor a b % m
  | .shl => if b % m ≥ w then 0 else (a <<< (b % m)) % m
  | .lshr => Term.shiftRight a (b % m) % m
  | .ashr =>
    if w ≠ 0 ∧ Nat.testBit a (w - 1) then
      -- the quotient of a negative number is rounded down
      let c := (m - a % m) - 1
      (m - 1 - Term.shiftRight c (b % m)) % m
    else Term.shiftRight a (b % m) % m
  | .udiv | .sdiv => if b = 0 then 0 else a / b % m
  | .urem | .srem => if b = 0 then 0 else a % b % m

def CmpOp.eval (op : CmpOp) (a b : Nat) : Bool :=
  match op with
  | .eq => a == b
  | .ne => a != b
  | .lt | .ult => decide (a < b)
  | .gt | .ugt => decide (a > b)
  | .le => decide (a ≤ b)
  | .ge => decide (a ≥ b)
  | .noOverflow | .noUnderflow => true

namespace Term

/-- Big-endian composition of values with their widths. -/
def compose : List (Nat × Nat) → Nat → Nat
  | [], acc => acc
  | (w, v) :: rest, acc => compose rest (acc * 2 ^ w + v % 2 ^ w)

mutual

def eval (σ : Assignment) : Term → Option Nat
  | .const v _ => some v
  | .symbol name w => (σ name).map fun (n : Int) => (n % ((2 ^ w : Nat) : Int)).toNat
  | .arith op a b =>
    match eval σ a, eval σ b with
    | some x, some y => some (op.eval a.width x y)
    | _, _ => none
  | .ite c a b =>
    match eval σ c with
    | none => none
    | some x => if x ≠ 0 then eval σ a else eval σ b
  | .extract hi lo e => (eval σ e).map (shiftRight · lo % 2 ^ (hi + 1 - lo))
  | .concat parts => (evalParts σ parts).map (compose · 0)
  | .sum parts => (evalList σ parts).map fun vs => vs.foldl (fun s v => (s + v) % 2 ^ headWidth parts) 0
  | .apply _ args _ => (evalList σ args).map fun _ => 0
  | .select _ _ => none
  | .truth b => some (ofBool b)
  | .prop name => (σ name).map fun n => ofBool (n != 0)
  | .cmp op a b =>
    match eval σ a, eval σ b with
    | some x, some y => some (ofBool (op.eval x y))
    | _, _ => none
  | .conj parts => (evalList σ parts).map fun vs => ofBool (vs.all (· != 0))
  | .disj parts => (evalList σ parts).map fun vs => ofBool (vs.any (· != 0))
  | .not e => (eval σ e).map fun x => ofBool (x == 0)
  | .xor a b =>
    match eval σ a, eval σ b with
    | some x, some y => some (ofBool ((x != 0) != (y != 0)))
    | _, _ => none

def evalList (σ : Assignment) : List Term → Option (List Nat)
  | [] => some []
  | t :: ts =>
    match eval σ t with
    | none => none
    | some v => (evalList σ ts).map (v :: ·)

def evalParts (σ : Assignment) : List Term → Option (List (Nat × Nat))
  | [] => some []
  | t :: ts =>
    match eval σ t with
    | none => none
    | some v => (evalParts σ ts).map ((t.width, v) :: ·)

end

def value? (t : Term) : Option Nat := eval Assignment.empty t

/-! ## Numbers without room

A shift to the left forms the whole number, in digits of thirty bits and four bytes, before it cuts it to the width at
hand. A number of too many digits cannot be formed, nor one that fills the address space. Evaluation works out every
operand, also in the branch of a choice that is not taken, and stops at the first number without room. -/

/-- What prevents a number from being shifted to the left by an amount. -/
def shiftFault (a n : Nat) : Option Fault :=
  let digits := a.log2 / 30 + 1 + (n + 29) / 30
  if a = 0 then none
  else if digits > (2 ^ 63 - 25) / 4 then some .tooLarge
  else if digits ≥ 2 ^ 45 then some .noRoom
  else none

mutual

/-- The fault at which evaluation stops, if it does. -/
def overrun (σ : Assignment) : Term → Option Fault
  | .const _ _ | .symbol _ _ | .truth _ | .prop _ => none
  | .arith op a b =>
    (overrun σ a).or ((overrun σ b).or (match op, eval σ a, eval σ b with
      | .shl, some x, some y => shiftFault x (y % 2 ^ a.width)
      | _, _, _ => none))
  | .ite c a b => (overrun σ c).or ((overrun σ a).or (overrun σ b))
  | .cmp _ a b | .xor a b => (overrun σ a).or (overrun σ b)
  | .extract _ _ e | .select _ e | .not e => overrun σ e
  | .concat ts | .sum ts | .apply _ ts _ | .conj ts | .disj ts => overrunAny σ ts

def overrunAny (σ : Assignment) : List Term → Option Fault
  | [] => none
  | t :: ts => (overrun σ t).or (overrunAny σ ts)

end

/-- The value under an assignment, if there is one, or the fault at which evaluation stops. -/
def evaluate (σ : Assignment) (t : Term) : Except Fault (Option Nat) :=
  match t.overrun σ with
  | some f => .error f
  | none => .ok (t.eval σ)

/-- The constant with the given value, of the sort of the term. -/
def constLike (t : Term) (v : Nat) : Term :=
  if t.isProp then .truth (v != 0) else .const (v % 2 ^ t.width) t.width

/-- A term with a value becomes that constant; any other stays as it is. -/
def simplify (t : Term) : Term :=
  match value? t with
  | some v => constLike t v
  | none => t

end Term

/-- The content at a key: the last write to it, else the array's default. -/
def ArrayTerm.lookup (σ : Assignment) (key : Option Nat) : ArrayTerm → Option Nat
  | .named _ _ _ => some 0
  | .filled _ _ v => some v
  | .store base k v => if k = key then Term.eval σ v else
      match base with
      | .choice _ _ _ => some 0
      | base => lookup σ key base
  | .choice c a b =>
    match Term.eval σ c with
    | some 0 => lookup σ key b
    | _ => lookup σ key a

/-! # Text of terms

A variable is its name and a number is decimal. Any other term is its operation with the operands in
brackets; without operands it is the operation alone. An applied function shows only its name, an array
only its name in `Array(…)`. -/

def ArithOp.text : ArithOp → String
  | .add => "add" | .sub => "sub" | .mul => "mul" | .and => "and" | .or => "or" | .xor => "xor"
  | .shl => "shl" | .ashr => "ashr" | .lshr => "lshr" | .udiv => "udiv" | .sdiv => "sdiv"
  | .urem => "urem" | .srem => "srem"

def CmpOp.text : CmpOp → String
  | .eq => "eq" | .ne => "ne" | .lt => "lt" | .le => "le" | .gt => "gt" | .ge => "ge"
  | .ult => "ult" | .ugt => "ugt" | .noOverflow => "noovf" | .noUnderflow => "nounder"

def ArrayTerm.text (a : ArrayTerm) : String := "Array(" ++ a.name ++ ")"

namespace Term

/-- Writes an operation around texts that are already there. -/
def node (out : String) (op : String) : String := out ++ op ++ "("

mutual

def write (out : String) : Term → String
  | .const v _ => out ++ toString v
  | .symbol name _ => out ++ name
  | .arith op a b => write (write (node out op.text) a ++ ", ") b ++ ")"
  | .ite c a b => write (write (write (node out "if") c ++ ", ") a ++ ", ") b ++ ")"
  | .extract hi lo e => write (node out "extract" ++ toString hi ++ ", " ++ toString lo ++ ", ") e ++ ")"
  | .concat parts => writeNode out "concat" parts
  | .sum parts => writeNode out "sum" parts
  | .apply name _ _ => out ++ name
  | .select a i => write (node out "select" ++ a.text ++ ", ") i ++ ")"
  | .truth b => out ++ (if b then "True" else "False")
  | .prop name => out ++ name
  | .cmp op a b => write (write (node out op.text) a ++ ", ") b ++ ")"
  | .conj parts => writeNode out "and" parts
  | .disj parts => writeNode out "or" parts
  | .not e => write (node out "not") e ++ ")"
  | .xor a b => write (write (node out "xor") a ++ ", ") b ++ ")"

def writeNode (out op : String) : List Term → String
  | [] => out ++ op
  | t :: ts => writeRest (write (node out op) t) ts

def writeRest (out : String) : List Term → String
  | [] => out ++ ")"
  | t :: ts => writeRest (write (out ++ ", ") t) ts

end

def text (t : Term) : String := write "" t

end Term
end EvmAudit

/-! # Variables of a term

Names in the order in which they are first met, with their widths. -/

namespace EvmAudit.Term

def addName (acc : List (String × Nat)) (name : String) (width : Nat) : List (String × Nat) :=
  if name.isEmpty || acc.any (·.1 == name) then acc else acc ++ [(name, width)]

mutual

/-- Collects the variables; what an array was updated with does not count. -/
def collect (acc : List (String × Nat)) : Term → List (String × Nat)
  | .const _ _ => acc
  | .symbol name w => addName acc name w
  | .arith _ a b => collect (collect acc a) b
  | .ite c a b => collect (collect (collect acc c) a) b
  | .extract _ _ e => collect acc e
  | .concat parts => collectList acc parts
  | .sum parts => collectList acc parts
  | .apply _ args _ => collectList acc args
  | .select _ i => collect acc i
  | .truth _ => acc
  | .prop name => addName acc name 1
  | .cmp _ a b => collect (collect acc a) b
  | .conj parts => collectList acc parts
  | .disj parts => collectList acc parts
  | .not e => collect acc e
  | .xor a b => collect (collect acc a) b

def collectList (acc : List (String × Nat)) : List Term → List (String × Nat)
  | [] => acc
  | t :: ts => collectList (collect acc t) ts

end

end EvmAudit.Term
