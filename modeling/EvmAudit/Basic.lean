
/-!
# Faults

Why a computation stopped. Faults of the virtual machine end the running frame; all others end the
analysis step that met them. A fault carries a text only where the analyser itself says something.
-/

namespace EvmAudit

inductive VmFault where
  | general
  | stackUnderflow
  | stackOverflow
  | invalidJump
  | invalidInstruction
  | outOfGas
  | writeProtection
  deriving DecidableEq, Repr

/-- What went wrong outside of the virtual machine. -/
inductive Cause where
  /-- An operand of a sort that the operation does not take. -/
  | wrongSort
  | noSuchPart
  /-- A value of the right sort that cannot be used. -/
  | malformed
  | noSuchKey
  | outOfRange
  | tooLarge
  | divisionByZero
  | broken
  | unsupported
  | unsatisfiable
  | exhausted
  | unknownName
  | badSyntax
  | unassigned
  | noSuchFile
  | notJson
  /-- The analysis cannot go on and says why. -/
  | critical
  | compiler
  | noContract
  | unknownDetector
  | unsupportedPlugin
  | badOpcode
  | illegalArgument
  | precompile
  | connection
  | badStatus
  | badJson
  | badResponse
  | noRoom
  | ini (kind : String)
  deriving DecidableEq, Repr

inductive Fault where
  | vm (kind : VmFault) (message : String)
  | failure (cause : Cause) (message : String)
  /-- A fault at the other end of a line; what it says is not said by the analyser. -/
  | relayed (cause : Cause) (text : String)
  | skipState
  /-- A plugin drops the world that a transaction leaves behind. -/
  | skipWorld
  | exit (code : Option Int)
  deriving DecidableEq, Repr

namespace Fault

def wrongSort : Fault := .failure .wrongSort ""
def noSuchPart : Fault := .failure .noSuchPart ""
def malformed : Fault := .failure .malformed ""
def noSuchKey : Fault := .failure .noSuchKey ""
def outOfRange : Fault := .failure .outOfRange ""
def tooLarge : Fault := .failure .tooLarge ""
def noRoom : Fault := .failure .noRoom ""
def broken : Fault := .failure .broken ""
def unsatisfiable : Fault := .failure .unsatisfiable ""

def message : Fault → String
  | .vm _ m => m
  | .failure _ m => m
  | _ => ""

/-- What is known about the fault, wherever it comes from. -/
def detail : Fault → String
  | .relayed _ t => t
  | f => f.message

def cause? : Fault → Option Cause
  | .failure c _ => some c
  | .relayed c _ => some c
  | _ => none

def isVm : Fault → Bool
  | .vm _ _ => true
  | _ => false

end Fault

/-- What has to be there, or a fault. -/
def need {α : Type} (f : Fault) (a : Option α) : Except Fault α := a.elim (.error f) .ok

end EvmAudit

/-! # Positions in sequences

Positions count from the front; below zero they count from the end. A range is cut to what is there. -/

namespace EvmAudit.Sequence

def at? {α : Type} (xs : List α) (i : Int) : Option α :=
  if 0 ≤ i then xs[i.toNat]? else if -i ≤ xs.length then xs[xs.length - (-i).toNat]? else none

/-- A bound of a range as a position from the front. -/
def bound (length : Nat) (i : Int) : Nat :=
  if 0 ≤ i then min i.toNat length else length - min (-i).toNat length

def slice {α : Type} (xs : List α) (a b : Int) : List α :=
  let lo := bound xs.length a
  let hi := bound xs.length b
  (xs.take hi).drop lo

def set? {α : Type} (xs : List α) (i : Int) (x : α) : Option (List α) :=
  if 0 ≤ i then (if i < xs.length then some (xs.set i.toNat x) else none)
  else if -i ≤ xs.length then some (xs.set (xs.length - (-i).toNat) x) else none

def put {α β : Type} [BEq α] (key : α) (value : β) : List (α × β) → List (α × β)
  | [] => [(key, value)]
  | (k, v) :: rest => if k == key then (k, value) :: rest else (k, v) :: put key value rest

def insertNew {α : Type} [BEq α] (x : α) (xs : List α) : List α :=
  if xs.contains x then xs else xs ++ [x]

end EvmAudit.Sequence

/-! # Powers

A power of a number is that of the core library, whichever other powers are in scope: what is computed here and what is
proved about it speak of the same one. -/

attribute [default_instance 10001, instance (10001)] instPowNat

/-- A power in modular arithmetic, by repeated squaring. -/
def EvmAudit.powMod (a n m : Nat) : Nat := go n.log2.succ (a % m) n (1 % m)
where
  go : Nat → Nat → Nat → Nat → Nat
    | 0, _, _, acc => acc
    | fuel + 1, base, n, acc =>
      if n = 0 then acc
      else go fuel (base * base % m) (n / 2) (if n % 2 = 1 then acc * base % m else acc)
