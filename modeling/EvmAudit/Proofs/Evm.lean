import Mathlib.Tactic.Lemma

/-!
# A reference machine

The part of the virtual machine that needs nothing of the world: arithmetic, memory and jumps on words of 256 bits, with
the gas that each instruction uses. A configuration has a successor unless the machine halts or meets an exception, and
the instructions outside of this part have none.
-/

namespace EvmAudit.Evm

abbrev Word := BitVec 256

structure Context where
  address : Word
  caller : Word
  callValue : Word

structure Config where
  /-- Address of the byte that is due. -/
  pc : Nat := 0
  stack : List Word := []
  memory : Nat → BitVec 8 := fun _ => 0
  /-- Bytes of memory in use. -/
  size : Nat := 0
  gas : Nat := 0

/-! ## Words -/

def ofBool (b : Bool) : Word := if b then 1 else 0

def remainder (x y : Word) : Word := if y = 0 then 0 else x % y

/-- Extends the sign of the byte at an index, counted from the right. -/
def signExtend (k x : Word) : Word :=
  if k.toNat < 31 then (x.setWidth (8 * k.toNat + 8)).signExtend 256 else x

/-- The byte at an index, counted from the left. -/
def byteAt (i x : Word) : Word :=
  if i.toNat < 32 then (x.extractLsb' (8 * (31 - i.toNat)) 8).setWidth 256 else 0

/-- Instructions that replace two words by one, with their cost. -/
def binary? : Nat → Option ((Word → Word → Word) × Nat)
  | 0x01 => some (fun x y => x + y, 3)
  | 0x02 => some (fun x y => x * y, 5)
  | 0x03 => some (fun x y => x - y, 3)
  | 0x04 => some (fun x y => x / y, 5)
  | 0x06 => some (remainder, 5)
  | 0x0b => some (signExtend, 5)
  | 0x10 => some (fun x y => ofBool (decide (x < y)), 3)
  | 0x11 => some (fun x y => ofBool (decide (y < x)), 3)
  | 0x14 => some (fun x y => ofBool (x == y), 3)
  | 0x16 => some (fun x y => x &&& y, 3)
  | 0x17 => some (fun x y => x ||| y, 3)
  | 0x18 => some (fun x y => x ^^^ y, 3)
  | 0x1a => some (byteAt, 3)
  | 0x1b => some (fun n x => x <<< n.toNat, 3)
  | 0x1c => some (fun n x => x >>> n.toNat, 3)
  | 0x1d => some (fun n x => x.sshiftRight n.toNat, 3)
  | _ => none

/-- Instructions that replace one word by another, with their cost. -/
def unary? : Nat → Option ((Word → Word) × Nat)
  | 0x15 => some (fun x => ofBool (x == 0), 3)
  | 0x19 => some (fun x => ~~~x, 3)
  | _ => none

/-- Instructions that push what the frame knows, with their cost. -/
def nullary? (ctx : Context) (c : Config) : Nat → Option (Word × Nat)
  | 0x30 => some (ctx.address, 2)
  | 0x33 => some (ctx.caller, 2)
  | 0x34 => some (ctx.callValue, 2)
  | 0x58 => some (BitVec.ofNat 256 c.pc, 2)
  | 0x59 => some (BitVec.ofNat 256 c.size, 2)
  | _ => none

/-! ## Code -/

def immediateLength (b : Nat) : Nat := if 0x60 ≤ b ∧ b ≤ 0x7f then b - 0x5f else 0

/-- The number that `n` bytes of code spell from an address on; beyond the end there are zeros. -/
def immediate (code : List Nat) (a n : Nat) : Word :=
  BitVec.ofNat 256 ((List.range n).foldl (fun acc i => acc * 256 + code.getD (a + i) 0) 0)

inductive Boundary (code : List Nat) : Nat → Prop
  | zero : Boundary code 0
  | next {a b : Nat} : Boundary code a → code[a]? = some b → Boundary code (a + 1 + immediateLength b)

def JumpTarget (code : List Nat) (a : Nat) : Prop := Boundary code a ∧ code[a]? = some 0x5b

/-! ## Memory -/

def readWord (memory : Nat → BitVec 8) (a : Nat) : Word :=
  BitVec.ofNat 256 ((List.range 32).foldl (fun acc i => acc * 256 + (memory (a + i)).toNat) 0)

def writeByte (memory : Nat → BitVec 8) (a : Nat) (x : BitVec 8) : Nat → BitVec 8 :=
  fun i => if i = a then x else memory i

/-- Writes the 32 bytes of a word, the most significant first. -/
def writeWord (memory : Nat → BitVec 8) (a : Nat) (x : Word) : Nat → BitVec 8 :=
  fun i => if a ≤ i ∧ i < a + 32 then x.extractLsb' (8 * (31 - (i - a))) 8 else memory i

def memoryFee (words : Nat) : Nat := 3 * words + words * words / 512

def grownSize (size a n : Nat) : Nat := max size (32 * ((a + n + 31) / 32))

def growthFee (size a n : Nat) : Nat := memoryFee (grownSize size a n / 32) - memoryFee (size / 32)

/-- Touches a range of memory and pays for what is new. -/
def Config.touch (c : Config) (a n : Nat) : Config :=
  { c with size := grownSize c.size a n, gas := c.gas + growthFee c.size a n }

/-- Pays, and goes on behind an instruction with `n` bytes of immediate with a new stack. -/
def Config.next (c : Config) (cost : Nat) (stack : List Word) (n : Nat := 0) : Config :=
  { c with pc := c.pc + 1 + n, stack := stack, gas := c.gas + cost }

inductive Step (code : List Nat) (ctx : Context) (c : Config) : Config → Prop
  | binary {b cost : Nat} {f : Word → Word → Word} {x y : Word} {rest : List Word} :
    code[c.pc]? = some b → binary? b = some (f, cost) → c.stack = x :: y :: rest →
    Step code ctx c (c.next cost (f x y :: rest))
  | unary {b cost : Nat} {f : Word → Word} {x : Word} {rest : List Word} :
    code[c.pc]? = some b → unary? b = some (f, cost) → c.stack = x :: rest →
    Step code ctx c (c.next cost (f x :: rest))
  | nullary {b cost : Nat} {x : Word} :
    code[c.pc]? = some b → nullary? ctx c b = some (x, cost) → c.stack.length < 1024 →
    Step code ctx c (c.next cost (x :: c.stack))
  | push {b : Nat} :
    code[c.pc]? = some b → 0x60 ≤ b → b ≤ 0x7f → c.stack.length < 1024 →
    Step code ctx c (c.next 3 (immediate code (c.pc + 1) (b - 0x5f) :: c.stack) (b - 0x5f))
  | dup {b : Nat} {x : Word} :
    code[c.pc]? = some b → 0x80 ≤ b → b ≤ 0x8f → c.stack[b - 0x80]? = some x → c.stack.length < 1024 →
    Step code ctx c (c.next 3 (x :: c.stack))
  | swap {b : Nat} {x y : Word} :
    code[c.pc]? = some b → 0x90 ≤ b → b ≤ 0x9f → c.stack[0]? = some x → c.stack[b - 0x8f]? = some y →
    Step code ctx c (c.next 3 ((c.stack.set (b - 0x8f) x).set 0 y))
  | pop {x : Word} {rest : List Word} : code[c.pc]? = some 0x50 → c.stack = x :: rest → Step code ctx c (c.next 2 rest)
  | mload {a : Word} {rest : List Word} :
    code[c.pc]? = some 0x51 → c.stack = a :: rest →
    Step code ctx c ((c.touch a.toNat 32).next 3 (readWord c.memory a.toNat :: rest))
  | mstore {a x : Word} {rest : List Word} :
    code[c.pc]? = some 0x52 → c.stack = a :: x :: rest →
    Step code ctx c { (c.touch a.toNat 32).next 3 rest with memory := writeWord c.memory a.toNat x }
  | mstore8 {a x : Word} {rest : List Word} :
    code[c.pc]? = some 0x53 → c.stack = a :: x :: rest →
    Step code ctx c { (c.touch a.toNat 1).next 3 rest with memory := writeByte c.memory a.toNat (x.setWidth 8) }
  | jump {a : Word} {rest : List Word} :
    code[c.pc]? = some 0x56 → c.stack = a :: rest → JumpTarget code a.toNat →
    Step code ctx c { c.next 8 rest with pc := a.toNat }
  | branch {a x : Word} {rest : List Word} :
    code[c.pc]? = some 0x57 → c.stack = a :: x :: rest → x ≠ 0 → JumpTarget code a.toNat →
    Step code ctx c { c.next 10 rest with pc := a.toNat }
  | pass {a x : Word} {rest : List Word} :
    code[c.pc]? = some 0x57 → c.stack = a :: x :: rest → x = 0 → Step code ctx c (c.next 10 rest)
  | jumpdest : code[c.pc]? = some 0x5b → Step code ctx c (c.next 1 c.stack)

end EvmAudit.Evm
