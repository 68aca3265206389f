import EvmAudit.Proofs.Memory
import Mathlib.Data.List.Basic
import EvmAudit.Proofs.Session

/-!
# Memory as an array of bytes

Whatever is done to a memory at indexes that have a value, its answers are those of an array of bytes under every
valuation: cells that were never written are zero, what is written outside of the size is ignored, and a word is its 32
bytes, the most significant first. Indexes are numbers of 256 bits, so what runs over the last of them goes on at zero.
A memory of `2 ^ 63` bytes takes no writes any more.
-/

namespace EvmAudit

namespace Memory

open List
open Evm (Word)
open Calc (Gives)

/-- What can be done to a memory, with indexes, bytes and words of some kind. -/
inductive Op (Index Byte Value : Type) where
  | extend (n : Nat)
  | write (i : Index) (b : Byte)
  | writeWord (i : Index) (v : Value)
  | writeSlice (start stop : Index) (bs : List Byte)
  | read (i : Index)
  | readWord (i : Index)
  | readSlice (start stop : Index)

/-- The operation writes at least one byte. -/
def Op.Writes {Byte Value : Type} : Op Word Byte Value → Prop
  | .write .. | .writeWord .. => True
  | .writeSlice x y _ => x ≠ y
  | _ => False

inductive Answer (Byte Value : Type) where
  | done
  | byte (b : Byte)
  | word (v : Value)
  | bytes (bs : List Byte)

def settled (r : Written) : Calc (Memory × Answer Item Expr) :=
  match r.fault with
  | some f => throw f
  | none => return (r.memory, .done)

def perform (m : Memory) : Op Item Item Item → Calc (Memory × Answer Item Expr)
  | .extend n => return (m.extend n, .done)
  | .write i b => return (← m.set i b, .done)
  | .writeWord i v => do settled (← m.writeWord i v)
  | .writeSlice start stop bs => do settled (← m.setSlice start stop bs)
  | .read i => return (m, .byte (← m.get i))
  | .readWord i => return (m, .word (← m.word i))
  | .readSlice start stop => return (m, .bytes (← m.slice start stop))

def performAll (m : Memory) : List (Op Item Item Item) → Calc (Memory × List (Answer Item Expr))
  | [] => return (m, [])
  | op :: ops => do
    let (m, answer) ← m.perform op
    let (m, answers) ← m.performAll ops
    return (m, answer :: answers)

/-! ## Arrays -/

structure Bytes where
  size : Nat := 0
  byte : Nat → BitVec 8 := fun _ => 0

namespace Bytes

def write (r : Bytes) (x : Word) (bs : List (BitVec 8)) : Bytes := { r with byte := put r.size r.byte x bs }

def word (r : Bytes) (x : Word) : Word := ofBytes (bytesFrom r.byte x 32)

def perform (r : Bytes) : Op Word (BitVec 8) Word → Bytes × Answer (BitVec 8) Word
  | .extend n => ({ r with size := r.size + n }, .done)
  | .write x b => (r.write x [b], .done)
  | .writeWord x y => (r.write x (wordBytes y), .done)
  | .writeSlice x y bs => (r.write x (bs.take (y - x).toNat), .done)
  | .read x => (r, .byte (r.byte x.toNat))
  | .readWord x => (r, .word (r.word x))
  | .readSlice x y => (r, .bytes (bytesFrom r.byte x (y - x).toNat))

def performAll (r : Bytes) : List (Op Word (BitVec 8) Word) → Bytes × List (Answer (BitVec 8) Word)
  | [] => (r, [])
  | op :: ops => (((r.perform op).1.performAll ops).1, (r.perform op).2 :: ((r.perform op).1.performAll ops).2)

/-- Every byte of these operations is written while the array has fewer than `2 ^ 63` of them. -/
def Writable (r : Bytes) : List (Op Word (BitVec 8) Word) → Prop
  | [] => True
  | op :: ops => (op.Writes → r.size < 2 ^ 63) ∧ (r.perform op).1.Writable ops

end Bytes

/-! ## What is written and read -/

variable {σ : Valuation} {m : Memory} {r : Bytes} {f : Nat → BitVec 8} {x : Word}

/-- Under the valuation, the operation is this one on words and bytes. -/
def Op.Means (σ : Valuation) : Op Item Item Item → Op Word (BitVec 8) Word → Prop
  | .extend n, .extend n' => n' = n
  | .write i b, .write x b' => i.Indexes x ∧ b.IsByte σ b'
  | .writeWord i v, .writeWord x y => i.Indexes x ∧ Spells σ v y
  | .writeSlice i j bs, .writeSlice x y bs' =>
    i.Indexes x ∧ j.Indexes y ∧ List.Forall₂ (Item.IsByte σ) bs bs' ∧ (y - x).toNat ≤ bs'.length
  | .read i, .read x => i.Indexes x
  | .readWord i, .readWord x => i.Indexes x
  | .readSlice i j, .readSlice x y => i.Indexes x ∧ j.Indexes y
  | _, _ => False

def Answer.Means (σ : Valuation) : Answer Item Expr → Answer (BitVec 8) Word → Prop
  | .done, .done => True
  | .byte b, .byte b' => b.IsByte σ b'
  | .word e, .word y => e.Denotes σ y
  | .bytes bs, .bytes bs' => List.Forall₂ (Item.IsByte σ) bs bs'
  | _, _ => False

structure Shows (σ : Valuation) (m : Memory) (r : Bytes) : Prop where
  size : m.size = r.size
  holds : m.Holds σ r.byte

lemma Shows.settled {bs : List (BitVec 8)} {w : Written} (h : m.Shows σ r) (hw : Puts σ m (put m.size r.byte x bs) w) :
    (settled w).Gives fun p => p.1.Shows σ (r.write x bs) ∧ p.2.Means σ .done := by
  rw [Memory.settled, hw.fault]
  refine .pure ⟨⟨hw.size.trans h.size, ?_⟩, trivial⟩
  rw [h.size] at hw
  exact hw.holds

lemma Shows.perform {op : Op Item Item Item} {op' : Op Word (BitVec 8) Word} (h : m.Shows σ r)
    (hop : op.Means σ op') (hroom : op'.Writes → r.size < 2 ^ 63) : (m.perform op).Gives fun p =>
      p.1.Shows σ (r.perform op').1 ∧ p.2.Means σ (r.perform op').2 := by
  rw [← h.size] at hroom
  cases op <;> cases op' <;> try exact hop.elim
  case extend.extend n n' =>
    obtain rfl : n' = n := hop
    exact .pure ⟨⟨congrArg (· + n') h.size, h.holds⟩, trivial⟩
  case write.write i b x b' =>
    refine (set_gives (hroom trivial) h.holds hop.1 hop.2).bind ?_
    rintro m' ⟨hsize, hholds⟩
    rw [h.size] at hholds
    exact .pure ⟨⟨hsize.trans h.size, hholds⟩, trivial⟩
  case writeWord.writeWord i v x y =>
    exact (writeWord_gives (hroom trivial) hop.2 hop.1 h.holds).bind fun w hw => h.settled hw
  case writeSlice.writeSlice i j bs x y bs' =>
    obtain ⟨hi, hj, hbs, hlen⟩ := hop
    exact (setSlice_gives hroom h.holds hi hj hbs hlen).bind fun w hw => h.settled hw
  case read.read i x =>
    refine (get_gives hop).bind ?_
    rintro _ rfl
    exact .pure ⟨h, h.holds _⟩
  case readWord.readWord i x => exact (word_gives h.holds hop).bind fun e he => .pure ⟨h, he⟩
  case readSlice.readSlice i j x y => exact (slice_gives h.holds hop.1 hop.2).bind fun bs hbs => .pure ⟨h, hbs⟩

lemma Shows.performAll {ops : List (Op Item Item Item)} {ops' : List (Op Word (BitVec 8) Word)} (h : m.Shows σ r)
    (hops : Forall₂ (Op.Means σ) ops ops') (hroom : r.Writable ops') : (m.performAll ops).Gives fun p =>
      p.1.Shows σ (r.performAll ops').1 ∧ Forall₂ (Answer.Means σ) p.2 (r.performAll ops').2 := by
  induction hops generalizing m r with
  | nil => exact .pure ⟨h, .nil⟩
  | cons hop _ ih =>
    refine (h.perform hop hroom.1).bind ?_
    rintro ⟨m', answer⟩ ⟨hm', hanswer⟩
    refine (ih hm' hroom.2).bind ?_
    rintro ⟨m'', answers⟩ ⟨hm'', hanswers⟩
    exact .pure ⟨hm'', .cons hanswer hanswers⟩

end Memory

end EvmAudit
