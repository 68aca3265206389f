import EvmAudit.Code.Instr
import EvmAudit.Digest

/-!
# Bytes and numbers

Big-endian numbers, zero padding, and copies between byte sequences where everything beyond the end reads as zero.
-/

namespace EvmAudit.Bytes

def toNat (bytes : List Nat) : Nat := bytes.foldl (fun acc b => acc * 256 + b) 0

/-- The last `n` bytes of a number, most significant first. -/
def ofNat (n value : Nat) : List Nat := (List.range n).map fun i => value / 256 ^ (n - 1 - i) % 256

/-- The 32 bytes of a number that fits into them. -/
def encode32 (value : Int) : Except Fault (List Nat) :=
  if 0 ≤ value ∧ value < (2 ^ 256 : Nat) then .ok (ofNat 32 value.toNat) else .error .tooLarge

def low32 (value : Int) : List Nat := ofNat 32 (value % ((2 ^ 256 : Nat) : Int)).toNat

/-- The fewest bytes that hold a number; zero takes one. -/
def minimal (value : Nat) : List Nat :=
  if value = 0 then [0] else ofNat (Nat.log2 value / 8 + 1) value

def toSigned (n : Int) : Int := if n < (2 ^ 255 : Nat) then n else n - (2 ^ 256 : Nat)

def padLeft (bytes : List Nat) (n : Nat) : List Nat := List.replicate (n - bytes.length) 0 ++ bytes

def padRight (bytes : List Nat) (n : Nat) : List Nat := bytes ++ List.replicate (n - bytes.length) 0

/-- Copies `n` bytes; what is not in the source reads as zero, and the target has to have room. -/
def copyInto (source : List Nat) : Nat → List Nat → Int → Int → Except Fault (List Nat)
  | 0, target, _, _ => .ok target
  | n + 1, target, pos, src => do
    let b ← if src < source.length then need .outOfRange (Sequence.at? source src) else pure 0
    copyInto source n (← need .outOfRange (Sequence.set? target pos b)) (pos + 1) (src + 1)

/-- The word of 32 bytes at a position, filled up with zeros. -/
def word (bytes : List Nat) (i : Int) : Nat :=
  if i ≥ bytes.length then 0
  else
    let part := Sequence.slice bytes i (min (i + 32) bytes.length)
    toNat (padRight part 32)

def take (bytes : List Nat) (start n : Nat) : List Nat := padRight ((bytes.drop start).take n) n

end EvmAudit.Bytes

/-! # Precompiled contracts

The contracts at the addresses 1 to 9. All but the identity want plain bytes. Curve arithmetic is not provided: the
three curve contracts fail beyond their length checks, a recovered key is 64 zero bytes, and the compression
function answers eight zeros. -/

namespace EvmAudit.Precompile

/-- A symbolic input that a contract cannot handle. -/
def unusable : Fault := .failure .precompile ""

def groupOrder : Nat := 0xFFFFFFFFFFFFFFFFFFFFFFFFFFFFFFFEBAAEDCE6AF48A03BBFD25E8CD0364141

def plain (data : List Item) : Except Fault (List Nat) :=
  match Bytecode.bytesOf data with
  | .ok bs => .ok bs
  | .error (.failure .wrongSort _) => .error unusable
  | .error f => .error f

def ofBytes (bytes : List Nat) : List Item := bytes.map fun (b : Nat) => .int b

def checkLength (n : Nat) : Except Fault Unit :=
  if n ≥ 2 ^ 63 then .error .tooLarge else .ok ()

def recover (data : List Item) : Except Fault (List Item) := do
  let bytes ← plain data
  let v := Bytes.word bytes 32
  let r := Bytes.word bytes 64
  let s := Bytes.word bytes 96
  if r ≥ groupOrder ∨ s ≥ groupOrder ∨ v < 27 ∨ v > 28 then return []
  let key := List.replicate 64 0
  return ofBytes (List.replicate 12 0 ++ (Digest.Sha3.hash key).drop 12)

def sha256 (data : List Item) : Except Fault (List Item) := return ofBytes (Digest.Sha256.hash (← plain data))

def ripemd160 (data : List Item) : Except Fault (List Item) :=
  return ofBytes (List.replicate 12 0 ++ Digest.Ripemd160.hash (← plain data))

/-- Modular exponentiation: three lengths, then base, exponent and modulus. -/
def modExp (data : List Item) : Except Fault (List Item) := do
  let bytes ← plain data
  let baseLen := Bytes.word bytes 0
  let expLen := Bytes.word bytes 32
  let modLen := Bytes.word bytes 64
  if baseLen = 0 then
    checkLength modLen
    return ofBytes (List.replicate modLen 0)
  if modLen = 0 then return []
  checkLength baseLen
  checkLength expLen
  checkLength modLen
  let base := Bytes.toNat (Bytes.take bytes 96 baseLen)
  let exponent := Bytes.toNat (Bytes.take bytes (96 + baseLen) expLen)
  let modulus := Bytes.toNat (Bytes.take bytes (96 + baseLen + expLen) modLen)
  if modulus = 0 then return ofBytes (List.replicate modLen 0)
  return ofBytes (Bytes.padLeft (Bytes.minimal (powMod base exponent modulus)) modLen)

def curve (data : List Item) : Except Fault (List Item) := do
  let _ ← plain data
  throw .noSuchPart

def pairing (data : List Item) : Except Fault (List Item) :=
  if data.length % 192 ≠ 0 then .ok [] else .error .noSuchPart

def compress (data : List Item) : Except Fault (List Item) := do
  let _ ← plain data
  return ofBytes (List.replicate 8 0)

def count : Nat := 9

def contracts : List (List Item → Except Fault (List Item)) :=
  [recover, sha256, ripemd160, .ok, modExp, curve, curve, pairing, compress]

def names : List String :=
  ["ecrecover", "sha256", "ripemd160", "identity", "mod_exp", "ec_add", "ec_mul", "ec_pair", "blake2b_fcompress"]

def run (address : Int) (data : List Item) : Except Fault (List Item) :=
  match Sequence.at? contracts (address - 1) with
  | some f => f data
  | none => .error .outOfRange

def words (size : Int) : Int := -(Int.fdiv (-size) 32)

def hashGas (length : Int) : Int := 30 + 6 * words length

def gas (size : Int) (contract : String) : Int :=
  match contract with
  | "ecrecover" => 3000
  | "sha256" => 60 + words size * 12
  | "ripemd160" => 600 + words size * 120
  | "identity" => 15 + words size * 3
  | _ => 0

end EvmAudit.Precompile
