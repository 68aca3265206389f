import EvmAudit.Basic

/-!
# Words, blocks and padding shared by the digests

Messages are lists of bytes (natural numbers below 256).
-/

namespace EvmAudit.Digest

def natOfBytes (bytes : List Nat) : Nat := bytes.foldl (fun acc b => acc * 256 + b) 0

/-- The last `n` bytes of a number, most significant first. -/
def bytesOfNat (n : Nat) (value : Nat) : List Nat := (List.range n).map fun i => value / 256 ^ (n - 1 - i) % 256

def bytesOfNatLE (n : Nat) (value : Nat) : List Nat := (List.range n).map (value / 256 ^ · % 256)

/-- Cuts a list into blocks of `n + 1` elements; the last block may be shorter. -/
def blocks {α : Type} (n : Nat) (xs : List α) : List (List α) :=
  match h : xs with
  | [] => []
  | x :: rest => (x :: rest).take (n + 1) :: blocks n (rest.drop n)
termination_by xs.length
decreasing_by
  subst h
  simp only [List.length_drop, List.length_cons]
  omega

def rotl32 (x : UInt32) (n : UInt32) : UInt32 := (x <<< n) ||| (x >>> (32 - n))

def rotr32 (x : UInt32) (n : UInt32) : UInt32 := (x >>> n) ||| (x <<< (32 - n))

def rotl64 (x : UInt64) (n : UInt64) : UInt64 :=
  if n == 0 then x else (x <<< n) ||| (x >>> (64 - n))

/-- A one bit, then zeros, so that eight bytes are left free in the last block of 64. -/
def padding64 (length : Nat) : List Nat := 128 :: List.replicate ((119 - length % 64) % 64) 0

end EvmAudit.Digest

/-! # SHA3-256

The sponge over the permutation of 25 lanes of 64 bits, with the domain bits of the standard and a
rate of 136 bytes. -/

namespace EvmAudit.Digest.Sha3

def roundConstants : List UInt64 := [
  0x0000000000000001, 0x0000000000008082, 0x800000000000808A, 0x8000000080008000,
  0x000000000000808B, 0x0000000080000001, 0x8000000080008081, 0x8000000000008009,
  0x000000000000008A, 0x0000000000000088, 0x0000000080008009, 0x000000008000000A,
  0x000000008000808B, 0x800000000000008B, 0x8000000000008089, 0x8000000000008003,
  0x8000000000008002, 0x8000000000000080, 0x000000000000800A, 0x800000008000000A,
  0x8000000080008081, 0x8000000000008080, 0x0000000080000001, 0x8000000080008008]

def rotations : Array UInt64 := #[
  0, 1, 62, 28, 27, 36, 44, 6, 55, 20, 3, 10, 43, 25, 39, 41, 45, 15, 21, 8, 18, 2, 61, 56, 14]

def lane (s : Array UInt64) (i : Nat) : UInt64 := s.getD i 0

/-- Parity of each column mixed into its two neighbours. -/
def theta (s : Array UInt64) : Array UInt64 :=
  let c : Array UInt64 := Array.ofFn (fun x : Fin 5 =>
    lane s x ^^^ lane s (x + 5) ^^^ lane s (x + 10) ^^^ lane s (x + 15) ^^^ lane s (x + 20))
  let d : Array UInt64 := Array.ofFn fun x : Fin 5 => lane c ((x + 4) % 5) ^^^ rotl64 (lane c ((x + 1) % 5)) 1
  Array.ofFn fun i : Fin 25 => lane s i ^^^ lane d (i % 5)

def rhoPi (s : Array UInt64) : Array UInt64 :=
  Array.ofFn (fun i : Fin 25 =>
    -- lane (x, y) of the result comes from lane (x + 3y, x)
    let x := i.val % 5
    let y := i.val / 5
    let j := (x + 3 * y) % 5 + 5 * x
    rotl64 (lane s j) (rotations.getD j 0))

def chi (s : Array UInt64) : Array UInt64 :=
  Array.ofFn (fun i : Fin 25 =>
    let x := i.val % 5
    let y := i.val / 5
    lane s i ^^^ ((~~~ lane s ((x + 1) % 5 + 5 * y)) &&& lane s ((x + 2) % 5 + 5 * y)))

def permute (s : Array UInt64) : Array UInt64 :=
  roundConstants.foldl (fun s rc =>
    let t := chi (rhoPi (theta s))
    t.setIfInBounds 0 (lane t 0 ^^^ rc)) s

/-- Lane of eight bytes, least significant first. -/
def laneOfBytes (bytes : List Nat) : UInt64 := UInt64.ofNat (natOfBytes bytes.reverse)

def absorb (s : Array UInt64) (block : List Nat) : Array UInt64 :=
  let words := (blocks 7 block).map laneOfBytes
  permute (words.zipIdx.foldl (fun s (w, i) => s.setIfInBounds i (lane s i ^^^ w)) s)

/-- Message with the domain bits and the final bit of the padding. -/
def pad (message : List Nat) : List Nat :=
  let free := 136 - message.length % 136
  if free = 1 then message ++ [0x86]
  else message ++ [0x06] ++ List.replicate (free - 2) 0 ++ [0x80]

def hash (message : List Nat) : List Nat :=
  let s := (blocks 135 (pad message)).foldl absorb (Array.replicate 25 0)
  (List.range 4).flatMap fun i => bytesOfNatLE 8 (lane s i).toNat

end EvmAudit.Digest.Sha3

/-! # SHA-256 -/

namespace EvmAudit.Digest.Sha256

def roundConstants : Array UInt32 := #[
  0x428a2f98, 0x71374491, 0xb5c0fbcf, 0xe9b5dba5, 0x3956c25b, 0x59f111f1, 0x923f82a4, 0xab1c5ed5,
  0xd807aa98, 0x12835b01, 0x243185be, 0x550c7dc3, 0x72be5d74, 0x80deb1fe, 0x9bdc06a7, 0xc19bf174,
  0xe49b69c1, 0xefbe4786, 0x0fc19dc6, 0x240ca1cc, 0x2de92c6f, 0x4a7484aa, 0x5cb0a9dc, 0x76f988da,
  0x983e5152, 0xa831c66d, 0xb00327c8, 0xbf597fc7, 0xc6e00bf3, 0xd5a79147, 0x06ca6351, 0x14292967,
  0x27b70a85, 0x2e1b2138, 0x4d2c6dfc, 0x53380d13, 0x650a7354, 0x766a0abb, 0x81c2c92e, 0x92722c85,
  0xa2bfe8a1, 0xa81a664b, 0xc24b8b70, 0xc76c51a3, 0xd192e819, 0xd6990624, 0xf40e3585, 0x106aa070,
  0x19a4c116, 0x1e376c08, 0x2748774c, 0x34b0bcb5, 0x391c0cb3, 0x4ed8aa4a, 0x5b9cca4f, 0x682e6ff3,
  0x748f82ee, 0x78a5636f, 0x84c87814, 0x8cc70208, 0x90befffa, 0xa4506ceb, 0xbef9a3f7, 0xc67178f2]

structure State where
  a : UInt32
  b : UInt32
  c : UInt32
  d : UInt32
  e : UInt32
  f : UInt32
  g : UInt32
  h : UInt32

def initial : State := ⟨0x6a09e667, 0xbb67ae85, 0x3c6ef372, 0xa54ff53a, 0x510e527f, 0x9b05688c, 0x1f83d9ab, 0x5be0cd19⟩

/-- Extends the sixteen words of a block to the sixty-four words of its schedule. -/
def schedule (block : List Nat) : Array UInt32 :=
  let first : Array UInt32 := ((blocks 3 block).map (fun w => UInt32.ofNat (natOfBytes w))).toArray
  (List.range 48).foldl (fun w i =>
    let x := w.getD (i + 1) 0
    let y := w.getD (i + 14) 0
    let s0 := rotr32 x 7 ^^^ rotr32 x 18 ^^^ (x >>> 3)
    let s1 := rotr32 y 17 ^^^ rotr32 y 19 ^^^ (y >>> 10)
    w.push (w.getD i 0 + s0 + w.getD (i + 9) 0 + s1)) first

def round (w : Array UInt32) (s : State) (i : Nat) : State :=
  let s1 := rotr32 s.e 6 ^^^ rotr32 s.e 11 ^^^ rotr32 s.e 25
  let ch := (s.e &&& s.f) ^^^ ((~~~ s.e) &&& s.g)
  let t1 := s.h + s1 + ch + roundConstants.getD i 0 + w.getD i 0
  let s0 := rotr32 s.a 2 ^^^ rotr32 s.a 13 ^^^ rotr32 s.a 22
  let maj := (s.a &&& s.b) ^^^ (s.a &&& s.c) ^^^ (s.b &&& s.c)
  ⟨t1 + (s0 + maj), s.a, s.b, s.c, s.d + t1, s.e, s.f, s.g⟩

def compress (s : State) (block : List Nat) : State :=
  let w := schedule block
  let r := (List.range 64).foldl (round w) s
  ⟨s.a + r.a, s.b + r.b, s.c + r.c, s.d + r.d, s.e + r.e, s.f + r.f, s.g + r.g, s.h + r.h⟩

def hash (message : List Nat) : List Nat :=
  let padded := message ++ padding64 message.length ++ bytesOfNat 8 (8 * message.length)
  let s := (blocks 63 padded).foldl compress initial
  [s.a, s.b, s.c, s.d, s.e, s.f, s.g, s.h].flatMap (bytesOfNat 4 ·.toNat)

end EvmAudit.Digest.Sha256

/-! # RIPEMD-160 -/

namespace EvmAudit.Digest.Ripemd160

def leftOrder : Array Nat := #[
  0, 1, 2, 3, 4, 5, 6, 7, 8, 9, 10, 11, 12, 13, 14, 15,
  7, 4, 13, 1, 10, 6, 15, 3, 12, 0, 9, 5, 2, 14, 11, 8,
  3, 10, 14, 4, 9, 15, 8, 1, 2, 7, 0, 6, 13, 11, 5, 12,
  1, 9, 11, 10, 0, 8, 12, 4, 13, 3, 7, 15, 14, 5, 6, 2,
  4, 0, 5, 9, 7, 12, 2, 10, 14, 1, 3, 8, 11, 6, 15, 13]

def rightOrder : Array Nat := #[
  5, 14, 7, 0, 9, 2, 11, 4, 13, 6, 15, 8, 1, 10, 3, 12,
  6, 11, 3, 7, 0, 13, 5, 10, 14, 15, 8, 12, 4, 9, 1, 2,
  15, 5, 1, 3, 7, 14, 6, 9, 11, 8, 12, 2, 10, 0, 4, 13,
  8, 6, 4, 1, 3, 11, 15, 0, 5, 12, 2, 13, 9, 7, 10, 14,
  12, 15, 10, 4, 1, 5, 8, 7, 6, 2, 13, 14, 0, 3, 9, 11]

def leftShift : Array UInt32 := #[
  11, 14, 15, 12, 5, 8, 7, 9, 11, 13, 14, 15, 6, 7, 9, 8,
  7, 6, 8, 13, 11, 9, 7, 15, 7, 12, 15, 9, 11, 7, 13, 12,
  11, 13, 6, 7, 14, 9, 13, 15, 14, 8, 13, 6, 5, 12, 7, 5,
  11, 12, 14, 15, 14, 15, 9, 8, 9, 14, 5, 6, 8, 6, 5, 12,
  9, 15, 5, 11, 6, 8, 13, 12, 5, 12, 13, 14, 11, 8, 5, 6]

def rightShift : Array UInt32 := #[
  8, 9, 9, 11, 13, 15, 15, 5, 7, 7, 8, 11, 14, 14, 12, 6,
  9, 13, 15, 7, 12, 8, 9, 11, 7, 7, 12, 7, 6, 15, 13, 11,
  9, 7, 15, 11, 8, 6, 6, 14, 12, 13, 5, 14, 13, 13, 7, 5,
  15, 5, 8, 11, 14, 14, 6, 14, 6, 9, 12, 9, 12, 5, 15, 8,
  8, 5, 12, 9, 12, 5, 14, 6, 8, 13, 6, 5, 15, 13, 11, 11]

def leftConstants : Array UInt32 := #[0x00000000, 0x5a827999, 0x6ed9eba1, 0x8f1bbcdc, 0xa953fd4e]

def rightConstants : Array UInt32 := #[0x50a28be6, 0x5c4dd124, 0x6d703ef3, 0x7a6d76e9, 0x00000000]

/-- The Boolean function of a group of sixteen steps. -/
def mix (group : Nat) (x y z : UInt32) : UInt32 :=
  match group with
  | 0 => x ^^^ y ^^^ z
  | 1 => (x &&& y) ||| ((~~~ x) &&& z)
  | 2 => (x ||| (~~~ y)) ^^^ z
  | 3 => (x &&& z) ||| (y &&& (~~~ z))
  | _ => x ^^^ (y ||| (~~~ z))

structure State where
  a : UInt32
  b : UInt32
  c : UInt32
  d : UInt32
  e : UInt32

def initial : State := ⟨0x67452301, 0xefcdab89, 0x98badcfe, 0x10325476, 0xc3d2e1f0⟩

def step (order : Array Nat) (shift constants : Array UInt32) (group : Nat → Nat)
    (words : Array UInt32) (s : State) (i : Nat) : State :=
  let sum := s.a + mix (group (i / 16)) s.b s.c s.d + words.getD (order.getD i 0) 0
    + constants.getD (i / 16) 0
  let t := rotl32 sum (shift.getD i 0) + s.e
  ⟨s.e, t, s.b, rotl32 s.c 10, s.d⟩

def compress (s : State) (block : List Nat) : State :=
  let words : Array UInt32 := ((blocks 3 block).map (fun w => UInt32.ofNat (natOfBytes w.reverse))).toArray
  let l := (List.range 80).foldl (step leftOrder leftShift leftConstants id words) s
  let r := (List.range 80).foldl
    (step rightOrder rightShift rightConstants (4 - ·) words) s
  ⟨s.b + l.c + r.d, s.c + l.d + r.e, s.d + l.e + r.a, s.e + l.a + r.b, s.a + l.b + r.c⟩

def hash (message : List Nat) : List Nat :=
  let padded := message ++ padding64 message.length ++ bytesOfNatLE 8 (8 * message.length)
  let s := (blocks 63 padded).foldl compress initial
  [s.a, s.b, s.c, s.d, s.e].flatMap (bytesOfNatLE 4 ·.toNat)

end EvmAudit.Digest.Ripemd160
