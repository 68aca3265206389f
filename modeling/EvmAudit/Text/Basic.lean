
/-!
# Classes of characters and small operations on text

`isBlank` is the Unicode class of white space used when a text is trimmed or cut at blanks.
-/

namespace EvmAudit.Chars

def isBlank (c : Char) : Bool :=
  let n := c.toNat
  (9 ≤ n && n ≤ 13) || (28 ≤ n && n ≤ 32) || n == 133 || n == 160 || n == 5760
    || (8192 ≤ n && n ≤ 8202) || n == 8232 || n == 8233 || n == 8239 || n == 8287 || n == 12288

def isDigit (c : Char) : Bool := '0' ≤ c && c ≤ '9'

def isLetter (c : Char) : Bool := ('a' ≤ c && c ≤ 'z') || ('A' ≤ c && c ≤ 'Z')

def isAlnum (c : Char) : Bool := isDigit c || isLetter c

def trim (cs : List Char) : List Char := ((cs.dropWhile isBlank).reverse.dropWhile isBlank).reverse

def startsWith (needle : List Char) (text : List Char) : Bool :=
  match needle, text with
  | [], _ => true
  | _ :: _, [] => false
  | a :: as, b :: bs => a == b && startsWith as bs

def contains (needle : List Char) : List Char → Bool
  | [] => needle.isEmpty
  | c :: rest => startsWith needle (c :: rest) || contains needle rest

/-- Cuts at every character that satisfies the test; there is one more piece than cuts. -/
def splitBy (cut : Char → Bool) : List Char → List (List Char)
  | [] => [[]]
  | c :: rest =>
    if cut c then [] :: splitBy cut rest
    else match splitBy cut rest with
      | [] => [[c]]
      | piece :: more => (c :: piece) :: more

/-- Cuts at runs of blanks; pieces are never empty. -/
def words (cs : List Char) : List (List Char) := (splitBy isBlank cs).filter (!·.isEmpty)

end EvmAudit.Chars

namespace EvmAudit.Text

def trim (s : String) : String := String.ofList (Chars.trim s.toList)

def contains (s needle : String) : Bool := Chars.contains needle.toList s.toList

def startsWith (s needle : String) : Bool := Chars.startsWith needle.toList s.toList

def endsWith (s needle : String) : Bool := Chars.startsWith needle.toList.reverse s.toList.reverse

def drop (s : String) (n : Nat) : String := String.ofList (s.toList.drop n)

def take (s : String) (n : Nat) : String := String.ofList (s.toList.take n)

def splitAt (s : String) (cut : Char) : List String := (Chars.splitBy (· == cut) s.toList).map String.ofList

def padLeft (s : String) (n : Nat) (fill : Char) : String := String.ofList (List.replicate (n - s.length) fill) ++ s

def join (sep : String) (parts : List String) : String := sep.intercalate parts

/-- Makes every end of a line one and the same character. -/
def unifyLines (s : String) : String := String.ofList (go s.toList)
where
  go : List Char → List Char
    | '\r' :: '\n' :: rest => '\n' :: go rest
    | '\r' :: rest => '\n' :: go rest
    | c :: rest => c :: go rest
    | [] => []

def dropEnd (s : String) (n : Nat) : String := take s (s.length - n)

def afterFirst? (s : String) (cut : Char) : Option String :=
  match s.toList.dropWhile (· != cut) with
  | _ :: rest => some (String.ofList rest)
  | [] => none

def le (a b : String) : Bool := decide (a < b) || a == b

def sort (xs : List String) : List String := xs.mergeSort le

end EvmAudit.Text

/-! # Hexadecimal text

Bytes are natural numbers below 256. Writing uses lower-case digits, two per byte. Reading accepts
both cases and skips blanks between bytes, never inside one. -/

namespace EvmAudit.Hex

def digit (n : Nat) : Char :=
  if n < 10 then Char.ofNat (48 + n) else Char.ofNat (87 + n)

def digitValue? (c : Char) : Option Nat :=
  if '0' ≤ c ∧ c ≤ '9' then some (c.toNat - 48)
  else if 'a' ≤ c ∧ c ≤ 'f' then some (c.toNat - 87)
  else if 'A' ≤ c ∧ c ≤ 'F' then some (c.toNat - 55)
  else none

def ofNat (n : Nat) : String := String.ofList (Nat.toDigits 16 n)

/-- The digits of a number after `0x`, with the sign in front. -/
def ofInt (n : Int) : String :=
  if n < 0 then "-0x" ++ ofNat n.natAbs else "0x" ++ ofNat n.natAbs

def byteDigits (b : Nat) : List Char := [digit (b / 16 % 16), digit (b % 16)]

def ofBytes (bytes : List Nat) : String := String.ofList (bytes.flatMap byteDigits)

/-- Blanks that may stand between two bytes. -/
def isGap (c : Char) : Bool := c == ' ' || c == '\t' || c == '\n' || c == '\r' || c.toNat == 11 || c.toNat == 12

/-- Reads pairs of digits; `none` for a stray character or half a byte. -/
def readBytes : List Char → Option (List Nat)
  | [] => some []
  | [c] => if isGap c then some [] else none
  | c :: d :: rest =>
    if isGap c then readBytes (d :: rest)
    else do
      let hi ← digitValue? c
      let lo ← digitValue? d
      let tail ← readBytes rest
      return (hi * 16 + lo) :: tail

def toBytes? (text : String) : Option (List Nat) := readBytes text.toList

def dropMarker (text : String) : String :=
  match text.toList with
  | '0' :: 'x' :: rest => String.ofList rest
  | _ => text

/-- The bytes of a text that may begin with `0x`. -/
def decode? (text : String) : Option (List Nat) := toBytes? (dropMarker text)

end EvmAudit.Hex

/-! # Octets of a text

Reading of octets that are not all part of a character: those that are not are left out. -/

namespace EvmAudit.Utf8

def octets (s : String) : List Nat := s.toUTF8.toList.map UInt8.toNat

structure Pending where
  owed : Nat
  /-- The least and the greatest next octet. -/
  low : Nat := 0x80
  high : Nat := 0xBF
  value : Nat
  deriving DecidableEq, Repr

inductive Lead where
  | whole (c : Char)
  | begins (p : Pending)
  | stray

def lead (b : Nat) : Lead :=
  if b < 0x80 then .whole (Char.ofNat b)
  else if b < 0xC2 then .stray
  else if b < 0xE0 then .begins { owed := 1, value := b - 0xC0 }
  else if b = 0xE0 then .begins { owed := 2, low := 0xA0, value := 0 }
  else if b = 0xED then .begins { owed := 2, high := 0x9F, value := 0xD }
  else if b < 0xF0 then .begins { owed := 2, value := b - 0xE0 }
  else if b = 0xF0 then .begins { owed := 3, low := 0x90, value := 0 }
  else if b < 0xF4 then .begins { owed := 3, value := b - 0xF0 }
  else if b = 0xF4 then .begins { owed := 3, high := 0x8F, value := 4 }
  else .stray

/-- The characters, without the octets that belong to none. -/
def chars : Option Pending → List Nat → List Char
  | _, [] => []
  | some p, b :: rest =>
    if p.low ≤ b && b ≤ p.high then
      let value := p.value * 64 + (b - 0x80)
      if p.owed ≤ 1 then Char.ofNat value :: chars none rest
      else chars (some { owed := p.owed - 1, value := value }) rest
    else match lead b with
      | .whole c => c :: chars none rest
      | .begins p => chars (some p) rest
      | .stray => chars none rest
  | none, b :: rest =>
    match lead b with
    | .whole c => c :: chars none rest
    | .begins p => chars (some p) rest
    | .stray => chars none rest

def text (bs : List Nat) : String := String.ofList (chars none bs)

end EvmAudit.Utf8

/-! # Numerals

Reading of integers as people write them: blanks around the number, a sign, a marker such as `0x` for
the base, and single underscores between digits. Base 0 means that the marker decides, and then a
plain decimal number may not begin with a zero unless it is zero. -/

namespace EvmAudit.Numeral

def digitValue? (c : Char) : Option Nat :=
  if '0' ≤ c ∧ c ≤ '9' then some (c.toNat - 48)
  else if 'a' ≤ c ∧ c ≤ 'z' then some (c.toNat - 87)
  else if 'A' ≤ c ∧ c ≤ 'Z' then some (c.toNat - 55)
  else none

/-- Reads digits with single underscores between them. The flag says that a digit must follow. -/
def digits (base : Nat) : Bool → Nat → List Char → Option Nat
  | mustFollow, acc, [] => if mustFollow then none else some acc
  | mustFollow, acc, c :: rest =>
    if c == '_' then
      if mustFollow then none else digits base true acc rest
    else match digitValue? c with
      | some d => if d < base then digits base false (acc * base + d) rest else none
      | none => none

/-- The base that a marker such as `0x` announces. -/
def markedBase? (c : Char) : Option Nat :=
  if c == 'x' || c == 'X' then some 16
  else if c == 'o' || c == 'O' then some 8
  else if c == 'b' || c == 'B' then some 2
  else none

/-- After a marker one underscore may come before the first digit. -/
def afterMarker (base : Nat) (rest : List Char) : Option Nat :=
  match rest with
  | '_' :: more => digits base true 0 more
  | more => digits base true 0 more

def magnitude (base : Nat) (cs : List Char) : Option Nat :=
  match cs with
  | '0' :: c :: rest =>
    match markedBase? c with
    | some b =>
      if base == 0 || base == b then afterMarker b rest else digits base true 0 cs
    | none =>
      if base == 0 then
        if (c :: rest).all (fun d => d == '0' || d == '_') then digits 10 true 0 cs else none
      else digits base true 0 cs
  | _ => digits (if base == 0 then 10 else base) true 0 cs

/-- Reads an integer in the given base, or in the base its marker gives if that is 0. -/
def parse? (base : Nat) (text : String) : Option Int :=
  match Chars.trim text.toList with
  | '-' :: rest => (magnitude base rest).map fun n => -(n : Int)
  | '+' :: rest => (magnitude base rest).map fun n => (n : Int)
  | cs => (magnitude base cs).map fun n => (n : Int)

end EvmAudit.Numeral
