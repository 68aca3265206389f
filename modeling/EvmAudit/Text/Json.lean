import EvmAudit.Basic
import EvmAudit.Text.Basic

/-!
# Decimal text of binary floating-point numbers

A finite double is `m * 2 ^ q`. Its text carries the fewest significant digits that read back as the same
double, and among those the digits nearest to it. `Layout` says how the digits are laid out.
-/

namespace EvmAudit.Decimal

/-- Mantissa and binary exponent of a finite double, without its sign. -/
def parts (x : Float) : Nat × Int :=
  let bits : Nat := x.toBits.toNat
  let e : Nat := bits / 2 ^ 52 % 2048
  let f : Nat := bits % 2 ^ 52
  if e = 0 then (f, -1074) else (f + 2 ^ 52, (e : Int) - 1075)

/-- A positive rational as numerator and denominator: `m * 2 ^ q`. -/
def ratio (m : Nat) (q : Int) : Nat × Nat :=
  if 0 ≤ q then (m * 2 ^ q.toNat, 1) else (m, 2 ^ (-q).toNat)

def belowPow (num den : Nat) (k : Int) : Bool :=
  if 0 ≤ k then num < den * 10 ^ k.toNat else num * 10 ^ (-k).toNat < den

/-- The least `k` from `k` on, within the fuel, such that the number is below `10 ^ k`. -/
def leastPow (num den : Nat) : Nat → Int → Int
  | 0, k => k
  | fuel + 1, k => if belowPow num den k then k else leastPow num den fuel (k + 1)

/-- Digits and decimal exponent of the shortest decimal in the interval that rounds to `m * 2 ^ q`.
The interval reaches half a unit to both sides, a quarter to the lower one at a power of two, and
holds its ends exactly if `m` is even. -/
def shortest (m : Nat) (q : Int) : Nat × Int :=
  -- everything is scaled by four so that the ends of the interval are whole
  let (num, den) := ratio (4 * m) (q - 2)
  let (hiNum, _) := ratio (4 * m + 2) (q - 2)
  let (loNum, _) := ratio (if m = 2 ^ 52 ∧ q > -1074 then 4 * m - 1 else 4 * m - 2) (q - 2)
  let inside (p r : Nat) : Bool :=
    -- is p / r in the interval?
    if m % 2 = 0 then decide (loNum * r ≤ p * den) && decide (p * den ≤ hiNum * r)
    else decide (loNum * r < p * den) && decide (p * den < hiNum * r)
  let k := leastPow num den 800 (-330)
  let attempt (n : Nat) : Option (Nat × Int) :=
    -- grid of numbers d * 10 ^ e with n digits
    let e : Int := k - n
    let (gNum, gDen) : Nat × Nat := if 0 ≤ e then (10 ^ e.toNat, 1) else (1, 10 ^ (-e).toNat)
    let d := num * gDen / (den * gNum)
    let down := inside (d * gNum) gDen
    let up := inside ((d + 1) * gNum) gDen
    -- twice the value compared with the sum of its neighbours on the grid
    let twice := 2 * num * gDen
    let sum := (2 * d + 1) * gNum * den
    if down && up then
      if twice < sum then some (d, e)
      else if sum < twice then some (d + 1, e)
      else if d % 2 = 0 then some (d, e) else some (d + 1, e)
    else if down then some (d, e)
    else if up then some (d + 1, e)
    else none
  match (List.range 18).findSome? (fun i => if i = 0 then none else attempt i) with
  | some r => r
  | none => (0, 0)

structure Layout where
  /-- Positional notation from this decimal point position on … -/
  low : Int
  high : Int

/-- Positional from `0.0001` on and below `10 ^ 16`; otherwise with a two-digit exponent. -/
def plain : Layout := ⟨-3, 16⟩

def strip : Nat → Nat → Int → Nat × Int
  | 0, d, e => (d, e)
  | fuel + 1, d, e => if d ≠ 0 ∧ d % 10 = 0 then strip fuel (d / 10) (e + 1) else (d, e)

/-- Text of a positive number given by digits and exponent. -/
def layOut (style : Layout) (digits : Nat) (exponent : Int) : String :=
  let (digits, exponent) := strip 20 digits exponent
  let text := (toString digits).toList
  let point : Int := exponent + text.length
  if style.low ≤ point ∧ point ≤ style.high then
    if point ≤ 0 then
      "0." ++ String.ofList (List.replicate (-point).toNat '0' ++ text)
    else if exponent ≥ 0 then
      String.ofList (text ++ List.replicate exponent.toNat '0') ++ ".0"
    else
      String.ofList (text.take point.toNat) ++ "." ++ String.ofList (text.drop point.toNat)
  else
    let e := point - 1
    let mantissa := match text with
      | [] => ""
      | [c] => String.singleton c
      | c :: rest => String.ofList (c :: '.' :: rest)
    let sign := if e < 0 then "-" else "+"
    mantissa ++ "e" ++ sign ++ Text.padLeft (toString e.natAbs) 2 '0'

def ofFloat (x : Float) : String :=
  if x.isNaN then "nan"
  else
    let negative := decide (x.toBits.toNat ≥ 2 ^ 63)
    let sign := if negative then "-" else ""
    if x.isInf then sign ++ "inf"
    else
      let (m, q) := parts x
      if m = 0 then sign ++ "0.0"
      else
        let (d, e) := shortest m q
        sign ++ layOut plain d e

/-- The double nearest to a quotient of integers; a tie goes to the even mantissa. -/
def quotient (num den : Int) : Float :=
  if den = 0 ∨ num = 0 then 0.0
  else
    let n := num.natAbs
    let d := den.natAbs
    let negative := decide (num < 0) != decide (den < 0)
    -- scale so that the integer quotient has 54 or 55 bits
    let shift : Int := 55 + (Nat.log2 d : Int) - (Nat.log2 n : Int)
    let (a, b) : Nat × Nat :=
      if 0 ≤ shift then (n * 2 ^ shift.toNat, d) else (n, d * 2 ^ (-shift).toNat)
    let q := a / b
    let sticky := if a % b = 0 then 0 else 1
    -- keep 53 bits, round half to even with the sticky bit
    let extra := Nat.log2 q - 52
    let unit := 2 ^ extra
    let low := (q % unit) * 2 + sticky
    let base := q / unit
    let rounded :=
      if low > unit then base + 1
      else if low < unit then base
      else base + base % 2
    let r := Float.scaleB (Float.ofNat rounded) (extra - shift)
    if negative then -r else r

end EvmAudit.Decimal

/-! # JSON

Values, a reader and a printer. An object keeps its members in the order in which they were first
written; a member that is written twice keeps its place and takes the later value. -/

namespace EvmAudit

/-- A JSON value; numbers with a fraction or an exponent are doubles. -/
inductive Json where
  | null
  | bool (b : Bool)
  | int (n : Int)
  | float (x : Float)
  | str (s : String)
  | arr (items : List Json)
  | obj (members : List (String × Json))
  deriving Inhabited

namespace Json

/-! ## Access -/

def get? (j : Json) (key : String) : Option Json :=
  match j with
  | .obj members => members.lookup key
  | _ => none

def getD (j : Json) (key : String) (default : Json) : Json := (j.get? key).getD default

def str? : Json → Option String
  | .str s => some s
  | _ => none

def int? : Json → Option Int
  | .int n => some n
  | _ => none

def bool? : Json → Option Bool
  | .bool b => some b
  | _ => none

def items : Json → List Json
  | .arr xs => xs
  | _ => []

def members : Json → List (String × Json)
  | .obj ms => ms
  | _ => []

def isNull : Json → Bool
  | .null => true
  | _ => false

def orNull {α : Type} (f : α → Json) (a : Option α) : Json := a.elim .null f

/-! ## Reading -/

def isSpace (c : Char) : Bool := c == ' ' || c == '\t' || c == '\n' || c == '\r'

def skip (cs : List Char) : List Char := cs.dropWhile isSpace

def unit? : List Char → Option (Nat × List Char)
  | a :: b :: c :: d :: rest => do
    let a ← Hex.digitValue? a
    let b ← Hex.digitValue? b
    let c ← Hex.digitValue? c
    let d ← Hex.digitValue? d
    return (((a * 16 + b) * 16 + c) * 16 + d, rest)
  | _ => none

/-- The character of one or two UTF-16 units after `\u`. -/
def escaped? (cs : List Char) : Option (Char × List Char) := do
  let (hi, rest) ← unit? cs
  if hi < 0xd800 ∨ 0xe000 ≤ hi then return (Char.ofNat hi, rest)
  if let '\\' :: 'u' :: more := rest then
    if let some (lo, tail) := unit? more then
      if hi < 0xdc00 ∧ 0xdc00 ≤ lo ∧ lo < 0xe000 then
        return (Char.ofNat (0x10000 + (hi - 0xd800) * 0x400 + (lo - 0xdc00)), tail)
  return (Char.ofNat 0xfffd, rest)

/-- Characters that are written as a backslash and another one. -/
def escapes : List (Char × Char) :=
  [('"', '"'), ('\\', '\\'), ('b', Char.ofNat 8), ('f', Char.ofNat 12), ('n', '\n'), ('r', '\r'), ('t', '\t')]

/-- The rest of a text after its opening quote. -/
def readString : Nat → List Char → List Char → Option (String × List Char)
  | 0, _, _ => none
  | _ + 1, _, [] => none
  | _ + 1, acc, '"' :: rest => some (String.ofList acc.reverse, rest)
  | fuel + 1, acc, '\\' :: 'u' :: rest => do
    let (c, more) ← escaped? rest
    readString fuel (c :: acc) more
  | fuel + 1, acc, '\\' :: c :: rest => do readString fuel ((← (('/', '/') :: escapes).lookup c) :: acc) rest
  | fuel + 1, acc, c :: rest =>
    if c.toNat < 32 then none else readString fuel (c :: acc) rest

def decimalValue (cs : List Char) : Nat := cs.foldl (fun n c => n * 10 + (c.toNat - 48)) 0

def readMagnitude (cs : List Char) : Option (Bool × Nat × Bool × Nat × List Char) :=
  -- has fraction or exponent, mantissa, exponent negative, exponent, rest
  let whole := cs.takeWhile Chars.isDigit
  let rest := cs.dropWhile Chars.isDigit
  -- a number does not begin with a zero, so a second digit is left over
  let (whole, rest) := match whole with
    | '0' :: more => (['0'], more ++ rest)
    | _ => (whole, rest)
  if whole.isEmpty then none
  else
    let (fraction, rest, hasFraction) := match rest with
      | '.' :: d :: more =>
        if Chars.isDigit d then
          ((d :: more).takeWhile Chars.isDigit, (d :: more).dropWhile Chars.isDigit, true)
        else ([], rest, false)
      | _ => ([], rest, false)
    let exponent : Option (Bool × List Char × List Char) := match rest with
      | e :: more =>
        if e == 'e' || e == 'E' then
          let (neg, digitsAt) := match more with
            | '-' :: ds => (true, ds)
            | '+' :: ds => (false, ds)
            | ds => (false, ds)
          let ds := digitsAt.takeWhile Chars.isDigit
          if ds.isEmpty then none else some (neg, ds, digitsAt.dropWhile Chars.isDigit)
        else none
      | [] => none
    let mantissa := decimalValue (whole ++ fraction)
    match exponent with
    | none => some (hasFraction, mantissa, true, fraction.length, rest)
    | some (neg, ds, rest) =>
      let e : Int := (if neg then -(decimalValue ds : Int) else (decimalValue ds : Int)) - fraction.length
      some (true, mantissa, decide (e < 0), e.natAbs, rest)

def readNumber (negative : Bool) (cs : List Char) : Option (Json × List Char) := do
  let (isFloat, mantissa, expNegative, exponent, rest) ← readMagnitude cs
  if isFloat then
    let x := Float.ofScientific mantissa expNegative exponent
    return (.float (if negative then -x else x), rest)
  return (.int (if negative then -(mantissa : Int) else mantissa), rest)

def words : List (String × Json) :=
  [("null", .null), ("true", .bool true), ("false", .bool false), ("NaN", .float (0.0 / 0.0)),
    ("Infinity", .float (1.0 / 0.0)), ("-Infinity", .float (-(1.0 / 0.0)))]

def readWord (cs : List Char) : Option (Json × List Char) :=
  (words.find? fun (w, _) => Chars.startsWith w.toList cs).map fun (w, j) => (j, cs.drop w.length)

mutual

/-- Reads one value; the fuel bounds the number of steps. -/
def readValue : Nat → List Char → Option (Json × List Char)
  | 0, _ => none
  | fuel + 1, cs =>
    match cs with
    | '"' :: rest => (readString (rest.length + 1) [] rest).map (fun (s, more) => (.str s, more))
    | '\x7b' :: rest =>
      match skip rest with
      | '\x7d' :: more => some (.obj [], more)
      | more => readMembers fuel [] more
    | '[' :: rest =>
      match skip rest with
      | ']' :: more => some (.arr [], more)
      | more => readItems fuel [] more
    | '-' :: rest => readWord cs <|> readNumber true rest
    | _ => readWord cs <|> readNumber false cs

def readItems : Nat → List Json → List Char → Option (Json × List Char)
  | 0, _, _ => none
  | fuel + 1, acc, cs => do
    let (v, rest) ← readValue fuel (skip cs)
    match skip rest with
    | ',' :: more => readItems fuel (v :: acc) more
    | ']' :: more => return (.arr (v :: acc).reverse, more)
    | _ => none

def readMembers : Nat → List (String × Json) → List Char → Option (Json × List Char)
  | 0, _, _ => none
  | fuel + 1, acc, cs => do
    let '"' :: rest := skip cs | none
    let (key, rest) ← readString (rest.length + 1) [] rest
    let ':' :: rest := skip rest | none
    let (v, rest) ← readValue fuel (skip rest)
    let acc := Sequence.put key v acc
    match skip rest with
    | ',' :: more => readMembers fuel acc more
    | '\x7d' :: more => return (.obj acc, more)
    | _ => none

end

def parse? (text : String) : Option Json := do
  let cs := text.toList
  let (v, rest) ← readValue (2 * cs.length + 2) (skip cs)
  if (skip rest).isEmpty then some v else none

/-! ## Printing -/

def unitText (n : Nat) : String := "\\u" ++ Hex.ofBytes [n / 256 % 256, n % 256]

def charText (c : Char) : String :=
  if let some (e, _) := escapes.find? (·.2 == c) then String.ofList ['\\', e]
  else if 32 ≤ c.toNat && c.toNat < 127 then String.singleton c
  else if c.toNat < 0x10000 then unitText c.toNat
  else
    let n := c.toNat - 0x10000
    unitText (0xd800 + n / 0x400) ++ unitText (0xdc00 + n % 0x400)

/-- A quoted text in which everything outside printable ASCII is escaped. -/
def quote (s : String) : String := s.foldl (fun acc c => acc ++ charText c) "\"" ++ "\""

def floatText (x : Float) : String :=
  if x.isNaN then "NaN"
  else if x.isInf then (if x < 0 then "-Infinity" else "Infinity")
  else Decimal.ofFloat x

/-- How the parts of a value are written and put together. -/
structure Style where
  itemGap : String
  keyGap : String
  sorted : Bool := false
  indent : Option Nat := none
  null : String := "null"
  truth : Bool → String := fun b => if b then "true" else "false"
  float : Float → String := floatText
  str : String → String := quote

def compactStyle : Style := { itemGap := ",", keyGap := ":" }

/-- One blank after a comma and after a colon. -/
def spacedStyle : Style := { itemGap := ", ", keyGap := ": " }

def newline (style : Style) (level : Nat) : String :=
  match style.indent with
  | none => ""
  | some n => "\n" ++ String.ofList (List.replicate (n * level) ' ')

def arrange (style : Style) (ms : List (String × String)) : List String :=
  (if style.sorted then ms.mergeSort (fun a b => Text.le a.1 b.1) else ms).map (·.2)

def bracket (style : Style) (level : Nat) (opening closing : String) (parts : List String) : String :=
  if parts.isEmpty then opening ++ closing
  else opening ++ newline style (level + 1)
    ++ (style.itemGap ++ newline style (level + 1)).intercalate parts
    ++ newline style level ++ closing

mutual

def render (style : Style) (level : Nat) : Json → String
  | .null => style.null
  | .bool b => style.truth b
  | .int n => toString n
  | .float x => style.float x
  | .str s => style.str s
  | .arr xs => bracket style level "[" "]" (renderItems style (level + 1) xs)
  | .obj ms => bracket style level "\x7b" "\x7d" (arrange style (renderMembers style (level + 1) ms))

def renderItems (style : Style) (level : Nat) : List Json → List String
  | [] => []
  | x :: xs => render style level x :: renderItems style level xs

def renderMembers (style : Style) (level : Nat) : List (String × Json) → List (String × String)
  | [] => []
  | (k, v) :: ms => (k, style.str k ++ style.keyGap ++ render style level v) :: renderMembers style level ms

end

def compact (j : Json) : String := render compactStyle 0 j

end Json
end EvmAudit

/-! # Parts that have to be there

Access to the parts of a JSON value, with a fault that tells why a part cannot be had. -/

namespace EvmAudit.Json

def part (j : Json) (key : String) : Except Fault Json :=
  match j with
  | .obj _ => match j.get? key with
    | some v => .ok v
    | none => .error .noSuchKey
  | _ => .error .wrongSort

def path (j : Json) (keys : List String) : Except Fault Json := keys.foldlM part j

def entries : Json → Except Fault (List (String × Json))
  | .obj ms => .ok ms
  | _ => .error .noSuchPart

def elements : Json → Except Fault (List Json)
  | .arr xs => .ok xs
  | _ => .error .wrongSort

def text : Json → Except Fault String
  | .str s => .ok s
  | _ => .error .wrongSort

def number : Json → Except Fault Int
  | .int n => .ok n
  | _ => .error .wrongSort

/-- Is a value neither absent, empty nor zero? -/
def isGiven : Json → Bool
  | .null => false
  | .bool b => b
  | .int n => n != 0
  | .float x => x != 0
  | .str s => !s.isEmpty
  | .arr xs => !xs.isEmpty
  | .obj ms => !ms.isEmpty

end EvmAudit.Json

/-! # Shown values

The text of a value as it stands in messages: texts in single quotes, `True`, `False` and `None`, lists in brackets and
records in braces. -/

namespace EvmAudit.Shown

def hexPad (n width : Nat) : String := Text.padLeft (Hex.ofNat n) width '0'

def printable (n : Nat) : Bool :=
  if n < 127 then n ≥ 32
  else n ≥ 161 && n != 173 && !(0x2028 ≤ n && n ≤ 0x202e) && !(0x2000 ≤ n && n ≤ 0x200f)
    && !(0xd800 ≤ n && n < 0xe000) && n != 0x3000 && n != 0xfeff && n != 0x1680

def char (quote : Char) (c : Char) : String :=
  let n := c.toNat
  if c == quote || c == '\\' then "\\" ++ c.toString
  else if c == '\n' then "\\n"
  else if c == '\r' then "\\r"
  else if c == '\t' then "\\t"
  else if printable n then c.toString
  else if n < 256 then "\\x" ++ hexPad n 2
  else if n < 65536 then "\\u" ++ hexPad n 4
  else "\\U" ++ hexPad n 8

/-- A quoted text: in single quotes, unless only double quotes avoid an escape. -/
def str (s : String) : String :=
  let cs := s.toList
  let quote := if cs.contains '\'' && !cs.contains '"' then '"' else '\''
  quote.toString ++ String.join (cs.map (char quote)) ++ quote.toString

def octets (bs : List Nat) : String :=
  let quote := if bs.contains 39 && !bs.contains 34 then '"' else '\''
  let octet (b : Nat) : String := if b < 127 then char quote (Char.ofNat b) else "\\x" ++ hexPad b 2
  "b" ++ quote.toString ++ String.join (bs.map octet) ++ quote.toString

def style : Json.Style :=
  { Json.spacedStyle with
    null := "None", truth := fun b => if b then "True" else "False", float := Decimal.ofFloat, str := str }

def json (j : Json) : String := j.render style 0

/-- The text of a value that stands alone: a text is not quoted. -/
def plain : Json → String
  | .str s => s
  | j => json j

end EvmAudit.Shown
