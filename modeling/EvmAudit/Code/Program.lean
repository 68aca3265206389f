import EvmAudit.Code.Instr
import EvmAudit.Digest

/-!
# Function selectors

Known signatures of functions by their four-byte selector, written `0x` and eight digits. Signatures found in
source files stand before those of the general table.
-/

namespace EvmAudit

structure Selectors where
  /-- The general table: selector and signature, each pair once. -/
  known : List (String × String) := []
  fromSource : List (String × List String) := []
  online : Bool := false
  /-- Selectors that a lookup outside did not find. -/
  missed : List String := []

namespace Selectors

/-- A text as it shows between quotes; single quotes unless only they occur in it. -/
def shown (s : String) : String :=
  let cs := s.toList
  let double := cs.contains '\'' && !cs.contains '"'
  let quote := if double then '"' else '\''
  let body := cs.flatMap (fun c =>
    if c == '\\' then ['\\', '\\']
    else if c == quote then ['\\', c]
    else if c == '\n' then ['\\', 'n']
    else if c == '\r' then ['\\', 'r']
    else if c == '\t' then ['\\', 't']
    else [c])
  String.ofList (quote :: body ++ [quote])

/-- A selector with its marker; it has to have ten characters. -/
def normalise (selector : String) : Except Fault String :=
  let s := if Text.startsWith selector "0x" then selector else "0x" ++ selector
  if s.length = 10 then .ok s
  else .error (.failure .malformed
    ("('Invalid byte signature %s, must have 10 characters', " ++ shown s ++ ")"))

def add (t : Selectors) (selector signature : String) : Except Fault Selectors := do
  let s ← normalise selector
  if t.known.contains (s, signature) then return t
  return { t with known := t.known ++ [(s, signature)] }

/-- The signatures of a selector. What the outside does not know either is remembered. -/
def find (t : Selectors) (selector : String) : Except Fault (List String × Selectors) := do
  let s ← normalise selector
  match t.fromSource.lookup s with
  | some names => return (names, t)
  | none =>
    let names := (t.known.filter (·.1 == s)).map (·.2)
    if !names.isEmpty || !t.online || t.missed.contains s then return (names, t)
    return ([], { t with missed := t.missed ++ [s] })

/-- Sets the signatures found in source files for a selector. -/
def setSource (t : Selectors) (selector : String) (names : List String) : Selectors :=
  if t.fromSource.any (·.1 == selector) then
    { t with fromSource := t.fromSource.map (fun p => if p.1 == selector then (p.1, names) else p) }
  else { t with fromSource := t.fromSource ++ [(selector, names)] }

end Selectors

/-! # Programs

A program is a code with its instructions and what its jump table tells about functions: a push of a selector, a
comparison, and a push of the address that the function starts at. When new code is assigned, what was
known about functions stays and the new findings are added. -/

/-- What one entry of a jump table tells. -/
structure FunctionInfo where
  selector : String
  /-- Address and name of the function, if an address follows. -/
  entry : Option (Int × String)

structure Program where
  code : Bytecode
  instrs : Array Instr := #[]
  selectors : List String := []
  nameToAddress : List (String × Int) := []
  addressToName : List (Int × String) := []
  online : Bool := false
  deriving Inhabited

namespace FunctionInfo

/-- The text of an immediate in digits, without marker. -/
def digitsOf : Argument → Except Fault String
  | .hex text => .ok text
  | .cells items => (Bytecode.bytesOf items).map Hex.ofBytes

/-- The selector that an immediate stands for, filled up with zeros on the left. -/
def selectorOf : Argument → Except Fault String
  | .hex text => .ok ("0x" ++ Text.padLeft (Text.drop text 2) 8 '0')
  | .cells items => do return "0x" ++ Text.padLeft (Hex.ofBytes (← Bytecode.bytesOf items)) 8 '0'

/-- Reads an entry of the jump table from the immediates of the instructions. All names of a selector are joined
in order. -/
def read (known : Selectors) (arguments : List (Option Argument)) (index : Int) :
    Except Fault (FunctionInfo × Selectors) := do
  let first ← match Sequence.at? arguments index with
    | none => throw .outOfRange
    | some none => throw .noSuchKey
    | some (some a) => pure a
  let selector ← selectorOf first
  let (names, known) ← known.find selector
  let name :=
    if names.isEmpty then "_function_" ++ selector
    else " or ".intercalate (Text.sort names.eraseDups)
  match Sequence.at? arguments (index + 2) with
  | some (some a) =>
    match Numeral.parse? 16 (← digitsOf a) with
    | some entry => return (⟨selector, some (entry, name)⟩, known)
    | none => throw .malformed
  | _ => return (⟨selector, none⟩, known)

end FunctionInfo

namespace Program

def entryPattern : List (List Opcode) := [[.push 1, .push 2, .push 3, .push 4], [.eq]]

def addEntry (p : Program) (info : FunctionInfo) : Program :=
  let p := { p with selectors := p.selectors ++ [info.selector] }
  match info.entry with
  | none => p
  | some (address, name) =>
    { p with
      nameToAddress := Sequence.put name address p.nameToAddress
      addressToName := Sequence.put address name p.addressToName }

/-- What assigning a code leaves behind: the program so far, and the fault that stopped it, if any. -/
structure Assigned where
  program : Program
  known : Selectors
  fault : Option Fault := none

def addEntries (arguments : List (Option Argument)) : List Nat → Assigned → Assigned
  | [], r => r
  | i :: rest, r =>
    match FunctionInfo.read r.known arguments i with
    | .ok (info, known) => addEntries arguments rest { r with program := r.program.addEntry info, known := known }
    | .error f => { r with fault := some f }

def assign (p : Program) (known : Selectors) (code : Bytecode) : Assigned :=
  let p := { p with code := code }
  match Instr.ofCode code with
  | .error f => ⟨p, known, some f⟩
  | .ok instrs =>
    let p := { p with instrs := instrs.toArray }
    let indices := Pattern.find entryPattern (instrs.map (·.opcode))
    addEntries (instrs.map (·.argument)) indices ⟨p, known, none⟩

def make (known : Selectors) (code : Bytecode) : Except Fault (Program × Selectors) :=
  let r := assign { code := code } known code
  match r.fault with
  | some f => .error f
  | none => .ok (r.program, r.known)

def listing (p : Program) : Except Fault String := Instr.listing p.instrs.toList

end Program
end EvmAudit

/-! # Hashes of code

The hash of code in text form is its digest. Cells have no digest, as some may be symbolic; they are told apart by a
64-bit fingerprint of their values instead. -/

namespace EvmAudit.CodeHash

/-- The digest of a text: of its bytes, or of what it spells if it begins with `0x`, which it cannot, because the marker
itself is no byte. -/
def ofText (s : String) : Except Fault (List Nat) :=
  if Text.take s 2 == "0x" then
    match Hex.toBytes? s with
    | some bs => .ok (Digest.Sha3.hash bs)
    | none => .error .malformed
  else .ok (Digest.Sha3.hash (Utf8.octets s))

/-- The digest of hexadecimal code after `0x`; nothing for text that is not code. -/
def ofHex (code : String) : String :=
  match Hex.toBytes? (Hex.dropMarker code) with
  | some bs => "0x" ++ Hex.ofBytes (Digest.Sha3.hash bs)
  | none => ""

/-! ## Fingerprints -/

/-- An integer reduced to the field of fingerprints. -/
def reduce (n : Int) : UInt64 :=
  let m : Nat := n.natAbs % (2 ^ 61 - 1)
  let r : Int := if n < 0 then -(m : Int) else m
  let r := if r = -1 then -2 else r
  UInt64.ofNat (r % ((2 ^ 64 : Nat) : Int)).toNat

def mix (lanes : List UInt64) : UInt64 :=
  let p1 : UInt64 := 11400714785074694791
  let p2 : UInt64 := 14029467366897019727
  let p5 : UInt64 := 2870177450012600261
  let acc := lanes.foldl (fun acc lane =>
    let a := acc + lane * p2
    ((a <<< 31) ||| (a >>> 33)) * p1) p5
  let acc := acc + (UInt64.ofNat lanes.length ^^^ (p5 ^^^ 3527539))
  if acc == 0xFFFFFFFFFFFFFFFF then 1546275796 else acc

def signed (x : UInt64) : Int :=
  if x.toNat < 2 ^ 63 then x.toNat else (x.toNat : Int) - (2 ^ 64 : Nat)

/-- The lane of a cell: integers by value, numbers by value and width, other terms by their identity. -/
def lane (l : Ledger) : Item → UInt64
  | .expr e =>
    match l.termOf e with
    | .const v w => mix [reduce v, reduce w]
    | _ => reduce e.id
  | i => reduce (i.int?.getD 0)

def ofCells (l : Ledger) (items : List Item) : Int := signed (mix (items.map (lane l)))

def text (l : Ledger) : Bytecode → String
  | .hex code => ofHex code
  | .raw bytes => "0x" ++ Hex.ofBytes (Digest.Sha3.hash bytes)
  | .cells items => toString (ofCells l items)

end EvmAudit.CodeHash

/-! # Contracts

A contract is a name with its runtime code and its creation code. Places where the address of a library will be put in are
filled with a fixed address. A contract can be searched for by an expression over its instructions and its
functions. -/

namespace EvmAudit

structure Contract where
  name : String
  code : String
  creationCode : String
  program : Program
  creationProgram : Program
  deriving Inhabited

namespace Contract

def libraryAddress : List Char := (List.replicate 20 ['a', 'a']).flatten

/-- Fills the places for library addresses: two underscores and the 38 characters after them. -/
def fillLibraries : Nat → List Char → List Char
  | 0, cs => cs
  | _ + 1, [] => []
  | fuel + 1, c :: rest =>
    match c, rest with
    | '_', '_' :: more =>
      let body := more.take 38
      if body.length = 38 && !body.contains '\n' then
        libraryAddress ++ fillLibraries fuel (more.drop 38)
      else c :: fillLibraries fuel rest
    | _, _ => c :: fillLibraries fuel rest

def linked (code : String) : String := String.ofList (fillLibraries code.length code.toList)

def make (known : Selectors) (code creationCode name : String) :
    Except Fault (Contract × Selectors) := do
  let code := linked code
  let creationCode := linked creationCode
  let (program, known) ← Program.make known (.hex code)
  let (creationProgram, known) ← Program.make known (.hex creationCode)
  return (⟨name, code, creationCode, program, creationProgram⟩, known)

def codeHash (c : Contract) : String := CodeHash.ofHex c.code

def creationHash (c : Contract) : String := CodeHash.ofHex c.creationCode

/-! ## Search expressions -/

inductive Connective where
  | and | or | not
  deriving DecidableEq

/-- A piece of a search expression: an atom with its value, or a connective. -/
inductive Piece where
  | atom (b : Bool)
  | connective (c : Connective)

/-- A connective with blanks on both sides at the front of a text. -/
def connectiveAt (cs : List Char) : Option (Connective × List Char) :=
  let blanks := cs.takeWhile Chars.isBlank
  if blanks.isEmpty then none
  else
    let rest := cs.drop blanks.length
    let words : List (Connective × String) := [(.and, "and"), (.or, "or"), (.not, "not")]
    words.findSome? (fun (c, w) =>
      if Chars.startsWith w.toList rest then
        let after := rest.drop w.length
        let gap := after.takeWhile Chars.isBlank
        if gap.isEmpty then none else some (c, after.drop gap.length)
      else none)

/-- Cuts at connectives, at most `n` times: the first part, then each connective with the part after it. -/
def cutParts : Nat → Nat → List Char → List Char → List Char × List (Connective × List Char)
  | 0, _, acc, cs => (acc.reverse ++ cs, [])
  | _ + 1, 0, acc, cs => (acc.reverse ++ cs, [])
  | _ + 1, _ + 1, acc, [] => (acc.reverse, [])
  | fuel + 1, n + 1, acc, c :: rest =>
    match connectiveAt (c :: rest) with
    | some (w, more) =>
      let (part, parts) := cutParts fuel n [] more
      (acc.reverse, (w, part) :: parts)
    | none => cutParts fuel (n + 1) (c :: acc) rest

/-- What stands between `code#` and the next `#`. -/
def codeAtom? (token : List Char) : Option (List Char) :=
  if Chars.startsWith "code#".toList token then
    let body := token.drop 5
    let inner := body.takeWhile fun c => Chars.isAlnum c || Chars.isBlank c || c == ',' || c == '[' || c == ']'
    if inner.isEmpty then none
    else if (body.drop inner.length).head? == some '#' then some inner else none
  else none

/-- What stands between `func#` and a `#` at the end. -/
def funcAtom? (token : List Char) : Option (List Char) :=
  if Chars.startsWith "func#".toList token then
    let body := token.drop 5
    let inner := body.takeWhile (fun c =>
      Chars.isAlnum c || Chars.isBlank c || c == '_' || c == ',' || c == '(' || c == '\\'
        || c == ')' || c == '[' || c == ']')
    if inner.isEmpty then none
    else
      let tail := body.drop inner.length
      if tail == ['#'] || tail == ['#', '\n'] then some inner else none
  else none

/-- The pieces that a part contributes: an atom, or nothing if it is no atom. -/
def pieceOf (c : Contract) (token : List Char) : Except Fault (List Piece) := do
  match codeAtom? token with
  | some inner =>
    if inner.contains '\n' || inner.contains '\r' then throw (.failure .badSyntax "")
    let needle := inner.map fun ch => if ch == ',' then '\n' else ch
    let text ← c.program.listing
    return [.atom (Chars.contains needle text.toList)]
  | none =>
    match funcAtom? token with
    | some inner =>
      let digest ← CodeHash.ofText (String.ofList inner)
      return [.atom (c.program.selectors.contains ("0x" ++ Hex.ofBytes (digest.take 4)))]
    | none => return []

/-- Conjunctions bind tighter than disjunctions; atoms and connectives have to alternate. -/
def evaluate : Bool → Bool → List Piece → Except Fault Bool
  -- the disjunction so far, the conjunction so far, what follows an atom
  | done, current, [] => .ok (done || current)
  | done, current, .connective .and :: .atom b :: rest => evaluate done (current && b) rest
  | done, current, .connective .or :: .atom b :: rest => evaluate (done || current) b rest
  | _, _, _ => .error (.failure .badSyntax "")

def satisfies (c : Contract) (expression : String) : Except Fault Bool := do
  let cs := expression.toList
  let (first, others) := cutParts (cs.length + 1) 2 [] cs
  let head ← c.pieceOf first
  let tail ← others.mapM fun (w, part) => do return Piece.connective w :: (← c.pieceOf part)
  match head ++ tail.flatten with
  | .atom b :: rest => evaluate false b rest
  | _ => throw (.failure .badSyntax "")

end Contract
end EvmAudit
