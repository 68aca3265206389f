import EvmAudit.Text.Basic

/-!
# Literals

Texts in quotes, whole numbers, truth values, lists in brackets, and tables in braces. Names and operations may stand in
the place of a literal; they are recognised, but they have no value here.
-/

namespace EvmAudit

inductive Literal where
  | text (s : String)
  | number (n : Int)
  /-- Digits, of which some stand behind the point. -/
  | fraction (digits places : Nat)
  | truth (b : Bool)
  | nothing
  | list (items : List Literal)
  | table (entries : List (Literal × Literal))
  | other

namespace Literal

inductive Token where
  | mark (c : Char)
  | text (s : String)
  | word (s : String)
  deriving DecidableEq, Repr

def isMark (c : Char) : Bool := "\x7b\x7d[]():,+-*/%|&^~<>=@!;".toList.contains c

def isQuote (c : Char) : Bool := c == '\'' || c == '"'

/-- Cuts a text into tokens; a quote that is not closed has none. The number bounds the tokens. -/
def tokens : Nat → List Char → Option (List Token)
  | 0, _ => some []
  | _, [] => some []
  | n + 1, c :: rest =>
    if Chars.isBlank c then tokens n rest
    else if isMark c then (tokens n rest).map (.mark c :: ·)
    else if isQuote c then
      let body := rest.takeWhile (· != c)
      match rest.dropWhile (· != c) with
      | [] => none
      | _ :: rest => (tokens n rest).map (.text (String.ofList body) :: ·)
    else
      let inWord (d : Char) : Bool := !(Chars.isBlank d || isMark d || isQuote d)
      (tokens n (rest.dropWhile inWord)).map (.word (String.ofList (c :: rest.takeWhile inWord)) :: ·)

/-- Marks that join two operands. -/
def isJoint (c : Char) : Bool := "+-*/%|&^<>@".toList.contains c

/-- A word: a number, a constant, or a name with the names of its parts. -/
def ofWord? (s : String) : Option Literal :=
  match s with
  | "True" => some (.truth true)
  | "False" => some (.truth false)
  | "None" => some .nothing
  | s => match s.toList with
    | [] => none
    | c :: rest =>
      if Chars.isDigit c || c == '.' then
        match Numeral.parse? 0 s with
        | some n => some (.number n)
        | none =>
          -- a number with a fraction
          let whole := s.toList.takeWhile (· != '.')
          let places := s.toList.drop (whole.length + 1)
          if (whole ++ places).all Chars.isDigit && !(whole ++ places).isEmpty then
            some (.fraction ((whole ++ places).foldl (fun n d => n * 10 + (d.toNat - 48)) 0) places.length)
          else none
      else if (c :: rest).all (fun d => Chars.isAlnum d || d == '_' || d == '.' || d.toNat > 127) then some .other
      else none

/-- A number behind a sign. -/
def signed (f : Int → Int) : Literal → Literal
  | .number k => .number (f k)
  | _ => .other

mutual

def operand : Nat → List Token → Option (Literal × List Token)
  | _ + 1, .text s :: rest => some (.text s, rest)
  | n + 1, .word "not" :: rest | n + 1, .mark '~' :: rest => (operand n rest).map (.other, ·.2)
  | _ + 1, .word s :: rest => (ofWord? s).map (·, rest)
  | n + 1, .mark '-' :: rest => (operand n rest).map (Prod.map (signed (- ·)) id)
  | n + 1, .mark '+' :: rest => (operand n rest).map (Prod.map (signed id) id)
  | n + 1, .mark '[' :: rest => (items n ']' rest).map fun (xs, _, rest) => (.list xs, rest)
  | n + 1, .mark '(' :: rest => (items n ')' rest).map (fun (xs, isList, rest) => (match xs with
    | [x] => if isList then .list [x] else x
    | xs => .list xs, rest))
  | n + 1, .mark '\x7b' :: rest => (entries n rest).map fun (xs, rest) => (.table xs, rest)
  | _, _ => none

def read : Nat → List Token → Option (Literal × List Token)
  | 0, _ => none
  | n + 1, ts => do
    let (x, rest) ← operand n ts
    tail n x rest

def tail : Nat → Literal → List Token → Option (Literal × List Token)
  | 0, _, _ => none
  | n + 1, x, ts => match ts with
    | .mark '(' :: rest => do
      let (_, _, rest) ← items n ')' rest
      tail n .other rest
    | .mark '[' :: rest => do
      let (xs, _, rest) ← items n ']' rest
      if xs.isEmpty then none else tail n .other rest
    | .mark c :: rest => if isJoint c then (read n rest).map (.other, ·.2) else some (x, ts)
    | .word w :: rest => if ["and", "or", "in", "is"].contains w then (read n rest).map (.other, ·.2) else none
    | [] => some (x, ts)
    | _ => none

/-- Reads what is left of a list. A comma may stand after the last item; the flag says whether there was any comma. -/
def items : Nat → Char → List Token → Option (List Literal × Bool × List Token)
  | 0, _, _ => none
  | n + 1, close, ts => match ts with
    | .mark c :: rest => if c == close then some ([], true, rest) else item n close ts
    | ts => item n close ts

def item : Nat → Char → List Token → Option (List Literal × Bool × List Token)
  | 0, _, _ => none
  | n + 1, close, ts => do
    let (x, rest) ← read n ts
    match rest with
    | .mark c :: rest =>
      if c == close then some ([x], false, rest)
      else if c == ',' then (items n close rest).map (fun (xs, _, rest) => (x :: xs, true, rest))
      else none
    | _ => none

/-- Reads what is left of a table; a comma may stand after the last entry. -/
def entries : Nat → List Token → Option (List (Literal × Literal) × List Token)
  | 0, _ => none
  | _ + 1, .mark '\x7d' :: rest => some ([], rest)
  | n + 1, ts => do
    let (k, rest) ← read n ts
    match rest with
    | .mark ':' :: rest => do
      let (v, rest) ← read n rest
      match rest with
      | .mark '\x7d' :: rest => some ([(k, v)], rest)
      | .mark ',' :: rest => (entries n rest).map fun (xs, rest) => ((k, v) :: xs, rest)
      | _ => none
    | _ => none

end

/-- Reads a whole text as one literal; commas make a list also without brackets. -/
def parse? (s : String) : Option Literal := do
  let ts ← tokens (s.length + 1) s.toList
  let fuel := 8 * ts.length + 8
  match read fuel ts with
  | some (x, []) => some x
  | some (_, .mark ',' :: _) => do
    let (xs, _, rest) ← items fuel ')' (ts ++ [.mark ')'])
    if rest.isEmpty then some (.list xs) else none
  | _ => none

mutual

def isPlain : Literal → Bool
  | .other => false
  | .list xs => arePlain xs
  | .table xs => entriesPlain xs
  | _ => true

def arePlain : List Literal → Bool
  | [] => true
  | x :: xs => isPlain x && arePlain xs

def entriesPlain : List (Literal × Literal) → Bool
  | [] => true
  | (k, v) :: xs => isPlain k && isPlain v && entriesPlain xs

end

end Literal

end EvmAudit
