import EvmAudit.Text.Json

/-!
# Arguments of a command line

The words of a command line are options, which begin with a dash, and plain words. First each word is classified. Then
options take the words after them that they need, and plain words go to the positional arguments in turn. A long option
may be abbreviated as long as it is clear which one is meant; short options without a value may be written together.
-/

namespace EvmAudit.Cli

open Text

inductive Value where
  | absent
  | flag (b : Bool)
  | whole (n : Int)
  | decimal (x : Float)
  | text (s : String)
  | texts (xs : List String)
  deriving Inhabited

inductive Kind where
  | text
  | whole
  | decimal
  /-- Any word but the empty one says yes. -/
  | truth
  | file
  deriving DecidableEq, Repr

inductive Takes where
  | nothing (value : Value)
  | help
  | one
  | many
  | command

structure Argument where
  /-- How an option is written; positional arguments have none. -/
  flags : List String := []
  /-- The name; an option has that of its last flag. -/
  name : String := String.ofList (((flags.getLastD "").toList.dropWhile (· == '-')).map fun c => if c == '-' then '_' else c)
  takes : Takes := .one
  kind : Kind := .text
  /-- The words that are allowed; all if there are none. -/
  choices : List String := []
  default : Value := .absent
  metavar : Option String := none
  /-- Help; an argument without help is not shown. -/
  help : Option String := none

inductive Stop where
  | misuse
  | help
  deriving DecidableEq, Repr

/-! ## Numbers -/

/-- Digits with single underscores between them, without those. -/
def plainDigits (cs : List Char) : Option (List Char) :=
  let ok := (Numeral.digits 10 true 0 cs).isSome
  if ok then some (cs.filter (· != '_')) else none

/-- A decimal number without sign: digits, a point with digits, an exponent. -/
def magnitude? (cs : List Char) : Option Float := do
  let lower := cs.map Char.toLower
  if [['i', 'n', 'f'], "infinity".toList].contains lower then return 1.0 / 0.0
  if lower == ['n', 'a', 'n'] then return 0.0 / 0.0
  let mantissa := lower.takeWhile (· != 'e')
  let exponent : Int ← match lower.drop mantissa.length with
    | [] => some 0
    | _ :: '-' :: ds => (plainDigits ds).map (-Json.decimalValue ·)
    | _ :: '+' :: ds | _ :: ds => (plainDigits ds).map (Json.decimalValue ·)
  let whole := mantissa.takeWhile (· != '.')
  let rest := mantissa.drop whole.length
  let fraction := rest.drop 1
  if whole.isEmpty && fraction.isEmpty then none
  else do
    let whole ← if whole.isEmpty then some [] else plainDigits whole
    let fraction ← if fraction.isEmpty then some [] else plainDigits fraction
    let e := exponent - (fraction.length : Int)
    return Float.ofScientific (Json.decimalValue (whole ++ fraction)) (e < 0) e.natAbs

def decimal? (s : String) : Option Float :=
  match Chars.trim s.toList with
  | '-' :: rest => (magnitude? rest).map (-·)
  | '+' :: rest => magnitude? rest
  | cs => magnitude? cs

/-! ## Classes of words -/

inductive Word where
  | plain
  /-- Two dashes: all words after it are plain. -/
  | divider
  | option (a : Option Argument) (flag : String) (isMarked : Bool) (joined : Option String)

def Word.isOption : Word → Bool
  | .option _ _ _ _ => true
  | _ => false

def Word.isDivider : Word → Bool
  | .divider => true
  | _ => false

def allFlags (args : List Argument) : List (String × Argument) := args.flatMap fun a => a.flags.map (·, a)

def cutAtEquals (s : String) : String × Option String :=
  match afterFirst? s '=' with
  | some rest => (take s (s.length - rest.length - 1), some rest)
  | none => (s, none)

def candidates (flags : List (String × Argument)) (s : String) : List Word :=
  if startsWith s "--" then
    let (start, joined) := cutAtEquals s
    (flags.filter (startsWith ·.1 start)).map (fun (f, a) => .option (some a) f joined.isSome joined)
  else
    flags.filterMap (fun (f, a) =>
      if f == take s 2 then some (.option (some a) f false (some (drop s 2)))
      else if startsWith f s then some (.option (some a) f false none)
      else none)

def isNegative (s : String) : Bool :=
  match s.toList with
  | '-' :: cs =>
    let whole := cs.takeWhile Chars.isDigit
    match cs.drop whole.length with
    | [] => !whole.isEmpty
    | '.' :: ds => !ds.isEmpty && ds.all Chars.isDigit
    | _ => false
  | _ => false

def classify (args : List Argument) (s : String) : Except Stop Word :=
  let flags := allFlags args
  if !startsWith s "-" then .ok .plain
  else match flags.lookup s with
    | some a => .ok (.option (some a) s false none)
    | none =>
      if s.length == 1 then .ok .plain
      else
        let (start, joined) := cutAtEquals s
        match joined, flags.lookup start with
        | some j, some a => .ok (.option (some a) start true (some j))
        | _, _ => match candidates flags s with
          | [w] => .ok w
          | [] =>
            if isNegative s && !flags.any (isNegative ·.1) then .ok .plain
            else if s.toList.contains ' ' then .ok .plain
            else .ok (.option none s false none)
          | _ => .error .misuse

def classifyAll (args : List Argument) : List String → Except Stop (List (String × Word))
  | [] => .ok []
  | s :: rest =>
    if s == "--" then .ok ((s, .divider) :: rest.map (·, .plain))
    else do
      let w ← classify args s
      return (s, w) :: (← classifyAll args rest)

/-! ## Reading -/

structure Reading where
  /-- Values that were given, the latest first. -/
  values : List (String × Value) := []
  extras : List String := []
  /-- Positional arguments that are still to come. -/
  pending : List Argument
  rest : List String := []

namespace Reading

def convert (hasFile : String → Bool) (a : Argument) (s : String) : Except Stop Value :=
  let value : Option Value := match a.kind with
    | .text => some (.text s)
    | .whole => (Numeral.parse? 10 s).map .whole
    | .decimal => (decimal? s).map .decimal
    | .truth => some (.flag (!s.isEmpty))
    | .file => if hasFile s then some (.text s) else none
  match value with
  | some v => if a.choices.isEmpty || a.choices.contains s then .ok v else .error .misuse
  | none => .error .misuse

def put (r : Reading) (name : String) (v : Value) : Reading := { r with values := (name, v) :: r.values }

def take (hasFile : String → Bool) (r : Reading) (a : Argument) (words : List String) : Except Stop Reading :=
  match a.takes with
  | .nothing v => .ok (r.put a.name v)
  | .help => .error .help
  | .one => match words.erase "--" with
    | s :: _ => do return r.put a.name (← convert hasFile a s)
    | [] => .error .misuse
  | .many => .ok (r.put a.name (.texts (words.erase "--")))
  | .command => match words with
    | s :: rest => if a.choices.contains s then .ok { r.put a.name (.text s) with rest := rest } else .error .misuse
    | [] => .error .misuse

/-- How many words an argument takes from the front of what is left. -/
def count? (a : Argument) (ws : List Word) : Option Nat :=
  let dividers := (ws.takeWhile Word.isDivider).length
  match a.takes with
  | .many => some (ws.takeWhile (!·.isOption)).length
  | .command => match ws.drop dividers with
    | .plain :: _ => some ws.length
    | _ => none
  | _ => match ws.drop dividers with
    | .plain :: rest => some (dividers + 1 + (rest.takeWhile Word.isDivider).length)
    | _ => none

/-- How many words each of some positional arguments takes. -/
def counts? : List Argument → List Word → Option (List Nat)
  | [], _ => some []
  | a :: as, ws => do
    let n ← count? a ws
    return n :: (← counts? as (ws.drop n))

/-- The counts for as many positional arguments as can be filled. -/
def bestCounts (as : List Argument) (ws : List Word) : Nat → List Nat
  | 0 => []
  | n + 1 => match counts? (as.take (n + 1)) ws with
    | some ns => ns
    | none => bestCounts as ws n

def fill (hasFile : String → Bool) : Reading → List (Argument × Nat) → List (String × Word) →
    Except Stop (Reading × List (String × Word))
  | r, [], ws => .ok (r, ws)
  | r, (a, n) :: rest, ws => do
    let r ← r.take hasFile a ((ws.take n).map (·.1))
    fill hasFile r rest (ws.drop n)

/-- Fills as many positional arguments as can be filled. -/
def positionals (hasFile : String → Bool) (r : Reading) (ws : List (String × Word)) :
    Except Stop (Reading × List (String × Word)) :=
  let ns := bestCounts r.pending (ws.map (·.2)) r.pending.length
  fill hasFile { r with pending := r.pending.drop ns.length } (r.pending.zip ns) ws

/-- Options written together: each with its words, and what is left over. The number bounds the steps. -/
def joinedOptions (flags : List (String × Argument)) (following : List (String × Word)) :
    Nat → Argument → String → Bool → Option String → Except Stop (List (Argument × List String) × List String × Nat)
  | 0, _, _, _, _ => .error .misuse
  | n + 1, a, flag, isMarked, joined =>
    match a.takes, joined with
    | .one, some j => .ok ([(a, [j])], [], 0)
    | .one, none => match following with
      | (s, .plain) :: _ => .ok ([(a, [s])], [], 1)
      | _ => .error .misuse
    | _, none => .ok ([(a, [])], [], 0)
    | _, some j =>
      if startsWith flag "--" || j.isEmpty then .error .misuse
      else if isMarked || startsWith j "-" then .error .misuse
      else
        let next := "-" ++ Text.take j 1
        match flags.lookup next with
        | none => .ok ([(a, [])], ["-" ++ j], 0)
        | some b => do
          let more := drop j 1
          let marked := startsWith more "="
          let joined := if more.isEmpty then none else some (if marked then drop more 1 else more)
          let (rest, left, used) ← joinedOptions flags following n b next marked joined
          return ((a, []) :: rest, left, used)

def option (args : List Argument) (hasFile : String → Bool) (r : Reading) (s : String) (a : Option Argument)
    (flag : String) (isMarked : Bool) (joined : Option String) (following : List (String × Word)) :
    Except Stop (Reading × List (String × Word)) :=
  match a with
  | none => .ok ({ r with extras := r.extras ++ [s] }, following)
  | some a => do
    let (taken, left, used) ← joinedOptions (allFlags args) following (s.length + 2) a flag isMarked joined
    let r := { r with extras := r.extras ++ left }
    let r ← taken.foldlM (fun r (a, words) => r.take hasFile a words) r
    return (r, following.drop used)

/-- Reads words. The number bounds the steps. -/
def words (args : List Argument) (hasFile : String → Bool) :
    Nat → Reading → List (String × Word) → Except Stop Reading
  | 0, r, _ => .ok r
  | n + 1, r, ws =>
    if !ws.any (·.2.isOption) then do
      let (r, ws) ← r.positionals hasFile ws
      return { r with extras := r.extras ++ ws.map (·.1) }
    else match ws with
      | (s, .option a flag isMarked joined) :: following => do
        let (r, ws) ← r.option args hasFile s a flag isMarked joined following
        words args hasFile n r ws
      | _ => do
        let (r, rest) ← r.positionals hasFile ws
        if rest.length < ws.length then words args hasFile n r rest
        else
          let left := (ws.takeWhile (!·.2.isOption)).map (·.1)
          words args hasFile n { r with extras := r.extras ++ left } (ws.drop left.length)

/-- Reads a command line; each positional argument for one word has to be there. -/
def ofWords (args : List Argument) (hasFile : String → Bool) (ss : List String) : Except Stop Reading := do
  let ws ← classifyAll args ss
  let start : Reading := { pending := args.filter (·.flags.isEmpty) }
  let r ← words args hasFile (2 * ss.length + 2) start ws
  let isMissing (a : Argument) : Bool := match a.takes with
    | .one => true
    | _ => false
  if r.pending.any isMissing then throw .misuse
  return r

end Reading

/-! ## Values -/

structure Values where
  given : List (String × Value)
  args : List Argument

namespace Values

def get (vs : Values) (name : String) : Value :=
  match vs.given.lookup name with
  | some v => v
  | none => ((vs.args.find? (·.name == name)).map (·.default)).getD .absent

def has (vs : Values) (name : String) : Bool := vs.args.any (·.name == name)

def text? (vs : Values) (name : String) : Option String :=
  match vs.get name with
  | .text s => some s
  | _ => none

def filled? (vs : Values) (name : String) : Option String := (vs.text? name).filter (!·.isEmpty)

def whole? (vs : Values) (name : String) : Option Int :=
  match vs.get name with
  | .whole n => some n
  | _ => none

def decimalD (vs : Values) (name : String) (default : Float) : Float :=
  match vs.get name with
  | .decimal x => x
  | _ => default

def flag (vs : Values) (name : String) : Bool :=
  match vs.get name with
  | .flag b => b
  | _ => false

def texts (vs : Values) (name : String) : List String :=
  match vs.get name with
  | .texts xs => xs
  | _ => []

end Values

end EvmAudit.Cli
