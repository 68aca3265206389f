import EvmAudit.Cli.Argument

/-!
# Text in rainbow colours

Every character gets a colour of its own from three waves, one for each of red, green and blue. Terminals know 8, 16 or
256 colours; the nearest one is taken.
-/

namespace EvmAudit.Rainbow

structure Colour where
  red : Float
  green : Float
  blue : Float

/-! ## Colours of terminals -/

def named : List (Int × Int × Int) := [
  (0x00, 0x00, 0x00), (0xCD, 0x00, 0x00), (0x00, 0xCD, 0x00), (0xCD, 0xCD, 0x00), (0x00, 0x00, 0xEE),
  (0xCD, 0x00, 0xCD), (0x00, 0xCD, 0xCD), (0xE5, 0xE5, 0xE5), (0x7F, 0x7F, 0x7F), (0xFF, 0x00, 0x00),
  (0x00, 0xFF, 0x00), (0xFF, 0xFF, 0x00), (0x5C, 0x5C, 0xFF), (0xFF, 0x00, 0xFF), (0x00, 0xFF, 0xFF),
  (0xFF, 0xFF, 0xFF)]

def whole (x : Float) : Int := x.toInt64.toInt

def distance (a : Int × Int × Int) (c : Colour) : Int :=
  let square (x : Int) (y : Float) : Int := (x - whole y) * (x - whole y)
  square a.1 c.red + square a.2.1 c.green + square a.2.2 c.blue

/-- The nearest of the first named colours; of two that are equally near, the earlier one. -/
def nearest (count : Nat) (c : Colour) : Nat :=
  let start : Int × Nat := (distance (0, 0, 0) c, 0)
  ((named.take count).zipIdx.foldl (fun best (a, i) =>
    let d := distance a c
    if d < best.1 then (d, i) else best) start).2

/-- Is the colour a shade of grey? Levels rise by equal steps; at the first level that one part is below, all of them have
to be. The number bounds the steps. -/
def isGrey (c : Colour) : Nat → Float → Bool
  | 0, _ => false
  | n + 1, level =>
    let isBelow (x : Float) : Bool := x < level
    if isBelow c.red || isBelow c.green || isBelow c.blue then
      isBelow c.red && isBelow c.green && isBelow c.blue
    else isGrey c n (level + 42.5)

/-- The number of a colour among 256: greys come last. -/
def number (c : Colour) : Int :=
  let least := min c.red (min c.green c.blue)
  if isGrey c ((whole (least / 42.5)).toNat + 3) 2.5 then 232 + whole ((c.red + c.green + c.blue) / 33.0)
  else
    let part (x : Float) (weight : Int) : Int := whole (6 * x / 256) * weight
    16 + part c.red 36 + part c.green 6 + part c.blue 1

def code (mode : Int) (c : Colour) : String :=
  if mode == 8 || mode == 16 then "3" ++ toString (nearest mode.toNat c)
  else "38;5;" ++ toString (number c)

/-- How many colours a terminal has, by variables of the environment. -/
def detectMode (env : List (String × String)) : Int :=
  if (env.lookup "ANSICON").isSome then 16
  else if env.lookup "ConEmuANSI" == some "ON" then 256
  else
    let term := (env.lookup "TERM").getD "xterm-256color"
    if Text.endsWith term "-256color" || ["xterm", "screen"].contains term then 256
    else if Text.endsWith term "-color" || term == "rxvt" then 16
    else 256

/-! ## Lines -/

structure Options where
  spread : Float
  frequency : Float
  isAnimated : Bool
  duration : Int
  speed : Float
  /-- Colours that are already there are taken out. -/
  strips : Bool
  mode : Int

def pi : Float := 3.141592653589793

def wave (frequency x : Float) : Colour :=
  let part (phase : Float) : Float := Float.sin (frequency * x + phase) * 127 + 128
  ⟨Float.sin (frequency * x) * 127 + 128, part (2 * pi / 3), part (4 * pi / 3)⟩

/-- A line in colours that begin at a place. -/
def paint (o : Options) (start : Float) (cs : List Char) : Except Fault String :=
  if o.spread == 0 && !cs.isEmpty then .error (.failure .divisionByZero "")
  else .ok (Text.join "" (cs.zipIdx.map (fun (c, i) =>
    let colour := wave o.frequency (start + Float.ofNat i / o.spread)
    "\x1b[" ++ code o.mode colour ++ "m" ++ c.toString)))

/-- The length of a colour code at the front of a text, if there is one. -/
def codeLength? (cs : List Char) : Option Nat :=
  match cs with
  | '\x1b' :: '[' :: rest =>
    let run (cs : List Char) : List Char := cs.takeWhile Chars.isDigit
    let more (cs : List Char) : List Char := match cs with
      | ';' :: ds => if (run ds).isEmpty then cs else ds.drop (run ds).length
      | cs => cs
    if (run rest).isEmpty then none
    else
      let after := more (more (rest.drop (run rest).length))
      match after with
      | c :: _ => if c == 'm' || c == '|' || c == 'K' then some (cs.length - after.length + 1) else none
      | [] => none
  | _ => none

/-- Takes colour codes out. The number bounds the steps. -/
def strip : Nat → List Char → List Char
  | 0, cs => cs
  | _, [] => []
  | n + 1, c :: rest => match codeLength? (c :: rest) with
    | some k => strip n ((c :: rest).drop k)
    | none => c :: strip n rest

/-- Paints a line again and again, each time a little further. -/
def animate (o : Options) (cs : List Char) : Nat → Float → Except Fault (String × Float)
  | 0, start => .ok ("", start)
  | n + 1, start => do
    let start := start + o.spread
    let painted ← paint o start cs
    if o.speed == 0 then throw (.failure .divisionByZero "")
    if o.speed < 0 then throw .malformed
    let (rest, last) ← animate o cs n start
    return ("\x1b[" ++ toString cs.length ++ "D" ++ painted ++ rest, last)

/-- Paints lines, each of which begins one place further. -/
def lines (o : Options) : Float → List String → Except Fault String
  | _, [] => .ok ""
  | start, l :: rest => do
    let start := start + 1
    let cs := (l.toList.reverse.dropWhile Chars.isBlank).reverse
    let cs := if o.strips then strip cs.length cs else cs
    let (painted, start) ←
      if !o.isAnimated then do pure (← paint o start cs, start)
      else if cs.isEmpty then pure ("", start)
      else animate o cs (o.duration - 1).toNat start
    return painted ++ "\n" ++ (← lines o start rest)

/-! ## The command -/

def arguments : List Cli.Argument :=
  let mode (flag : String) (n : Int) : Cli.Argument := { flags := [flag], name := "mode", takes := .nothing (.whole n) }
  [ { flags := ["-h", "--help"], takes := .help },
    { flags := ["-p", "--spread"], kind := .decimal, default := .decimal 3 },
    { flags := ["-F", "--freq"], kind := .decimal, default := .decimal 0.1 },
    { flags := ["-S", "--seed"], kind := .whole, default := .whole 0 },
    { flags := ["-a", "--animate"], takes := .nothing (.flag true) },
    { flags := ["-d", "--duration"], kind := .whole, default := .whole 12 },
    { flags := ["-s", "--speed"], kind := .decimal, default := .decimal 20 },
    { flags := ["-f", "--force"], takes := .nothing (.flag true) },
    mode "-3" 8, mode "-4" 16, mode "-8" 256,
    { flags := ["-c", "--charset-py2"] } ]

/-- Paints a text; a command line that cannot be read, or asks for help, is a fault. -/
def run (env : List (String × String)) (words : List String) (input : String) : Except Fault String :=
  match Cli.Reading.ofWords arguments (fun _ => false) words with
  | .error _ => .error .malformed
  | .ok r =>
    if !r.extras.isEmpty then .error .malformed
    else do
      let vs : Cli.Values := ⟨r.values, arguments⟩
      let o : Options := {
        spread := vs.decimalD "spread" 3, frequency := vs.decimalD "freq" 0.1, isAnimated := vs.flag "animate"
        duration := (vs.whole? "duration").getD 12, speed := vs.decimalD "speed" 20, strips := vs.flag "force"
        mode := (vs.whole? "mode").getD (detectMode env) }
      let all := Text.splitAt input '\n'
      let all := if (all.getLast?.getD "").isEmpty then all.dropLast else all
      let painted ← lines o (Float.ofInt ((vs.whole? "seed").getD 0)) all
      return if o.isAnimated then "\x1b[?25l" ++ painted ++ "\x1b[?25h" else painted

end EvmAudit.Rainbow
