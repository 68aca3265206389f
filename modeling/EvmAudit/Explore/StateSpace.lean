import EvmAudit.Step.Basic

/-!
# The instructions of a node
-/

namespace EvmAudit

def Argument.text : Argument → Calc String
  | .hex text => return text
  | .cells items => do
    let texts ← items.mapM (·.text)
    return "(" ++ ", ".intercalate texts ++ (if texts.length == 1 then ",)" else ")")

/-- The instruction that is due, in text. A push without an immediate has none. -/
def GState.instrText (g : GState) : Engine String := do
  let i ← g.instr
  let head := toString i.address ++ " " ++ i.opcode.name
  unless i.opcode.name.startsWith "PUSH" do return head
  match i.argument with
  | some a => return head ++ " " ++ (← a.text)
  | none => throw .noSuchKey

/-- The instructions of a node, each with the mark of a new line. -/
def FlowNode.codeText (n : FlowNode) : Engine String := do
  let lines ← n.states.mapM GState.instrText
  return String.join (lines.map (· ++ "\\n"))

/-! # The explored state space

The nodes and edges of an exploration as they are drawn: labels with shortened numbers, a colour for each contract, and
the states of each node. -/

structure Colour where
  border : String
  background : String
  highlightBorder : String
  highlight : String
  deriving Inhabited

namespace StateSpace

/-- Border, background and highlighted background of the colours, in turn. -/
def palette : List (String × String × String) := [
  ("#26996f", "#2f7e5b", "#28a16f"), ("#9e42b3", "#842899", "#933da6"), ("#b82323", "#991d1d", "#a61f1f"),
  ("#4753bf", "#3b46a1", "#424db3")]

def colourCount : Nat := 8

/-- The colour at a place. A highlighted node may have a border of its own. -/
def colour (i : Nat) (highlightBorder : Option String) : Colour :=
  match palette[i % palette.length]? with
  | some (border, background, highlight) => ⟨border, background, highlightBorder.getD border, highlight⟩
  | none => default

/-! ## Labels -/

def isHexDigit (c : Char) : Bool := Chars.isDigit c || ('a' ≤ c && c ≤ 'f')

/-- Long hexadecimal numbers are cut after eight digits. -/
def cutNumbers : Nat → List Char → List Char
  | 0, cs => cs
  | _ + 1, [] => []
  | n + 1, c :: rest =>
    let run := (c :: rest).takeWhile isHexDigit
    if run.isEmpty then c :: cutNumbers n rest
    else (if run.length > 8 then run.take 8 ++ "(...)".toList else run) ++ cutNumbers n ((c :: rest).drop run.length)

def cutText (s : String) : String := String.ofList (cutNumbers s.length s.toList)

/-- Decimal numbers of three digits or more become hexadecimal, unless an underscore stands before them. The first
character cannot be part of the number. -/
def hexNumbers : Nat → List Char → List Char
  | 0, cs => cs
  | _ + 1, [] => []
  | n + 1, c :: rest =>
    let run := rest.takeWhile Chars.isDigit
    if c != '_' && run.length ≥ 3 then
      c :: "0x".toList ++ (Hex.ofNat (Json.decimalValue run)).toList ++ hexNumbers n (rest.drop run.length)
    else c :: hexNumbers n rest

def edgeLabel (e : Edge) : Calc String := do
  match e.condition with
  | none => return ""
  | some c =>
    let text ← (← c.simplified).text
    let text := text.toList.filter (· != '\n')
    return String.ofList (hexNumbers text.length text)

/-- The first lines of a listing that is too long to be shown at once. -/
def truncated (lines : List String) : List String :=
  if lines.length < 7 then lines else lines.take 6 ++ ["(click to expand +)"]

def lines (ls : List String) : String := "\n".intercalate ls

/-! ## Nodes -/

/-- An account of a state: what is known of its storage, in text. -/
structure Holder where
  address : Option Nat
  storage : List (String × String)

structure Frame where
  machine : Machine
  stack : List String
  memory : List String
  holders : List Holder

structure Node where
  id : Nat
  function : String
  code : List String
  colour : Colour
  frames : List Frame

def Holder.of (address : Option Nat) (a : Account) : Engine Holder := do
  let (_, table) ← a.storage.entries.foldlM
    (fun ((s, table) : Storage × List (String × String)) e => do
      let (s, v) ← s.get e.key.item
      let v ← Engine.ofExcept v
      return (s, Sequence.put (← e.key.item.text) (← v.text) table)) (a.storage, [])
  return ⟨address, table⟩

def frame (g : GState) : Engine Frame := do
  let m := g.machine
  let stack ← m.stack.reverse.mapM (m := Calc) Item.text
  let bytes ← m.memory.slice (.int 0) (.int m.memory.size)
  let memory ← bytes.mapM (m := Calc) Item.text
  let holders ← g.world.accounts.mapM fun (key, a) => Holder.of key a
  return ⟨m, stack, memory, holders⟩

abbrev Colours := List (String × Colour)

/-- The lines of a node; a function that begins there lends its name to the place. -/
def codeLines (n : FlowNode) : Engine (List String) := do
  let texts ← n.states.mapM GState.instrText
  let cut := texts.map cutText
  let named := if n.isEntry then cut.map (fun t => n.function.intercalate (t.splitOn "JUMPDEST")) else cut
  return named ++ [""]

/-- The nodes of a graph. The contracts that are known beforehand have the first colours. -/
def nodes (g : Graph) (known : List String) : Engine (List Node) := do
  let start : Colours := (known.zipIdx).map (fun (name, i) => (name, colour i (some "#fff")))
  let (found, _, _) ← (g.nodes.toList.zipIdx).foldlM
    (fun ((acc, colours, next) : List Node × Colours × Nat) (n, id) => do
      let code ← codeLines n
      let (c, colours, next) ← match colours.lookup n.contract with
        | some c => pure (c, colours, next)
        | none =>
          if next ≥ colourCount then throw .outOfRange
          let c := colour next (some "#fff")
          pure (c, colours ++ [(n.contract, c)], next + 1)
      let frames ← n.states.mapM frame
      return (acc ++ [⟨id, n.function, code, c, frames⟩], colours, next)) ([], start, known.length)
  return found

/-! ## The state space as a file -/

/-- A value of a machine in a file; expressions cannot be written. -/
def itemJson : Item → Except Fault Json
  | .int n => .ok (.int n)
  | .bool b => .ok (.bool b)
  | .absent => .ok .null
  | .expr _ => .error (.failure .wrongSort "Object of type BitVec is not JSON serializable")

def Frame.toJson (f : Frame) : Except Fault Json := do
  let m := f.machine
  let holder (h : Holder) : Json :=
    .obj [("address", .orNull (fun n => .int n) h.address), ("storage", .obj (h.storage.map (fun (k, v) => (k, .str v))))]
  return .obj [
    ("machine", .obj [
      ("pc", .int m.pc), ("stack", .arr (f.stack.map .str)),
      ("subroutine_stack", .arr (← m.returns.reverse.mapM itemJson)), ("memory", .arr (f.memory.map .str)),
      ("memsize", .int m.memory.size), ("gas", ← itemJson m.gasLimit), ("max_gas_used", .int m.maxGas),
      ("min_gas_used", .int m.minGas)]),
    ("accounts", .arr (f.holders.map holder))]

def colourJson (c : Colour) : Json :=
  .obj [
    ("border", .str c.border), ("background", .str c.background),
    ("highlight", .obj [("border", .str c.highlightBorder), ("background", .str c.highlight)])]

def Node.toJson (n : Node) : Except Fault Json := do
  let label := lines (truncated n.code)
  return .obj [
    ("id", .str (toString n.id)), ("func", .str n.function), ("label", .str label), ("code", .str (lines n.code)),
    ("truncated", .str label), ("states", .arr (← n.frames.mapM Frame.toJson)), ("color", colourJson n.colour),
    ("instructions", .arr (n.code.map .str))]

def edgeJson (e : Edge) : Calc Json := do
  return .obj [
    ("from", .str ((e.source.map toString).getD "None")), ("to", .str (toString e.target)), ("arrows", .str "to"),
    ("label", .str (← edgeLabel e)), ("smooth", .obj [("type", .str "cubicBezier")])]

/-- The state space of a graph as a file has it; the fault is one of writing. -/
def toJson (g : Graph) (known : List String) : Engine (Except Fault Json) := do
  let all ← nodes g known
  let edges ← g.edges.reverse.mapM (m := Calc) edgeJson
  return do return .obj [("edges", .arr edges), ("nodes", .arr (← all.mapM Node.toJson))]

/-! ## The call graph -/

structure CallNode where
  id : Nat
  colour : Colour
  code : List String

def callLines (n : FlowNode) : Engine (List String) :=
  n.states.mapM (fun g => do
    let i ← g.instr
    let isStart := i.opcode == .jumpdest && n.isEntry && i.address == 0
    return cutText (← if isStart then pure n.function else g.instrText))

def callNodes (g : Graph) : Engine (List CallNode) := do
  let (found, _) ← (g.nodes.toList.zipIdx).foldlM
    (fun ((acc, colours) : List CallNode × Colours) (n, id) => do
      let code ← callLines n
      let (c, colours) := match colours.lookup n.contract with
        | some c => (c, colours)
        | none =>
          let c := colour colours.length none
          (c, colours ++ [(n.contract, c)])
      return (acc ++ [⟨id, c, code⟩], colours)) ([], [])
  return found

end StateSpace
end EvmAudit
