import EvmAudit.Digest
import EvmAudit.Support
import EvmAudit.Text.Json

/-!
# Calls to a node

A node answers calls by method and parameters. Either its answers are given as a table, or they come through HTTP as
JSON texts. Every call is logged.
-/

namespace EvmAudit

open Json
open MonadExcept (ofExcept)

structure Endpoint where
  host : Json
  port : Json
  tls : Json

inductive Node where
  /-- Answers by the text of the whole call or by method alone. -/
  | table (answers : List (String × Json))
  | http (endpoint : Endpoint) (replies : List (String × Json))
  deriving Inhabited

/-- A node with the log of what it was asked, the latest first. -/
structure Line where
  node : Node
  log : List Json := []

abbrev Talk := EStateM Fault Line

namespace Rpc

def parameter : Json → String
  | .str s => s
  | j => render spacedStyle 0 j

def callText (method : String) (params : List Json) : String := " ".intercalate (method :: params.map parameter)

/-- The answer of a table; a call that is not there is answered by nothing. -/
def answer (answers : List (String × Json)) (method text : String) : Except Fault Json :=
  let found := ((answers.lookup text).or (answers.lookup method)).getD .null
  match found.get? "raise" with
  | some kind =>
    let text := ((found.get? "text").bind str?).getD ""
    .error (.relayed (if kind.str? == some "FileNotFoundError" then .noSuchFile else .malformed) text)
  | none => .ok found

def url (e : Endpoint) : String :=
  let scheme := if isGiven e.tls then "https" else "http"
  if isGiven e.host then
    scheme ++ "://" ++ Shown.plain e.host ++ (if isGiven e.port then ":" ++ Shown.plain e.port else "")
  else scheme

/-- The text that comes back through HTTP with its status. -/
def replyText (reply : Json) : Int × String :=
  let status := ((reply.get? "status").bind int?).getD 200
  match reply.get? "result" with
  | some r => (status, render spacedStyle 0 (.obj [("result", r)]))
  | none => (status, ((reply.get? "text").bind str?).getD "")

def result (reply : Json) : Except Fault Json :=
  if (reply.get? "refuse").any isGiven then .error (.failure .connection "")
  else
    let (status, text) := replyText reply
    if status != 200 then .error (.failure .badStatus (toString status))
    else match parse? text with
      | none => .error (.failure .badJson text)
      | some (.obj ms) => need (.failure .badResponse (Shown.json (.obj ms))) (ms.lookup "result")
      | some _ => .error .wrongSort

def send (method : String) (params : List Json) : Talk Json := do
  let note (j : Json) : Talk Unit := modify fun l => { l with log := j :: l.log }
  match (← get).node with
  | .table answers =>
    let text := callText method params
    note (.str text)
    ofExcept (answer answers method text)
  | .http endpoint replies =>
    let body := obj [("jsonrpc", .str "2.0"), ("method", .str method), ("params", .arr params), ("id", .int 1)]
    let entry := arr [.str (url endpoint), .obj [("Content-Type", .str "application/json")], body]
    let reply := ((replies.lookup method).or (replies.lookup "*")).getD (.obj [("status", .int 404)])
    note entry
    ofExcept (result reply)

/-! ## Methods -/

def number : Json → Except Fault Int
  | .str s => need .malformed (Numeral.parse? 16 s)
  | _ => .error .wrongSort

def isTag (s : String) : Bool := ["earliest", "latest", "pending"].contains s

def block : Json → Except Fault Json
  | .str s => if isTag s then .ok (.str s) else .error (.failure .malformed "invalid block tag")
  | .int n => .ok (.str (Hex.ofInt n))
  | .bool b => .ok (.str (if b then "0x1" else "0x0"))
  | j => .ok j

def latest : Json := .str "latest"

def coinbase : Talk Json := send "eth_coinbase" []

def blockNumber : Talk Int := do ofExcept (number (← send "eth_blockNumber" []))

/-- The balance of an address; without one, that of the node's own address. -/
def balance (address : Json) (blk : Json := latest) : Talk Int := do
  let address ← if isGiven address then pure address else coinbase
  let blk ← ofExcept (block blk)
  ofExcept (number (← send "eth_getBalance" [address, blk]))

def storageAt (address position : Json) (blk : Json := latest) : Talk Json := do
  let blk ← ofExcept (block blk)
  let position ← match position with
    | .int n => pure (Hex.ofInt n)
    | .bool b => pure (if b then "0x1" else "0x0")
    | _ => throw .wrongSort
  send "eth_getStorageAt" [address, .str position, blk]

def code (address : Json) (blk : Json := latest) : Talk Json := do
  if let .str s := blk then
    unless isTag s do throw .malformed
  send "eth_getCode" [address, blk]

def blockByNumber (blk : Json := latest) (full : Json := .bool true) : Talk Json := do
  let blk ← ofExcept (block blk)
  send "eth_getBlockByNumber" [blk, full]

def receipt (hash : Json) : Talk Json := send "eth_getTransactionReceipt" [hash]

end Rpc
end EvmAudit

/-! # Looking things up on a chain

The code of a deployed contract, and slots of its storage by position, as an array or as a mapping. -/

namespace EvmAudit.Lookup

def noConnection : String :=
  "Could not connect to RPC server. Make sure that your node is running and that RPC parameters are set correctly."

/-! ## Slots -/

/-- Slots that are asked for: each with the label that stands before its value. -/
abbrev Slots := List (String × Int)

def octets32 (n : Int) : Except Fault (List Nat) :=
  if n < 0 then .error .tooLarge
  else
    let bytes := go n.toNat n.toNat.log2 []
    .ok (List.replicate (32 - bytes.length) 0 ++ bytes)
where
  /-- Octets from the last one on; the second number bounds their count. -/
  go (n : Nat) : Nat → List Nat → List Nat
    | 0, acc => n % 256 :: acc
    | k + 1, acc => if n < 256 then n :: acc else go (n / 256) k (n % 256 :: acc)

def ofOctets (bs : List Nat) : Int := Int.ofNat (bs.foldl (fun n b => n * 256 + b) 0)

def arrayStart (position : Int) : Except Fault Int := do
  return ofOctets (Digest.Sha3.hash (← octets32 position))

def mappingSlot (position : Int) (key : String) : Except Fault Int := do
  let key := Utf8.octets key
  return ofOctets (Digest.Sha3.hash (key ++ List.replicate (32 - key.length) 0 ++ (← octets32 position)))

def badCount : Fault := .failure .critical "Invalid number of parameters."

def index (s : String) : Except Fault Int :=
  need (.failure .critical "Invalid storage index. Please provide a numeric value.") (Numeral.parse? 10 s)

/-- One slot is labelled in decimal digits, several ones are labelled in hexadecimal digits. -/
def labelled : List Int → Slots
  | [n] => [(toString n, n)]
  | ns => ns.map fun n => (Hex.ofInt n, n)

def run (position length : Int) : Slots :=
  if length == 1 then labelled [position]
  else (List.range length.toNat).map fun (i : Nat) => (Hex.ofInt (position + i), position + i)

/-- Reads what is asked for: `mapping`, a position and keys; or a position, a length and `array`. -/
def slots (words : List String) : Except Fault Slots :=
  match words with
  | [] => .error .outOfRange
  | "mapping" :: position :: key :: keys => do
    let position ← index position
    return labelled (← (key :: keys).mapM (mappingSlot position))
  | "mapping" :: _ => .error badCount
  | [position] => do return run (← index position) 1
  | [position, length] => do
    let position ← index position
    return run position (← index length)
  | [position, length, kind] => do
    let position ← index position
    let length ← index length
    if kind == "array" then return run (← arrayStart position) length
    return run position length
  | _ => .error badCount

/-- The fault of a lookup that the node did not answer. -/
def slotFault (f : Fault) : Fault :=
  match f.cause? with
  | some .noSuchFile => .failure .critical ("IPC error: " ++ f.detail)
  | some .connection => .failure .critical noConnection
  | _ => f

def slot (address : String) (s : String × Int) : Talk String := do
  return s.1 ++ ": " ++ Shown.plain (← Rpc.storageAt (.str address) (.int s.2))

/-! ## Code -/

def looksLikeAddress (s : String) : Bool :=
  Text.startsWith s "0x" && ((s.toList.drop 2).takeWhile (fun c => (Hex.digitValue? c).isSome)).length ≥ 40

def codeFault (f : Fault) : Fault :=
  match f.cause? with
  | some .noSuchFile | some .connection => slotFault f
  | _ => .failure .critical ("IPC / RPC error: " ++ f.detail)

/-- Code that a node gave; it has to be text and there has to be some. -/
def checkCode : Json → Except Fault String
  | .str s =>
    if s == "0x" || s == "0x0" then .error (.failure .critical
      ("Received an empty response from eth_getCode. Check the contract address and verify that you are on the " ++
        "correct chain."))
    else .ok s
  | _ => .error .wrongSort

end EvmAudit.Lookup

/-! # Access to a node

Which node to ask comes from a settings file or from a short text. The settings file is completed when it is read. -/

namespace EvmAudit

structure ChainConfig where
  text : String
  serviceId : Option String
  endpoint : Option Endpoint := none

namespace ChainConfig

def main : String := "defaults"

/-- Completes settings: where nodes are found, and the identification. -/
def complete (i : Ini) : Ini :=
  let i := if (i.sections.lookup main).isSome then i else { i with sections := i.sections ++ [(main, [])] }
  let i := if i.has main "dynamic_loading" then i else
    (((i.set main "#– To connect to Infura use dynamic_loading: infura" "").set main
      "#– To connect to Rpc use dynamic_loading: HOST:PORT / ganache / infura-[network_name]" "").set main
      "#– To connect to local host use dynamic_loading: localhost" "").set main "dynamic_loading" "infura"
  if i.has main "infura_id" then i else i.set main "infura_id" ""

def read (text : String) : Except Fault ChainConfig := do
  let i := complete (← Ini.read text true)
  return { text := i.write, serviceId := ← i.get main "infura_id" }

def networks : List String := ["mainnet", "rinkeby", "kovan", "ropsten", "goerli"]

def service (c : ChainConfig) (network : String) : Endpoint :=
  ⟨.str (network ++ ".infura.io/v3/" ++ c.serviceId.getD "None"), .null, .bool true⟩

def badArgument : Fault := .failure .critical "Invalid RPC argument, use 'ganache', 'infura-[network]' or 'HOST:PORT'"

/-- What stands after `infura-`, up to the end of the line. -/
def network? (rpc : String) : Option String :=
  if Text.startsWith rpc "infura-" then
    some (String.ofList ((Text.drop rpc 7).toList.takeWhile (· != '\n')))
  else none

/-- The node that a short text names; the public service without identification is no node. -/
def endpointOf (c : ChainConfig) (rpc : String) (tls : Json) : Except Fault (Option Endpoint) :=
  if rpc == "ganache" then .ok (some ⟨.str "localhost", .int 7545, .bool false⟩)
  else match (network? rpc).filter networks.contains with
    | some network => .ok (if (c.serviceId.getD "").isEmpty then none else some (c.service network))
    | none => match Text.splitAt rpc ':' with
      | [host, port] => return some ⟨.str host, .int (← need badArgument (Numeral.parse? 10 port)), tls⟩
      | _ => .error badArgument

def localNode : Endpoint := ⟨.str "localhost", .int 8545, .bool false⟩

def fromFile (c : ChainConfig) : Except Fault (Option Endpoint) := do
  let i ← Ini.read c.text false
  let name ← if i.has main "dynamic_loading" then i.get main "dynamic_loading" else pure (some "infura")
  match name with
  | some "infura" => return some (c.service "mainnet")
  | some "localhost" => return some localNode
  | some rpc => c.endpointOf rpc (.bool false)
  | none => throw .wrongSort

end ChainConfig

end EvmAudit
