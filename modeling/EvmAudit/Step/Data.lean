import EvmAudit.Step.Basic

/-!
# Call data, code, memory, storage and hashes

Copies into memory want a known target. Where the amount of call data is not known, a fixed number of bytes is copied.
-/

namespace EvmAudit.Step

/-- Bytes of call data that are copied when their number is unknown. -/
def unknownAmount : Int := 320

def callDataWord : Step Effect := do
  let position ← pop
  let data := (← env).calldata
  let bytes ← (List.range 32).mapM (m := Calc) (fun i => do
    let b ← data.load (← Memory.shifted position (i : Nat))
    b.toWidth 8)
  leave (← (← Expr.concat bytes).simplified)

/-- A number of bytes of call data from a position on. -/
def loadMany (data : Calldata) : Nat → Item → Calc (List Item)
  | 0, _ => return []
  | n + 1, i => do
    let b ← data.load i
    let following ← match i with
      | .expr e => do pure (Item.expr (← (← Expr.arithInt .add e 1).simplified))
      | i => Memory.shifted i 1
    return b :: (← loadMany data n following)

def copyCallData (target source amount : Item) : Step Effect := do
  let some start ← target.number? | return .next
  let source ← match ← source.number? with
    | some n => pure (Item.int n)
    | none => do pure (Item.expr (← (← source.expr!).simplified))
  let amount := (← amount.number?).getD unknownAmount
  if amount > 0 then
    extend (.int start) (.int amount)
    setBytes start (← loadMany (← env).calldata amount.toNat source)
  return .next

/-- Copies call data; a creation has none of its own. -/
def callDataCopy : Step Effect := do
  let target ← pop
  let source ← pop
  let amount ← pop
  if ← isCreation then return .next
  copyCallData target source amount

def digitPairs : Nat → List Char → Except Fault (List Item)
  | n + 1, a :: b :: rest => do
    match Numeral.parse? 16 (String.ofList [a, b]) with
    | some v => return .int v :: (← digitPairs n rest)
    | none => throw .malformed
  | _, _ => .ok []

/-- The bytes of a code from a position on, at most as many as asked for and up to the end. -/
def codeBytes (code : Bytecode) (n i : Nat) : Except Fault (List Item) :=
  match code with
  | .hex text => digitPairs n (text.toList.drop (2 * i))
  | .raw bytes => .ok (((bytes.drop i).take n).map (fun (b : Nat) => .int b))
  | .cells items => .ok ((items.drop i).take n)

/-- Copies code to memory. Where the amount or the position is unknown, memory gets variables. -/
def copyCode (code : Bytecode) (target source amount : Item) : Step Effect := do
  let some start ← target.number? | return .next
  let name := "code(" ++ (← get).active.name ++ ")"
  match ← amount.number? with
  | none =>
    extend (.int start) (.int 1)
    setByte (.int start) (.expr (← unknown name 8))
  | some n =>
    extend (.int start) (.int n)
    match ← source.number? with
    | none => setBytes start (← (List.range n.toNat).mapM (fun _ => return Item.expr (← unknown name 8)))
    | some i => setBytes start (← orThrow (codeBytes code.unmarked n.toNat i.toNat))
  return .next

/-- Copies the running code. In a creation the arguments of the constructor follow the code. -/
def codeCopy : Step Effect := do
  let target ← pop
  let source ← pop
  let amount ← pop
  let code ← codeOf (← env).code
  let size : Int := (code.unmarked.length / 2 : Nat)
  unless ← isCreation do return ← copyCode code target source amount
  let beyond ← Memory.shifted source (-size)
  match (← env).calldata with
  | .symbolic _ _ =>
    let isBeyond ← match source.int? with
      | some n => pure (decide (n ≥ size))
      | none => do (← Item.order .ge source (.int size)).holds
    if isBeyond then copyCallData target beyond amount else copyCode code target source amount
  | _ =>
    let i ← source.concreteInt
    let n ← amount.concreteInt
    let fromCode := max 0 (if i + n ≤ size then n else size - i)
    let _ ← copyCode code target (.int i) (.int fromCode)
    copyCallData (← Memory.shifted target fromCode) (.int (max 0 (i - size))) (.int (max 0 (i + n - size)))

def foreignCodeCopy : Step Effect := do
  let address ← pop
  let target ← pop
  let source ← pop
  let amount ← pop
  let some n ← address.number? | return .next
  match ← account n with
  | .ok a => copyCode (← codeOf a.code) target source amount
  | .error f =>
    if f.cause? == some .malformed || f.cause? == some .noSuchPart then return .next else throw f

def returnedBytes (r : ReturnData) (source : Int) : List Nat → Calc (List Item)
  | [] => return []
  | i :: rest => do
    let b ← if ← ReturnData.inside (.int i) r.size then r.get (.int (source + i)) else pure (.int 0)
    return b :: (← returnedBytes r source rest)

def returnDataCopy : Step Effect := do
  let target ← pop
  let source ← pop
  let amount ← pop
  let some start ← target.number? | return .next
  let some i ← source.number? | return .next
  let some n ← amount.number? | return .next
  let some r := (← get).lastReturn | return .next
  extend (.int start) (.int n)
  setBytes start (← returnedBytes r i (List.range n.toNat))
  return .next

/-! ## Memory -/

def memoryLoad : Step Effect := do
  let index ← pop
  extend index (.int 32)
  leave (← (← machine).memory.word index)

/-- Writes a word. Memory that cannot be paid for is not there, but the price stays booked. -/
def memoryStore : Step Effect := do
  let index ← pop
  let value ← pop
  let m ← machine
  match ← Engine.attempt (m.grow index (.int 32)) with
  | .ok (m, _) => modify fun g => { g with machine := m }
  | .error _ => pure ()
  onMachine (fun m => do
    let r ← m.memory.writeWord index value
    match r.fault with
    | some f => throw f
    | none => return ((), { m with memory := r.memory }))
  return .next

def memoryStoreByte : Step Effect := do
  let index ← pop
  let value ← pop
  extend index (.int 1)
  let byte ← match ← value.number? with
    | some n => pure (Item.int (n % 256))
    | none => do pure (Item.expr (← Expr.extract 7 0 (← value.expr!)))
  setByte index byte
  return .next

/-! ## Hashes -/

/-- The hash of a range of memory. A range of unknown length is taken to have 64 bytes. -/
def hash : Step Effect := do
  let index ← pop
  let amount ← pop
  let length ← match ← amount.number? with
    | some n => pure n
    | none => do
      constrain (← Item.equate .eq amount (.int 64))
      pure 64
  chargeHash length
  extend index (.int length)
  let bytes ← bytesIn index (← Memory.shifted index length)
  match ← bytes.mapM (fun b => (b.toWidth 8 : Calc Expr)) with
  | [] => leave (← Expr.word Hashes.ofNothing)
  | [b] => leave (← Engine.hash b)
  | bs => leave (← Engine.hash (← (← Expr.concat bs).simplified))

/-! ## Storage -/

def storageLoad : Step Effect := do
  let key ← pop
  let g ← get
  let a := g.active
  let (s, r) ← a.storage.get key
  set (g.setActive { a with storage := s })
  leave (← orThrow r)

def storageStore : Step Effect := do
  let key ← pop
  let value ← pop
  let g ← get
  let a := g.active
  let (s, f) ← a.storage.set key value
  set (g.setActive { a with storage := s })
  match f with
  | some f => throw f
  | none => return .next

end EvmAudit.Step
