import EvmAudit.Step.Data

/-!
# Calls

A call takes its operands from the stack, finds out whom it is for, and either is answered at once (precompiled
contracts, accounts without code, accounts that cannot be found) or starts a new frame. When that frame has ended, the
call is finished in the state that was waiting for it.
-/

namespace EvmAudit

open EvmAudit.Expr
open Item

/-- The four instructions that call another account. -/
inductive CallKind where
  | call
  | callcode
  | delegatecall
  | staticcall
  deriving DecidableEq, Repr

/-- The account that a call names: by number, in the text form that it is looked up by, or by an expression. -/
inductive Callee where
  | text (address : String)
  | unknown (address : Expr)

def Callee.number : Callee → Except Fault (Option Int)
  | .text s => match Numeral.parse? 16 s with
    | some n => .ok (some n)
    | none => .error .malformed
  | .unknown _ => .ok none

def Callee.isPrecompile (n : Int) : Bool := 0 < n && n ≤ Precompile.count

structure CallOperands where
  callee : Callee
  account : Option Account
  data : Calldata
  value : Item
  gas : Expr
  outStart : Item
  outSize : Item

def CallKind.hasValue : CallKind → Bool
  | .call | .callcode => true
  | _ => false

def CallKind.arity (k : CallKind) : Nat := if k.hasValue then 7 else 6

namespace Step

/-- The slot that the text of an address refers to, if it reads `Storage[n]` somewhere. -/
def storageReference : List Char → Option Nat
  | [] => none
  | c :: rest =>
    match c :: rest with
    | 'S' :: 't' :: 'o' :: 'r' :: 'a' :: 'g' :: 'e' :: '[' :: more =>
      let digits := more.takeWhile Chars.isDigit
      match digits, more.drop digits.length with
      | _ :: _, ']' :: _ => (Numeral.parse? 10 (String.ofList digits)).map Int.toNat
      | _, _ => storageReference rest
    | _ => storageReference rest

/-- An address as a node gives it: the last forty digits of a word. -/
def shortAddress (text : String) : String :=
  if Engine.isAddress text || (text.endsWith "\n" && Engine.isAddress (Text.take text 42) && text.length == 43) then text
  else "0x" ++ Text.drop text 26

/-- Whom a call is for. An address that was read from storage is asked for at the node. -/
def calleeOf (target : Item) : Step Callee := do
  match ← target.number? with
  | some n => return .text (paddedAddress n.toNat)
  | none =>
    let e ← (← target.expr!).simplified
    match storageReference (← e.text).toList, (← (MonadState.get : Engine Session)).loader with
    | some slot, some _ =>
      let owner := (← get).active.address
      let ask : Engine Json := do
        match ← owner.value? with
        | some v => Engine.readStorage (.str (Engine.longAddress v)) slot
        | none => throw .wrongSort
      match ← Engine.attempt ask with
      | .ok (.str s) => return .text (shortAddress s)
      | .ok _ => throw .wrongSort
      | .error _ => return .unknown e
    | _, _ => return .unknown e

/-- The input of a call: a range of memory, or unknown. -/
def inputOf (start size : Item) : Step Calldata := do
  let id := ((← get).tx?.map (·.id)).getD "" ++ "_internalcall"
  let start ← start.toWidth 256
  let size ← size.toWidth 256
  let stop ← if ← size.symbolic then arithInt .add start unknownAmount else add start size
  match ← start.value? with
  | none => Calldata.unknown id
  | some a => match ← stop.value? with
    | none => Calldata.unknown id
    | some b => Calldata.ofBytes id (← bytesIn (.int a) (.int b))

/-- Extra gas for a call that carries a value. -/
def stipend : Nat := 2300

def accountOf (c : Callee) : Step (Except Fault (Option Account)) := do
  match c with
  | .unknown address => return .ok (some (← Account.make address none false false 0 none))
  | c =>
    match c.number with
    | .error f => return .error f
    | .ok none => return .ok none
    | .ok (some n) =>
      if Callee.isPrecompile n then return .ok none
      match ← account n with
      | .ok a => return .ok (some a)
      | .error f => return .error f

/-- Takes the operands of a call. When the account cannot be found, they are taken all the same. -/
def operands (withValue : Bool) : Step (Except Fault CallOperands) := do
  let top ← take 2
  let value ← if withValue then do pure ((← take 1).headD .absent) else pure (int 0)
  let ranges ← take 4
  match top, ranges with
  | [gas, target], [inStart, inSize, outStart, outSize] =>
    let callee ← calleeOf target
    let data ← inputOf inStart inSize
    match ← accountOf callee with
    | .error f => return .error f
    | .ok account =>
      let hasValue ← match value.int? with
        | some n => pure (bool (decide (n > 0)))
        | none => do pure (expr (← Item.order .gt value (.int 0)))
      let width ← do pure (← gas.expr!).width
      let extra ← choose hasValue (.expr (← const stipend width)) (.int 0)
      let gas ← plus .add gas (.expr extra)
      return .ok ⟨callee, account, data, value, gas, outStart, outSize⟩
  | _, _ => return .error .outOfRange

/-- The bytes that an unknown frame may have returned. -/
def returnedSymbols (start : Expr) (pc : Int) : List Nat → Step (List Item)
  | [] => return []
  | i :: rest => do
    let position ← (← arithInt .add start i).simplified
    let e ← unknown ("call_output_var(" ++ (← position.text) ++ ")_" ++ toString pc) 8
    return .expr e :: (← returnedSymbols start pc rest)

def writeReturned (start size : Expr) : Nat → List Item → Step Unit
  | _, [] => return ()
  | i, b :: rest => do
    let inside ← Item.order .le (.int i) (.expr size)
    let there ← byteAt (.expr (← arithInt .add start i))
    let byte ← choose (.expr inside) b there
    setByte (.expr (← arithInt .add start i)) (.expr byte)
    writeReturned start size (i + 1) rest

/-- Nothing is known about what was returned, if the range for it is known. -/
def forgetReturned (outStart outSize : Item) : Step Unit := do
  let start ← outStart.expr!
  if ← start.symbolic then return ()
  let length ← outSize.expr!
  let some n ← length.value? | return ()
  let size ← unknown "returndatasize"
  let data ← returnedSymbols start (← machine).pc (List.range n)
  writeReturned start size 0 data
  modify fun g => { g with lastReturn := some (.bytes data (.expr size)) }

/-- A variable for the result of the call that is due. -/
def result : Step Expr := do
  unknown ("retval_" ++ toString (← (← get).instr).address)

def unknownResult (outStart outSize : Item) : Step Effect := do
  forgetReturned outStart outSize
  leave (← result)

def success : Step Effect := do
  let r ← result
  pushExpr r
  constrain (← eqInt r 1)
  return .next

def precompiled (address : Int) (data : Calldata) (outStart outSize : Item) : Step Effect := do
  let some start ← outStart.number? | return .next
  let some size ← outSize.number? | return .next
  let name := (Sequence.at? Precompile.names (address - 1)).getD ""
  let fee := Precompile.gas (Machine.extension (← machine).memory.size start size) name
  charge fee fee
  extend (.int start) (.int size)
  let answer : Except Fault (List Item) := match data with
    | .concrete _ items _ => Precompile.run address items
    | _ => .error Precompile.unusable
  match answer with
  | .ok bytes =>
    setBytes start (bytes.take size.toNat)
    success
  | .error (.failure .precompile _) =>
    let bytes ← (List.range size.toNat).mapM (fun _ => return expr (← unknown (name ++ "(calldata)") 8))
    setBytes start bytes
    success
  | .error f => throw f

/-- A call in a static frame must not carry a value. -/
def guardStatic (value : Item) : Step Unit := do
  unless (← env).isStatic do return ()
  let forbidden : Fault := .vm .writeProtection "Cannot call with non zero value in a static call"
  match value with
  | .expr e =>
    if e.isProp then return ()
    match ← e.value? with
    | none => constrain (← eq e (← word 0))
    | some v => if v > 0 then throw forbidden
  | v => if v.int?.any (· > 0) then throw forbidden

def frameOf (k : CallKind) (o : CallOperands) (callee : Account) : Step Tx := do
  let e ← env
  let active := (← get).active
  let request : TxRequest := {
    caller := .expr e.address, gasPrice := e.gasPrice, gasLimit := .expr o.gas, origin := e.origin
    data := some o.data, value := o.value, isStatic := e.isStatic }
  match k with
  | .call => Tx.message { request with caller := .expr active.address } callee
  | .callcode => Tx.message { request with code := some callee.code } active
  | .delegatecall =>
    Tx.message { request with code := some callee.code, caller := e.sender, value := e.callValue } active
  | .staticcall => Tx.message { request with code := some callee.code, isStatic := true } callee

/-- The last two operands of a call, which say where the answer goes. -/
def outRange (k : CallKind) : Step (Item × Item) := do
  let s := (← machine).stack
  match s[k.arity - 2]?, s[k.arity - 1]? with
  | some start, some size => return (start, size)
  | _, _ => throw .malformed

def call (k : CallKind) : Step Effect := do
  let (outStart, outSize) ← outRange k
  match ← operands k.hasValue with
  | .error f => if f.cause? == some .malformed then unknownResult outStart outSize else throw f
  | .ok o =>
    match o.account with
    | some a =>
      if (← codeOf a.code).isEmptyText then
        let w ← (← world).transfer (← get).active.address a.address (← o.value.toWidth 256)
        setWorld w
        unknownResult outStart outSize
      else
        if k == .call then guardStatic o.value
        return .call (← frameOf k o a)
    | none =>
      if k == .call then guardStatic o.value
      match ← orThrow o.callee.number with
      | some n => precompiled n o.data outStart outSize
      | none => throw .noSuchPart

/-! ## After a call -/

/-- The lesser of a number and a size; a size without a value is never the lesser one. -/
def lesser (n : Int) (size : Item) : Calc Item := do
  let smaller ← match size.int? with
    | some k => pure (decide (k < n))
    | none => do (← Item.order .lt size (.int n)).holds
  return if smaller then size else .int n

def copyReturned (r : ReturnData) (start size : Int) : Step Unit := do
  extend (.int start) (← lesser size r.size)
  let length ← (← r.size.expr!).value?
  let n := min size (length.getD 500)
  let bytes ← (List.range n.toNat).mapM (m := Calc) fun (i : Nat) => r.get (.int i)
  setBytes start bytes

def finishCall (k : CallKind) : Step Effect := do
  let (outStart, outSize) ← outRange k
  match ← operands k.hasValue with
  | .error f =>
    if f.cause? == some .malformed then unknownResult outStart outSize else throw f
  | .ok o =>
    match (← get).lastReturn with
    | none =>
      let r ← result
      pushExpr r
      if k == .callcode then forgetReturned o.outStart o.outSize
      if k == .callcode || k == .delegatecall then constrain (← eqInt r 0)
      return .next
    | some data =>
      let some start ← o.outStart.number? | leave (← result)
      let some size ← o.outSize.number? | leave (← result)
      copyReturned data start size
      success

end Step
end EvmAudit

/-! # Creations

The code of a new account is the readable beginning of a range of memory; the rest of the range is handed to the
constructor as call data. Without any readable byte there is no creation, and the result is one. -/

namespace EvmAudit.Step

/-- Bytes that are looked at when the size of the input is unknown. -/
def unknownCodeSize : Nat := 100000

/-- The readable bytes from a position on, at most as many as asked for. -/
def readable (data : Calldata) : Nat → Nat → Calc (List Nat)
  | 0, _ => return []
  | n + 1, i => do
    match ← (← (← data.load (.int i)).expr!).value? with
    | none => return []
    | some b => return b :: (← readable data n (i + 1))

def between (data : Calldata) (start stop : Nat) : Calc (List Item) :=
  (List.range (stop - start)).mapM fun i => data.load (.int (start + i : Nat))

/-- The address that a salt gives to a new account. -/
def saltedAddress (creator : Expr) (salt : Expr) (code : String) : Step (Option Nat) := do
  match ← salt.value? with
  | none =>
    let digest ← hashNumberOf (CodeHash.ofHex code)
    let pad ← if salt.width == 256 then pure salt
      else do Expr.concat [← Expr.const 0 (256 - salt.width), salt]
    let _ ← Engine.hash (← Expr.concat [← Expr.const 255 8, creator, pad, digest])
    return none
  | some s =>
    let some owner ← creator.value? | throw .wrongSort
    let text := "0xff" ++ Text.padLeft (Hex.ofNat owner) 40 '0' ++ Text.padLeft (Hex.ofNat s) 64 '0'
      ++ Text.drop (CodeHash.ofHex code) 2
    match Numeral.parse? 16 (Text.drop (CodeHash.ofHex text) 26) with
    | some n => return some n.toNat
    | none => throw .malformed
where
  hashNumberOf (text : String) : Step Expr := do
    match Numeral.parse? 16 text with
    | some n => Expr.ofInt n 256
    | none => throw .malformed

/-- Starts the creation of an account from the code that its input begins with; the rest are the arguments. -/
def createFrom (value : Item) (data : Calldata) (length : Nat) (code : List Nat) (salt : Option Item) :
    Step Effect := do
  let id ← Engine.nextTx
  let arguments ← Calldata.ofBytes id (← between data code.length length)
  let text := Hex.ofBytes code
  let program ← Engine.newProgram (.hex text)
  let e ← env
  let active := (← get).active
  chargeHash ((text.length - 2) / 2 : Nat)
  let address ← match salt with
    | none => pure none
    | some s => saltedAddress active.address (← s.expr!) text
  let (tx, w) ← Tx.creation (← world)
    { caller := .expr active.address, code := some program, data := some arguments, gasPrice := e.gasPrice
      gasLimit := (← machine).gasLimit, origin := e.origin, value := value } "" address
  setWorld w
  return .call tx

def createWith (value start size : Item) (salt : Option Item) : Step Effect := do
  let data ← inputOf start (.expr (← Item.plus .add start size))
  let length ← match data.size with
    | .expr e => do pure ((← e.value?).getD unknownCodeSize)
    | n => pure (n.int?.getD 0).toNat
  let code ← readable data length 0
  if code.isEmpty then
    pushInt 1
    return .next
  createFrom value data length code salt

def create : Step Effect := do
  match ← take 3 with
  | [value, start, size] => createWith value start size none
  | _ => throw .outOfRange

def createSalted : Step Effect := do
  match ← take 4 with
  | [value, start, size, salt] => createWith value start size (some salt)
  | _ => throw .outOfRange

/-- Finishes a creation: the address of the new account, or zero. -/
def finishCreate (operands : Nat) : Step Effect := do
  let _ ← take operands
  match (← get).lastReturn with
  | none => leave (← Expr.word 0)
  | some (.bytes _ _) => throw .wrongSort
  | some (.address text) =>
    match Numeral.parse? 16 text with
    | some n => leave (← Expr.ofInt n 256)
    | none => throw .malformed

end EvmAudit.Step
