import EvmAudit.Step.Basic

/-!
# Arithmetic and comparison
-/

namespace EvmAudit.Step

open EvmAudit.Expr
open Item

def arithmetic (op : ArithOp) : Step Effect := do
  let a ← popWord
  let b ← popWord
  leave (← arith op a b)

def division (op : ArithOp) : Step Effect := do
  let a ← popWord
  let b ← popWord
  if ← (← eqInt b 0).holds then
    pushInt 0
    return .next
  leave (← arith op a b)

def shift (op : ArithOp) : Step Effect := do
  let amount ← popWord
  let value ← popWord
  leave (← arith op value amount)

def modular (op : ArithOp) : Step Effect := do
  let a ← popWord
  let b ← popWord
  let m ← popWord
  leave (← urem (← arith op (← urem a m) (← urem b m)) m)

/-- Exponentiation; what is known about the result becomes a condition. -/
def power : Step Effect := do
  let base ← popWord
  let exponent ← popWord
  let (value, condition) ← Power.create base exponent
  pushExpr value
  constrain condition
  return .next

def signExtend : Step Effect := do
  let index ← pop
  let value ← pop
  let bits ← add (← times .mul index (.expr (← word 8))) (← word 7)
  let bit ← shl (← word 1) bits
  let isSet ← (← not (← eqInt (← bitwise .and value (.expr bit)) 0)).simplified
  let inside ← order .le index (.int 31)
  let filled ← bitwise .or value (.expr (← sub (← word 0) bit))
  let cleared ← bitwise .and value (.expr (← arithInt .sub bit 1))
  let extended ← ite isSet filled cleared
  leave (← (← choose (.expr inside) (.expr extended) value).simplified)

def bitwise (op : ArithOp) : Step Effect := do
  let a ← Stack.toWord (← pop)
  let b ← Stack.toWord (← pop)
  leave (← Item.bitwise op a b)

def complement : Step Effect := do
  let a ← pop
  leave (← plus .sub (.expr (← word (2 ^ 256 - 1))) a)

/-- A byte of a word, counted from the left. At a symbolic position it is a variable. -/
def byteOf : Step Effect := do
  let index ← pop
  let value ← Stack.toWord (← pop)
  match ← index.number? with
  | some i =>
    let offset := (31 - i) * 8
    if offset < 0 then
      pushInt 0
      return .next
    let byte ← extract (offset.toNat + 7) offset.toNat (← value.expr!)
    leave (← (← concat [← const 0 248, byte]).simplified)
  | none =>
    let v ← (← value.expr!).simplified
    let i ← (← index.expr!).simplified
    leave (← unknown ((← v.text) ++ "[" ++ (← i.text) ++ "]"))

def unsignedOrder (op : CmpOp) : Step Effect := do
  let a ← popWord
  let b ← popWord
  leave (← relate op a b)

/-- A comparison in which a number comes to the left. -/
def order (op : CmpOp) : Step Effect := do
  let a ← popWord
  let b ← popWord
  leave (← compare op a b)

def equality : Step Effect := do
  let a ← Stack.toWord (← pop)
  let b ← Stack.toWord (← pop)
  leave (← equate .eq a b)

def isZero : Step Effect := do
  let a ← Stack.toWord (← pop)
  let zero ← equate .eq a (.int 0)
  leave (← (← bit zero).simplified)

/-! # Surroundings of a frame

What an instruction can ask about the transaction, the block and the accounts of the world. -/

/-- The balance of an account. At a symbolic address it is a choice among all accounts. -/
def balance : Step Effect := do
  let address ← (← pop).expr!
  match ← address.value? with
  | some v =>
    let a ← orThrow (← account v)
    leave (← (← world).balance a.address)
  | none =>
    let w ← world
    let choice ← w.accounts.foldlM (fun acc (_, a) => do
      let here ← eq address a.address
      ite here (← w.balance a.address) acc) (← word 0)
    leave choice

def selfBalance : Step Effect := do leave (← (← world).balance (← get).active.address)

/-- The size of the running code. In a creation the arguments of the constructor count as code. -/
def codeSize : Step Effect := do
  let size := (← codeOf (← env).code).length / 2
  unless ← isCreation do
    pushInt size
    return .next
  match (← env).calldata with
  | .concrete _ items _ => pushInt (size + items.length)
  | data =>
    let total : Int := size + 0x200
    match data.size with
    | .expr n => constrain (← eqInt n total)
    | n => constrain (← truth (n.int? == some total))
    pushInt total
  return .next

def foreignCodeSize : Step Effect := do
  let address ← pop
  match ← address.number? with
  | none => leave (← unknown ("extcodesize_" ++ (← address.text)))
  | some n =>
    match ← account n with
    | .ok a =>
      pushInt ((← codeOf a.code).length / 2 : Nat)
      return .next
    | .error f =>
      if f.cause? == some .malformed || f.cause? == some .noSuchPart then
        leave (← unknown ("extcodesize_" ++ Hex.ofInt n))
      else throw f

def hashNumber (text : String) : Step Expr := do
  match Numeral.parse? 16 text with
  | some n => ofInt n 256
  | none => throw .malformed

def foreignCodeHash : Step Effect := do
  let address ← extract 159 0 (← (← pop).expr!)
  match ← address.value? with
  | none => leave (← hashNumber (CodeHash.ofHex ""))
  | some v =>
    match (← world).find? (some v) with
    | none => leave (← word 0)
    | some a =>
      let code ← codeOf a.code
      let ledger := (← (MonadState.get : Engine Session)).ledger
      leave (← hashNumber (CodeHash.text ledger code))

def returnDataSize : Step Effect := do
  match (← get).lastReturn with
  | some r => push r.size
  | none => pushInt 0
  return .next

def blockHash : Step Effect := do
  let number ← pop
  leave (← unknown ("blockhash_block_" ++ (← number.text)))

def programCounter : Step Effect := do
  let g ← get
  match ← g.instrAt? g.machine.pc with
  | some i => leave (← word i.address)
  | none => throw .outOfRange

end EvmAudit.Step
