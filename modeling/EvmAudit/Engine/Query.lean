import EvmAudit.World.Accounts

/-!
# Queries

Are conditions possible, and under which model? A query is answered from what is known: the same query has the same
answer, and a model found earlier serves again if it makes the conditions true. Otherwise every variable becomes
zero. When no time is left a new query has no answer.
-/

namespace EvmAudit

structure Query where
  /-- Conditions, among them plain truth values. -/
  items : List Item
  /-- Are the items a path, so that the conditions on hashes belong to them? -/
  isPath : Bool
  minimize : List Expr := []
  maximize : List Expr := []
  /-- Does the query have to end with the analysis? -/
  enforce : Bool := true
  timeout : Option Int := none
  form : String := ""

namespace Query

def part (i : Item) : Calc QueryPart := do
  match i with
  | .expr e => match ← e.raw with
    | .truth b => return .truth b
    | _ => return .expr e.id
  | i => return .plain (i.int?.getD 0)

def key (q : Query) : Calc QueryKey := do
  let all := q.items ++ Item.absent :: q.minimize.map Item.expr ++ Item.absent :: q.maximize.map Item.expr
  let parts ← all.mapM part
  let form := q.form ++ (if q.isPath then "p" else "t") ++ (if q.enforce then "e" else "n")
    ++ (match q.timeout with
      | some n => toString n
      | none => "")
  return ⟨form, parts⟩

def isPlainTruth : Item → Bool
  | .bool _ => true
  | _ => false

def outOfTime (q : Query) : Engine Bool := do
  let s ← get
  let timeout := match q.timeout with
    | some n => if n = 0 then s.options.solverTimeout else n
    | none => s.options.solverTimeout
  return q.enforce && (s.queries.exhausted || timeout ≤ 0)

def hashConditions : Engine Expr := do
  let (h, c) ← (← get).hashes.conditions
  modify fun s => { s with hashes := h }
  return c

/-- A model found earlier that makes the conditions true. -/
def quick (t : Term) : Engine (Option Model) := do
  let (m, models) ← Engine.ofExcept ((← get).queries.models.ask t)
  modify fun s => { s with queries := { s.queries with models := models } }
  return m

/-- Answers a query that was not answered before, and remembers the answer. -/
def search (q : Query) (key : QueryKey) : Engine Model := do
  if ← q.outOfTime then throw .unsatisfiable
  if q.items.any (fun i => match i with
    | .bool b => !b
    | _ => false) then throw .unsatisfiable
  let hash ← if q.isPath then (fun e => [Item.expr e]) <$> hashConditions else pure []
  let items := (q.items ++ hash).filter (!isPlainTruth ·)
  let model ← answer items
  modify fun s => { s with queries := { s.queries with answered := s.queries.answered.insert key model } }
  return model
where
  answer (items : List Item) : Engine Model := do
    let found ← if q.minimize.isEmpty && q.maximize.isEmpty then do
        let props ← items.mapM (m := Calc) Item.toProp
        let all ← Expr.conj props
        quick (← all.raw)
      else pure none
    match found with
    | some m => return m
    | none =>
      let terms ← items.mapM (m := Calc) fun i => do (← i.expr!).raw
      let m ← Engine.ofExcept (Model.check terms)
      modify fun s => { s with queries := { s.queries with models := s.queries.models.keep m } }
      return m

def solve (q : Query) : Engine Model := do
  let key ← q.key
  match (← get).queries.answered.get? key with
  | some m => return m
  | none => q.search key

end Query

namespace Constraints

def model (cs : Constraints) (timeout : Option Int := none) : Engine Model :=
  Query.solve { items := cs.map .expr, isPath := true, timeout := timeout, form := "m" }

def isPossible (cs : Constraints) (timeout : Option Int := none) : Engine Bool := do
  match ← Engine.attempt (cs.model timeout) with
  | .ok _ => return true
  | .error f => if f.cause? == some .unsatisfiable then return false else throw f

def model? (cs : Constraints) : Engine (Option Model) := do
  match ← Engine.attempt cs.model with
  | .ok m => return some m
  | .error f => if f.cause? == some .unsatisfiable then return none else throw f

end Constraints
end EvmAudit
