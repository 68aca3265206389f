import EvmAudit.Console.Basic

/-!
# Memory, machines and call data in the console
-/

namespace EvmAudit.Console

/-- One step of request `memory`; the state is the memory and the one before the last copy. -/
def memoryStep : StepOf (Memory × Memory) := fun (m, old) name args => do
  let get {α : Type} [Seen α] (c : Engine α) : Engine (Reply × (Memory × Memory)) := do shown (← c) (m, old)
  let put (m : Memory) : Engine (Reply × (Memory × Memory)) := shown m (m, old)
  let write (r : Memory.Written) : Engine (Reply × (Memory × Memory)) := shownOr r.memory (r.memory, old) r.fault
  match name, args with
  | "extend", [n] => put (m.extend (← n.num).toNat)
  | "set", [i, b] => put (← m.set (← i.idx) (← b.byte))
  | "set_slice", [a, b, bs] => write (← m.setSlice (← a.idx) (← b.idx) (← bs.bytes))
  | "write_word", [i, v] => write (← m.writeWord (← i.idx) (← v.val))
  | "copy", [] => shown m (m, m)
  | "get", [i] => get (m.get (← i.idx))
  | "get_slice", a :: b :: step => get (m.slice (← a.idx) (← b.idx) (← (step.headD .null).idx))
  | "get_word", [i] => get (m.word (← i.idx))
  | "len", [] => get (pure m.size)
  | "show_old", [] => get (pure old)
  | _, _ => throw .wrongSort

/-- Pushes an item a number of times, as often as there is room. -/
def fillStack (m : Machine) (i : Item) : Nat → Engine (Machine × Option Fault)
  | 0 => return (m, none)
  | n + 1 => do
    match ← Engine.attempt (m.push i) with
    | .ok m => fillStack m i n
    | .error f => return (m, some f)

def machineStep : StepOf Machine := fun m name args => do
  let put (m : Machine) (f : Option Fault := none) : Engine (Reply × Machine) := shownOr m m f
  match name, args with
  | "push", [v] => put (← m.push (← v.val))
  | "mem_extend", [a, b] =>
    let (m, f) ← m.grow (← a.idx) (← b.idx)
    put m f
  | "memory_write", [a, bs] =>
    let (m, f) ← m.write (← a.idx) (← bs.bytes)
    put m f
  | "use_gas", [a, b] => put (m.useGas (← a.num) (← b.num))
  | "copy", [] => put (← m.copy)
  | "show", [] => put m
  | "fill", [n, v] =>
    let (m, f) ← fillStack m (← v.val) (← n.num).toNat
    shownOr m.stack.length m f
  | "stack_pop", i =>
    let (x, s) ← m.stack.popAt (← (i.headD (.int (-1))).num)
    shown x { m with stack := s }
  | "stack_get", [i] => shown (← m.stack.item (← i.num)) m
  | "stack_slice", [a, b] => shown (Sequence.slice m.stack.reverse (← a.num) (← b.num)) m
  | "stack_add", [] | "stack_iadd", [] => throw (.failure .unsupported "Implement this if needed")
  | "pop", n =>
    let n ← (n.headD (.int 1)).num
    let (xs, m) ← m.take n
    match n, xs with
    | 1, [x] => shown x m
    | _, xs => shown xs m
  | "extension", [a, b] => shown (Machine.extension m.memory.size (← a.num) (← b.num)) m
  | "memory_gas", [a, b] => shown (Machine.extensionFee m.memory.size (← a.num) (← b.num)) m
  | "check_gas", [] =>
    m.checkGas
    done m
  | "keys", [] =>
    shown ["gas", "max_gas_used", "memory", "memsize", "min_gas_used", "pc", "stack", "subroutine_stack"] m
  | _, _ => throw .wrongSort

def machineRequest (j : Json) : Engine Reply := do
  stepped machineStep { gasLimit := ← (j.getD "gas_limit" (.int 8000000)).idx } j

def readCalldata (kind tx : String) (data : Json) : Engine Calldata := do
  match kind with
  | "concrete" => Calldata.ofBytes tx (← data.bytes)
  | "basic_concrete" => return .listed tx (← data.bytes)
  | "symbolic" => Calldata.unknown tx
  | _ => Calldata.unknownBytes tx

def readModel (j : Json) : Except Fault Model := return ⟨[← j.members.mapM (fun (k, v) => return (k, ← v.num))]⟩

def calldataStep : StepOf Calldata := fun c name args => do
  match name, args with
  | "size", [] => shown c.size c
  | "calldatasize", [] => shown (← c.sizeWord) c
  | "get", [i] => shown (← c.load (← i.idx)) c
  | "get_bad", [.int n] => shown (← c.load (.int n)) c
  | "get_bad", [.bool b] => shown (← c.load (.bool b)) c
  | "get_bad", [_] => throw .malformed
  | "concrete", [] => shown (← c.bytesIn none) c
  | "concrete_model", [m] => shown (← c.bytesIn (some (← readModel m))) c
  | _, _ => throw .wrongSort

def calldataRequest (j : Json) : Engine Reply := do
  stepped calldataStep (← readCalldata (j.strD "kind") (j.strD "tx" "1") (j.member "data")) j

def returnDataRequest (j : Json) : Engine Reply := do
  let data ← (j.member "data").bytes
  let size ← (j.member "size").val
  let r := ReturnData.bytes data size
  let items ← (j.list "get").mapM (fun i => Engine.attempt (do view (← r.get (← i.idx))))
  return .record [("size", ← view size), ("items", items)]

/-! # Hashes, powers, path constraints and solvers in the console -/

def powerRequest (j : Json) : Engine Reply := do
  let (value, condition) ← Power.create (← (j.member "base").word) (← (j.member "exponent").word)
  return .record [("value", ← view value), ("constraint", ← view condition)]

def readTerms (js : List Json) : Calc (List Term) := js.mapM fun j => do (← j.expr).raw

def bucketsRequest (j : Json) : Engine Reply := do
  let buckets ← Bucket.ofConditions (← readTerms (j.list "conditions"))
  let shown := buckets.map (fun b =>
    Json.arr [.arr ((Text.sort b.names).map .str),
      .arr ((Text.sort (b.conditions.map Term.text)).map (fun t => .str (cut t)))])
  return .record [
    ("buckets", inOrder (shown.map (fun j => (Shown.json j, j)))),
    ("map", Text.sort (buckets.flatMap (·.names)).eraseDups)]

/-! ## Hashes -/

def hashStep : StepOf Unit := fun _ name args => do
  let h := (← get).hashes
  match name, args with
  | "create", [e] =>
    let hash ← Engine.hash (← e.expr)
    let h := (← get).hashes
    return (.record [
      ("hash", ← view hash), ("sizes", (h.results.map (·.1)).mergeSort (fun a b => a ≤ b)),
      ("concrete", h.concrete.length),
      ("symbolic", h.inputs.map (fun (n, es) => (toString n, es.length)))], ())
  | "empty", [] => shown (← Expr.word Hashes.ofNothing) ()
  | "concrete", [e] => shown (← Hashes.concreteHash (← e.expr)) ()
  | "conditions", [] => shown (← Query.hashConditions) ()
  | "intervals", [] => shown (h.intervals.map (fun (n, i) => (toString n, i))) ()
  | "reset", [] =>
    modify fun s => { s with hashes := h.reset }
    done ()
  | _, _ => throw .wrongSort

/-! ## Path constraints -/

abbrev NamedPaths := List (String × Constraints)

def readItems (j : Json) : Calc (List Item) := j.items.mapM Json.item

def readPath (j : Json) : Calc Constraints := do Constraints.ofItems (← readItems j)

def constraintStep : StepOf NamedPaths := fun s name args => do
  let path (n : String) : Engine Constraints := need .noSuchKey (s.lookup n)
  let put (n : String) (cs : Constraints) : Engine (Reply × NamedPaths) := shown cs (Sequence.put n cs s)
  match name, args with
  | "new", [.str n, es] => put n (← readPath es)
  | "append", [.str n, e] => put n (← (← path n).appendItem (← e.item))
  | "add", [.str n, es] | "iadd", [.str n, es] => put n ((← path n) ++ (← readPath es))
  | "copy", [.str a, .str b, deep] =>
    let cs ← path a
    put b (← if deep.isGiven then cs.copy else pure cs)
  | "show", [.str n] => shown (← path n) s
  | "all", [.str n] | "as_list", [.str n] => shown ((← path n) ++ [← Query.hashConditions]) s
  | "keccak", [e] => shown (← Engine.hash (← e.expr)) s
  | _, _ => throw .wrongSort

/-! ## Solvers -/

inductive SolverKind where
  | plain
  | optimising
  | independent
  deriving DecidableEq

/-- A solver with its conditions, the models of its last check, and the model that is kept. -/
structure SolverState where
  kind : SolverKind
  conditions : List Term := []
  models : List (List (String × Int)) := []
  kept : Option Model := none

def rawNumber (n : Int) : String := toString (n % ((2 ^ 256 : Nat) : Int)) ++ ":256"

def rawTerm : Term → String
  | .const v w => toString v ++ ":" ++ toString w
  | t => cut t.text

instance : Told Model where
  told m :=
    let pairs := m.names.map fun n => (n, rawNumber ((m.get? n).getD 0))
    let sorted := pairs.mergeSort fun a b => decide (a.1 < b.1) || (a.1 == b.1 && Text.le a.2 b.2)
    sorted.map fun (n, v) => [n, v]

def modelText (m : Model) : String :=
  String.join (m.names.map (fun n =>
    n ++ ": 0x" ++ Hex.ofNat ((m.get? n).getD 0 % ((2 ^ 256 : Nat) : Int)).toNat ++ "\n"))

/-- Checks the conditions of a solver and others given with the check. -/
def SolverState.check (s : SolverState) (more : List Term) : Except Fault SolverState := do
  match s.kind with
  | .independent =>
    unless more.isEmpty do throw .wrongSort
    let buckets ← Bucket.ofConditions s.conditions
    return { s with models := (← buckets.mapM (Model.check ·.conditions)).flatMap (·.parts) }
  | _ => return { s with models := (← Model.check (s.conditions ++ more)).parts }

def queryOf (items : List Item) (opts : Json) : Calc Query := do
  return {
    items := items, isPath := false, enforce := opts.flag "enforce_execution_time" true
    minimize := ← (opts.list "minimize").mapM Json.expr, maximize := ← (opts.list "maximize").mapM Json.expr }

def solverStep : StepOf SolverState := fun s name args => do
  let keep (m : Model) : Engine (Reply × SolverState) := shown m { s with kept := some m }
  match name, args with
  | "add", es | "append", es => done { s with conditions := s.conditions ++ (← readTerms es) }
  | "timeout", [_] => done s
  | "reset", [] =>
    if s.kind == .optimising then throw .noSuchPart
    done { s with conditions := [], models := if s.kind == .independent then s.models else [] }
  | "pop", [n] =>
    let n ← n.num
    match s.kind with
    | .plain => done s
    | .optimising => throw .noSuchPart
    | .independent =>
      let k := if n < 0 then n + s.conditions.length else n
      if k < 0 || k ≥ s.conditions.length then throw .outOfRange
      done { s with conditions := s.conditions.eraseIdx k.toNat }
  | "minimize", [e] | "maximize", [e] =>
    let e ← e.item
    unless s.kind == .optimising do throw .noSuchPart
    let _ ← e.expr!
    done s
  | "check", es => shown "sat" (← s.check (← readTerms es))
  | "model", [] => keep ⟨if s.kind == .independent || !s.models.isEmpty then s.models else [[]]⟩
  | "empty_model", [] => keep ⟨[]⟩
  | "models", [ms] => keep ⟨← (ms.items.mapM (fun m => return (← readModel m).parts.flatten) : Except Fault _)⟩
  | "get", [.int i] =>
    let m ← need .wrongSort s.kept
    shown ((← need .outOfRange (Model.at? m.parts i)).map rawNumber) s
  | "get", [e] =>
    let m ← need .wrongSort s.kept
    let name := match ← (← e.expr).raw with
      | .symbol n _ | .prop n | .apply n _ _ => n
      | _ => ""
    shown ((m.get? name).map rawNumber) s
  | "eval", e :: complete =>
    let m ← need .noSuchPart s.kept
    shown ((← m.eval (← (← e.expr).raw) (complete.any Json.isGiven)).map rawTerm) s
  | "pretty", [] => shown (modelText (← need .noSuchPart s.kept)) s
  | "sexpr", [] =>
    if s.kind == .independent then throw .noSuchPart
    shown "(solver)" s
  | "constraints", [] =>
    unless s.kind == .independent do throw .noSuchPart
    shown (Text.sort (s.conditions.map (cut ·.text))) s
  | "get_model", [es, opts] => keep (← (← queryOf (← readItems es) opts).solve)
  | "no_time", [] =>
    outOfTime
    done s
  | "possible", [es] => shown (← (← readPath es).isPossible) s
  | "possible_in", [es, n] => shown (← (← readPath es).isPossible (some (← n.num))) s
  | "constraints_model", [es] => shown (← (← readPath es).model?) s
  | _, _ => throw .wrongSort

def solverRequest (j : Json) : Engine Reply :=
  let kind := match j.strD "kind" with
    | "optimize" => SolverKind.optimising
    | "independence" => .independent
    | _ => .plain
  stepped solverStep { kind := kind } j

/-- Request `substitute`: nothing is replaced inside of a term. -/
def substituteRequest (j : Json) : Engine Reply := do
  let target ← (j.member "expr").operand
  let old ← (j.member "old").operand
  let new ← (j.member "new").operand
  let isTerm (o : Operand) : Bool := match o with
    | .item (.expr _) => true
    | .array _ _ => true
    | _ => false
  let missing := Reply.fault .noSuchPart
  let raised := if isTerm old && isTerm new then Reply.null else missing
  let reply (text : String) (raised size tags : Reply) : Reply :=
    .record [("before", text), ("raised", raised), ("after", text), ("size", size), ("tags", tags)]
  match target with
  | .array a _ => return reply a.text raised missing missing
  | .item (.expr e) =>
    let text := cut (← e.text)
    return reply text (if e.isProp then raised else missing) e.width (tagsOf (← e.marks))
  | .item _ => throw .noSuchPart

end EvmAudit.Console
