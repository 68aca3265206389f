import EvmAudit.Audit.Basic
import EvmAudit.Console.States

/-!
# Audits in the console
-/

namespace EvmAudit.Console

def Read.options (o : Options) (j : Json) : Options :=
  j.members.foldl (fun o (name, v) =>
    match name, v with
    | "solver_timeout", .int n => { o with solverTimeout := n }
    | "pruning_factor", .int n => { o with pruning := 0 < n }
    | "pruning_factor", .float x => { o with pruning := 0 < x }
    | "unconstrained_storage", .bool b => { o with unconstrainedStorage := b }
    | "parallel_solving", .bool b => { o with parallelSolving := b }
    | "call_depth_limit", .int n => { o with callDepthLimit := n }
    | "iprof", .bool b => { o with profile := b }
    | "solver_log", .str s => { o with solverLog := some s }
    | "transaction_sequences", v => { o with sequences := v }
    | "use_integer_module", .bool b => { o with useIntegers := b }
    | "use_deprecated_functions_module", .bool b => { o with useDeprecated := b }
    | "use_functions_visibility_module", .bool b => { o with useVisibility := b }
    | "use_issue_annotations", .bool b => { o with useIssueNotes := b }
    | "solc_args", v => { o with compilerArguments := v }
    | _, _ => o) o

def Read.setUp (j : Json) : Engine Unit := do
  let known ← readSelectors j
  modify (fun s => { s with
    options := options s.options (j.member "args"), code := { s.code with selectors := known } })

/-! ## Issues -/

def issueOrder (i : Issue) : String :=
  let address := match i.address with
    | .str s => s
    | j => j.render Json.spacedStyle 0
  Json.render Json.spacedStyle 0 (.arr [
    .str address, .str i.title, .str i.function, .str i.description, Json.orNull .int i.minGas])

def issuesReply (issues : List Issue) : Reply := inOrder (issues.map (fun i => (issueOrder i, i.toJson)))

/-! ## Audits of a contract -/

def Read.audit (j : Json) : Engine Audit := do
  let bound ← j.numD "loop_bound" 3
  return {
    search := j.strD "strategy" "bfs", maxDepth := ← j.numD "max_depth" 128
    loopBound := match j.get? "loop_bound" with
      | some .null => none
      | _ => some bound
    rounds := (← j.numD "transaction_count" 1).toNat
    detectors := j.texts "modules", keepsGraph := j.flag "statespace" true
    prunes := !j.flag "no_pruning", detects := j.flag "analyse" true }

def exploreRequested (j : Json) (a : Audit) : Engine Unit := do
  Read.setUp j
  let (c, known) ← Contract.make (← get).code.selectors (j.strD "code") (j.strD "creation_code") (j.strD "name" "MAIN")
  modify fun s => { s with code := { s.code with selectors := known } }
  let address ← need .malformed (Numeral.parse? 16 (j.strD "address" "0x0000000000000000000000000000000000000000"))
  a.explore c address (!c.creationCode.isEmpty)

def auditRequest (j : Json) : Engine Reply := do
  let a ← Read.audit j
  exploreRequested j a
  let calls ← if a.keepsGraph then Audit.calls else pure []
  let issues ← Audit.findings a.detectors
  let s ← get
  let worlds ← view s.openWorlds
  let graph ← if a.keepsGraph then
      pure [("graph", ← view s.graph), ("calls", told (← calls.mapM (fun (c, i) => View.callSite c i)))]
    else pure []
  return .record ([("issues", issuesReply issues), ("total_states", s.total), ("open", worlds)] ++ graph)

/-! ## Explorations with chosen parts -/

def Read.allowance (j : Json) (key : String) : Except Fault Allowance := do
  match j.field? key with
  | none => return .ample
  | some (.float x) => return .ofSeconds x
  | some v => return .ofSeconds (Float.ofInt (← v.num))

/-- Plugins by name, in the order in which they are loaded. -/
def Read.plugins (j : Json) : Except Fault (List Plugin) := do
  let loaded ← (j.texts "plugins").mapM (fun n => need .noSuchKey (Plugin.ofName? n))
  let loaded := loaded.foldl (fun ps p => Sequence.insertNew p ps) []
  let off := j.texts "disable"
  let wanted := j.texts "with_plugins"
  return loaded.filter fun p => if wanted.isEmpty then !off.contains p.name else wanted.contains p.name

def watchHooks (names : List String) : Hooks := names.foldl (fun h name => h ++ one name) {}
where
  one (name : String) : Hooks :=
    let note : Engine Unit := Engine.record (.str name)
    let told : Observer := fun g => do
      note
      return g
    match name with
    | "start_execute_transactions" => { onTxsStart := [note] }
    | "stop_execute_transactions" => { onTxsStop := [note] }
    | "add_world_state" => { onWorld := [told] }
    | "execute_state" => { onState := [told] }
    | "start_sym_exec" => { onStart := [note] }
    | "stop_sym_exec" => { onStop := [note] }
    | "start_sym_trans" => { onRoundStart := [note] }
    | "stop_sym_trans" => { onRoundStop := [note] }
    | "start_exec" => { onWorkStart := [note] }
    | "stop_exec" => { onWorkStop := [note] }
    | "transaction_end" => { onEnd := [fun _ => told] }
    | _ => {}

/-- Coverage as it is shown: the code, its instructions and how many of them were reached. -/
def coverageReply (c : Coverage) : Reply :=
  let rows := c.map (fun e =>
    let name := match e.code with
      | .hex s => s
      | .raw bytes => Hex.ofBytes bytes
      | .cells _ => "tuple"
    (name, e.reached.size, (e.reached.filter id).size))
  let rows := rows.mergeSort (fun (a : String × Nat × Nat) b =>
    if a.1 == b.1 then a.2.1 < b.2.1 || (a.2.1 == b.2.1 && a.2.2 ≤ b.2.2) else Text.le a.1 b.1)
  rows.map fun (n, total, reached) => Reply.list [n, total, reached]

def runParts (j : Json) (h : Hooks) (plan : Explore.Plan) (time : Allowance) : Engine Unit := do
  let w ← Read.accounts j
  modify fun s => { s with queries := { s.queries with exhausted := time != .ample } }
  let invalid := Fault.failure .malformed "Symbolic execution started with invalid parameters"
  match j.field? "creation_code" with
  | none => Explore.messages h plan w (← need invalid (← j.num? "target"))
  | some code =>
    let code ← code.code
    match ← j.num? "caller" with
    | none => Explore.creation h plan w code (← need invalid (j.string? "name"))
    | some caller =>
      let caller ← Expr.ofInt caller 256
      let made ← Explore.createUnknown h plan w code (j.strD "name") caller
      if j.flag "no_time_after" then outOfTime
      Explore.transactions h plan made

def partsRequest (j : Json) : Engine Reply := do
  Read.setUp j
  let time ← Read.allowance j "timeout"
  let creationTime ← Read.allowance j "create_timeout"
  let plugins ← Read.plugins j
  let bound ← j.num? "loop_bound"
  let plan : Explore.Plan := {
    search := Read.search (j.strD "strategy" "bfs") 0
    extensions := (if j.flag "coverage_strategy" then [.fresh] else []) ++ bound.toList.map .loops
    maxDepth := some (← j.numD "max_depth" 128), checksReach := j.flag "reachability" true
    rounds := (← j.numD "transaction_count" 1).toNat
    isOver := time == .instant, isCreationOver := creationTime == .instant
    isReached := fun g => do
      (← get).coverage.isReached (← Engine.program g.env.code).code g.machine.pc }
  let detects := j.strD "modules" != "none"
  let names := j.texts "modules"
  let ds ← if detects then Detector.choose (← get).options (some .callback) names else pure []
  runParts j (Plugin.allHooks plugins ++ Detector.hooks ds ++ watchHooks (j.texts "watch")) plan time
  let issues ← if detects then Audit.findings names else pure []
  let s ← get
  let worlds ← view s.openWorlds
  let coverage := if plugins.contains .coverage then [("coverage", coverageReply s.coverage)] else []
  return .record ([
    ("issues", issuesReply issues), ("total_states", s.total), ("open", worlds), ("graph", ← view s.graph),
    ("calls", s.journal.reverse)] ++ coverage)

/-! ## Recorded runs -/

/-- A route: steps by transaction, and branches. -/
def Read.route (j trace : Json) : Explore.Route :=
  { steps := trace.items.flatMap (fun t => t.items.filterMap (fun s => match s.items with
      | [.int pc, .str id] => some (pc, id)
      | _ => none))
    txCount := trace.items.length
    branches := j.texts "branches" }

/-- The world of a record, what turns off its route, and a run of all of it. -/
def recordRequest (j : Json) : Engine Reply := do
  let record := j.member "data"
  let world ← Engine.attempt (Recorded.world record)
  let state ← view world
  let turned ← match j.get? "trace", world with
    | none, _ => pure []
    | some _, .error f => pure [("flipped", .fault f)]
    | some trace, .ok w => do
      pure [("flipped", told (← Engine.attempt (Explore.turnOffs w (Read.route j trace) record)))]
  let whole := match j.flag "full", world with
    | false, _ => []
    | true, .ok _ => [("full", .fault (.failure .broken ""))]
    | true, .error f => [("full", .fault f)]
  return .record ([("state", state)] ++ turned ++ whole)

end EvmAudit.Console
