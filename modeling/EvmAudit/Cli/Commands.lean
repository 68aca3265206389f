import EvmAudit.Cli.Argument

/-!
# Help

A help page has a line of usage, a sentence about the command, and a table for each group of arguments: what is written
on the left, what it means on the right. Lines are at most 78 characters long where a text can be broken.
-/

namespace EvmAudit.Cli

open Text

structure Page where
  title : String
  about : Option String := none
  groups : List (String × List Argument)
  /-- Commands with a word on each, listed below the argument that names one. -/
  entries : List (String × String) := []
  keepsLines : Bool := false

def Page.width : Nat := 78

def Page.helpColumn : Nat := 24

def Page.args (p : Page) : List Argument := p.groups.flatMap (·.2)

namespace Argument

def placeholder (a : Argument) : String :=
  match a.metavar with
  | some m => m
  | none =>
    if !a.choices.isEmpty then "\x7b" ++ join "," a.choices ++ "\x7d"
    else if a.flags.isEmpty then a.name
    else a.name.toUpper

def takesValue (a : Argument) : Bool :=
  match a.takes with
  | .nothing _ | .help => false
  | _ => true

/-- The argument in a line of usage, in parts that may stand on lines of their own. -/
def usageParts (a : Argument) : List String :=
  match a.takes, a.flags with
  | .many, _ => ["[" ++ a.placeholder ++ " ...]"]
  | .command, _ => [a.placeholder, "..."]
  | _, [] => (Chars.words a.placeholder.toList).map String.ofList
  | _, f :: _ => [if a.takesValue then "[" ++ f ++ " " ++ a.placeholder ++ "]" else "[" ++ f ++ "]"]

def label (a : Argument) : String :=
  if a.flags.isEmpty then a.placeholder
  else join ", " (a.flags.map (fun f => if a.takesValue then f ++ " " ++ a.placeholder else f))

end Argument

namespace Page

def blanks (n : Nat) : String := String.ofList (List.replicate n ' ')

/-- Puts parts on lines, as many as fit. `start` is the room already taken on the first line. -/
def lines (width indent : Nat) : Nat → List String → List String → List String
  | _, line, [] => if line.isEmpty then [] else [join " " line]
  | used, line, part :: rest =>
    if used + part.length > width && !line.isEmpty then
      join " " line :: lines width indent (indent + part.length + 1) [part] rest
    else lines width indent (used + part.length + 1) (line ++ [part]) rest

def wrap (width : Nat) (s : String) : List String := lines width 0 0 [] ((Chars.words s.toList).map String.ofList)

def usage (p : Page) : String :=
  let shown := p.args.filter (·.help.isSome)
  let options := (shown.filter (!·.flags.isEmpty)).flatMap Argument.usageParts
  let positionals := (shown.filter (·.flags.isEmpty)).flatMap Argument.usageParts
  let start := "usage: "
  let flat := join " " (p.title :: options ++ positionals)
  if start.length + flat.length ≤ width then start ++ flat
  else
    let indent := start.length + p.title.length + 1
    let margin := "\n" ++ blanks indent
    let first := if options.isEmpty then positionals else options
    let second := if options.isEmpty then [] else positionals
    let all := lines width indent start.length [] (p.title :: first) ++ lines width indent indent [] second
    start ++ join margin all

def row (column indent : Nat) (keepsLines : Bool) (label help : String) : String :=
  let room := column - indent - 2
  let texts := if keepsLines then splitAt help '\n' else wrap (width - column) help
  let body := join ("\n" ++ blanks column) texts
  if trim help == "" then blanks indent ++ label ++ "\n"
  else if label.length ≤ room then blanks indent ++ label ++ blanks (room - label.length) ++ "  " ++ body ++ "\n"
  else blanks indent ++ label ++ "\n" ++ blanks column ++ body ++ "\n"

def render (p : Page) : String :=
  let shown := p.args.filterMap fun a => a.help.map (fun _ => a.label)
  let longest := ((shown ++ p.entries.map (·.1)).map String.length).foldl max 0
  let column := min (longest + 4) helpColumn
  let ofArgument (a : Argument) : String :=
    match a.help with
    | none => ""
    | some help =>
      let own := row column 2 p.keepsLines a.label help
      match a.takes with
      | .command => own ++ join "" (p.entries.map (fun (l, h) => row column 4 p.keepsLines l h))
      | _ => own
  let section? (g : String × List Argument) : Option String :=
    let rows := join "" (g.2.map ofArgument)
    if rows.isEmpty then none else some ("\n" ++ g.1 ++ ":\n" ++ rows)
  let about := match p.about with
    | some s => "\n" ++ join "\n" (wrap width s) ++ "\n"
    | none => ""
  p.usage ++ "\n" ++ about ++ join "" (p.groups.filterMap section?)

end Page

/-! # Commands

The commands of the program with their arguments and help. `Command.ofName?` finds a command by its name or its short
name; `parseWords` reads a whole command line. -/

inductive Command where
  | safeFunctions
  | analyze
  | disassemble
  | listDetectors
  | readStorage
  | functionToHash
  | hashToAddress
  | version
  | help
  deriving DecidableEq, Repr, Inhabited

def helpArgument : Argument :=
  { flags := ["-h", "--help"], takes := .help, help := some "show this help message and exit" }

def setting (flags : List String) (help : String) (metavar : Option String := none) (default : Value := .absent) : Argument :=
  { flags := flags, help := some help, metavar := metavar, default := default }

def count (flags : List String) (help : String) (default : Value) : Argument :=
  { flags := flags, help := some help, kind := .whole, default := default }

def switch (flags : List String) (help : String) : Argument :=
  { flags := flags, help := some help, takes := .nothing (.flag true), default := .flag false }

/-! ## Groups of options -/

def chainOptions : List Argument :=
  [ setting ["--rpc"] "custom RPC settings" (some "HOST:PORT / ganache / infura-[network_name]")
      (.text "infura-mainnet"),
    { flags := ["--rpctls"], help := some "RPC connection over TLS", kind := .truth,
      default := .flag false },
    setting ["--infura-id"] "set infura id for onchain analysis" ]

def compilerOptions : List Argument :=
  [ setting ["--solc-json"]
      "Json for the optional 'settings' parameter of solc's standard-json input",
    setting ["--solc-args"]
      ("Provide solc args, example: --solc-args \"--allow-paths --include-path /root_folder/node_modules "
        ++ "--base-path /home/contracts\" "),
    setting ["--solv"]
      "specify solidity compiler version. If not present, will try to install it (Experimental)" (some "SOLV") ]

def codeOptions : List Argument :=
  [ setting ["-c", "--code"] "hex-encoded bytecode string (\"6060604052...\")" (some "BYTECODE"),
    { flags := ["-f", "--codefile"], kind := .file, metavar := some "BYTECODEFILE",
      help := some "file containing hex-encoded bytecode string" },
    setting ["-a", "--address"] "pull contract from the blockchain" (some "CONTRACT_ADDRESS"),
    switch ["--bin-runtime"]
      ("Only when -c or -f is used. Consider the input bytecode as binary runtime code, default being the contract "
        ++ "creation bytecode.") ]

def formatOption : Argument :=
  { flags := ["-o", "--outform"], choices := ["text", "markdown", "json", "jsonv2"],
    default := .text "text", metavar := some "<text/markdown/json/jsonv2>", help := some "report output format" }

def sourceFiles (help : String) : Argument :=
  { name := "solidity_files", takes := .many, default := .texts [], help := some help }

/-- Results of an analysis other than a report. -/
def graphOptions : List Argument :=
  [ setting ["-g", "--graph"] "generate a control flow graph",
    setting ["-j", "--statespace-json"] "dumps the statespace json" (some "OUTPUT_FILE") ]

def analysisOptions : List Argument :=
  [ setting ["-m", "--modules"] "Comma-separated list of security analysis modules" (some "MODULES"),
    count ["--max-depth"] "Maximum recursion depth for symbolic execution" (.whole 128),
    count ["--call-depth-limit"] "Maximum call depth limit for symbolic execution" (.whole 3),
    { flags := ["--strategy"], default := .text "bfs",
      choices := ["dfs", "bfs", "naive-random", "weighted-random", "delayed"],
      help := some "Symbolic execution strategy" },
    setting ["--transaction-sequences"]
      ("The possible transaction sequences to be executed. Like [[func_hash1, func_hash2], [func_hash2, func_hash3]] "
        ++ "where for the first transaction is constrained with func_hash1 and func_hash2, and the second tx is "
        ++ "constrained with func_hash2 and func_hash3"),
    count ["--beam-search"] "Beam search with with" .absent,
    { count ["-b", "--loop-bound"] "Bound loops at n iterations" (.whole 3) with metavar := some "N" },
    count ["-t", "--transaction-count"] "Maximum number of transactions issued by laser" (.whole 2),
    count ["--execution-timeout"] "The amount of seconds to spend on symbolic execution"
      (.whole 86400),
    count ["--solver-timeout"]
      "The maximum amount of time(in milli seconds) the solver spends for queries from analysis modules"
      (.whole 10000),
    count ["--create-timeout"] "The amount of seconds to spend on the initial contract creation"
      (.whole 10),
    switch ["--parallel-solving"] "Enable solving z3 queries in parallel",
    setting ["--solver-log"] "Path to the directory for solver log" (some "SOLVER_LOG"),
    switch ["--no-onchain-data"]
      "Don't attempt to retrieve contract code, variables and balances from the blockchain",
    { flags := ["--pruning-factor"], kind := .decimal, default := .decimal 1,
      help := some ("Checks for reachability at the rate of <pruning-factor> (range 0-1.0). Where 1.0 would mean "
        ++ "checking for every execution") },
    switch ["--unconstrained-storage"]
      "Default storage value is symbolic, turns off the on-chain storage loading",
    switch ["--phrack"] "Phrack-style call graph",
    switch ["--enable-physics"] "enable graph physics simulation",
    switch ["-q", "--query-signature"] "Lookup function signatures through www.4byte.directory",
    switch ["--enable-iprof"] "enable the instruction profiler",
    switch ["--disable-dependency-pruning"] "Deactivate dependency-based pruning",
    switch ["--enable-coverage-strategy"] "enable coverage based search strategy",
    setting ["--custom-modules-directory"]
      "designates a separate directory to search for custom analysis modules" (some "CUSTOM_MODULES_DIRECTORY"),
    setting ["--attacker-address"]
      "Designates a specific attacker address to use during analysis" (some "ATTACKER_ADDRESS"),
    setting ["--creator-address"]
      "Designates a specific creator address to use during analysis" (some "CREATOR_ADDRESS") ]

/-! ## The commands -/

namespace Command

def all : List Command :=
  [.safeFunctions, .analyze, .disassemble, .listDetectors, .readStorage, .functionToHash, .hashToAddress, .version,
    .help]

def name : Command → String
  | .safeFunctions => "safe-functions"
  | .analyze => "analyze"
  | .disassemble => "disassemble"
  | .listDetectors => "list-detectors"
  | .readStorage => "read-storage"
  | .functionToHash => "function-to-hash"
  | .hashToAddress => "hash-to-address"
  | .version => "version"
  | .help => "help"

def aliases : Command → List String
  | .analyze => ["a"]
  | .disassemble => ["d"]
  | _ => []

def names (c : Command) : List String := c.name :: c.aliases

def ofName? (s : String) : Option Command := all.find? (·.names.contains s)

def purpose? : Command → Option String
  | .safeFunctions => some "Check functions which are completely safe using symbolic execution"
  | .analyze => some "Triggers the analysis of the smart contract"
  | .disassemble => some "Disassembles the smart contract"
  | .listDetectors => some "Lists available detection modules"
  | .readStorage => some "Retrieves storage slots from a given address through rpc"
  | .functionToHash => some "Returns the hash signature of the function"
  | .hashToAddress => some "converts the hashes in the blockchain to ethereum address"
  | .version => some "Outputs the version"
  | .help => none

def severalFiles : Argument :=
  sourceFiles ("Inputs file name and contract name. \nusage: file1.sol:OptionalContractName file2.sol "
    ++ "file3.sol:OptionalContractName")

def singleFile : Argument :=
  sourceFiles ("Inputs file name and contract name. Currently supports a single contract\nusage: "
    ++ "file1.sol:OptionalContractName")

def positional (name metavar help : String) : Argument := { name := name, metavar := some metavar, help := some help }

def positionalTitle : String := "positional arguments"

def optionTitle : String := "options"

def inputOptions : List Argument := helpArgument :: chainOptions ++ compilerOptions ++ codeOptions

/-- The code to analyze, and the form of the report. -/
def inputs : List (String × List Argument) :=
  [(positionalTitle, [severalFiles]), (optionTitle, inputOptions ++ [formatOption])]

def groups : Command → List (String × List Argument)
  | .safeFunctions => inputs ++ [(optionTitle, analysisOptions)]
  | .analyze => inputs ++ [("commands", graphOptions), (optionTitle, analysisOptions)]
  | .disassemble => [(positionalTitle, [singleFile]), (optionTitle, inputOptions)]
  | .listDetectors | .version => [(optionTitle, [helpArgument, formatOption])]
  | .readStorage =>
    [(positionalTitle,
        [positional "storage_slots" "INDEX,NUM_SLOTS,[array] / mapping,INDEX,[KEY1, KEY2...]"
            "read state variables from storage index",
          positional "address" "ADDRESS" "contract address"]),
      (optionTitle, helpArgument :: chainOptions)]
  | .functionToHash =>
    [(positionalTitle, [positional "func_name" "SIGNATURE" "calculate function signature hash"]),
      (optionTitle, [helpArgument])]
  | .hashToAddress =>
    [(positionalTitle, [positional "hash" "FUNCTION_NAME" "Find the address from hash"]), (optionTitle, [helpArgument])]
  | .help => []

def program : String := "myth"

def page (c : Command) : Page :=
  { title := program ++ " " ++ c.name, groups := c.groups,
    keepsLines := [Command.safeFunctions, .analyze, .disassemble].contains c }

end Command

/-! ## The whole command line -/

def outerGroups : List (String × List Argument) :=
  let command : Argument :=
    { name := "command", takes := .command, choices := Command.all.flatMap Command.names, help := some "Commands" }
  let level : Argument := { count ["-v"] "log level (0-5)" (.whole 2) with metavar := some "LOG_LEVEL" }
  let epic : Argument := { switch ["--epic"] "" with help := none }
  [(Command.positionalTitle, [command]), (Command.optionTitle, [helpArgument, epic, level])]

def mainPage : Page :=
  let entry? (c : Command) : Option (String × String) := c.purpose?.map (fun purpose =>
    (c.name ++ (if c.aliases.isEmpty then "" else " (" ++ join ", " c.aliases ++ ")"), purpose))
  { title := Command.program, about := some "Security analysis of Ethereum smart contracts", groups := outerGroups,
    entries := Command.all.filterMap entry? }

inductive Request where
  | misuse
  | help (page : Page)
  | idle (outer : Values)
  | run (outer : Values) (command : Command) (inner : Values)

/-- Reads a command line; words that are nothing make it a misuse. -/
def parseWords (hasFile : String → Bool) (words : List String) : Request :=
  match Reading.ofWords mainPage.args hasFile words with
  | .error .misuse => .misuse
  | .error .help => .help mainPage
  | .ok r =>
    let outer : Values := ⟨r.values, mainPage.args⟩
    match (outer.text? "command").bind Command.ofName? with
    | none => if r.extras.isEmpty then .idle outer else .misuse
    | some c => match Reading.ofWords c.page.args hasFile r.rest with
      | .error .misuse => .misuse
      | .error .help => .help c.page
      | .ok s =>
        if r.extras.isEmpty && s.extras.isEmpty then .run outer c ⟨s.values, c.page.args⟩ else .misuse

end EvmAudit.Cli
