import EvmAudit.Code.Program
import EvmAudit.Text.Json

/-!
# Version pragmas

The compiler version that a source file asks for. The line has to name a version after the words; which compilers are
installed is not known here, so no version is ever chosen.
-/

namespace EvmAudit.Pragma

def marker : String := "pragma solidity"

/-- The first line that holds the pragma, without blanks at its end. -/
def line? (source : String) : Option String :=
  ((Text.splitAt source '\n').find? (Text.contains · marker)).map (fun l =>
    String.ofList ((l.toList.reverse.dropWhile Chars.isBlank).reverse))

/-- The compiler version to use: none, unless the pragma is malformed. -/
def version (source : String) : Except Fault (Option String) :=
  match line? source with
  | none => .ok none
  | some l =>
    let l := match l.toList.reverse with
      | ';' :: rest => String.ofList rest.reverse
      | _ => l
    let first := ((Text.splitAt l ';').head?).getD ""
    if Text.contains first (marker ++ " ") then .ok none else .error .noSuchPart

end EvmAudit.Pragma

/-! # The compiler

A compiler reads source files and prints one JSON value: contracts by file, syntax trees of the files, and errors. -/

namespace EvmAudit

abbrev Files := List (String × String)

def Files.read (files : Files) (path : String) : Except Fault String :=
  match files.lookup path with
  | some text => .ok text
  | none => .error (.relayed .noSuchFile ("[Errno 2] No such file or directory: " ++ Shown.str path))

structure Compiler where
  /-- What the compiler prints; none if there is no such program. -/
  printed : Option String
  /-- Text of the file with settings, if there is one; it may be missing. -/
  settings : Except Fault (Option String) := .ok none

namespace Compiler

def missingPath : String := "/nonexistent/solc"

def checkSettings (text : String) : Except Fault Unit :=
  match Json.parse? text with
  | none => .error (.relayed .notJson "")
  | some (.obj _) => .ok ()
  | some (.arr _) => .error .noSuchPart
  | some (.str _) => .error .noSuchPart
  | some _ => .error .wrongSort

def checkError (e : Json) : Except Fault Unit := do
  let severity ← e.part "severity"
  if severity.str? == some "error" then
    let text ← e.part "formattedMessage"
    throw (.failure .compiler ("Solc experienced a fatal error.\n\n" ++ Shown.plain text))

def run (c : Compiler) : Except Fault Json := do
  if let some text := ← c.settings then checkSettings text
  let some printed := c.printed
    | throw (.failure .compiler
        "Compiler not found. Make sure that solc is installed and in PATH, or set the SOLC environment variable.")
  let some result := Json.parse? printed | throw (.relayed .notJson "")
  let _ ← result.entries
  match result.get? "errors" with
  | none => return result
  | some errors =>
    (← errors.elements).forM checkError
    return result

end Compiler

/-! # Source maps

A source map gives a stretch of a source file for each instruction. Stretches are written as offset, length and file
number with colons between them. What is left out is as in the stretch before. -/

structure SourceFile where
  name : String
  text : String
  /-- Stretches of whole contracts; what is mapped to one of them was written by the compiler. -/
  wholes : List String

/-- The place in the source that an instruction comes from. -/
structure Place where
  file : Int
  offset : Int
  length : Int
  /-- There is none for code of the compiler's own. -/
  line : Option Nat
  written : String

abbrev SourceFiles := List (Int × SourceFile)

namespace Place

structure Known where
  offset : Option Int := none
  length : Option Int := none
  file : Option Int := none
  written : String := ""

def field (before : Option Int) (text : Option String) : Except Fault (Option Int) :=
  match text.filter (!·.isEmpty) with
  | none => .ok before
  | some t => match Numeral.parse? 10 t with
    | some n => .ok (some n)
    | none => .error .malformed

def next (k : Known) (item : String) : Except Fault Known := do
  let written := if item.isEmpty then k.written else item
  let fields := Text.splitAt written ':'
  return { offset := ← field k.offset fields[0]?, length := ← field k.length fields[1]?,
           file := ← field k.file fields[2]?, written := written }

def lineAt (text : String) (offset : Int) : Nat := (Sequence.slice (Utf8.octets text) 0 offset).count 10 + 1

def file! (files : SourceFiles) (n : Int) : Except Fault SourceFile :=
  match files.lookup n with
  | some f => .ok f
  | none => .error .noSuchKey

def ofKnown (files : SourceFiles) (k : Known) : Except Fault Place :=
  match k.offset, k.length, k.file with
  | some offset, some length, some n =>
    if n == -1 then .ok ⟨n, offset, length, none, k.written⟩
    else do
      let f ← file! files n
      let stretch := ":".intercalate [toString offset, toString length, toString n]
      let line := if f.wholes.contains stretch then none else some (lineAt f.text offset)
      return ⟨n, offset, length, line, k.written⟩
  | _, _, _ => .error (.failure .unassigned "")

def readAll (files : SourceFiles) : Known → List String → Except Fault (List Place)
  | _, [] => .ok []
  | k, item :: rest => do
    let k ← next k item
    let p ← ofKnown files k
    return p :: (← readAll files k rest)

def ofMap (files : SourceFiles) (map : String) : Except Fault (List Place) := readAll files {} (Text.splitAt map ';')

end Place

/-! # Contracts with their source

A contract from the output of a compiler knows the source files and, for each instruction, its place there. -/

structure SourceText where
  filename : String
  line : Option Nat
  code : String
  written : String

structure SourceContract where
  contract : Contract
  inputFile : String
  files : SourceFiles
  places : List Place
  creationPlaces : List Place
  compiled : Json

namespace SourceContract

/-! ## Source files -/

/-- Stretches of the contracts in a syntax tree; of a block of assembly code those of its statements. -/
def wholes (tree : Json) : Except Fault (List String) := do
  let kind ← tree.part "nodeType"
  if kind.str? == some "SourceUnit" then
    let children ← (← tree.part "nodes").elements
    let contracts := children.filter (fun c => (c.getD "contractKind" .null).isGiven)
    contracts.mapM (fun c => do (← c.part "src").text)
  else if kind.str? == some "YulBlock" then
    (← (← tree.part "statements").elements).mapM (fun c => do (← c.part "src").text)
  else return []

def generated (files : SourceFiles) (code : Json) : Except Fault SourceFiles :=
  match code with
  | .obj _ => match code.get? "generatedSources" with
    | none => .ok files
    | some sources => do
      (← sources.elements).foldlM (fun files s => do
        let whole ← wholes (← s.part "ast")
        let f : SourceFile := ⟨← (← s.part "name").text, ← (← s.part "contents").text, whole⟩
        return Sequence.put (← (← s.part "id").number) f files) files
  | _ => .error .wrongSort

def sourceFiles (disk : Files) (compiled : Json) : Except Fault SourceFiles := do
  let contracts ← (← compiled.part "contracts").entries
  let files ← contracts.foldlM (fun files (_, ofFile) => do
    (← ofFile.entries).foldlM (fun files (_, c) => do
      let files ← generated files (← c.path ["evm", "bytecode"])
      generated files (← c.path ["evm", "deployedBytecode"])) files) []
  (← (← compiled.part "sources").entries).foldlM (fun files (_, s) => do
    let tree ← s.part "ast"
    let whole ← wholes tree
    let path ← (← tree.part "absolutePath").text
    let text ← disk.read path
    return Sequence.put (← (← s.part "id").number) ⟨path, text, whole⟩ files) files

/-! ## Contracts -/

def objectOf (c : Json) : Except Fault String := do
  (← c.path ["evm", "deployedBytecode", "object"]).text

def contractsOf (compiled : Json) (file : String) : Except Fault (List (String × Json)) := do
  (← compiled.path ["contracts", file]).entries

/-- The contract to take: the named one, or the last one by name that has code. -/
def choose (compiled : Json) (file : String) (name : Option String) : Except Fault (String × Json) := do
  let found : Option (String × Json) ← match name with
    | some name =>
      let c ← compiled.path ["contracts", file, name]
      let code ← objectOf c
      pure (if code.isEmpty then none else some (name, c))
    | none => do
      let all := (← contractsOf compiled file).mergeSort fun a b => Text.le a.1 b.1
      all.foldlM (fun found (name, c) => do
        let code ← objectOf c
        if code.isEmpty then return found
        for key in ["bytecode", "deployedBytecode"] do
          let _ ← c.path ["evm", key, "object"]
          let _ ← c.path ["evm", key, "sourceMap"]
        return some (name, c)) none
  match found with
  | some c => return c
  | none => throw (.failure .noContract "")

def make (disk : Files) (compiler : Compiler) (known : Selectors) (file : String) (name : Option String) :
    Except Fault (SourceContract × Selectors) := do
  let compiled ← compiler.run
  let files ← sourceFiles disk compiled
  let (name, c) ← choose compiled file (name.filter (!·.isEmpty))
  let code ← objectOf c
  let creationCode ← (← c.path ["evm", "bytecode", "object"]).text
  let map ← (← c.path ["evm", "deployedBytecode", "sourceMap"]).text
  let creationMap ← (← c.path ["evm", "bytecode", "sourceMap"]).text
  let places ← Place.ofMap files map
  let creationPlaces ← Place.ofMap files creationMap
  let (contract, known) ← Contract.make known code creationCode name
  return (⟨contract, file, files, places, creationPlaces, compiled⟩, known)

def namesIn (compiled : Json) (file : String) : Except Fault (List (String × Json)) :=
  match contractsOf compiled file with
  | .error f => if f.cause? == some .noSuchKey then .error (.failure .noContract "") else .error f
  | r => r

/-! ## Places -/

def indexAt (p : Program) (address : Int) : Option Nat := p.instrs.toList.findIdx? (address ≤ ·.address)

/-- The source text of an instruction; code that comes from no file has none. -/
def sourceAt (c : SourceContract) (address : Json) (ofCreation : Bool) : Except Fault (Option SourceText) := do
  let program := if ofCreation then c.contract.creationProgram else c.contract.program
  let places := if ofCreation then c.creationPlaces else c.places
  let some index := indexAt program (← address.number) | throw .wrongSort
  let some p := places[index]? | throw .outOfRange
  if p.file == -1 then return none
  let f ← Place.file! c.files p.file
  let code := Utf8.text (Sequence.slice (Utf8.octets f.text) p.offset (p.offset + p.length))
  return some ⟨f.name, p.line, code, p.written⟩

end SourceContract

/-! # Where reported code comes from

A report lists the sources of the contracts: files for contracts with source, and otherwise hashes of code. Issues refer to
a hash by its index; a hash that is not in the list yet is added to it. -/

/-- A contract to look into, with or without its source. -/
inductive Subject where
  | bare (c : Contract)
  | sourced (c : SourceContract)

def Subject.contract : Subject → Contract
  | .bare c => c
  | .sourced c => c.contract

structure Origin where
  kind : Option String := none
  format : Option String := none
  sources : List String := []
  hashes : List String := []
  areHashes : Bool := false

namespace Origin

def isAddress (name : String) : Bool := name.length == 42 && Text.startsWith name "0x"

def addSourced (o : Origin) : Subject → Except Fault Origin
  | .sourced s => .ok { o with
      sources := o.sources ++ s.files.map (·.2.name)
      hashes := o.hashes ++ [s.contract.codeHash, s.contract.creationHash] }
  | .bare _ => .error .noSuchPart

def hashesOf (c : Contract) : List String :=
  (if c.creationCode.isEmpty then [] else [c.creationHash]) ++ (if c.code.isEmpty then [] else [c.codeHash])

/-- The origin of contracts; the first one decides on its kind. -/
def ofSubjects (cs : List Subject) : Except Fault Origin :=
  match cs with
  | [] => .ok {}
  | .sourced _ :: _ => cs.foldlM addSourced { kind := some "solidity-file", format := some "text" }
  | .bare c :: _ =>
    let hashes := cs.flatMap (fun s => hashesOf s.contract)
    .ok { kind := some (if isAddress c.name then "ethereum-address" else "raw-bytecode"),
          format := some "evm-byzantium-bytecode", sources := hashes, hashes := hashes, areHashes := true }

def indexOf (o : Origin) (hash : String) : Nat × Origin :=
  match o.hashes.findIdx? (· == hash) with
  | some i => (i, o)
  | none =>
    let hashes := o.hashes ++ [hash]
    (o.hashes.length, { o with hashes := hashes, sources := if o.areHashes then hashes else o.sources })

end Origin

/-! # Loading contracts from source files

A path may name one contract after a colon; otherwise all contracts of the file are loaded. Signatures of the functions in
the file become known on the way. -/

/-- Contracts loaded so far, and the signatures that are known. -/
structure Loaded where
  subjects : List Subject := []
  known : Selectors := {}

abbrev Loading := EStateM Fault Loaded

namespace Loading

open MonadExcept (ofExcept)

def learn (signature : String) (selector : Json) : Loading Unit := do
  let selector := "0x" ++ Shown.plain selector
  let l ← get
  let names := (l.known.fromSource.lookup selector).getD []
  let known := l.known.setSource selector (names ++ [signature])
  set { l with known := known }
  let known ← ofExcept (known.add selector signature)
  set { l with known := known }

def learnAll (compiler : Compiler) (file : String) : Loading Unit := do
  let compiled ← ofExcept compiler.run
  for (_, c) in ← ofExcept (SourceContract.contractsOf compiled file) do
    for (signature, selector) in ← ofExcept (do (← c.path ["evm", "methodIdentifiers"]).entries) do
      learn signature selector

def contract (disk : Files) (compiler : Compiler) (file : String) (name : Option String) :
    Loading SourceContract := do
  let l ← get
  let (c, known) ← ofExcept (SourceContract.make disk compiler l.known file name)
  set { l with subjects := l.subjects ++ [Subject.sourced c], known := known }
  return c

def contracts (disk : Files) (compiler : Compiler) (file : String) : Loading (List SourceContract) := do
  let compiled ← ofExcept compiler.run
  let found ← ofExcept (SourceContract.namesIn compiled file)
  found.foldlM (fun made (name, c) => do
    let code ← ofExcept (SourceContract.objectOf c)
    if code.isEmpty then return made
    return made ++ [← contract disk compiler file (some name)]) []

/-- Is a text of the form of a version, with two points between three numbers? -/
def versionAt (cs : List Char) : Option (List Char) :=
  let a := cs.takeWhile Chars.isDigit
  match cs.drop a.length with
  | '.' :: rest =>
    let b := rest.takeWhile Chars.isDigit
    match rest.drop b.length with
    | '.' :: rest =>
      let c := rest.takeWhile Chars.isDigit
      if a.isEmpty || b.isEmpty || c.isEmpty then none else some (a ++ '.' :: b ++ '.' :: c)
    | _ => none
  | _ => none

/-- All versions in a text, from the left and without overlap. The number bounds the steps. -/
def versionsIn : Nat → List Char → List (List Char)
  | 0, _ => []
  | _, [] => []
  | n + 1, c :: rest => match versionAt (c :: rest) with
    | some v => v :: versionsIn n ((c :: rest).drop v.length)
    | none => versionsIn n rest

/-- What the compiler says, with advice if it is of the wrong version. -/
def advise (text : String) : String :=
  if Text.contains text "Error: Source file requires different compiler version" then
    let lines := Text.splitAt text '\n'
    let line := (lines[lines.length - 3]?).getD ""
    let line := ((line.splitOn "//").head?).getD ""
    let version := match versionsIn (line.length + 1) line.toList with
      | [v] => String.ofList v
      | _ => "<version_number>"
    text ++ "\nSolidityVersionMismatch: Try adding the option \"--solv " ++ version ++ "\"\n"
  else text

/-- Loads from a path; a file without contracts gives none. -/
def path (disk : Files) (compiler : Compiler) (isFixed : Bool) (p : String) : Loading (List SourceContract) := do
  let (file, name) ← match Text.splitAt p ':' with
    | [file] => pure (file, none)
    | [file, name] => pure (file, some name)
    | _ => throw .malformed
  unless isFixed do
    let text ← ofExcept (disk.read file)
    let _ ← ofExcept (Pragma.version (Text.unifyLines text))
  tryCatch
    (do
      learnAll compiler file
      match name with
      | some name => return [← contract disk compiler file (some name)]
      | none => contracts disk compiler file)
    (fun f => match f.cause? with
      | some .noSuchFile => throw (.failure .critical ("Input file not found " ++ f.detail))
      | some .compiler => throw (.failure .critical (advise f.message))
      | some .noContract => return []
      | _ => throw f)

def paths (disk : Files) (compiler : Compiler) (isFixed : Bool) (ps : List String) : Loading (List SourceContract) := do
  return (← ps.mapM (path disk compiler isFixed)).flatten

end Loading

end EvmAudit
