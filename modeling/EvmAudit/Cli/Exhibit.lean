import EvmAudit.Source

/-!
# Values laid open

A value is printed with its sort. One that has fields is printed field by field, or one field of it is.
-/

namespace EvmAudit

inductive ValueSort where
  | nothing
  | truth
  | whole
  | decimal
  | text
  | list
  | table
  | place
  | sourceFile
  | sourceText
  | contract
  | sourceContract
  | program
  deriving DecidableEq, Repr

inductive Exhibit where
  | plain (j : Json)
  | numbered (entries : List (Int × Json))
  | fielded (sort : ValueSort) (fields : List (String × Exhibit))

structure Printed where
  text : String := ""
  fault : Option Fault := none

def Printed.line (p : Printed) (s : String) : Printed := { p with text := p.text ++ s ++ "\n" }

def Printed.lines (p : Printed) (ss : List String) : Printed := ss.foldl line p

/-- What is printed cannot be laid open. -/
def Printed.fail (p : Printed) : Printed := { p with fault := some .noSuchPart }

namespace Exhibit

def sort : Exhibit → ValueSort
  | .plain .null => .nothing
  | .plain (.bool _) => .truth
  | .plain (.int _) => .whole
  | .plain (.float _) => .decimal
  | .plain (.str _) => .text
  | .plain (.arr _) => .list
  | .plain (.obj _) => .table
  | .numbered _ => .table
  | .fielded s _ => s

def numberedText (entries : List (Int × Json)) : String :=
  "\x7b" ++ Text.join ", " (entries.map (fun (k, v) => toString k ++ ": " ++ Shown.json v)) ++ "\x7d"

variable (sortName : ValueSort → String)

def text : Exhibit → String
  | .plain j => Shown.plain j
  | .numbered entries => numberedText entries
  | .fielded s _ => sortName s

/-! ## Fields -/

/-- The fields of a value; a table has its entries as fields. -/
def fields? : Exhibit → Option (List (String × Exhibit))
  | .plain (.obj ms) => some (ms.map (fun (k, v) => (k, .plain v)))
  | .fielded _ fs => some fs
  | _ => none

def nameList (names : List String) : String := Shown.json (.arr (names.map .str))

def fieldLines (name : String) (v : Exhibit) : List String :=
  let shown := match v with
    | .plain (.str "") => "empty string"
    | v => v.text sortName
  ["field name: " ++ name, "value type: " ++ sortName v.sort, shown, ""]

/-- Prints fields as the option says: all of them, their names, or one. An entry of a table is no field that can be
printed alone. -/
def printFields (p : Printed) (x : Exhibit) (fs : List (String × Exhibit)) (option : String) : Printed :=
  let names := fs.map (·.1)
  if option == "" || option == "all" then p.lines (fs.flatMap (fun (k, v) => fieldLines sortName k v))
  else if option == "help" then p.lines ["you can print these fields", nameList names]
  else match fs.lookup option with
    | some v => match x with
      | .fielded _ _ => p.lines [option, v.text sortName]
      | _ => (p.line option).fail
    | none => p.lines [option ++ " is not in fields", "try these", nameList names]

def layOpen (x : Exhibit) (option : String) : Printed :=
  let p : Printed := Printed.lines {} ["==========run helper==========", "type: " ++ sortName x.sort, ""]
  let p := match x with
    | .plain .null => p.line "NoneType"
    | .plain (.arr xs) => p.line (Text.join " " (xs.map Shown.plain))
    | .plain (.float _) => p.fail
    | x => match x.fields? with
      | some fs => printFields sortName p x fs option
      | none => p.line (x.text sortName)
  match p.fault with
  | some _ => p
  | none => p.lines ["==========end helper==========", ""]

/-- Lays a value open in the log, which is not kept; only a value with fields can be. -/
def layOpenInLog : Exhibit → Printed
  | .fielded _ _ => {}
  | _ => Printed.fail {}

/-! ## Single fields -/

def fieldDetail (fs : List (String × Exhibit)) (p : Printed) (name : String) : Printed :=
  let v := (fs.lookup name).getD (.plain (.str name))
  p.lines ["", "self." ++ name, sortName v.sort, v.text sortName, ""]

def hasDetails : Exhibit → Bool
  | .fielded s _ => s != .sourceText
  | _ => false

def detail (x : Exhibit) (name : String) : Printed :=
  match x with
  | .fielded _ fs => if x.hasDetails then fieldDetail sortName fs {} name else Printed.fail {}
  | _ => Printed.fail {}

def fileDetails : Exhibit → Printed
  | .fielded .sourceFile fs =>
    let p := Printed.line {} "====================SolidityFile===================="
    let p := (fs.map (·.1)).foldl (fieldDetail sortName fs) p
    p.lines ["=====================================================", ""]
  | _ => Printed.fail {}

/-! ## What there is to lay open -/

def ofFields (s : ValueSort) (names : List String) (values : List Json) : Except Fault Exhibit :=
  if names.length == values.length then .ok (.fielded s (names.zip (values.map .plain)))
  else .error .wrongSort

def instrJson (i : Instr) : Json :=
  let argument := match i.argument with
    | some (.hex text) => [("argument", Json.str text)]
    | _ => []
  .obj ([("address", .int i.address), ("opcode", .str i.opcode.name)] ++ argument)

def ofProgram (code : String) (p : Program) : Exhibit :=
  .fielded .program [
    ("bytecode", .plain (.str code)), ("instruction_list", .plain (.arr (p.instrs.toList.map instrJson))),
    ("func_hashes", .plain (.arr (p.selectors.map .str))),
    ("function_name_to_address", .plain (.obj (p.nameToAddress.map (fun (n, a) => (n, .int a))))),
    ("address_to_function_name", .numbered (p.addressToName.map (fun (a, n) => (a, .str n)))),
    ("enable_online_lookup", .plain (.bool p.online))]

def contractFields (c : Contract) : List (String × Exhibit) :=
  [("creation_code", .plain (.str c.creationCode)), ("name", .plain (.str c.name)), ("code", .plain (.str c.code)),
    ("disassembly", ofProgram c.code c.program), ("creation_disassembly", ofProgram c.creationCode c.creationProgram)]

def ofContract (c : Contract) : Exhibit := .fielded .contract (contractFields c)

def ofSourceContract (c : SourceContract) : Exhibit :=
  .fielded .sourceContract ([
    ("solc_json", .plain c.compiled), ("input_file", .plain (.str c.inputFile))] ++ contractFields c.contract)

end Exhibit

end EvmAudit
