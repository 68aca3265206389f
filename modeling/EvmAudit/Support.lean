import EvmAudit.Basic
import EvmAudit.Text.Basic

/-!
# Files of settings

Sections in square brackets hold options with `=` or `:` before their value. A line that is indented more than the
option goes on with the value. Lines that begin with `#` or `;` are comments. The section `DEFAULT` holds for all
sections. In a value `%(name)s` stands for the value of another option, and `%%` for a percent sign.
-/

namespace EvmAudit

/-- Options with their values; an option may have none. -/
abbrev IniSection := List (String × Option String)

structure Ini where
  defaults : IniSection := []
  sections : List (String × IniSection) := []

namespace Ini

def defaultName : String := "DEFAULT"

def fault (kind : String) : Fault := .relayed (.ini kind) ""

/-! ## Reading -/

/-- The lines of a value that is not finished; none for an option without value. -/
abbrev Draft := List (String × Option (List String))

structure Reader where
  allowsNone : Bool
  defaults : Draft := []
  sections : List (String × Draft) := []
  current : Option String := none
  option : String := ""
  indent : Nat := 0
  seen : List (String × String) := []
  failed : Bool := false

namespace Reader

def draft (r : Reader) (name : String) : Draft :=
  if name == defaultName then r.defaults else (r.sections.lookup name).getD []

def setDraft (r : Reader) (name : String) (d : Draft) : Reader :=
  if name == defaultName then { r with defaults := d }
  else { r with sections := Sequence.put name d r.sections }

def lines? (r : Reader) : Option (Option (List String)) := do
  let name ← r.current
  if r.option.isEmpty then none else (r.draft name).lookup r.option

def addLine (r : Reader) (line : String) : Reader :=
  match r.current, r.lines? with
  | some name, some (some lines) => r.setDraft name (Sequence.put r.option (some (lines ++ [line])) (r.draft name))
  | _, _ => r

/-- The name in the first brackets, up to the last bracket that closes. -/
def header? : List Char → Option String
  | '[' :: rest =>
    let inner := (rest.reverse.dropWhile (· != ']')).drop 1
    if inner.isEmpty then none else some (String.ofList inner.reverse)
  | _ => none

def isDelimiter (c : Char) : Bool := c == '=' || c == ':'

def enter (r : Reader) (name : String) : Except Fault Reader :=
  if name != defaultName && (r.sections.lookup name).isSome then .error (fault "DuplicateSectionError")
  else
    let r := if name == defaultName then r else r.setDraft name []
    .ok { r with current := some name, option := "" }

def addOption (r : Reader) (name : String) (value : List Char) : Except Fault Reader :=
  let key := String.ofList (value.takeWhile (!isDelimiter ·))
  let text := match value.dropWhile (!isDelimiter ·) with
    | [] => none
    | _ :: rest => some (String.ofList (Chars.trim rest))
  let key := Text.trim key
  if text.isNone && !r.allowsNone then .ok { r with failed := true }
  else if r.seen.contains (name, key) then .error (fault "DuplicateOptionError")
  else
    let r := r.setDraft name (Sequence.put key (text.map ([·])) (r.draft name))
    .ok { r with option := key, seen := (name, key) :: r.seen, failed := r.failed || key.isEmpty }

def isComment : List Char → Bool
  | c :: _ => c == '#' || c == ';'
  | [] => false

def line (r : Reader) (text : String) : Except Fault Reader :=
  let cs := text.toList
  let value := Chars.trim cs
  if isComment value then .ok r
  else if value.isEmpty then .ok (r.addLine "")
  else
    let indent := (cs.takeWhile Chars.isBlank).length
    if r.current.isSome && !r.option.isEmpty && r.indent < indent then
      match r.lines? with
      | some (some _) => .ok (r.addLine (String.ofList value))
      | _ => .error .noSuchPart
    else
      let r := { r with indent := indent }
      match header? value, r.current with
      | some name, _ => r.enter name
      | none, none => .error (fault "MissingSectionHeaderError")
      | none, some name => r.addOption name value

def finish (d : Draft) : IniSection :=
  d.map (fun (k, v) => (k, v.map (fun lines =>
    String.ofList ((("\n".intercalate lines).toList.reverse.dropWhile Chars.isBlank).reverse))))

end Reader

/-- The lines of a text; a newline at its end begins none. -/
def linesOf (text : String) : List String :=
  let ls := Text.splitAt (Text.unifyLines text) '\n'
  if ls.getLast? == some "" then ls.dropLast else ls

def read (text : String) (allowsNone : Bool) : Except Fault Ini := do
  let r ← (linesOf text).foldlM Reader.line { allowsNone := allowsNone }
  if r.failed then throw (fault "ParsingError")
  return ⟨Reader.finish r.defaults, r.sections.map (fun (n, d) => (n, Reader.finish d))⟩

/-! ## Options -/

def has (i : Ini) (name option : String) : Bool :=
  match i.sections.lookup name with
  | some s => (s.lookup option).isSome || (i.defaults.lookup option).isSome
  | none => false

def set (i : Ini) (name option value : String) : Ini :=
  let s := (i.sections.lookup name).getD []
  { i with sections := Sequence.put name (Sequence.put option (some value) s) i.sections }

def raw? (i : Ini) (name option : String) : Option (Option String) :=
  ((i.sections.lookup name).bind (·.lookup option)).or (i.defaults.lookup option)

inductive Piece where
  | char (c : Char)
  | reference (option : String)
  /-- A percent sign with something else after it. -/
  | broken

inductive At where
  | plain
  | percent
  | name (acc : List Char)
  | closed (option : String)

/-- The pieces of a value; what comes after a broken one does not count. -/
def pieces : At → List Char → List Piece
  | .plain, [] => []
  | _, [] => [.broken]
  | .plain, c :: rest => if c == '%' then pieces .percent rest else .char c :: pieces .plain rest
  | .percent, c :: rest =>
    if c == '%' then .char '%' :: pieces .plain rest
    else if c == '(' then pieces (.name []) rest
    else [.broken]
  | .name acc, c :: rest =>
    if c != ')' then pieces (.name (c :: acc)) rest
    else if acc.isEmpty then [.broken]
    else pieces (.closed (String.ofList acc.reverse)) rest
  | .closed option, c :: rest => if c == 's' then .reference option :: pieces .plain rest else [.broken]

/-- Puts in what a value refers to; the number bounds the depth of references. -/
def expand (i : Ini) (name : String) : Nat → String → Except Fault String
  | 0, _ => .error (fault "InterpolationDepthError")
  | depth + 1, value => do
    let parts ← (pieces .plain value.toList).mapM (fun (p : Piece) => match p with
      | .char c => pure (String.singleton c)
      | .broken => throw (fault "InterpolationSyntaxError")
      | .reference option => match i.raw? name option with
        | none => throw (fault "InterpolationMissingOptionError")
        | some none => throw .wrongSort
        | some (some v) => if v.toList.contains '%' then i.expand name depth v else pure v)
    return String.join parts

def get (i : Ini) (name option : String) : Except Fault (Option String) :=
  match i.raw? name option with
  | some (some v) => do return some (← i.expand name 10 v)
  | some none => .ok none
  | none => .ok (some "")

/-! ## Writing -/

def writeSection (name : String) (s : IniSection) : String :=
  let option (o : String × Option String) : String :=
    match o.2 with
    | some v => o.1 ++ " = " ++ "\n\t".intercalate (Text.splitAt v '\n') ++ "\n"
    | none => o.1 ++ "\n"
  "[" ++ name ++ "]\n" ++ String.join (s.map option) ++ "\n"

def write (i : Ini) : String :=
  (if i.defaults.isEmpty then "" else writeSection defaultName i.defaults) ++
    String.join (i.sections.map (fun (n, s) => writeSection n s))

end Ini

/-! # File locks

A file is locked while a file of the same name with `.lock` after it is there. A lock that cannot be had within its time
is given up. -/

structure FileLock where
  file : String
  waits : Bool
  held : Bool := false

structure Locks where
  locks : List (String × FileLock) := []
  files : List String := []

namespace Locks

def lockFile (l : FileLock) : String := l.file ++ ".lock"

def hasFolder (file : String) : Bool := !file.toList.contains '/'

def find (s : Locks) (name : String) : Except Fault FileLock := need .noSuchKey (s.locks.lookup name)

def put (s : Locks) (name : String) (l : FileLock) : Locks := { s with locks := Sequence.put name l s.locks }

def release (s : Locks) (name : String) : Locks :=
  match s.locks.lookup name with
  | some l =>
    if l.held then { s.put name { l with held := false } with files := s.files.erase (lockFile l) } else s
  | none => s

def make (s : Locks) (name file : String) (hasTimeout hasDelay : Bool) : Except Fault Locks :=
  if hasTimeout && !hasDelay then
    .error (.failure .malformed "If timeout is not None, then delay must not be None.")
  else .ok ((s.release name).put name { file := file, waits := hasTimeout })

/-- Takes a lock. Nobody else releases it meanwhile, so waiting is in vain. -/
def acquire (s : Locks) (name : String) : Except Fault Locks := do
  let l ← s.find name
  if !hasFolder l.file then throw (.relayed .noSuchFile "")
  if s.files.contains (lockFile l) then
    if l.waits then throw (.failure .unknownName "name 'FileLockException' is not defined")
    throw .wrongSort
  return { s.put name { l with held := true } with files := s.files ++ [lockFile l] }

def enter (s : Locks) (name : String) : Except Fault Locks := do
  if (← s.find name).held then return s
  s.acquire name

end Locks

/-! # Least-recently-used cache

Entries stand in the order of their last use, the oldest first. -/

structure Recency (α β : Type) where
  capacity : Nat
  entries : List (α × β) := []

namespace Recency

variable {α β : Type} [BEq α]

def find? (c : Recency α β) (key : α) : Option β := (c.entries.find? (·.1 == key)).map (·.2)

def without (c : Recency α β) (key : α) : List (α × β) := c.entries.filter fun p => !(p.1 == key)

/-- The value of a key, which becomes the one used last. -/
def get (c : Recency α β) (key : α) : Option β × Recency α β :=
  match c.find? key with
  | some v => (some v, { c with entries := c.without key ++ [(key, v)] })
  | none => (none, c)

/-- Sets a key, which becomes the one used last. A new key drives out the oldest entry of a full cache; a cache without any
room has none to drive out. -/
def put (c : Recency α β) (key : α) (value : β) : Except Fault (Recency α β) :=
  match c.find? key with
  | some _ => .ok { c with entries := c.without key ++ [(key, value)] }
  | none =>
    if c.entries.length ≥ c.capacity then
      match c.entries with
      | [] => .error .noSuchKey
      | _ :: rest => .ok { c with entries := rest ++ [(key, value)] }
    else .ok { c with entries := c.entries ++ [(key, value)] }

def keys (c : Recency α β) : List α := c.entries.map (·.1)

end Recency
end EvmAudit
