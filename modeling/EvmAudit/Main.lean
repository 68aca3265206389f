import EvmAudit.Cli.Rainbow
import EvmAudit.Cli.Run

/-!
# The program

Files that the command line may mean are read first; then the command line is run, and what it has written and printed is
put out. No compiler and no node are reached from here.
-/

namespace EvmAudit.Cli

/-- What a word of the command line may mean as a path: all of it, what follows an equals sign, and what stands before a
colon. -/
def pathsOf (word : String) : List String :=
  let whole := (cutAtEquals word).2.toList ++ [word]
  (whole ++ whole.map (fun w => (Text.splitAt w ':').headD "")).eraseDups

def readIfThere (path : String) : IO (Option (String × String)) := do
  try
    return some (path, ← IO.FS.readFile path)
  catch _ => return none

/-- What is said about a fault that nobody has foreseen. -/
def wording (f : Fault) : String := if f.detail.isEmpty then "The analysis failed." else f.detail

def runWords (words : List String) : IO (Except Fault Outcome) := do
  let files ← (words.flatMap pathsOf).filterMapM readIfThere
  return run { disk := files, wording := wording } words

def start (words : List String) : IO UInt32 := do
  let isPainted := words.contains "--epic"
  match ← runWords (words.erase "--epic") with
  | .error f =>
    IO.eprintln (wording f)
    return 1
  | .ok o =>
    for (path, text) in o.written do
      IO.FS.writeFile path text
    let painted := match isPainted, Rainbow.run [] [] o.printed with
      | true, .ok s => s
      | _, _ => o.printed
    IO.print painted
    match o.exit with
    | .quit (some code) => return code.toNat.toUInt32
    | _ => return 0

end EvmAudit.Cli

def main (words : List String) : IO UInt32 := EvmAudit.Cli.start words
