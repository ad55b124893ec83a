import StackForest.Analysis
import StackForest.CommandLine.Options
import StackForest.Files.Load

/-!
# Runs

What a command line does to the files, what it prints, and how it ends. All reading and all
analysis comes before the first output, and so does the JSON text of the forest, which is made even
if nothing asks for it.
-/

namespace StackForest.CommandLine

structure Session where
  files : Files
  stdout : String
  stderr : String

/-- A step of a run: it works on the session, and what it has done stays done when it fails. -/
abbrev Step := ExceptT Failure (StateM Session)

namespace Step

def attempt {α : Type} (x : Except Failure α) : Step α := ExceptT.mk (pure x)

def onFiles {α : Type} (f : Files → Except Failure α) : Step α := do
  attempt (f (← get).files)

def print (line : String) : Step Unit :=
  modify fun s => { s with stdout := s.stdout ++ line ++ "\n" }

def info (o : Options) (line : String) : Step Unit :=
  if o.verbose then modify fun s => { s with stderr := s.stderr ++ "[INFO] " ++ line ++ "\n" }
  else pure ()

def write (path : String) (text : List Char) : Step Unit := do
  let files ← onFiles fun t => (t.write path (Text.Utf8.encode text)).mapError .file
  modify fun s => { s with files := files }

end Step

open Step

/-! ## Reading -/

def path? : Setting → Except Failure String
  | .given s => .ok s
  | _ => .error .noPath

def analyze (room : Room) (o : Options) (input : String) : Step Analysis := do
  let defs ← onFiles (·.loadDefinitions o.fdef room.reading)
  if o.fdef ≠ [] then
    info o s!"Loaded {defs.length} function definitions from {o.fdef.length} file(s)"
  let is ← onFiles (·.loadProgram (Path.normalize input) room.reading)
  info o (s!"Read {is.length} instructions from " ++ Path.normalize input)
  let a ← attempt
    ((Analysis.ofProgram (.extend defs) (is.map .instruction)).mapError .tree)
  info o s!"Reconstructed {a.forest.length} top-level expressions"
  return a

/-! ## Output -/

/-- The JSON text of the forest goes to a file, or to the standard output for a dash. -/
def writeJson (room : Room) (o : Options) (a : Analysis) : Step Unit := do
  let text ← attempt ((a.json? room (.spaces 2)).mapError .overflow)
  match o.output with
  | .absent => pure ()
  | .emptied => attempt (.error .noPath)
  | .given s =>
    if s = "-" then print (.ofList text)
    else do
      write (Path.normalize s) text
      info o ("Wrote " ++ s)

/-- Does something with a path that is given and not empty. -/
def withPath (s : Setting) (f : String → Step Unit) : Step Unit :=
  match s with
  | .given path => if path.isEmpty then pure () else f path
  | _ => pure ()

def writeState (room : Room) (o : Options) (a : Analysis) : Step Unit :=
  withPath o.outvm fun path => do
    let is ← attempt ((Record.instructions? a.program).mapError .record)
    let text ← attempt ((State.render? room is).mapError .overflow)
    write (Path.normalize path) text
    info o ("Wrote " ++ path)

def writeGraph (s : Setting) (g : Except Failure Graph) : Step Unit :=
  withPath s fun path => do
    let g ← attempt g
    write path g.render.toList

/-- A drawing of a graph, for which there is no program. -/
def drawGraph (s : Setting) : Step Unit :=
  withPath s fun _ => attempt (.error .noRenderer)

def writeOutputs (room : Room) (o : Options) (a : Analysis) : Step Unit := do
  writeJson room o a
  writeState room o a
  writeGraph o.dot (a.forestGraph.mapError .forestGraph)
  drawGraph o.svg
  writeGraph o.plistDot (a.programGraph.mapError .programGraph)
  drawGraph o.plistSvg

/-! ## Runs -/

/-- How a run ends: with an exit code, or with a failure that no error line reports. -/
abbrev End := Except Failure Nat

/-- An error line, behind which a run ends with code 1. -/
def complain (line : String) : StateM Session End := do
  modify fun s => { s with stderr := s.stderr ++ "Error: " ++ line ++ "\n" }
  return .ok 1

def report (failure : Failure) : StateM Session End :=
  if failure.isReported then complain failure.message else return .error failure

def run (room : Room) (o : Options) : StateM Session End := do
  match path? o.input with
  | .error f => return .error f
  | .ok input =>
    match (← get).files.exists? (Path.normalize input) with
    | .error f => return .error (.file f)
    | .ok false => complain ("file '" ++ input ++ "' not found")
    | .ok true =>
      match ← (analyze room o input >>= writeOutputs room o).run with
      | .ok _ => return .ok 0
      | .error f => report f

def execute (room : Room) (args : List String) : StateM Session End := do
  match read args with
  | .error m =>
    modify fun s =>
      { s with stderr := s.stderr ++ usage ++ programName ++ ": error: " ++ m.message ++ "\n" }
    return .ok 2
  | .ok .help =>
    modify fun s => { s with stdout := s.stdout ++ help }
    return .ok 0
  | .ok .version =>
    modify fun s => { s with stdout := s.stdout ++ versionText ++ "\n" }
    return .ok 0
  | .ok (.run o) => run room o

end StackForest.CommandLine
