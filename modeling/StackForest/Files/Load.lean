import StackForest.Failure
import StackForest.Effect.Table
import StackForest.Text.Newline

/-!
# Reading programs and definitions from files
-/

namespace StackForest.Files

/-- The text of a file, with one kind of line end. -/
def readText (t : Files) (path : String) : Except Failure (List Char) := do
  let bytes ← (t.read path).mapError .file
  let text ← (Text.Utf8.decode bytes).mapError .utf8
  return Text.unifyNewlines text

/-- The program of a state file, in which lists and dictionaries go so deep at most. -/
def loadState (t : Files) (path : String) (limit : Option Nat := none) :
    Except Failure (List Instruction) := do
  let text ← t.readText path
  let state ← (Json.read text limit).mapError (.ofJson text)
  (State.program state).mapError (.ofState path)

def loadConcise (t : Files) (path : String) : Except Failure (List Instruction) := do
  let text ← t.readText path
  (Concise.read text).mapError .ofConcise

def conciseSuffixes : List String := [".txt", ".tzoct"]

/-- The program of a file, which is read as its suffix says. -/
def loadProgram (t : Files) (path : String) (limit : Option Nat := none) :
    Except Failure (List Instruction) :=
  let suffix := Path.suffix path
  if suffix = ".json" then t.loadState path limit
  else if conciseSuffixes.contains suffix then t.loadConcise path
  else .error (.unsupportedInput suffix)

/-- The definitions of some files; a later one wins over an earlier one. -/
def loadDefinitions (t : Files) (paths : List String) (limit : Option Nat := none) :
    Except Failure Definitions :=
  paths.foldlM (fun defs path => do
    let text ← t.readText path
    (defs.merge text limit).mapError (.ofDefinitions path)) []

end StackForest.Files
