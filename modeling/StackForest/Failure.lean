import StackForest.Concise.Reader
import StackForest.Expr.Reconstruct
import StackForest.Files
import StackForest.Graph.Program
import StackForest.Instruction.State
import StackForest.Text.Utf8

/-!
# Failures

Everything that can go wrong between the files and the output, with the message for each case.
`isReported` tells the failures that a user of the command line sees as an error line from those
that end the program.
-/

namespace StackForest

inductive Failure where
  | tree (f : TreeFault)
  | record (f : Record.Fault)
  | concise (f : Concise.Fault)
  | json (m : Json.Mistake) (text : List Char)
  | number (f : Number.Fault)
  | overflow (o : Overflow)
  /-- A JSON text holds half of a surrogate pair. What a run does with it is left open. -/
  | unpaired
  | utf8 (f : Text.Utf8.Fault)
  | effect (f : Effect.Fault)
  | file (f : Files.Fault)
  | forestGraph (f : Graph.ForestFault)
  | programGraph (f : Graph.ProgramFault)
  | noProgram (path : String)
  /-- A value of the named type has no items to go through. -/
  | noItems (typeName : String)
  /-- A value of the named type has no fields to go through. -/
  | noFields (typeName : String)
  | definitionsNotJson (path : String) (m : Json.Mistake) (text : List Char)
  | definitionsNotObject (path : String)
  | unsupportedInput (suffix : String)
  | noRenderer
  | renderer (path : String) (text : String)
  /-- An argument was emptied where a path is needed. -/
  | noPath

namespace Failure

def ofConcise : Concise.Fault → Failure
  | .number f => number f
  | f => concise f

def ofJson (text : List Char) : Json.Fault → Failure
  | .mistake m => json m text
  | .number f => number f
  | .tooDeep container => overflow (.reading container)
  | .unpaired => unpaired

def ofState (path : String) : State.Fault → Failure
  | .noProgram => noProgram path
  | .noItems typeName => noItems typeName
  | .record f => record f

def ofDefinitions (path : String) : Definitions.Fault → Failure
  | .notJson m text => definitionsNotJson path m text
  | .number f => number f
  | .tooDeep container => overflow (.reading container)
  | .unpaired => unpaired
  | .notObject => definitionsNotObject path
  | .effect f => effect f

def ofTable : Table.Fault → Failure
  | .noFields typeName => noFields typeName
  | .effect f => effect f

/-! ## Messages -/

def message : Failure → String
  | tree f => f.message
  | record f => f.message
  | concise f => f.message
  | json m text => m.message text
  | number f => f.message
  | overflow o => o.message
  | unpaired => "half of a surrogate pair"
  | utf8 f => f.message
  | effect f => f.message
  | file f => f.message
  | forestGraph (.notText typeName) =>
    s!"expected string or bytes-like object, got '{typeName}'"
  | programGraph (.noLabel typeName) => s!"'{typeName}' object has no attribute 'label'"
  | noProgram path => path ++ ": no programList in VM state"
  | noItems typeName => s!"'{typeName}' object is not iterable"
  | noFields typeName => s!"'{typeName}' object has no attribute 'items'"
  | definitionsNotJson path m text => path ++ ": invalid JSON: " ++ m.message text
  | definitionsNotObject path => path ++ ": expected an object mapping names to definitions"
  | unsupportedInput suffix =>
    "Unsupported input type '" ++ suffix ++ "' (expected .json, .tzoct or .txt)"
  | noRenderer => "[Errno 2] \"dot\" not found in path."
  | renderer path text => "Graphviz could not render " ++ path ++ ": " ++ text
  | noPath => "expected str, bytes or os.PathLike object, not list"

/-- Whether a failure is reported as an error line; any other ends the program. -/
def isReported : Failure → Bool
  | tree _ | record _ | concise _ | effect _ | noProgram _ | definitionsNotJson _ _ _
  | definitionsNotObject _ | unsupportedInput _ | noRenderer | renderer _ _ => true
  | file f => f.obstacle.report?.isSome
  | json _ _ | number _ | overflow _ | unpaired | utf8 _ | forestGraph _ | programGraph _
  | noItems _ | noFields _ | noPath => false

end Failure
end StackForest
