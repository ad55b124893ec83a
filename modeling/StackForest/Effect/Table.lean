import StackForest.Effect
import StackForest.Json.Reader
import StackForest.Text.Order

/-!
# Opcode tables

The effects that are known by name: the built-in ones, overridden and extended by definitions.
Main definitions: `Table.lookup?`, and `Definitions.merge`, which puts the definitions of several
files together, a later one winning over an earlier one.
-/

namespace StackForest

/-- Effects by name, in the order in which the names first occurred. -/
abbrev Definitions := List (String × Effect)

namespace Definitions

inductive Fault where
  | notJson (mistake : Json.Mistake) (text : List Char)
  | number (fault : Number.Fault)
  | tooDeep (container : Container)
  | unpaired
  | notObject
  | effect (fault : Effect.Fault)

def putAll (defs : Definitions) (fields : List (String × Value)) :
    Except Effect.Fault Definitions :=
  fields.foldlM (fun defs f => (Effect.decode f.1 f.2).map (Fields.put f.1 · defs)) defs

/-- Puts the definitions of a JSON text, in which containers go so deep at most, on others. -/
def merge (defs : Definitions) (text : List Char) (limit : Option Nat := none) :
    Except Fault Definitions :=
  match Json.read text limit with
  | .ok (.dict fields) => (defs.putAll fields).mapError .effect
  | .ok _ => .error .notObject
  | .error (.mistake m) => .error (.notJson m text)
  | .error (.number f) => .error (.number f)
  | .error (.tooDeep container) => .error (.tooDeep container)
  | .error .unpaired => .error .unpaired

end Definitions

structure Table where
  entries : Definitions

namespace Table

def builtin : Table :=
  let number := "number"
  let string := "string"
  let any := "string | number"
  let binary : Effect := ⟨[number, number], [number]⟩
  ⟨[("nop", ⟨[], []⟩), ("pop", ⟨[any], []⟩), ("+", binary), ("plus", binary), ("-", binary),
    ("min", binary), ("*", binary), ("mul", binary), ("or", binary), ("and", binary),
    ("lt", binary), ("gt", binary), ("not", ⟨[number], [number]⟩), ("jz", ⟨[number], []⟩),
    ("jgz", ⟨[number], []⟩), ("dup", ⟨[any], [any, any]⟩), ("eq", ⟨[any, any], [number]⟩),
    ("goto", ⟨[any], []⟩), ("delContext", ⟨[string], []⟩), ("setContext", ⟨[any, string], []⟩),
    ("getContext", ⟨[any], [any]⟩), ("\x7b", ⟨[], []⟩), ("\x7d", ⟨[], []⟩), ("exit", ⟨[], []⟩),
    ("pause", ⟨[], []⟩), ("ppc", ⟨[], [number]⟩), ("stacksize", ⟨[], [number]⟩),
    ("charCode", ⟨[number], [string]⟩), ("concat", ⟨[string, string], [string]⟩),
    ("rconcat", ⟨[string, string], [string]⟩), ("randInt", ⟨[number], [number]⟩)]⟩

/-- The built-in effects with definitions on top, which win over them. -/
def extend (defs : Definitions) : Table :=
  ⟨defs.foldl (fun entries f => Fields.put f.1 f.2 entries) builtin.entries⟩

def lookup? (t : Table) (name : String) : Option Effect :=
  Fields.get? name t.entries

def size (t : Table) : Nat := t.entries.length

/-- The names of a table in the order of their code points. -/
def names (t : Table) : List String :=
  (t.entries.map (·.1)).mergeSort fun a b => Text.ascending a.toList b.toList

def literal (t : Table) : List Char :=
  s!"FunctionTable({t.size} definitions)".toList

/-! ## Tables from values -/

inductive Fault where
  /-- The value is of the named type, which has no fields. -/
  | noFields (typeName : String)
  | effect (fault : Effect.Fault)

/-- The values that count as nothing: null, false, zeros and whatever is empty. -/
def isNothing : Value → Bool
  | .null => true
  | .text s => s.isEmpty
  | .list vs => vs.isEmpty
  | .dict fields => fields.isEmpty
  | v => v.equal (.int 0)

def ofValue (v : Value) : Except Fault Table :=
  if isNothing v then .ok builtin
  else match v with
    | .dict fields => ((Definitions.putAll [] fields).mapError .effect).map extend
    | v => .error (.noFields v.typeName)

end Table
end StackForest
