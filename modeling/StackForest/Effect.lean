import StackForest.Value.Literal

/-!
# Stack effects

What an opcode takes from the stack and what it leaves there, as two lists of type tags. Only the
lengths of the lists matter to the analysis.
-/

namespace StackForest

structure Effect where
  inputs : List String
  outputs : List String
  deriving DecidableEq, Repr

namespace Effect

def consumes (e : Effect) : Nat := e.inputs.length

def produces (e : Effect) : Nat := e.outputs.length

inductive Fault where
  | notObject (name : String) (v : Value)
  | noList (name : String) (field : String)
  | badTag (name : String) (tag : Value)

def inputField : String := "in"
def outputField : String := "out"

def tag (name : String) : Value → Except Fault String
  | .text s => .ok s
  | v => .error (.badTag name v)

def tags (name field : String) (fields : List (String × Value)) : Except Fault (List String) :=
  match Fields.get? field fields with
  | some (.list vs) => vs.mapM (tag name)
  | _ => .error (.noList name field)

def decode (name : String) : Value → Except Fault Effect
  | .dict fields => do
    let inputs ← tags name inputField fields
    let outputs ← tags name outputField fields
    return ⟨inputs, outputs⟩
  | v => .error (.notObject name v)

def Fault.message : Fault → String
  | notObject name v =>
    "Definition of '" ++ name ++ "' must be an object, got: " ++ v.literalText
  | noList name field => "Definition of '" ++ name ++ "' needs a list under '" ++ field ++ "'"
  | badTag name v =>
    "Definition of '" ++ name ++ "' has a non-string type tag: " ++ v.literalText

def literal (e : Effect) : List Char :=
  let list (ts : List String) := (Value.list (ts.map .text)).literal
  "FunctionDefinition(in=".toList ++ list e.inputs ++ ", out=".toList ++ list e.outputs ++ [')']

end Effect
end StackForest
