import StackForest.Value
import StackForest.Text.Literal

/-!
# The text of a value

`literal` is how messages show a value; `display` shows a text as it is, and everything else by
its literal.
-/

namespace StackForest.Value

mutual

def literal : Value → List Char
  | null => "None".toList
  | bool b => if b then "True".toList else "False".toList
  | number n => n.render
  | text s => Text.Literal.render s.toList
  | list items => '[' :: literalItems items ++ [']']
  | dict fields => '\x7b' :: literalFields fields ++ ['\x7d']

def literalItems : List Value → List Char
  | [] => []
  | [v] => literal v
  | v :: vs => literal v ++ ',' :: ' ' :: literalItems vs

def literalFields : List (String × Value) → List Char
  | [] => []
  | [(key, v)] => Text.Literal.render key.toList ++ ':' :: ' ' :: literal v
  | (key, v) :: fields =>
    Text.Literal.render key.toList ++ ':' :: ' ' :: literal v ++ ',' :: ' ' :: literalFields fields

end

def display : Value → List Char
  | text s => s.toList
  | v => literal v

def literalText (v : Value) : String := .ofList v.literal

end StackForest.Value
