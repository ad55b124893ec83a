import StackForest.Value.Literal

/-!
# Expressions

The trees that a flat program stands for. A literal is a leaf. A call has its operands as
children, in program order, together with blocks that stand between them. A block has whatever its
braces enclose. Every node has a stack effect of its own: how much it consumes and produces.
-/

namespace StackForest

inductive LiteralKind where
  | number
  | text
  deriving DecidableEq, Repr

inductive Expr where
  | literal (kind : LiteralKind) (value label : Value)
  | call (name : String) (consumes produces : Nat) (label : Value) (children : List Expr)
  | block (consumes produces : Int) (label : Value) (children : List Expr)
  /-- A node of no particular kind. -/
  | bare (value : Value) (consumes produces : Int) (label : Value)
  deriving Repr, Inhabited

namespace Expr

/-! ## Parts of a node -/

def value : Expr → Value
  | literal _ v _ => v
  | call name _ _ _ _ => .text name
  | block _ _ _ _ => .text "\x7b\x7d"
  | bare v _ _ _ => v

def consumes : Expr → Int
  | literal _ _ _ => 0
  | call _ c _ _ _ => c
  | block c _ _ _ => c
  | bare _ c _ _ => c

def produces : Expr → Int
  | literal _ _ _ => 1
  | call _ _ p _ _ => p
  | block _ p _ _ => p
  | bare _ _ p _ => p

def label : Expr → Value
  | literal _ _ l => l
  | call _ _ _ l _ => l
  | block _ _ l _ => l
  | bare _ _ _ l => l

def children : Expr → List Expr
  | call _ _ _ _ cs => cs
  | block _ _ _ cs => cs
  | _ => []

def isBlock : Expr → Bool
  | block _ _ _ _ => true
  | _ => false

def isCall : Expr → Bool
  | call _ _ _ _ _ => true
  | _ => false

def typeTag? : Expr → Option String
  | literal .number _ _ => some "number_literal"
  | literal .text _ _ => some "string_literal"
  | call _ _ _ _ _ => some "function"
  | block _ _ _ _ => some "block"
  | bare _ _ _ _ => none

def kindName : Expr → String
  | literal .number _ _ => "NumberLiteral"
  | literal .text _ _ => "StringLiteral"
  | call _ _ _ _ _ => "FunctionCall"
  | block _ _ _ _ => "Block"
  | bare _ _ _ _ => "Expression"

def totalConsumes : List Expr → Int
  | [] => 0
  | e :: es => e.consumes + totalConsumes es

def totalProduces : List Expr → Int
  | [] => 0
  | e :: es => e.produces + totalProduces es

/-- The block of some children: it consumes and produces what they do in total. -/
def ofChildren (label : Value) (cs : List Expr) : Expr :=
  block (totalConsumes cs) (totalProduces cs) label cs

/-! ## Dictionaries -/

def commonFields (e : Expr) : List (String × Value) :=
  [("type", match e.typeTag? with
      | some t => .text t
      | none => .null),
    ("value", e.value), ("consumes", .int e.consumes), ("produces", .int e.produces)]
  ++ match e.label with
    | .null => []
    | l => [("label", l)]

mutual

def toValue : Expr → Value
  | e@(call _ _ _ _ cs) => .dict (commonFields e ++ [("children", .list (toValues cs)),
      ("children_consumes", .int (totalConsumes cs)),
      ("children_produces", .int (totalProduces cs))])
  | e@(block _ _ _ cs) => .dict (commonFields e ++ [("children", .list (toValues cs))])
  | e => .dict (commonFields e)

def toValues : List Expr → List Value
  | [] => []
  | e :: es => toValue e :: toValues es

end

mutual

/-- How many calls are inside one another while a tree becomes a dictionary: one for each node, and
one more for the list of its children or, if there is none, for the common fields. -/
def calls : Expr → Nat
  | call _ _ _ _ cs => callsAll cs + 2
  | block _ _ _ cs => callsAll cs + 2
  | _ => 1

def callsAll : List Expr → Nat
  | [] => 0
  | e :: es => (calls e).max (callsAll es)

end

/-- The dictionaries of some trees, if there is room for the calls. -/
def toValues? (room : Room) (es : List Expr) : Except Overflow (List Value) :=
  if Room.fits room.calls (callsAll es) then .ok (toValues es) else .error .calls

def toValue? (room : Room) (e : Expr) : Except Overflow Value :=
  if Room.fits room.calls e.calls then .ok e.toValue else .error .calls

/-- Trees are equal if they are of one kind and their dictionaries are equal. -/
def equal? (room : Room) (e f : Expr) : Except Overflow Bool :=
  if e.kindName = f.kindName then do
    let v ← e.toValue? room
    let w ← f.toValue? room
    v.equal? room w
  else .ok false

/-! ## Text -/

mutual

def render : Expr → List Char
  | e@(call _ _ _ _ cs) => e.kindName.toList ++ '(' :: e.value.literal ++ listTail cs ++ [')']
  | e@(block _ _ _ cs) => e.kindName.toList ++ '(' :: e.value.literal ++ listTail cs ++ [')']
  | e => e.kindName.toList ++ '(' :: e.value.literal ++ [')']

/-- The list of a node's children behind its value; there is none without children. -/
def listTail : List Expr → List Char
  | [] => []
  | e :: es => ',' :: ' ' :: '[' :: render e ++ itemsTail es ++ [']']

def itemsTail : List Expr → List Char
  | [] => []
  | e :: es => ',' :: ' ' :: render e ++ itemsTail es

end

def renderForest : List Expr → List Char
  | [] => ['[', ']']
  | e :: es => '[' :: render e ++ itemsTail es ++ [']']

end Expr
end StackForest
