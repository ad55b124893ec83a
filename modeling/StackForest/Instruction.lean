import StackForest.Value.Literal
import StackForest.Text.Quoted

/-!
# Instructions and programs

A program is a list of instructions: pushes of numbers and texts, and invocations by name. Each
instruction may carry a label, which is any value but null. A program that was put together by
hand may also hold foreign values, which are no instructions.
-/

namespace StackForest

inductive Instruction where
  | pushNumber (n : Number) (label : Value)
  | pushText (s : String) (label : Value)
  | invoke (name : String) (label : Value)
  deriving Repr

inductive Entry where
  | instruction (i : Instruction)
  | foreign (v : Value)
  deriving Repr

abbrev Program := List Entry

/-! ## Instructions -/

namespace Instruction

def label : Instruction → Value
  | pushNumber _ l | pushText _ l | invoke _ l => l

def payload : Instruction → Value
  | pushNumber n _ => .number n
  | pushText s _ => .text s
  | invoke name _ => .text name

def isInvoke (name : String) : Instruction → Bool
  | invoke n _ => n == name
  | _ => false

def kindName : Instruction → String
  | pushNumber _ _ => "PushNumber"
  | pushText _ _ => "PushString"
  | invoke _ _ => "InvokeFunction"

/-- Instructions are equal when they are of one kind and their payloads and labels are equal. -/
def equal (i j : Instruction) : Bool :=
  i.kindName == j.kindName && i.payload.equal j.payload && i.label.equal j.label

/-- The comparison of two instructions, whose labels are compared inside a pair. -/
def equal? (room : Room) (i j : Instruction) : Except Overflow Bool :=
  if i.kindName == j.kindName ∧ i.payload.equal j.payload
    ∧ ¬Room.fits room.comparing (i.label.overlap j.label + 1) then .error .comparing
  else .ok (i.equal j)

def literal (i : Instruction) : List Char :=
  i.kindName.toList ++ '(' :: i.payload.literal ++ ", label=".toList ++ i.label.literal ++ [')']

end Instruction

/-! ## Entries -/

namespace Entry

def equal : Entry → Entry → Bool
  | instruction i, instruction j => i.equal j
  | foreign v, foreign w => v.equal w
  | _, _ => false

def equal? (room : Room) : Entry → Entry → Except Overflow Bool
  | instruction i, instruction j => i.equal? room j
  | foreign v, foreign w => v.equal? room w
  | _, _ => .ok false

def literal : Entry → List Char
  | instruction i => i.literal
  | foreign v => v.literal

/-- The container that keeps an entry from being looked up by: the entry itself or its label. -/
def container? : Entry → Option Value
  | instruction i => if i.label.isContainer then some i.label else none
  | foreign v => if v.isContainer then some v else none

end Entry

def Program.equal (p q : Program) : Bool :=
  p.length == q.length && (p.zip q).all fun e => e.1.equal e.2

def Program.literal (p : Program) : List Char :=
  '[' :: ((p.map Entry.literal).intersperse [',', ' ']).flatten ++ [']']

end StackForest
