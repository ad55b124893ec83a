import StackForest.Expr
import StackForest.Instruction
import StackForest.Effect.Table

/-!
# From programs to forests

A program is scanned from its end to its start. An opcode opens a frame that collects the trees in
front of it until it has as many operands as its effect consumes; a closing brace opens a frame
that collects until its opening brace. Blocks are kept among the operands but do not count as
such. An opening brace stands for no tree: it ends the innermost block frame whose depth it brings
to zero, and is then left to be visited for the frame below.

Main definition: `reconstruct`, with the forest or the fault, and the indices in the order in
which they were visited.
-/

namespace StackForest

def blockOpen : String := "\x7b"
def blockClose : String := "\x7d"

inductive TreeFault where
  | unknownOpcode (name : String)
  /-- A closing brace with no opening one in front. -/
  | unterminatedBlock (index : Nat)
  /-- Too little stands in front of an opcode. -/
  | missingOperand (name : String) (index : Nat)
  /-- No instruction at all. -/
  | foreign (index : Nat) (v : Value)

namespace TreeFault

def message : TreeFault → String
  | unknownOpcode name => s!"Could not find typedef for function: {name}"
  | unterminatedBlock index => s!"Unterminated \x7d at instruction {index}"
  | missingOperand name index => s!"Missing operand for '{name}' at instruction {index}"
  | foreign index v => s!"Unexpected instruction at {index}: {v.literalText}"

end TreeFault

/-! ## Frames -/

/-- A call or a block that is still collecting its children, which are in program order. -/
inductive Frame where
  /-- `counted` is how many of the children are no blocks. -/
  | call (index : Nat) (name : String) (label : Value) (effect : Effect)
      (counted : Nat) (children : List Expr)
  /-- `depth` is how many opening braces are still to be passed. -/
  | block (index : Nat) (label : Value) (depth : Nat) (children : List Expr)

namespace Frame

def add (e : Expr) : Frame → Frame
  | call i n l f counted es => call i n l f (if e.isBlock then counted else counted + 1) (e :: es)
  | block i l depth es => block i l depth (e :: es)

def receive (done : Option Expr) (f : Frame) : Frame :=
  match done with
  | some e => f.add e
  | none => f

/-- What a frame does in front of the entries that are not visited yet, the nearest first. -/
inductive Move where
  | wait (f : Frame)
  | close (e : Expr)

/-- The next entry as a block frame sees it: an opening brace lowers the depth, a closing one
raises it. -/
def nextDepth (depth : Nat) : Entry → Nat
  | .instruction i =>
    if i.isInvoke blockOpen then depth - 1
    else if i.isInvoke blockClose then depth + 1
    else depth
  | .foreign _ => depth

def move (rest : List Entry) : Frame → Except TreeFault Move
  | call i n l f counted es =>
    if f.consumes ≤ counted then .ok (.close (.call n f.consumes f.produces l es))
    else if rest.isEmpty then .error (.missingOperand n i)
    else .ok (.wait (call i n l f counted es))
  | block i l depth es =>
    match rest with
    | [] => .error (.unterminatedBlock i)
    | e :: _ =>
      let depth := nextDepth depth e
      if depth = 0 then .ok (.close (.ofChildren l es)) else .ok (.wait (block i l depth es))

end Frame

/-! ## The scan -/

/-- The open frames, innermost first, and the finished trees in program order. -/
structure Scan where
  frames : List Frame
  roots : List Expr

/-- Closes the frames that are complete, from the innermost on. `done` is a tree that was just
finished: it goes to the frame outside it, or becomes a root. -/
def settle (rest : List Entry) :
    Option Expr → List Frame → List Expr → Except TreeFault Scan
  | done, [], roots => .ok ⟨[], done.toList ++ roots⟩
  | done, f :: fs, roots =>
    match (f.receive done).move rest with
    | .error fault => .error fault
    | .ok (.wait f) => .ok ⟨f :: fs, roots⟩
    | .ok (.close e) => settle rest (some e) fs roots

inductive Begun where
  | leaf (e : Expr)
  | frame (f : Frame)
  | nothing

def Begun.ofEntry (table : Table) (index : Nat) : Entry → Except TreeFault Begun
  | .instruction (.pushNumber n l) => .ok (.leaf (.literal .number (.number n) l))
  | .instruction (.pushText s l) => .ok (.leaf (.literal .text (.text s) l))
  | .instruction (.invoke name l) =>
    if name = blockClose then .ok (.frame (.block index l 1 []))
    else if name = blockOpen then .ok .nothing
    else match table.lookup? name with
      | none => .error (.unknownOpcode name)
      | some effect => .ok (.frame (.call index name l effect 0 []))
  | .foreign v => .error (.foreign index v)

/-- Visits the entry at `index`, in front of which `rest` stands. -/
def visit (table : Table) (index : Nat) (e : Entry) (rest : List Entry) (s : Scan) :
    Except TreeFault Scan :=
  match Begun.ofEntry table index e with
  | .error fault => .error fault
  | .ok (.leaf e) => settle rest (some e) s.frames s.roots
  | .ok (.frame f) => settle rest none (f :: s.frames) s.roots
  | .ok .nothing => settle rest none s.frames s.roots

/-- The outcome of a scan and the indices it visited, in order. -/
structure Run where
  visits : List Nat
  outcome : Except TreeFault (List Expr)

/-- Visits `entries`, the nearest first, of which the first has the index `count - 1`; `visited`
holds the indices so far, newest first. -/
def scan (table : Table) : Nat → List Entry → Scan → List Nat → Run
  | _, [], s, visited => ⟨visited.reverse, .ok s.roots⟩
  | count, e :: rest, s, visited =>
    let index := count - 1
    match visit table index e rest s with
    | .error fault => ⟨(index :: visited).reverse, .error fault⟩
    | .ok s => scan table index rest s (index :: visited)

/-- The forest of a program, or its fault, with the indices visited. -/
def reconstruct (table : Table) (p : Program) : Run :=
  scan table p.length p.reverse ⟨[], []⟩ []

end StackForest
