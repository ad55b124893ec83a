/-!
# Room for recursion

Calls can be inside one another only so deep. A reading, a conversion, a comparison or a writing
that goes deeper has no result, and nothing reports it as an error. How deep each of them may go
depends on what else is going on, so the limits are given from outside. They are counted in levels;
the last level or two of a real limit can also depend on what stands there.
-/

namespace StackForest

inductive Container where
  | list
  | dict
  deriving DecidableEq, Repr

/-- How deep each recursion may go, where `none` is no limit. -/
structure Room where
  /-- Lists and dictionaries inside one another in a JSON text that is read. -/
  reading : Option Nat
  /-- Calls inside one another while trees become dictionaries. -/
  calls : Option Nat
  /-- Lists and dictionaries inside one another in a value that is written. -/
  writing : Option Nat
  /-- Lists and dictionaries inside one another where values are compared. -/
  comparing : Option Nat
  deriving Repr

namespace Room

/-- Whether a limit leaves room for a depth. -/
def fits (limit : Option Nat) (depth : Nat) : Bool := limit.all (depth ≤ ·)

/-- What a limit of 1000 calls leaves to the steps of a run. -/
def usual : Room := ⟨some 990, some 994, some 991, some 997⟩

end Room

/-- A recursion for which there was no room. -/
inductive Overflow where
  | reading (container : Container)
  | calls
  | writing (indented : Bool)
  | comparing
  deriving DecidableEq, Repr

def Overflow.message (o : Overflow) : String :=
  "maximum recursion depth exceeded" ++ match o with
    | reading .list => " while decoding a JSON array from a unicode string"
    | reading .dict => " while decoding a JSON object from a unicode string"
    | calls => ""
    | writing true => " while calling a Python object"
    | writing false => " while encoding a JSON object"
    | comparing => " in comparison"

end StackForest
