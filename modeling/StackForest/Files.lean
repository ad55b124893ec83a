import StackForest.Fields
import StackForest.Path
import StackForest.Text.Literal
import StackForest.Text.Order

/-!
# Files

A tree of files and directories with a working directory in it. A path is followed from directory
to directory; reading and writing either work or name what is in the way: nothing or a directory
where a file is looked for, a file where a directory is, a name that is too long, a null character.
Every other obstacle is left out. There are no links, so no loops of links; no permissions, although
a directory that may not be searched also keeps a path from being looked for (`exists?`); no
devices; and the disk has room for everything.
-/

namespace StackForest

inductive Node where
  | file (bytes : List UInt8)
  | directory
  deriving DecidableEq, Repr

/-- A place in the tree: the names on the way from its root. -/
abbrev Place := List String

/-- Everything in the tree by its place, and the place of the working directory. The root itself
is not listed. -/
structure Files where
  entries : List (Place × Node)
  working : Place

namespace Files

inductive Obstacle where
  | missing
  | isDirectory
  | notDirectory
  | nameTooLong
  | nullCharacter
  deriving DecidableEq, Repr

structure Fault where
  obstacle : Obstacle
  path : String
  deriving DecidableEq, Repr

/-- The number and the text of an obstacle that the system reports. -/
def Obstacle.report? : Obstacle → Option (Nat × String)
  | missing => some (2, "No such file or directory")
  | notDirectory => some (20, "Not a directory")
  | isDirectory => some (21, "Is a directory")
  | nameTooLong => some (36, "File name too long")
  | nullCharacter => none

def Fault.message (f : Fault) : String :=
  match f.obstacle.report? with
  | some (number, text) =>
    s!"[Errno {number}] {text}: " ++ .ofList (Text.Literal.render f.path.toList)
  | none => "embedded null byte"

/-! ## The tree -/

def node? (t : Files) (place : Place) : Option Node :=
  if place.isEmpty then some .directory else Fields.get? place t.entries

def put (t : Files) (place : Place) (node : Node) : Files :=
  { t with entries := Fields.put place node t.entries }

/-! ## Following paths -/

/-- The longest name, and the longest path, in bytes. -/
def nameLimit : Nat := 255
def pathLimit : Nat := 4095

def stepTo (t : Files) (place : Place) (component : String) : Except Obstacle Place :=
  match t.node? place with
  | none => .error .missing
  | some (.file _) => .error .notDirectory
  | some .directory =>
    if nameLimit < component.utf8ByteSize then .error .nameTooLong
    else if component = "." then .ok place
    else if component = ".." then .ok place.dropLast
    else .ok (place ++ [component])

/-- The place that some components of a path lead to, where there need not be anything. -/
def follow (t : Files) (path : String) (components : List String) : Except Obstacle Place :=
  if path.isEmpty then .error .missing
  else if path.toList.contains '\x00' then .error .nullCharacter
  else if pathLimit < path.utf8ByteSize then .error .nameTooLong
  else components.foldlM t.stepTo (if Path.isAbsolute path then [] else t.working)

def place (t : Files) (path : String) : Except Obstacle Place :=
  t.follow path (Path.components path)

def exists? (t : Files) (path : String) : Except Fault Bool :=
  match t.place path with
  | .ok p => .ok (t.node? p).isSome
  | .error .nameTooLong => .error ⟨.nameTooLong, path⟩
  | .error _ => .ok false

def read (t : Files) (path : String) : Except Fault (List UInt8) :=
  match t.place path with
  | .error o => .error ⟨o, path⟩
  | .ok p =>
    match t.node? p with
    | none => .error ⟨.missing, path⟩
    | some .directory => .error ⟨.isDirectory, path⟩
    | some (.file bytes) =>
      if Path.endsWithSlash path then .error ⟨.notDirectory, path⟩ else .ok bytes

/-- Where a file may be written. A path that ends with a slash names no file: what is in its way
is the directory in front of its last component, or else the path itself. -/
def target (t : Files) (path : String) : Except Obstacle Place := do
  let slash := Path.endsWithSlash path
  let p ← t.follow path (if slash then (Path.components path).dropLast else Path.components path)
  match t.node? p, slash with
  | none, true => .error .missing
  | some (.file _), true => .error .notDirectory
  | some .directory, _ => .error .isDirectory
  | _, false => .ok p

def write (t : Files) (path : String) (bytes : List UInt8) : Except Fault Files :=
  match t.target path with
  | .error o => .error ⟨o, path⟩
  | .ok p => .ok (t.put p (.file bytes))

/-! ## Making a tree -/

def makeParents (t : Files) (place : Place) : Files :=
  ((List.range place.length).map place.take).foldl
    (fun t p => if (t.node? p).isSome then t else t.put p .directory) t

def empty : Files := ⟨[(["work"], .directory)], ["work"]⟩

/-- Adds a node at a path, with the directories on the way to it. -/
def add (t : Files) (path : String) (node : Node) : Files :=
  let place := (if Path.isAbsolute path then [] else t.working) ++ Path.names path
  (t.makeParents place).put place node

/-- The path of a place: relative below the working directory, absolute elsewhere. -/
def pathOf (t : Files) (place : Place) : String :=
  if t.working.isPrefixOf place then "/".intercalate (place.drop t.working.length)
  else "/" ++ "/".intercalate place

/-- The files with their paths, in the order of the paths. -/
def list (t : Files) : List (String × List UInt8) :=
  let files := t.entries.filterMap fun (place, node) =>
    match node with
    | .file bytes => some (t.pathOf place, bytes)
    | .directory => none
  files.mergeSort fun a b => Text.ascending a.1.toList b.1.toList

def changedSince (t before : Files) : List (String × List UInt8) :=
  t.list.filter fun f => !before.list.contains f

end Files
end StackForest
