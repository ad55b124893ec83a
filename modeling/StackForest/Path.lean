/-!
# Paths

Paths as they are typed, their normal form and their suffix. Slashes separate the components of a
path; the normal form has no empty components and no single dots, and keeps double dots.
-/

namespace StackForest.Path

/-- The runs between slashes, empty ones included. -/
def runs (cs : List Char) : List (List Char) :=
  cs.foldr (fun c runs => if c = '/' then [] :: runs else
    (c :: runs.headD []) :: runs.drop 1) [[]]

def components (path : String) : List String :=
  ((runs path.toList).filter (!·.isEmpty)).map .ofList

/-- The components that name something: all but single dots. -/
def names (path : String) : List String :=
  (components path).filter (· != ".")

/-- The slashes in front of a normal form. Two stay two; more count as one. -/
def root (path : String) : String :=
  match (path.toList.takeWhile (· == '/')).length with
  | 0 => ""
  | 2 => "//"
  | _ => "/"

def normalize (path : String) : String :=
  let text := root path ++ "/".intercalate (names path)
  if text.isEmpty then "." else text

def isAbsolute (path : String) : Bool :=
  path.toList.head? == some '/'

/-- Whether a path ends with a slash, and so can only name a directory. -/
def endsWithSlash (path : String) : Bool :=
  path.toList.getLast? == some '/'

/-- The suffix of a name: its last dot and what stands behind it, unless either side of the dot is
empty. -/
def suffixOf (name : String) : String :=
  let behind := name.toList.reverse.takeWhile (· != '.')
  let front := (name.toList.reverse.drop behind.length).drop 1
  if behind.isEmpty || front.isEmpty then "" else .ofList ('.' :: behind.reverse)

def suffix (path : String) : String :=
  match (names path).getLast? with
  | some name => suffixOf name
  | none => ""

end StackForest.Path
