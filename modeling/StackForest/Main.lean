import StackForest.CommandLine.Run

/-!
# The program

Reads whatever the words of the command line name, runs on that, and writes what has changed.
-/

namespace StackForest

/-- The paths that a word may name: itself, or what is attached to an option. -/
def mentioned (word : String) : List String :=
  match (CommandLine.splitValue word.toList).2 with
  | some value => [word, value]
  | none => [word]

def onTheWay (path : String) : List String :=
  let names := Path.names path
  let root := Path.root path
  (List.range names.length).map fun n => root ++ "/".intercalate (names.take (n + 1))

def probe (path : String) : IO (Option Node) := do
  try
    let bytes ← IO.FS.readBinFile path
    return some (.file bytes.toList)
  catch
    | .noFileOrDirectory .. | .noSuchThing .. => return none
    | _ => return some .directory

def gather (args : List String) : IO Files := do
  let mut files := Files.empty
  for path in (args.flatMap mentioned).flatMap onTheWay do
    match ← probe path with
    | some node => files := files.add path node
    | none => pure ()
  return files

end StackForest

open StackForest in
def main (args : List String) : IO UInt32 := do
  let files ← gather args
  let (ending, session) := (CommandLine.execute .usual args).run ⟨files, "", ""⟩
  for (path, bytes) in session.files.changedSince files do
    IO.FS.writeBinFile path ⟨bytes.toArray⟩
  IO.print session.stdout
  IO.eprint session.stderr
  match ending with
  | .ok code => return code.toUInt32
  | .error failure =>
    IO.eprintln failure.message
    return 1
