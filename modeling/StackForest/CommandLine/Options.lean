import StackForest.Text.Digit
import StackForest.Text.Literal

/-!
# Options

The options of the command line, read from its words from left to right. Long names may be cut
short as long as they stay unique, and a value may be attached to its option; of a repeated option
the last one counts. Asking for help or for the version ends the reading at once.
-/

namespace StackForest.CommandLine

inductive Flag where
  | help
  | version
  | input
  | fdef
  | output
  | dot
  | svg
  | plistDot
  | plistSvg
  | outvm
  | verbose
  deriving DecidableEq, Repr

inductive Arity where
  | none
  | one
  | many
  deriving DecidableEq, Repr

namespace Flag

def arity : Flag → Arity
  | help | version | verbose => .none
  | fdef => .many
  | _ => .one

def names : List (String × Flag) :=
  [("-h", help), ("--help", help), ("--version", version), ("--input", input), ("--fdef", fdef),
    ("--output", output), ("--dot", dot), ("--svg", svg), ("--plist-dot", plistDot),
    ("--plist-svg", plistSvg), ("--outvm", outvm), ("-v", verbose), ("--verbose", verbose)]

def ofName? (name : String) : Option Flag :=
  (names.find? fun n => n.1 == name).map (·.2)

def title (f : Flag) : String :=
  "/".intercalate ((names.filter fun n => n.2 == f).map (·.1))

end Flag

/-! ## Words -/

abbrev Attached := Option String

inductive Word where
  /-- Two dashes alone: options end here. -/
  | separator
  | argument (s : String)
  | option (f : Flag) (name : String) (attached : Attached)
  | unknown (s : String)

inductive Misuse where
  | ambiguous (word : String) (names : List String)
  | expectedOne (f : Flag)
  | expectedSome (f : Flag)
  | ignoredValue (f : Flag) (value : String)
  | missingInput
  | unrecognized (words : List String)
  deriving DecidableEq, Repr

def Misuse.message : Misuse → String
  | ambiguous word names =>
    "ambiguous option: " ++ word ++ " could match " ++ ", ".intercalate names
  | expectedOne f => s!"argument {f.title}: expected one argument"
  | expectedSome f => s!"argument {f.title}: expected at least one argument"
  | ignoredValue f value =>
    s!"argument {f.title}: ignored explicit argument "
      ++ .ofList (Text.Literal.render value.toList)
  | missingInput => s!"the following arguments are required: {Flag.input.title}"
  | unrecognized words => "unrecognized arguments: " ++ " ".intercalate words

def splitValue (cs : List Char) : String × Attached :=
  match cs.dropWhile (· != '=') with
  | [] => (.ofList cs, none)
  | _ :: value => (.ofList (cs.takeWhile (· != '=')), some (.ofList value))

/-- The options that a cut name can stand for. -/
def completions (cs : List Char) : List (Flag × String × Attached) :=
  match cs with
  | '-' :: '-' :: _ =>
    let (front, value) := splitValue cs
    Flag.names.filterMap fun (name, f) =>
      if front.toList.isPrefixOf name.toList then some (f, name, value) else none
  | dash :: letter :: value =>
    Flag.names.filterMap fun (name, f) =>
      if name.toList = [dash, letter] then some (f, name, some (.ofList value)) else none
  | _ => []

/-- A minus and a decimal number, which is an argument although it begins with a dash. A line feed
may end it. -/
def isNegativeNumber (cs : List Char) : Bool :=
  match cs with
  | '-' :: r =>
    let r := if r.getLast? = some '\n' then r.dropLast else r
    match r.dropWhile Text.isDigit with
    | [] => !r.isEmpty
    | '.' :: fraction => !fraction.isEmpty && fraction.all Text.isDigit
    | _ => false
  | _ => false

def classify (s : String) : Except Misuse Word :=
  let cs := s.toList
  if cs.head? ≠ some '-' then .ok (.argument s)
  else match Flag.ofName? s with
    | some f => .ok (.option f s none)
    | none =>
      if cs.length = 1 then .ok (.argument s)
      else
        let (front, value) := splitValue cs
        match Flag.ofName? front, value with
        | some f, some _ => .ok (.option f front value)
        | _, _ =>
          match completions cs with
          | [(f, name, value)] => .ok (.option f name value)
          | [] =>
            if isNegativeNumber cs || cs.contains ' ' then .ok (.argument s) else .ok (.unknown s)
          | several => .error (.ambiguous s (several.map (·.2.1)))

/-- The words of a command line. Behind a separator every word is an argument. -/
def classifyAll : List String → Except Misuse (List Word)
  | [] => .ok []
  | s :: rest =>
    if s = "--" then .ok (.separator :: rest.map .argument)
    else do
      let w ← classify s
      let ws ← classifyAll rest
      return w :: ws

/-! ## Options -/

/-- The value of an option: not given, given, or emptied. A value of two dashes counts as none. -/
inductive Setting where
  | absent
  | emptied
  | given (s : String)
  deriving DecidableEq, Repr

structure Options where
  input : Setting
  fdef : List String
  output : Setting
  dot : Setting
  svg : Setting
  plistDot : Setting
  plistSvg : Setting
  outvm : Setting
  verbose : Bool
  deriving DecidableEq, Repr

namespace Options

def none : Options :=
  ⟨.absent, [], .absent, .absent, .absent, .absent, .absent, .absent, false⟩

def set (o : Options) (f : Flag) (s : Setting) : Options :=
  match f with
  | .input => { o with input := s }
  | .output => { o with output := s }
  | .dot => { o with dot := s }
  | .svg => { o with svg := s }
  | .plistDot => { o with plistDot := s }
  | .plistSvg => { o with plistSvg := s }
  | .outvm => { o with outvm := s }
  | _ => o

end Options

inductive Request where
  | help
  | version
  | run (o : Options)

/-- Why there is nothing to run: the words are misused, or the user asked for a text. -/
inductive Stop where
  | misuse (m : Misuse)
  | request (r : Request)

/-! ## Reading options -/

def apply (o : Options) : Flag → Except Stop Options
  | .help => .error (.request .help)
  | .version => .error (.request .version)
  | .verbose => .ok { o with verbose := true }
  | _ => .ok o

def assign (o : Options) (f : Flag) (value : String) : Options :=
  let values := if value = "--" then [] else [value]
  match f, values with
  | .fdef, values => { o with fdef := values }
  | f, [] => o.set f .emptied
  | f, v :: _ => o.set f (.given v)

/-- The options of a word such as `-vh`: those of its letters. `f` is the option in front of the
letters. -/
def cluster (f : Flag) : List Char → Except Misuse (List Flag)
  | [] => .ok [f]
  | letter :: letters =>
    match Flag.ofName? (.ofList ['-', letter]) with
    | some g => (cluster g letters).map (f :: ·)
    | none => .error (.ignoredValue f (.ofList (letter :: letters)))

def applyAttached (o : Options) (f : Flag) (name value : String) : Except Stop Options :=
  if f.arity = .none then
    if name.length = 2 ∧ value ≠ "" then
      match cluster f value.toList with
      | .ok flags => flags.foldlM apply o
      | .error m => .error (.misuse m)
    else .error (.misuse (.ignoredValue f value))
  else .ok (assign o f value)

def leading : List Word → List String
  | .argument s :: ws => s :: leading ws
  | _ => []

/-- Reads words; `extras` are the words so far that belong to no option. -/
def readWords (o : Options) (extras : List String) :
    List Word → Except Stop (Options × List String)
  | [] => .ok (o, extras)
  | .separator :: ws => readWords o (extras ++ ["--"]) ws
  | .argument s :: ws => readWords o (extras ++ [s]) ws
  | .unknown s :: ws => readWords o (extras ++ [s]) ws
  | .option f name (some value) :: ws =>
    match applyAttached o f name value with
    | .ok o => readWords o extras ws
    | .error stop => .error stop
  | .option f _ none :: ws =>
    match f.arity with
    | .none =>
      match apply o f with
      | .ok o => readWords o extras ws
      | .error stop => .error stop
    | .one =>
      match ws with
      | .argument s :: ws => readWords (assign o f s) extras ws
      | _ => .error (.misuse (.expectedOne f))
    | .many =>
      match leading ws with
      | [] => .error (.misuse (.expectedSome f))
      | values => readWords { o with fdef := values } extras (ws.drop values.length)
termination_by ws => ws.length

def read (args : List String) : Except Misuse Request :=
  match classifyAll args with
  | .error m => .error m
  | .ok ws =>
    match readWords .none [] ws with
    | .error (.misuse m) => .error m
    | .error (.request r) => .ok r
    | .ok (o, extras) =>
      if o.input = .absent then .error .missingInput
      else if extras ≠ [] then .error (.unrecognized extras)
      else .ok (.run o)

/-! ## Texts -/

def programName : String := "tzo-analyze"
def versionText : String := "1.0.5"

def usage : String :=
  "usage: tzo-analyze [-h] [--version] --input INPUT [--fdef FDEF [FDEF ...]]\n"
    ++ "                   [--output OUTPUT] [--dot DOT] [--svg SVG]\n"
    ++ "                   [--plist-dot PLIST_DOT] [--plist-svg PLIST_SVG]\n"
    ++ "                   [--outvm OUTVM] [-v]\n"

def help : String :=
  usage ++ "\n"
    ++ "Tzo syntax tree analyzer\n\n"
    ++ "options:\n"
    ++ "  -h, --help            show this help message and exit\n"
    ++ "  --version             show program's version number and exit\n"
    ++ "  --input INPUT         Path to Tzo VMState .json file or .tzoct file\n"
    ++ "  --fdef FDEF [FDEF ...]\n"
    ++ "                        Load additional function definition .json file\n"
    ++ "  --output OUTPUT       Save analyzed .json here, or stdout if '-'\n"
    ++ "  --dot DOT             Save syntax tree .dot file here\n"
    ++ "  --svg SVG             Save syntax tree .svg file here\n"
    ++ "  --plist-dot PLIST_DOT\n"
    ++ "                        Save program list .dot file here\n"
    ++ "  --plist-svg PLIST_SVG\n"
    ++ "                        Save program list .svg file here\n"
    ++ "  --outvm OUTVM         Save VMState .json file here\n"
    ++ "  -v, --verbose         Print progress to stderr\n"

end StackForest.CommandLine
