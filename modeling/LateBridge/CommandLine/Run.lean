import LateBridge.CommandLine.Args
import LateBridge.CommandLine.Files
import LateBridge.Diagnostic.Report
import LateBridge.Document.Load

/-!
# CommandLine/Run — one run of the program

A run settles its configuration, reads and loads the graph documents, makes one pass and, unless it
is only asked to list or to print, writes the files.  What goes wrong on the way ends it; reports of
the pass do not.
-/

namespace LateBridge

/-! ## Faults -/

/-- **What ends a run.** -/
inductive RunError where
  | unreadableConfig (path : String) (cause : FileError)
  | malformedConfig (path : String)
  | unreadableInput (path : String) (cause : FileError)
  | malformedInput (path : String)
  | notLoaded (cause : LoadError)
  | noDirectory (path : String) (cause : FileError)
  | notWritten (path : String) (cause : FileError)
  deriving DecidableEq, Repr

namespace RunError

/-- The messages of a fault and of the faults behind it. -/
def messages : RunError → List String
  | unreadableConfig path cause => ["failed to read config file " ++ path, cause.message]
  | malformedConfig path => ["in " ++ path, "invalid bridgegen configuration"]
  | unreadableInput path cause => ["failed to read " ++ path, cause.message]
  | malformedInput path => ["failed to parse graph document " ++ path]
  | notLoaded cause => "failed to load symbol graph" :: cause.message :: cause.causes
  | noDirectory path cause => ["failed to create directory " ++ path, cause.message]
  | notWritten path cause => ["failed to write " ++ path, cause.message]

/-- The messages in one line. -/
def message (e : RunError) : String := ": ".intercalate e.messages

end RunError

/-! ## The steps of a run -/

/-- **What came of a run.** -/
structure RunResult where
  generation : Generation
  /-- The files written, in the order of the groups. -/
  written : List String
  /-- One line for each plan, if they were asked for. -/
  planLines : List String
  deriving DecidableEq, Repr, Inhabited

namespace Run

variable {m : Type → Type} [Monad m] (fs : FileSystem m)

/-- The name of a configuration file. -/
def configFileName : String := "bridgegen.json"

/-- **The configuration file of a run**: the one asked for, or the one in the directory asked for,
else the one in the current directory if it is there. -/
def findConfig (explicit? : Option String) (cwd : String) : m (Option String) := do
  match explicit? with
  | some path =>
    let path := Path.join cwd path
    if ← fs.isDirectory path then return some (Path.join path configFileName)
    else return some path
  | none =>
    let path := Path.join cwd configFileName
    if ← fs.isFile path then return some path else return none

/-- A configuration file. -/
def readConfig (path : String) : m (Except RunError Config) := do
  match ← fs.readText path with
  | .error e => return .error (.unreadableConfig path e)
  | .ok text =>
    match Config.read text with
    | some config => return .ok config
    | none => return .error (.malformedConfig path)

/-- **The configuration of a run.** -/
def settleConfig (args : Args) (cwd : String) : m (Except RunError Config) := do
  match ← findConfig fs args.config? cwd with
  | none => return .ok (Config.withArgs {} args)
  | some path =>
    match ← readConfig fs path with
    | .ok config => return .ok (config.withArgs args)
    | .error e => return .error e

/-- **The graph documents of a run**, up to the first that cannot be read. -/
def readInputs (cwd : String) : List String → m (Except RunError (List GraphDocument))
  | [] => return .ok []
  | input :: inputs => do
    let path := Path.join cwd input
    match ← fs.readText path with
    | .error e => return .error (.unreadableInput path e)
    | .ok text =>
      match GraphDocument.read text with
      | none => return .error (.malformedInput path)
      | some doc =>
        match ← readInputs cwd inputs with
        | .ok docs => return .ok (doc :: docs)
        | .error e => return .error e

/-- Files into a directory that is there, up to the first that cannot be written. -/
def writeEach (directory : String) : List Artifact → m (Except RunError (List String))
  | [] => return .ok []
  | a :: rest => do
    let path := Path.join directory a.fileName
    match ← fs.writeText path a.text with
    | .error e => return .error (.notWritten path e)
    | .ok () =>
      match ← writeEach directory rest with
      | .ok paths => return .ok (path :: paths)
      | .error e => return .error e

/-- **The files of a pass** into a directory. -/
def writeAll (directory : String) (artifacts : List Artifact) :
    m (Except RunError (List String)) := do
  match ← fs.makeDirectories directory with
  | .error e => return .error (.noDirectory directory e)
  | .ok () => writeEach fs directory artifacts

/-- The line about a plan. -/
def planLine (p : BridgePlan) : String := p.method.docId ++ " -> " ++ p.target

/-- The output of a pass, as the arguments ask for it. -/
def deliver (args : Args) (cwd : String) (generation : Generation) :
    m (Except RunError RunResult) := do
  if args.listPlans then return .ok ⟨generation, [], generation.plans.map planLine⟩
  else if args.stdout then return .ok ⟨generation, [], []⟩
  else
    let directory := (args.outDir?.map (Path.join cwd)).getD cwd
    match ← writeAll fs directory generation.artifacts with
    | .ok written => return .ok ⟨generation, written, []⟩
    | .error e => return .error e

/-- **One run** in a current directory. -/
def run (args : Args) (cwd : String) : m (Except RunError RunResult) := do
  match ← settleConfig fs args cwd with
  | .error e => return .error e
  | .ok config =>
    match ← readInputs fs cwd args.inputs with
    | .error e => return .error e
    | .ok docs =>
      match load docs with
      | .error e => return .error (.notLoaded e)
      | .ok g => deliver fs args cwd (generate g config.generatorOptions)

end Run

/-! ## What a user sees -/

/-- **Which outputs of the program are terminals.** -/
structure Terminals where
  out : Bool
  err : Bool
  deriving DecidableEq, Repr, Inhabited

/-- **Whether reports are painted**: it has to be asked for, and a program whose output is no
terminal uses no colour at all. -/
def Terminals.paints (t : Terminals) (args : Args) : Bool := t.out && args.prettyOutput t.err

/-- **What the program shows and how it ends.** -/
structure Shown where
  out : String
  err : String
  code : Nat
  deriving DecidableEq, Repr, Inhabited

namespace Shown

/-- A text with the end of its line. -/
def lineOf (text : String) : String := text ++ "\n"

/-- The reports of a pass and the line that counts them. -/
def reports (colour : Bool) (generation : Generation) : String :=
  let reporter : Reporter := ⟨colour⟩
  let ds := generation.reports
  (if ds.isEmpty then "" else lineOf (reporter.render ds)) ++
    (match reporter.summary (errorCount ds) (warningCount ds) with
    | some text => "\n" ++ lineOf text
    | none => "")

/-- The plans or the files, where they are asked for. -/
def output (args : Args) (r : RunResult) : String :=
  if args.listPlans then String.join (r.planLines.map lineOf)
  else if args.stdout then
    String.join (r.generation.artifacts.map fun a => lineOf ("// " ++ a.fileName) ++ a.text)
  else ""

/-- **A run as its user sees it.**  An error among the reports and a run that was ended have codes
of their own. -/
def ofRun (args : Args) (terminals : Terminals) : Except RunError RunResult → Shown
  | .error e => ⟨"", lineOf ("error: " ++ e.message), 2⟩
  | .ok r =>
    { out := output args r, err := reports (terminals.paints args) r.generation
      code := if hasErrors r.generation.reports then 1 else 0 }

/-- How the program is called. -/
def usageLine : String := "Usage: bridgegen [OPTIONS] <GRAPH>..."

/-- The options with what they do. -/
def optionLines : List (String × String) :=
  [("  -o, --out-dir <OUT_DIR>",
      "Directory for generated sources (defaults to the current directory)"),
    ("  -p, --config <CONFIG>", "Path to bridgegen.json or a directory containing it"),
    ("      --stdout", "Print generated sources to stdout instead of writing files"),
    ("      --list-plans", "Print one line per planned bridge instead of generating sources"),
    ("      --pretty", "Enable color and formatting in diagnostics"),
    ("      --no-pretty", "Disable color and formatting in diagnostics"),
    ("      --marker-attribute <MARKER_ATTRIBUTE>",
      "Metadata name of the type-parameter marker attribute"),
    ("      --method-marker-attribute <METHOD_MARKER_ATTRIBUTE>",
      "Metadata name of the method marker attribute"),
    ("      --indent <INDENT>", "Spaces per indentation level in generated sources; 0 uses tabs"),
    ("      --no-hide-targets", "Do not hide bridge targets from editors and debuggers"),
    ("      --no-trimming-attributes", "Do not emit trimming attributes on wrappers"),
    ("      --no-nullable-directive", "Do not start generated sources with `#nullable disable`"),
    ("      --single-threaded", "Process namespace groups one at a time"),
    ("  -h, --help", "Print help"),
    ("  -V, --version", "Print version")]

/-- The help text. -/
def help : String :=
  "Generate late-bound bridge methods for generic methods with runtime-resolved type parameters\n\n"
    ++ usageLine ++ "\n\nArguments:\n" ++
    "  <GRAPH>...  Symbol graph documents (JSON) describing the host program\n\nOptions:\n" ++
    String.join (optionLines.map fun (name, what) => name ++ "\n          " ++ what ++ "\n")

/-- What is wrong with the arguments. -/
def usageMessage : UsageError → String
  | .missingRequiredArgument => "the following required arguments were not provided: <GRAPH>..."
  | .unknownArgument => "unexpected argument found"
  | .invalidValue => "a value is required but none was supplied"
  | .tooManyValues => "unexpected value found; no more were expected"
  | .valueValidation => "invalid value for '--indent <INDENT>'"
  | .argumentConflict => "an argument cannot be used multiple times"
  | .displayHelp | .displayVersion => ""

/-- Arguments that ask for no run. -/
def ofUsage : UsageError → Shown
  | .displayHelp => ⟨help, "", 0⟩
  | .displayVersion => ⟨"bridgegen 0.1.0\n", "", 0⟩
  | e =>
    ⟨"", "error: " ++ usageMessage e ++ "\n\n" ++ usageLine ++
      "\n\nFor more information, try '--help'.\n", 2⟩

end Shown

/-- **The program**: from its arguments to what its user sees. -/
def program {m : Type → Type} [Monad m] (fs : FileSystem m) (terminals : Terminals)
    (cwd : String) (arguments : List String) : m Shown := do
  match Args.read arguments with
  | .error e => return Shown.ofUsage e
  | .ok args => return Shown.ofRun args terminals (← Run.run fs args cwd)

end LateBridge
