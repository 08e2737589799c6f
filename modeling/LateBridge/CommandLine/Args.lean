import LateBridge.CommandLine.Config

/-!
# CommandLine/Args — the arguments of the program

Arguments are read one by one.  An option waits for its value and the graph documents for further
ones; what waits is settled when the next thing begins, so a fault in it is only told then, and not
at all when the next argument is no known option.
-/

namespace LateBridge

/-! ## What can be given -/

/-- The options with a value. -/
inductive OptionName where
  | outDir
  | config
  | markerAttribute
  | methodMarkerAttribute
  | indent
  deriving DecidableEq, Repr

/-- The switches. -/
inductive SwitchName where
  | stdout
  | listPlans
  | pretty
  | noPretty
  | noHideTargets
  | noTrimmingAttributes
  | noNullableDirective
  | singleThreaded
  deriving DecidableEq, Repr

/-- **Why there is nothing to run**; help and version are asked for. -/
inductive UsageError where
  | missingRequiredArgument
  | unknownArgument
  /-- An option without its value, or an empty path. -/
  | invalidValue
  /-- A switch with a value. -/
  | tooManyValues
  /-- Not a number that fits. -/
  | valueValidation
  /-- Given twice. -/
  | argumentConflict
  | displayHelp
  | displayVersion
  deriving DecidableEq, Repr

/-- What can be named by an argument. -/
inductive Named where
  | option (name : OptionName)
  | switch (name : SwitchName)
  | help
  | version
  deriving DecidableEq, Repr

namespace Named

/-- What a long name stands for. -/
def ofLong? : String → Option Named
  | "out-dir" => some (.option .outDir)
  | "config" => some (.option .config)
  | "marker-attribute" => some (.option .markerAttribute)
  | "method-marker-attribute" => some (.option .methodMarkerAttribute)
  | "indent" => some (.option .indent)
  | "stdout" => some (.switch .stdout)
  | "list-plans" => some (.switch .listPlans)
  | "pretty" => some (.switch .pretty)
  | "no-pretty" => some (.switch .noPretty)
  | "no-hide-targets" => some (.switch .noHideTargets)
  | "no-trimming-attributes" => some (.switch .noTrimmingAttributes)
  | "no-nullable-directive" => some (.switch .noNullableDirective)
  | "single-threaded" => some (.switch .singleThreaded)
  | "help" => some .help
  | "version" => some .version
  | _ => none

/-- What a letter stands for. -/
def ofShort? : Char → Option Named
  | 'o' => some (.option .outDir)
  | 'p' => some (.option .config)
  | 'h' => some .help
  | 'V' => some .version
  | _ => none

end Named

/-! ## What was given -/

/-- **The arguments of a run.** -/
structure Args where
  inputs : List String := []
  outDir? : Option String := none
  config? : Option String := none
  markerAttribute? : Option String := none
  methodMarkerAttribute? : Option String := none
  indent? : Option Nat := none
  stdout : Bool := false
  listPlans : Bool := false
  pretty : Bool := false
  noPretty : Bool := false
  noHideTargets : Bool := false
  noTrimmingAttributes : Bool := false
  noNullableDirective : Bool := false
  singleThreaded : Bool := false
  deriving DecidableEq, Repr, Inhabited

namespace Args

/-- The natural number below `2 ^ 64` that digits after an optional plus sign stand for. -/
def number? (text : String) : Option Nat :=
  let ds := match text.toList with
    | '+' :: rest => rest
    | cs => cs
  let value := ds.foldl (fun n c => n * 10 + (c.toNat - '0'.toNat)) 0
  if ds.isEmpty || !ds.all Char.isDigit || value ≥ Nat.pow 2 64 then none else some value

/-- A path; it is not empty. -/
def path (text : String) : Except UsageError String :=
  if text.isEmpty then .error .invalidValue else .ok text

/-- A value for something that may be given once. -/
def once {α : Type} (current : Option α) (value : Except UsageError α) :
    Except UsageError (Option α) :=
  if current.isSome then .error .argumentConflict else value.map some

/-- The arguments with the value of an option. -/
def setOption (a : Args) (name : OptionName) (value : String) : Except UsageError Args :=
  match name with
  | .outDir => (once a.outDir? (path value)).map fun v => { a with outDir? := v }
  | .config => (once a.config? (path value)).map fun v => { a with config? := v }
  | .markerAttribute =>
    (once a.markerAttribute? (.ok value)).map fun v => { a with markerAttribute? := v }
  | .methodMarkerAttribute =>
    (once a.methodMarkerAttribute? (.ok value)).map fun v => { a with methodMarkerAttribute? := v }
  | .indent =>
    let number := match number? value with
      | some n => .ok n
      | none => .error .valueValidation
    (once a.indent? number).map fun v => { a with indent? := v }

/-- Whether a switch is given. -/
def hasSwitch (a : Args) : SwitchName → Bool
  | .stdout => a.stdout
  | .listPlans => a.listPlans
  | .pretty => a.pretty
  | .noPretty => a.noPretty
  | .noHideTargets => a.noHideTargets
  | .noTrimmingAttributes => a.noTrimmingAttributes
  | .noNullableDirective => a.noNullableDirective
  | .singleThreaded => a.singleThreaded

/-- The arguments with a switch; the later of the two switches about colour counts. -/
def withSwitch (a : Args) : SwitchName → Args
  | .stdout => { a with stdout := true }
  | .listPlans => { a with listPlans := true }
  | .pretty => { a with pretty := true, noPretty := false }
  | .noPretty => { a with noPretty := true, pretty := false }
  | .noHideTargets => { a with noHideTargets := true }
  | .noTrimmingAttributes => { a with noTrimmingAttributes := true }
  | .noNullableDirective => { a with noNullableDirective := true }
  | .singleThreaded => { a with singleThreaded := true }

/-- The arguments with a switch that is not given yet. -/
def setSwitch (a : Args) (name : SwitchName) : Except UsageError Args :=
  if a.hasSwitch name then .error .argumentConflict else .ok (a.withSwitch name)

/-- The arguments with further graph documents. -/
def addInputs (a : Args) (paths : List String) : Except UsageError Args :=
  (paths.mapM path).map fun paths => { a with inputs := a.inputs ++ paths }

/-! ## Reading -/

/-- What waits to be settled: an option for its value, one with its value, or graph documents for
further ones. -/
inductive Pending where
  | nothing
  | option (name : OptionName)
  | value (name : OptionName) (text : String)
  | inputs (paths : List String)
  deriving DecidableEq, Repr

/-- The state of reading; after a double dash everything is a graph document. -/
structure Reading where
  args : Args := {}
  pending : Pending := .nothing
  inputsOnly : Bool := false
  deriving DecidableEq, Repr, Inhabited

namespace Reading

/-- What waits is settled. -/
def settle (r : Reading) : Except UsageError Args :=
  match r.pending with
  | .nothing => .ok r.args
  | .option _ => .error .invalidValue
  | .value name text => r.args.setOption name text
  | .inputs paths => r.args.addInputs paths

/-- An option begins, with its value or without. -/
def beginOption (r : Reading) (name : OptionName) : Option String → Except UsageError Reading
  | some value => do
    let args ← r.settle
    return { r with args := ← args.setOption name value, pending := .nothing }
  | none => do return { r with args := ← r.settle, pending := .option name }

/-- Something named begins, with a value after it or without. -/
def beginNamed (r : Reading) (named : Named) (value? : Option String) : Except UsageError Reading :=
  match named, value? with
  | .option name, value? => r.beginOption name value?
  | _, some _ => .error .tooManyValues
  | .switch name, none => do
    let args ← r.settle
    return { r with args := ← args.setSwitch name, pending := .nothing }
  | .help, none => r.settle.bind fun _ => .error .displayHelp
  | .version, none => r.settle.bind fun _ => .error .displayVersion

/-- An argument that starts with two dashes and goes on with `body`. -/
def long (r : Reading) (body : List Char) : Except UsageError Reading :=
  let name := String.ofList (body.takeWhile (· != '='))
  let value? := match body.dropWhile (· != '=') with
    | _ :: value => some (String.ofList value)
    | [] => none
  match Named.ofLong? name with
  | some named => r.beginNamed named value?
  | none => .error .unknownArgument

/-- An argument that starts with one dash and a letter; the rest of it is the value of an option. -/
def short (r : Reading) (letter : Char) (rest : List Char) : Except UsageError Reading :=
  match Named.ofShort? letter with
  | none => .error .unknownArgument
  | some (.option name) =>
    match rest with
    | [] => r.beginOption name none
    | '=' :: value => r.beginOption name (some (String.ofList value))
    | value => r.beginOption name (some (String.ofList value))
  | some named => r.beginNamed named none

/-- A graph document. -/
def input (r : Reading) (path : String) : Except UsageError Reading :=
  match r.pending with
  | .inputs paths => .ok { r with pending := .inputs (paths ++ [path]) }
  | _ => do return { r with args := ← r.settle, pending := .inputs [path] }

/-- An argument without a dash: the value that an option waits for, or a graph document. -/
def plain (r : Reading) (text : String) : Except UsageError Reading :=
  match r.pending with
  | .option name => .ok { r with pending := .value name text }
  | _ => r.input text

/-- **One argument.** -/
def step (r : Reading) (arg : String) : Except UsageError Reading :=
  if r.inputsOnly then r.input arg
  else
    match arg.toList with
    | ['-', '-'] => .ok { r with inputsOnly := true }
    | '-' :: '-' :: body => r.long body
    | '-' :: letter :: rest => r.short letter rest
    | _ => r.plain arg

/-- The arguments once all are read; a graph document has to be among them. -/
def finish (r : Reading) : Except UsageError Args := do
  let args ← r.settle
  if args.inputs.isEmpty then .error .missingRequiredArgument else .ok args

end Reading

/-- **Reading the arguments of a run**, without the name of the program. -/
def read (arguments : List String) : Except UsageError Args := do
  (← arguments.foldlM Reading.step {}).finish

/-! ## Meaning -/

/-- Whether reports are painted: as asked for, else only on a terminal. -/
def prettyOutput (a : Args) (isTerminal : Bool) : Bool :=
  if a.pretty then true else if a.noPretty then false else isTerminal

end Args

/-- **A configuration with the arguments of a run**, which count more. -/
def Config.withArgs (c : Config) (a : Args) : Config :=
  { markers :=
      { ofParam := a.markerAttribute?.getD c.markers.ofParam
        ofMethod := a.methodMarkerAttribute?.getD c.markers.ofMethod }
    emit :=
      { indent := a.indent?.getD c.emit.indent
        hideTargets := c.emit.hideTargets && !a.noHideTargets
        trimmingAttributes := c.emit.trimmingAttributes && !a.noTrimmingAttributes
        nullableDirective := c.emit.nullableDirective && !a.noNullableDirective }
    parallel := c.parallel && !a.singleThreaded }

end LateBridge
