import LateBridge.Bridge.Planning
import LateBridge.Source.Artifact

/-!
# Generation — one pass over a graph

The methods that ask for a bridge are grouped by the namespace of their types.  Each group is
planned and written by itself and gives at most one file; a group with an error gives none and
leaves the others alone.  A missing well-known type ends the pass before any group.
-/

namespace LateBridge

/-- **Everything that shapes a pass.** -/
structure GeneratorOptions where
  names : MarkerNames := {}
  emit : EmitOptions := {}
  /-- Groups may run at the same time. -/
  parallel : Bool := true
  deriving DecidableEq, Repr, Inhabited

/-- **What came of a group.** -/
structure GroupResult where
  space : Option String
  plans : List BridgePlan
  /-- None if the group has an error or no plan. -/
  artifact? : Option Artifact
  reports : List Diagnostic
  deriving DecidableEq, Repr, Inhabited

/-- **What came of a pass**: its groups in first-seen order, or the report that ended it. -/
structure Generation where
  groups : List GroupResult
  globalReports : List Diagnostic
  deriving DecidableEq, Repr, Inhabited

namespace Generation

variable (g : Generation)

/-- The files. -/
def artifacts : List Artifact := g.groups.filterMap (·.artifact?)

/-- The plans of all groups, whether or not they gave a file. -/
def plans : List BridgePlan := g.groups.flatMap (·.plans)

/-- All reports, those of no group first. -/
def reports : List Diagnostic := g.globalReports ++ g.groups.flatMap (·.reports)

end Generation

/-! ## Groups -/

/-- The namespace of a method's type. -/
def Method.space (m : Method) : Option String := m.declaring.space

/-- **Methods by namespace**, namespaces in first-seen order and methods as they come. -/
def groupBySpace (ms : List Method) : List (Option String × List Method) :=
  (ms.map Method.space).eraseDups.map fun space => (space, ms.filter (·.space == space))

/-- **One group.** -/
def runGroup (g : Graph) (known : WellKnown) (options : GeneratorOptions)
    (space : Option String) (ms : List Method) : GroupResult :=
  let outcome := Planner.planGroup ⟨g, known, options.names⟩ ms
  let artifact? :=
    if hasErrors outcome.reports || outcome.plans.isEmpty then none
    else some (BridgeEmitter.emit ⟨g, known, options.emit⟩ space outcome.plans)
  { space, plans := outcome.plans, artifact?, reports := outcome.reports }

/-- **A pass over a graph.** -/
def generate (g : Graph) (options : GeneratorOptions) : Generation :=
  match WellKnown.resolve g with
  | .error d => ⟨[], [d]⟩
  | .ok known =>
    let groups := groupBySpace (options.names.candidates g)
    ⟨groups.map fun (space, ms) => runGroup g known options space ms, []⟩

end LateBridge
