import LateBridge.Diagnostic.Location
import LateBridge.Text.Template

/-!
# Diagnostic/Basic — what the generator reports, and in which words

Each condition is a `Rule` with a stable number, a severity and a message template.  A `Diagnostic`
is a rule's filled message with the place it is about; a number without a rule still makes an
error, so that no report is lost.
-/

namespace LateBridge

open Text (slot fill)

/-! ## Rules -/

/-- How grave a report is. -/
inductive Severity where
  | warning
  | error
  deriving DecidableEq, Repr

/-- The word for a severity. -/
def Severity.word : Severity → String
  | .warning => "warning"
  | .error => "error"

/-- **The conditions that are reported.** -/
inductive Rule where
  | missingPredefinedType
  | malformedMarker
  | returnsByReference
  | targetNameTaken
  | malformedMethodMarker
  | malformedMethodMarkerOption
  | referenceParameter
  | uninferableParameters
  | pointerNeedsDispatch
  | explicitInterface
  | unenforcedConstraint
  | methodMarkerAlone
  | typeNotPartial
  | ambiguousErasure
  | unresolvableErasure
  | ambiguousDefinition
  deriving DecidableEq, Repr

namespace Rule

/-- Every rule, by number. -/
def all : List Rule :=
  [missingPredefinedType, malformedMarker, returnsByReference, targetNameTaken,
    malformedMethodMarker, malformedMethodMarkerOption, referenceParameter, uninferableParameters,
    pointerNeedsDispatch, explicitInterface, unenforcedConstraint, methodMarkerAlone,
    typeNotPartial, ambiguousErasure, unresolvableErasure, ambiguousDefinition]

/-- The stable number of a rule. -/
def number : Rule → Nat
  | missingPredefinedType => 1
  | malformedMarker => 2
  | returnsByReference => 3
  | targetNameTaken => 4
  | malformedMethodMarker => 5
  | malformedMethodMarkerOption => 6
  | referenceParameter => 7
  | uninferableParameters => 8
  | pointerNeedsDispatch => 9
  | explicitInterface => 10
  | unenforcedConstraint => 11
  | methodMarkerAlone => 12
  | typeNotPartial => 13
  | ambiguousErasure => 14
  | unresolvableErasure => 15
  | ambiguousDefinition => 16

/-- A dropped constraint is a warning; everything else stops the method. -/
def severity : Rule → Severity
  | unenforcedConstraint => .warning
  | _ => .error

/-- The message of a rule, with slots for its arguments. -/
def template : Rule → String
  | missingPredefinedType => s!"Predefined type '{slot 0}' could not be found."
  | malformedMarker =>
    s!"Method '{slot 0}' has incorrectly used the {slot 1} attribute on type parameter '{slot 2}'."
  | returnsByReference =>
    s!"Method '{slot 0}' returns by reference, which is not supported for dynamic dispatch."
  | targetNameTaken =>
    s!"Method '{slot 0}' could not be referenced: the bridge target name '{slot 1}' is already " ++
      "in use."
  | malformedMethodMarker => s!"Method '{slot 0}' has incorrectly used the {slot 1} attribute."
  | malformedMethodMarkerOption => s!"Method '{slot 0}' has incorrectly used {slot 1}.{slot 2}."
  | referenceParameter =>
    s!"Method '{slot 0}' has a reference parameter '{slot 1}' that requires dynamic dispatch, " ++
      "which is not supported."
  | uninferableParameters =>
    s!"Method '{slot 0}' cannot be dynamically bridged because some type parameters could not " ++
      s!"be resolved at runtime: {slot 1}. The type parameters must appear in the method's " ++
      "parameter list in order to be inferable."
  | pointerNeedsDispatch =>
    s!"Pointer type '{slot 0}' in method '{slot 1}' cannot be used with dynamically bridged " ++
      "type parameters."
  | explicitInterface =>
    s!"Method '{slot 0}' is an explicit interface implementation, which is not supported as a " ++
      "dynamic bridge method."
  | unenforcedConstraint =>
    s!"Method '{slot 0}' has a dynamically bridged type parameter '{slot 1}' with the " ++
      s!"'{slot 2}' constraint. Language-specific constraints are not enforced by the runtime " ++
      "binder and are dropped."
  | methodMarkerAlone =>
    s!"Method '{slot 0}' has the {slot 1} attribute, but none of its type parameters are " ++
      s!"annotated with the {slot 2} attribute."
  | typeNotPartial =>
    s!"Type '{slot 0}' must be declared as partial to add dynamic bridge methods."
  | ambiguousErasure =>
    s!"Type '{slot 0}' in method '{slot 1}' has no single erasure: candidates are {slot 2}. " ++
      "Specify the erasure type explicitly on the type parameter."
  | unresolvableErasure =>
    s!"Type '{slot 0}' in method '{slot 1}' cannot be erased to a type that does not depend on " ++
      "dynamically bridged type parameters."
  | ambiguousDefinition =>
    s!"Method '{slot 0}' matches more than one partial definition named '{slot 1}': {slot 2}."

/-- The rule with a number. -/
def ofNumber? (number : Nat) : Option Rule := all.find? (·.number == number)

@[simp] theorem ofNumber?_number (r : Rule) : ofNumber? r.number = some r := by
  cases r <;> rfl

end Rule

/-! ## Diagnostics -/

/-- **A report** — a number, a severity, the message in full and the place it is about. -/
structure Diagnostic where
  code : Nat
  severity : Severity
  message : String
  location : Option Location
  deriving DecidableEq, Repr

namespace Diagnostic

/-- The report with a number: the rule's filled message, or an error that lists the arguments. -/
def ofCode (code : Nat) (args : List String) (location : Option Location) : Diagnostic :=
  match Rule.ofNumber? code with
  | some rule => ⟨code, rule.severity, fill rule.template args, location⟩
  | none => ⟨code, .error, " ".intercalate args, location⟩

/-- The report of a rule. -/
def ofRule (rule : Rule) (args : List String) (location : Option Location) : Diagnostic :=
  ⟨rule.number, rule.severity, fill rule.template args, location⟩

/-- Whether a report is an error. -/
def isError (d : Diagnostic) : Bool := d.severity == .error

/-- The identifier shown to users: three digits at least. -/
def id (d : Diagnostic) : String :=
  let digits := toString d.code
  "BRG" ++ String.ofList (List.replicate (3 - digits.length) '0') ++ digits

/-- The report on one line. -/
def text (d : Diagnostic) : String :=
  (match d.location with | some l => l.text ++ ": " | none => "") ++
    d.severity.word ++ " " ++ d.id ++ ": " ++ d.message

end Diagnostic

/-! ## Several reports -/

/-- Whether a list of reports holds an error. -/
def hasErrors (ds : List Diagnostic) : Bool := ds.any (·.isError)

/-- How many of the reports are errors. -/
def errorCount (ds : List Diagnostic) : Nat := ds.countP (·.isError)

/-- How many of the reports are warnings. -/
def warningCount (ds : List Diagnostic) : Nat := ds.countP (·.severity == .warning)

end LateBridge
