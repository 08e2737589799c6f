import LateBridge.Diagnostic.Basic
import LateBridge.Symbols.Graph

/-!
# Symbols/WellKnown — the types the generator refers to by name

Seven types have to be there for anything to be generated; the others only enable further output:
asynchronous wrappers and the attributes that hide what is generated.
-/

namespace LateBridge

/-- **The well-known types of a graph.** -/
structure WellKnown where
  object : Ty
  valueType : Ty
  array : Ty
  string : Ty
  boolean : Ty
  argumentException : Ty
  binderException : Ty
  task? : Option Ty
  valueTask? : Option Ty
  genericTask? : Option DeclName
  genericValueTask? : Option DeclName
  editorBrowsable? : Option Ty
  /-- Only if the enumeration declares the member that hides. -/
  editorBrowsableState? : Option Ty
  debuggerHidden? : Option Ty
  deriving Inhabited

namespace WellKnown

/-- The namespace of tasks. -/
def taskSpace : String := "System.Threading.Tasks."

/-- A type that has to be there. -/
def required (g : Graph) (name : String) : Except Diagnostic Ty :=
  match g.find? name with
  | some d => .ok (Ty.plain d.name)
  | none => .error (.ofRule .missingPredefinedType [name] none)

/-- A type that may be there. -/
def optional? (g : Graph) (name : String) : Option Ty :=
  (g.find? name).map fun d => Ty.plain d.name

/-- Whether a declaration is an enumeration with a member. -/
def isEnumWith (member : String) (d : TypeDecl) : Bool :=
  d.kind == .enum && d.members.contains member

/-- **Looking up the well-known types**; the first one that is missing is reported. -/
def resolve (g : Graph) : Except Diagnostic WellKnown := do
  let object ← required g "System.Object"
  let valueType ← required g "System.ValueType"
  let array ← required g "System.Array"
  let string ← required g "System.String"
  let boolean ← required g "System.Boolean"
  let argumentException ← required g "System.ArgumentException"
  let binderException ← required g "Microsoft.CSharp.RuntimeBinder.RuntimeBinderException"
  return { object, valueType, array, string, boolean, argumentException, binderException
           task? := optional? g (taskSpace ++ "Task")
           valueTask? := optional? g (taskSpace ++ "ValueTask")
           genericTask? := (g.find? (taskSpace ++ "Task`1")).map (·.name)
           genericValueTask? := (g.find? (taskSpace ++ "ValueTask`1")).map (·.name)
           editorBrowsable? := optional? g "System.ComponentModel.EditorBrowsableAttribute"
           editorBrowsableState? :=
            ((g.find? "System.ComponentModel.EditorBrowsableState").filter
              (isEnumWith "Never")).map fun d => Ty.plain d.name
           debuggerHidden? := optional? g "System.Diagnostics.DebuggerNonUserCodeAttribute" }

/-- Whether awaiting a type gives no value. -/
def isPlainAwaitable (k : WellKnown) (t : Ty) : Bool := some t == k.task? || some t == k.valueTask?

/-- Whether awaiting a type with this declaration gives the value of its argument. -/
def isGenericAwaitable (k : WellKnown) (n : DeclName) : Bool :=
  some n == k.genericTask? || some n == k.genericValueTask?

end WellKnown

end LateBridge
