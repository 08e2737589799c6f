import LateBridge.Symbols.Decl

/-!
# Symbols/Display — names for a human reader

Types are written as in a compiler's messages: qualified by namespace, keywords for the special
types, array ranks outermost first.
-/

namespace LateBridge

/-- The rank specifier of an array. -/
def rankText (rank : Nat) : String := "[" ++ String.ofList (List.replicate (rank - 1) ',') ++ "]"

/-- Angle brackets around arguments. -/
def angled : DeclName.Brackets := ⟨"<", ", ", ">"⟩

namespace Ty

mutual

/-- The display name with a suffix; ranks gather in the suffix, outermost first. -/
def displayAfter (suffix : String) : Ty → String
  | .named n args =>
    (match n.special?.bind Special.keyword? with
    | some word => word
    | none => n.spell angled (displayList args)) ++ suffix
  | .array element rank => element.displayAfter (suffix ++ rankText rank)
  | .var v => v.name ++ suffix
  | .pointer target => target.displayAfter "" ++ "*" ++ suffix
  | .fnptr params ret =>
    "delegate*<" ++ String.join ((displayList params).map (· ++ ", ")) ++ ret.displayAfter "" ++
      ">" ++ suffix
  | .void => "void" ++ suffix
  | .dynamic => "dynamic" ++ suffix
  | .error => "?" ++ suffix

/-- The display names of several types. -/
def displayList : List Ty → List String
  | [] => []
  | t :: ts => t.displayAfter "" :: displayList ts

end

/-- **The display name of a type.** -/
def display (t : Ty) : String := t.displayAfter ""

end Ty

/-- The display name of a declaration, over its own parameters. -/
def DeclName.display (n : DeclName) : String := n.declared.display

/-- Names between angle brackets, if there are any. -/
def angledNames (names : List String) : String :=
  if names.isEmpty then "" else "<" ++ ", ".intercalate names ++ ">"

namespace Method

/-- The parameter list of a display name; the first parameter of an extension is marked. -/
def displayParams (m : Method) : List String :=
  m.params.zipIdx.map fun (p, i) =>
    (if i == 0 && m.flags.isExtension then "this " else "") ++ p.refKind.lead ++ p.type.display

/-- **The display name of a method**: declaring type, name, type parameters, parameter types. -/
def display (m : Method) : String :=
  m.declaring.display ++ "." ++ m.name ++ angledNames (m.vars.map (·.name)) ++
    "(" ++ ", ".intercalate m.displayParams ++ ")"

end Method

end LateBridge
