import LateBridge.Symbols.Display

/-!
# Source/TypeText — types as generated source spells them

Generated code has to mean the same wherever it is inserted, so every named type is spelled from the
global namespace, except for the special types, which are their keywords.  The ranks of nested
arrays follow the innermost element, outermost first.
-/

namespace LateBridge

namespace Ty

mutual

/-- The spelling of a type in two parts: its element, and the ranks of the arrays around it. -/
def sourceParts : Ty → String × String
  | .named n args =>
    (match n.special?.bind Special.keyword? with
    | some word => (word, "")
    | none => ("global::" ++ n.spell angled (sourceList args), ""))
  | .array element rank =>
    match element.sourceParts with
    | (core, ranks) => (core, rankText rank ++ ranks)
  | .var v => (v.name, "")
  | .pointer target =>
    match target.sourceParts with
    | (core, ranks) => (core ++ ranks ++ "*", "")
  | .fnptr params ret =>
    match ret.sourceParts with
    | (core, ranks) =>
      ("delegate*<" ++ ", ".intercalate (sourceList params ++ [core ++ ranks]) ++ ">", "")
  | .void => ("void", "")
  | .dynamic => ("dynamic", "")
  | .error => ("object", "")

/-- The spellings of several types. -/
def sourceList : List Ty → List String
  | [] => []
  | t :: ts =>
    match t.sourceParts with
    | (core, ranks) => (core ++ ranks) :: sourceList ts

end

/-- **The spelling of a type.** -/
def source (t : Ty) : String := t.sourceParts.1 ++ t.sourceParts.2

/-- **The spelling of a type without its arguments**, for a run-time type query; only named types
have one. -/
def unboundSource? : Ty → Option String
  | .named n _ =>
    match n.special?.bind Special.keyword? with
    | some word => some word
    | none => some ("global::" ++ n.spell ⟨"<", ",", ">"⟩ (List.replicate n.totalArity ""))
  | _ => none

end Ty

/-- **The header of a repeated declaration**: kind, name and type parameters with variance. -/
def TypeDecl.header (d : TypeDecl) : String :=
  d.kind.keyword ++ " " ++ d.name.simple ++
    angledNames (d.typeParams.map fun p => p.variance.lead ++ p.var.name)

end LateBridge
