import LateBridge.Symbols.Decl

/-!
# Source/DocId — documentation ids of methods

An id names a method by its declaring type, its name, its arity and the types of its parameters.
Type parameters are known by their number: one backtick before those of the enclosing types,
outermost first, two before those of the method.
-/

namespace LateBridge

/-- Braces around arguments. -/
def braced : DeclName.Brackets := ⟨"\x7b", ",", "\x7d"⟩

/-- The number of a type variable with its backticks. -/
def TypeVar.docId (v : TypeVar) : String :=
  match v.owner with
  | .type n => "`" ++ toString (n.totalArity - n.arity + v.index)
  | .method _ => "``" ++ toString v.ordinal

/-- The bounds of an array of a rank. -/
def boundsText (rank : Nat) : String :=
  if rank == 1 then "[]" else "[" ++ ",".intercalate (List.replicate rank "0:") ++ "]"

namespace Ty

mutual

/-- **A type inside a documentation id.** -/
def docId : Ty → String
  | .named n args => n.spell braced (docIdList args)
  | .array element rank => element.docId ++ boundsText rank
  | .var v => v.docId
  | .pointer target => target.docId ++ "*"
  | .fnptr params ret => "=FUNC:" ++ ret.docId ++ "(" ++ ",".intercalate (docIdList params) ++ ")"
  | .void => "System.Void"
  | .dynamic | .error => "System.Object"

/-- Several types. -/
def docIdList : List Ty → List String
  | [] => []
  | t :: ts => t.docId :: docIdList ts

end

end Ty

namespace Method

/-- The parameter types with an at sign after those passed by reference. -/
def docIdParams (m : Method) : List String :=
  m.params.map fun p => p.type.docId ++ (if p.refKind == .none then "" else "@")

/-- **The id of a method under another name**, without its declaring type. -/
def memberDocId (m : Method) (name : String) : String :=
  name ++ DeclName.aritySuffix "``" m.arity ++
    (if m.params.isEmpty then "" else "(" ++ ",".intercalate m.docIdParams ++ ")")

/-- **The id of a method.** -/
def docId (m : Method) : String := "M:" ++ m.declaring.dotted ++ "." ++ m.memberDocId m.name

end Method

end LateBridge
