/-!
# Diagnostic/Location — a place in the host program's sources
-/

namespace LateBridge

/-- **A place in a source file**; lines and columns count from one. -/
structure Location where
  file : String
  line : Nat
  column : Nat
  deriving DecidableEq, Repr

/-- The place as `file(line,column)`. -/
def Location.text (l : Location) : String :=
  l.file ++ "(" ++ toString l.line ++ "," ++ toString l.column ++ ")"

end LateBridge
