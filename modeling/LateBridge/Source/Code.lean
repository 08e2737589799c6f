import LateBridge.Source.Writer

/-!
# Source/Code — lines and blocks of generated source

Code is a tree: a block stands between braces and one level deeper.  Braces therefore match by
construction, and writing a piece of code ends on the level it began on.
-/

namespace LateBridge

/-- **Generated code.** -/
inductive Code where
  | line (text : String)
  | blank
  /-- A line one level deeper, such as a clause that continues a header. -/
  | clause (text : String)
  | block (body : List Code)
  deriving Repr, Inhabited

namespace Code

mutual

/-- What a writer is asked to do for a piece of code. -/
def ops : Code → List WriterOp
  | .line text => [.line text]
  | .blank => [.blank]
  | .clause text => [.indent, .line text, .dedent]
  | .block body => .openBlock :: (opsList body ++ [.closeBlock])

/-- What a writer is asked to do for several pieces. -/
def opsList : List Code → List WriterOp
  | [] => []
  | code :: rest => code.ops ++ opsList rest

end

/-- Pieces of code with a blank line between them. -/
def spaced : List (List Code) → List Code
  | [] => []
  | [code] => code
  | code :: rest => code ++ .blank :: spaced rest

/-- **The text of a file** with a number of spaces for each level. -/
def render (spaces : Nat) (file : List Code) : String :=
  ((SourceWriter.new spaces).run (opsList file)).output

end Code

end LateBridge
