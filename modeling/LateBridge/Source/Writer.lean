/-!
# Source/Writer — text under indentation

A writer puts the indent in front of the first text of each line, so a line without text stays
empty.  What is asked of it is a list of operations, run one after the other.
-/

namespace LateBridge

/-- **A writer**: the text so far, what one level of indentation is, the level, and whether the
current line is still without text. -/
structure SourceWriter where
  output : String
  unit : String
  level : Nat
  atLineStart : Bool
  deriving DecidableEq, Repr

/-- **What a writer can be asked to do.** -/
inductive WriterOp where
  /-- Text on the current line. -/
  | write (text : String)
  /-- One character on the current line. -/
  | char (c : Char)
  /-- The end of the current line. -/
  | newline
  /-- Text and the end of its line. -/
  | line (text : String)
  /-- An empty line, after the end of an unfinished one. -/
  | blank
  /-- Texts with a separator between them. -/
  | joined (separator : String) (items : List String)
  /-- One level more. -/
  | indent
  /-- One level less, if there is one. -/
  | dedent
  /-- A line with an opening brace, and one level more. -/
  | openBlock
  /-- One level less, and a line with a closing brace. -/
  | closeBlock
  deriving DecidableEq, Repr

namespace SourceWriter

/-- An empty writer with a number of spaces for each level; none stands for a tab. -/
def new (spaces : Nat) : SourceWriter :=
  { output := "", unit := if spaces == 0 then "\t" else String.ofList (List.replicate spaces ' ')
    level := 0, atLineStart := true }

/-- The whole indent of a line. -/
def lead (w : SourceWriter) : String := String.join (List.replicate w.level w.unit)

/-- The indent, if the line is still without text. -/
def indentLine (w : SourceWriter) : SourceWriter :=
  if w.atLineStart then { w with output := w.output ++ w.lead, atLineStart := false } else w

/-- Text on the current line; an empty text does not start it. -/
def write (w : SourceWriter) (text : String) : SourceWriter :=
  if text.isEmpty then w
  else
    let w := w.indentLine
    { w with output := w.output ++ text }

/-- The end of the current line. -/
def newline (w : SourceWriter) : SourceWriter :=
  { w with output := w.output ++ "\n", atLineStart := true }

/-- Text and the end of its line. -/
def line (w : SourceWriter) (text : String) : SourceWriter := (w.write text).newline

/-- One level more. -/
def indent (w : SourceWriter) : SourceWriter := { w with level := w.level + 1 }

/-- One level less, if there is one. -/
def dedent (w : SourceWriter) : SourceWriter := { w with level := w.level - 1 }

/-- Texts with a separator in front of each. -/
def writeAfter (separator : String) : SourceWriter → List String → SourceWriter
  | w, [] => w
  | w, item :: items => writeAfter separator ((w.write separator).write item) items

/-- **One operation.** -/
def step (w : SourceWriter) : WriterOp → SourceWriter
  | .write text => w.write text
  | .char c => w.write c.toString
  | .newline => w.newline
  | .line text => w.line text
  | .blank => if w.atLineStart then w.newline else w.newline.newline
  | .joined _ [] => w
  | .joined separator (item :: items) => writeAfter separator (w.write item) items
  | .indent => w.indent
  | .dedent => w.dedent
  | .openBlock => (w.line "\x7b").indent
  | .closeBlock => w.dedent.line "\x7d"

/-- **Several operations**, one after the other. -/
def run (w : SourceWriter) (ops : List WriterOp) : SourceWriter := ops.foldl step w

@[simp] theorem run_nil (w : SourceWriter) : w.run [] = w := rfl

@[simp] theorem run_cons (w : SourceWriter) (op : WriterOp) (ops : List WriterOp) :
    w.run (op :: ops) = (w.step op).run ops := rfl

theorem run_append (w : SourceWriter) (as bs : List WriterOp) :
    w.run (as ++ bs) = (w.run as).run bs := List.foldl_append

end SourceWriter

end LateBridge
