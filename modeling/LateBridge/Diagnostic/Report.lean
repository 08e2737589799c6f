import LateBridge.Diagnostic.Basic

/-!
# Diagnostic/Report — reports for a reader at a terminal

One line for each report, with its place in front, and one closing line that counts them.  Colour
is a matter of paint: `Paint` wraps a text in an escape sequence or leaves it alone.
-/

namespace LateBridge

/-- The colours of a report. -/
inductive Colour where
  | cyan
  | brightBlue
  | boldRed
  | boldYellow
  deriving DecidableEq, Repr

/-- The parameters of the escape sequence that starts a colour. -/
def Colour.code : Colour → String
  | .cyan => "36"
  | .brightBlue => "94"
  | .boldRed => "1;31"
  | .boldYellow => "1;33"

/-- The escape sequence that starts a colour. -/
def Colour.start (c : Colour) : String := "\x1b[" ++ c.code ++ "m"

/-- The escape sequence that ends every colour. -/
def Colour.reset : String := "\x1b[0m"

/-- **A reporter** paints or does not. -/
structure Reporter where
  colour : Bool

namespace Reporter

/-- The text in a colour, if there is paint; a reset inside the text does not end it. -/
def paint (r : Reporter) (c : Colour) (text : String) : String :=
  if r.colour then
    c.start ++ Text.replaceAll text Colour.reset (Colour.reset ++ c.start) ++ Colour.reset
  else text

/-- The place of a report, in the form editors jump to. -/
def place (r : Reporter) : Option Location → String
  | some l => r.paint .cyan (l.file ++ ":" ++ toString l.line ++ ":" ++ toString l.column)
  | none => "<generator>"

/-- The colour of a severity. -/
def severityColour : Severity → Colour
  | .error => .boldRed
  | .warning => .boldYellow

/-- One report. -/
def line (r : Reporter) (d : Diagnostic) : String :=
  r.place d.location ++ " - " ++ r.paint (severityColour d.severity) d.severity.word ++ " " ++
    r.paint .brightBlue d.id ++ ": " ++ d.message

/-- **All reports**, a line each. -/
def render (r : Reporter) (ds : List Diagnostic) : String := "\n".intercalate (ds.map r.line)

/-- A number of things, with the plural where it is due. -/
def counted (n : Nat) (what : String) : String :=
  toString n ++ " " ++ what ++ (if n == 1 then "" else "s")

/-- **The closing line**, if there is anything to count. -/
def summary (r : Reporter) (errors warnings : Nat) : Option String :=
  let found := match errors, warnings with
    | 0, 0 => none
    | e, 0 => some (counted e "error")
    | 0, w => some (counted w "warning")
    | e, w => some (counted e "error" ++ " and " ++ counted w "warning")
  found.map fun what =>
    let text := "Found " ++ what ++ "."
    if errors > 0 then r.paint .boldRed text else text

end Reporter

end LateBridge
