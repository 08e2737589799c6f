import LateBridge.Text.CharClass

/-!
# CommandLine/LogFormat — how log output is shaped
-/

namespace LateBridge

/-- **The shapes of log output.** -/
inductive LogFormat where
  | text
  | tree
  | json
  deriving DecidableEq, Repr

/-- The shape a word asks for; anything unknown is plain text. -/
def LogFormat.ofText (text : String) : LogFormat :=
  match Text.lowerAscii (Text.trim text) with
  | "tree" => .tree
  | "json" => .json
  | _ => .text

/-- The name of a shape. -/
def LogFormat.name : LogFormat → String
  | .text => "Text"
  | .tree => "Tree"
  | .json => "Json"

end LateBridge
