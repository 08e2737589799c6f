/-!
# Text/Template — filling numbered slots

A template marks the place of its `i`-th argument by the number `i` in braces.  `fill` replaces the
slots of one argument after the other, so a slot that an earlier argument brings in is filled by a
later one.
-/

namespace LateBridge.Text

/-- The mark of the `i`-th argument. -/
def slot (i : Nat) : String := "\x7b" ++ toString i ++ "\x7d"

/-- Every occurrence of a pattern replaced, from left to right and without overlap; `skip` counts
the characters of the last occurrence still to be passed. -/
def replaceFrom (pattern replacement : List Char) : Nat → List Char → List Char
  | _, [] => []
  | skip + 1, _ :: rest => replaceFrom pattern replacement skip rest
  | 0, c :: rest =>
    if pattern.isPrefixOf (c :: rest) then
      replacement ++ replaceFrom pattern replacement (pattern.length - 1) rest
    else c :: replaceFrom pattern replacement 0 rest

/-- Every occurrence of a pattern replaced. -/
def replaceAll (text pattern replacement : String) : String :=
  String.ofList (replaceFrom pattern.toList replacement.toList 0 text.toList)

/-- The slots from `first` on replaced, one argument after the other. -/
def fillFrom (template : String) (first : Nat) : List String → String
  | [] => template
  | arg :: rest => fillFrom (replaceAll template (slot first) arg) (first + 1) rest

/-- **Filling a template** with its arguments. -/
def fill (template : String) (args : List String) : String := fillFrom template 0 args

end LateBridge.Text
