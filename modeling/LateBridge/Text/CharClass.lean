import LateBridge.Text.Letters

/-!
# Text/CharClass — the character classes that names, blanks and literals are read by

Classes of whole Unicode, each with an answer for the ASCII half that needs no table.  A name
character is a letter, a numeral or an underscore; a blank is a character of the property
White_Space; a control character is one of the category Cc.
-/

namespace LateBridge.Text

/-! ## Classes -/

/-- **Blank** — a character with the property White_Space. -/
def isBlank (c : Char) : Bool :=
  let n := c.toNat
  (9 ≤ n && n ≤ 13) || n == 0x20 || n == 0x85 || n == 0xA0 || n == 0x1680 ||
    (0x2000 ≤ n && n ≤ 0x200A) || n == 0x2028 || n == 0x2029 || n == 0x202F || n == 0x205F ||
    n == 0x3000

/-- **Control character** — the category Cc. -/
def isControl (c : Char) : Bool :=
  let n := c.toNat
  n < 0x20 || (0x7F ≤ n && n ≤ 0x9F)

/-- An ASCII digit. -/
def isAsciiDigit (c : Char) : Bool := '0' ≤ c && c ≤ '9'

/-- An ASCII letter. -/
def isAsciiLetter (c : Char) : Bool := ('a' ≤ c && c ≤ 'z') || ('A' ≤ c && c ≤ 'Z')

/-- **Letter** — the property Alphabetic. -/
def isLetter (c : Char) : Bool :=
  let n := c.toNat
  if n < 0x80 then isAsciiLetter c
  else if n < 0x2000 then inRanges n lowLetters
  else if n < 0x10000 then inRanges n middleLetters
  else inRanges n highLetters

/-- **Numeral** — the categories Nd, Nl and No. -/
def isNumeral (c : Char) : Bool :=
  let n := c.toNat
  if n < 0x80 then isAsciiDigit c else inRanges n numerals

/-- A letter or a numeral. -/
def isAlphanumeric (c : Char) : Bool := isLetter c || isNumeral c

/-- A character that may stand inside a name. -/
def isNameChar (c : Char) : Bool := isAlphanumeric c || c == '_'

/-! ## Blanks around and between words -/

/-- The text without the blanks at its front. -/
def skipBlanks (cs : List Char) : List Char := cs.dropWhile isBlank

/-- The text without the blanks at both ends. -/
def trim (s : String) : String :=
  String.ofList (skipBlanks (skipBlanks s.toList).reverse).reverse

/-- The maximal runs of characters that are not blank, with `run` the reversed run under way. -/
def wordsFrom (run : List Char) : List Char → List String
  | [] => if run.isEmpty then [] else [String.ofList run.reverse]
  | c :: rest =>
    if isBlank c then
      if run.isEmpty then wordsFrom [] rest
      else String.ofList run.reverse :: wordsFrom [] rest
    else wordsFrom (c :: run) rest

/-- **The words of a text** — its maximal runs of characters that are not blank. -/
def words (s : String) : List String := wordsFrom [] s.toList

/-- ASCII capitals replaced by small letters.  The words that are compared without regard to case
hold small ASCII letters only, and no other character has such a letter for its small form except
the Kelvin sign, whose `k` none of them holds. -/
def lowerAscii (s : String) : String := s.map Char.toLower

/-! ## Identifiers -/

/-- **Identifier** — an optional `@`, then a letter or underscore, then name characters. -/
def isIdentifier (s : String) : Bool :=
  let body := match s.toList with
    | '@' :: rest => rest
    | cs => cs
  match body with
  | [] => false
  | c :: rest => (isLetter c || c == '_') && rest.all isNameChar

end LateBridge.Text
