import LateBridge.Syntax.TypeSyntax
import LateBridge.Text.CharClass

/-!
# Syntax/TypeReader — reading a type reference

A recursive reader over the characters of a text.  A step hands on what is left, and a failure
keeps what was left when it happened, so that the offset of an error is the length of the text less
that of the rest.

Types nest at most `maxNesting` deep: `typeAt` recurses on the depth still allowed.  A run of rank
specifiers names the outermost array first; a `?` or `*` ends the run.
-/

namespace LateBridge.TypeReader

open Text (isBlank isNameChar isAsciiDigit skipBlanks)

/-! ## Steps -/

/-- **Why reading fails.** -/
inductive Reason where
  | identifier
  | tooDeep
  | rankTooLarge
  | rankUnclosed
  | delegateStar
  | conventionUnclosed
  | functionOpen
  | argumentsUnclosed
  | returnMissing
  | trailing
  deriving DecidableEq, Repr

/-- The words for a reason. -/
def Reason.text : Reason → String
  | .identifier => "expected identifier"
  | .tooDeep => "type nesting too deep"
  | .rankTooLarge => "array rank too large"
  | .rankUnclosed => "expected ']'"
  | .delegateStar => "expected '*' after 'delegate'"
  | .conventionUnclosed => "unterminated calling convention"
  | .functionOpen => "expected '<' in function pointer type"
  | .argumentsUnclosed => "unterminated type argument list"
  | .returnMissing => "function pointer needs a return type"
  | .trailing => "unexpected trailing characters"

/-- A failure: the reason and what was left of the text. -/
structure Failure where
  reason : Reason
  rest : List Char
  deriving DecidableEq, Repr

/-- A step: a value and the text after it, or a failure. -/
abbrev Step (α : Type) := Except Failure (α × List Char)

/-- The text after an expected character and the blanks before it. -/
def expect (c : Char) (reason : Reason) (cs : List Char) : Except Failure (List Char) :=
  match skipBlanks cs with
  | d :: rest => if d == c then .ok rest else .error ⟨reason, d :: rest⟩
  | [] => .error ⟨reason, []⟩

/-- The text after a word it starts with. -/
def afterPrefix? : List Char → List Char → Option (List Char)
  | [], rest => some rest
  | w :: ws, c :: cs => if w == c then afterPrefix? ws cs else none
  | _ :: _, [] => none

/-- The text after a word that stands alone at its front, blanks before it skipped. -/
def afterWord? (word : String) (cs : List Char) : Option (List Char) :=
  match afterPrefix? word.toList (skipBlanks cs) with
  | some [] => some []
  | some (c :: rest) => if isNameChar c then none else some (c :: rest)
  | none => none

/-- **An identifier** — name characters that do not start with an ASCII digit, with an optional `@`
in front that does not belong to the name. -/
def identifier (cs : List Char) : Step String :=
  let start := skipBlanks cs
  let body := match start with
    | '@' :: rest => rest
    | cs => cs
  match body.takeWhile isNameChar with
  | [] => .error ⟨.identifier, start⟩
  | c :: name =>
    if isAsciiDigit c then .error ⟨.identifier, start⟩
    else .ok (String.ofList (c :: name), body.dropWhile isNameChar)

/-! ## Ranks -/

/-- The greatest rank of an array. -/
def maxRank : Nat := 255

/-- The rest of a rank specifier after its opening bracket, when `rank - 1` commas are read. -/
def rankFrom (rank : Nat) : List Char → Step Nat
  | [] => .error ⟨.rankUnclosed, []⟩
  | c :: rest =>
    if isBlank c then rankFrom rank rest
    else if c == ',' then
      if rank < maxRank then rankFrom (rank + 1) rest else .error ⟨.rankTooLarge, rest⟩
    else if c == ']' then .ok (rank, rest)
    else .error ⟨.rankUnclosed, c :: rest⟩

/-- The rank specifiers that follow each other, in order; `fuel` bounds their number. -/
def rankRun : Nat → List Char → Step (List Nat)
  | 0, cs => .ok ([], cs)
  | fuel + 1, cs =>
    match skipBlanks cs with
    | '[' :: rest =>
      match rankFrom 1 rest with
      | .error e => .error e
      | .ok (rank, rest) =>
        match rankRun fuel rest with
        | .error e => .error e
        | .ok (ranks, rest) => .ok (rank :: ranks, rest)
    | rest => .ok ([], rest)

/-- The suffixes of a type and the type they make; `fuel` bounds their number. -/
def suffixes : Nat → TypeSyntax → List Char → Step TypeSyntax
  | 0, type, cs => .ok (type, cs)
  | fuel + 1, type, cs =>
    match skipBlanks cs with
    | '?' :: rest => suffixes fuel (.nullable type) rest
    | '*' :: rest => suffixes fuel (.pointer type) rest
    | '[' :: rest =>
      match rankRun (rest.length + 1) ('[' :: rest) with
      | .error e => .error e
      | .ok (ranks, rest) => suffixes fuel (type.arrays ranks) rest
    | rest => .ok (type, rest)

/-! ## Primaries -/

/-- The text after a calling convention's closing bracket. -/
def conventionEnd : List Char → Except Failure (List Char)
  | [] => .error ⟨.conventionUnclosed, []⟩
  | c :: rest => if c == ']' then .ok rest else conventionEnd rest

/-- The text after an optional calling convention, which has no part in the type. -/
def convention (cs : List Char) : Except Failure (List Char) :=
  match (afterWord? "managed" cs).or (afterWord? "unmanaged" cs) with
  | none => .ok cs
  | some rest =>
    match skipBlanks rest with
    | '[' :: inner => conventionEnd inner
    | rest => .ok rest

/-- Types separated by commas up to a closing bracket; `typeOf` reads one and `fuel` bounds their
number. -/
def typeList (typeOf : List Char → Step TypeSyntax) : Nat → List Char → Step (List TypeSyntax)
  | 0, cs => .error ⟨.argumentsUnclosed, cs⟩
  | fuel + 1, cs =>
    match typeOf cs with
    | .error e => .error e
    | .ok (type, rest) =>
      match skipBlanks rest with
      | ',' :: rest =>
        match typeList typeOf fuel rest with
        | .error e => .error e
        | .ok (types, rest) => .ok (type :: types, rest)
      | '>' :: rest => .ok ([type], rest)
      | rest => .error ⟨.argumentsUnclosed, rest⟩

/-- Type arguments, if an opening bracket follows. -/
def arguments (typeOf : List Char → Step TypeSyntax) (cs : List Char) : Step (List TypeSyntax) :=
  match skipBlanks cs with
  | '<' :: rest => typeList typeOf (rest.length + 1) rest
  | rest => .ok ([], rest)

/-- The dotted segments of a name; `fuel` bounds their number. -/
def segments (typeOf : List Char → Step TypeSyntax) :
    Nat → List Char → Step (List (Segment TypeSyntax))
  | 0, cs => .error ⟨.identifier, cs⟩
  | fuel + 1, cs =>
    match identifier cs with
    | .error e => .error e
    | .ok (name, rest) =>
      match arguments typeOf rest with
      | .error e => .error e
      | .ok (args, rest) =>
        match skipBlanks rest with
        | '.' :: rest =>
          match segments typeOf fuel rest with
          | .error e => .error e
          | .ok (more, rest) => .ok (⟨name, args⟩ :: more, rest)
        | rest => .ok ([⟨name, args⟩], rest)

/-- A function pointer after the word that opens it. -/
def functionPointer (typeOf : List Char → Step TypeSyntax) (cs : List Char) :
    Except Failure (TypeSyntax × List Char) := do
  let cs ← expect '*' .delegateStar cs
  let cs ← convention cs
  let cs ← expect '<' .functionOpen cs
  let (types, rest) ← typeList typeOf (cs.length + 1) cs
  match types.getLast? with
  | none => .error ⟨.returnMissing, rest⟩
  | some ret => .ok (.fnptr types.dropLast ret, rest)

/-- A type without its suffixes. -/
def primary (typeOf : List Char → Step TypeSyntax) (cs : List Char) : Step TypeSyntax :=
  match afterWord? "delegate" cs with
  | some rest => functionPointer typeOf rest
  | none =>
    let start := skipBlanks cs
    let (rooted, rest) := match afterPrefix? "global::".toList start with
      | some rest => (true, rest)
      | none => (false, start)
    match segments typeOf (rest.length + 1) rest with
    | .error e => .error e
    | .ok (parts, rest) => .ok (.name rooted parts, rest)

/-! ## Types -/

/-- The greatest number of types around each other. -/
def maxNesting : Nat := 128

/-- A type, with `depth` levels of nesting still allowed. -/
def typeAt : Nat → List Char → Step TypeSyntax
  | 0, cs => .error ⟨.tooDeep, cs⟩
  | depth + 1, cs =>
    match primary (typeAt depth) cs with
    | .error e => .error e
    | .ok (type, rest) => suffixes (rest.length + 1) type rest

/-- The number of bytes of a text. -/
def byteLength (cs : List Char) : Nat := cs.foldr (·.utf8Size + ·) 0

/-- A whole text as a type. -/
def whole (cs : List Char) : Except Failure TypeSyntax :=
  match typeAt maxNesting cs with
  | .error e => .error e
  | .ok (type, rest) =>
    match skipBlanks rest with
    | [] => .ok type
    | rest => .error ⟨.trailing, rest⟩

end TypeReader

/-- **Reading a type reference** — the tree of a text, or where and why it is none. -/
def TypeSyntax.read (text : String) : Except SyntaxError TypeSyntax :=
  match TypeReader.whole text.toList with
  | .ok type => .ok type
  | .error e =>
    .error ⟨text, text.utf8ByteSize - TypeReader.byteLength e.rest, e.reason.text⟩

end LateBridge
