import LateBridge.Syntax.TypeReader

/-!
# Proofs/Syntax/Grammar — what a type reference may look like

    text ──blanks between tokens──▸ tokens ──productions──▸ tree

The grammar says nothing of how a text is read.  `Spells` cuts a text into tokens, with blanks
wherever a token may start; the productions derive a tree from tokens.  They are written over the
types one level further in, so that `IsType` counts the types around each other.

The one thing that is not context-free is the order of ranks: adjacent rank specifiers form a run
that names the outermost array first, and `?` or `*` ends the run (`TypeSyntax.suffixed`).
-/

namespace LateBridge

/-! ## Tokens -/

/-- **A name**: name characters of which the first is no ASCII digit. -/
def Text.isName (name : String) : Bool :=
  match name.toList with
  | [] => false
  | c :: cs => !isAsciiDigit c && (c :: cs).all isNameChar

/-- **The tokens of a type reference.** -/
inductive TypeToken where
  /-- A keyword or a name. -/
  | word (name : String)
  /-- A name after an `@`. -/
  | escaped (name : String)
  /-- The global namespace. -/
  | root
  | mark (c : Char)
  /-- What stands in brackets behind a calling convention. -/
  | convention (text : List Char)
  deriving DecidableEq, Repr

namespace TypeToken

/-- How a token is written. -/
def chars : TypeToken → List Char
  | word name => name.toList
  | escaped name => '@' :: name.toList
  | root => "global::".toList
  | mark c => [c]
  | convention text => '[' :: text ++ [']']

@[simp] theorem chars_word (name : String) : (word name).chars = name.toList := rfl
@[simp] theorem chars_escaped (name : String) : (escaped name).chars = '@' :: name.toList := rfl
@[simp] theorem chars_root : root.chars = "global::".toList := rfl
@[simp] theorem chars_mark (c : Char) : (mark c).chars = [c] := rfl
@[simp] theorem chars_convention (text : List Char) :
    (convention text).chars = '[' :: text ++ [']'] := rfl

/-- Whether a token may end before a text: names are as long as they can be. -/
def EndsBefore (rest : List Char) : TypeToken → Prop
  | word _ | escaped _ => ∀ c ∈ rest.head?, Text.isNameChar c = false
  | root | mark _ | convention _ => True

/-- A token that no blank is part of the front of. -/
def Proper : TypeToken → Prop
  | word name | escaped name => Text.isName name = true
  | mark c => Text.isBlank c = false
  | root | convention _ => True

end TypeToken

/-- **A text spells tokens before a rest**, with blanks before each token and before the rest. -/
def Spells : List TypeToken → List Char → List Char → Prop
  | [], cs, rest => Text.skipBlanks cs = Text.skipBlanks rest
  | token :: tokens, cs, rest => ∃ mid, Text.skipBlanks cs = token.chars ++ mid ∧
      token.EndsBefore mid ∧ Spells tokens mid rest

/-! ## Suffixes -/

/-- **What may follow a type.** -/
inductive TypeSuffix where
  | nullable
  | pointer
  | rank (rank : Nat)
  deriving DecidableEq, Repr

namespace TypeSuffix

/-- A rank specifier has a comma less than its rank. -/
def tokens : TypeSuffix → List TypeToken
  | nullable => [.mark '?']
  | pointer => [.mark '*']
  | rank r => .mark '[' :: (List.replicate (r - 1) (.mark ',') ++ [.mark ']'])

/-- Ranks are from 1 to the greatest. -/
def InRange : TypeSuffix → Prop
  | nullable | pointer => True
  | rank r => 1 ≤ r ∧ r ≤ TypeReader.maxRank

end TypeSuffix

namespace TypeSyntax

/-- The tree of a type with suffixes, after a run of ranks. -/
def suffixedFrom (run : List Nat) (base : TypeSyntax) : List TypeSuffix → TypeSyntax
  | [] => base.arrays run
  | .nullable :: suffixes => suffixedFrom [] (.nullable (base.arrays run)) suffixes
  | .pointer :: suffixes => suffixedFrom [] (.pointer (base.arrays run)) suffixes
  | .rank rank :: suffixes => suffixedFrom (run ++ [rank]) base suffixes

/-- **The tree of a type with suffixes**: each longest run of ranks is an array of arrays, the first
rank outermost. -/
def suffixed (base : TypeSyntax) (suffixes : List TypeSuffix) : TypeSyntax :=
  suffixedFrom [] base suffixes

end TypeSyntax

/-! ## Productions

`T` derives the types one level further in. -/

namespace TypeGrammar

/-- A token for a name. -/
def Identifier (token : TypeToken) (name : String) : Prop :=
  Text.isName name = true ∧ (token = .word name ∨ token = .escaped name)

/-- A calling convention, with or without names in brackets. -/
inductive Convention : List TypeToken → Prop where
  | absent : Convention []
  | word {w : String} (h : w = "managed" ∨ w = "unmanaged") : Convention [.word w]
  | named {w : String} {text : List Char} (h : w = "managed" ∨ w = "unmanaged")
      (closed : ']' ∉ text) : Convention [.word w, .convention text]

section

variable (T : List TypeToken → TypeSyntax → Prop)

/-- One type or several with commas between them. -/
inductive Types : List TypeToken → List TypeSyntax → Prop where
  | one {tokens : List TypeToken} {type : TypeSyntax} (h : T tokens type) : Types tokens [type]
  | cons {tokens more : List TypeToken} {type : TypeSyntax} {types : List TypeSyntax}
      (h : T tokens type) (hs : Types more types) :
      Types (tokens ++ .mark ',' :: more) (type :: types)

/-- No type arguments or types in angle brackets. -/
inductive Arguments : List TypeToken → List TypeSyntax → Prop where
  | none : Arguments [] []
  | some {tokens : List TypeToken} {args : List TypeSyntax} (h : Types T tokens args) :
      Arguments (.mark '<' :: (tokens ++ [.mark '>'])) args

/-- A name with or without type arguments. -/
inductive NameSegment : List TypeToken → Segment TypeSyntax → Prop where
  | mk {token : TypeToken} {name : String} {tokens : List TypeToken} {args : List TypeSyntax}
      (h : Identifier token name) (hs : Arguments T tokens args) :
      NameSegment (token :: tokens) ⟨name, args⟩

/-- One segment or several with dots between them. -/
inductive DottedName : List TypeToken → List (Segment TypeSyntax) → Prop where
  | one {tokens : List TypeToken} {segment : Segment TypeSyntax}
      (h : NameSegment T tokens segment) : DottedName tokens [segment]
  | cons {tokens more : List TypeToken} {segment : Segment TypeSyntax}
      {segments : List (Segment TypeSyntax)} (h : NameSegment T tokens segment)
      (hs : DottedName more segments) :
      DottedName (tokens ++ .mark '.' :: more) (segment :: segments)

/-- **A type without suffixes.** -/
inductive Primary : List TypeToken → TypeSyntax → Prop where
  | name {tokens : List TypeToken} {segments : List (Segment TypeSyntax)}
      (h : DottedName T tokens segments) (bare : tokens.head? ≠ some (.word "delegate")) :
      Primary tokens (.name false segments)
  | rooted {tokens : List TypeToken} {segments : List (Segment TypeSyntax)}
      (h : DottedName T tokens segments) : Primary (.root :: tokens) (.name true segments)
  | fnptr {convention tokens : List TypeToken} {params : List TypeSyntax} {ret : TypeSyntax}
      (h : Convention convention) (hs : Types T tokens (params ++ [ret])) :
      Primary (.word "delegate" :: .mark '*' :: (convention ++ .mark '<' :: (tokens ++ [.mark '>'])))
        (.fnptr params ret)

/-- **A type with its suffixes.** -/
inductive TypeOver : List TypeToken → TypeSyntax → Prop where
  | suffixed {tokens : List TypeToken} {base : TypeSyntax} (suffixes : List TypeSuffix)
      (h : Primary T tokens base) (inRange : ∀ x ∈ suffixes, x.InRange) :
      TypeOver (tokens ++ suffixes.flatMap TypeSuffix.tokens) (base.suffixed suffixes)

end

/-- **A type with at most `depth` types around each other.** -/
def IsType : Nat → List TypeToken → TypeSyntax → Prop
  | 0 => fun _ _ => False
  | depth + 1 => TypeOver (IsType depth)

end TypeGrammar

/-- **A tree that can be written** with at most `depth` types around each other: its names are names,
no dotted name is empty, and ranks are in range. -/
inductive TypeSyntax.Writable : Nat → TypeSyntax → Prop where
  | name {depth : Nat} {rooted : Bool} {segments : List (Segment TypeSyntax)}
      (nonempty : segments ≠ []) (names : ∀ x ∈ segments, Text.isName x.name = true)
      (args : ∀ x ∈ segments, ∀ a ∈ x.args, Writable depth a) :
      Writable (depth + 1) (.name rooted segments)
  | fnptr {depth : Nat} {params : List TypeSyntax} {ret : TypeSyntax}
      (hparams : ∀ p ∈ params, Writable depth p) (hret : Writable depth ret) :
      Writable (depth + 1) (.fnptr params ret)
  | array {depth : Nat} {element : TypeSyntax} {rank : Nat} (h : Writable depth element)
      (pos : 1 ≤ rank) (le : rank ≤ TypeReader.maxRank) : Writable depth (.array element rank)
  | pointer {depth : Nat} {target : TypeSyntax} (h : Writable depth target) :
      Writable depth (.pointer target)
  | nullable {depth : Nat} {inner : TypeSyntax} (h : Writable depth inner) :
      Writable depth (.nullable inner)

end LateBridge
