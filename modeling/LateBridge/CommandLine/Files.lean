/-!
# CommandLine/Files — paths, and what a run asks of a file system

A run reads texts, looks at what a path leads to, makes directories and writes texts.  These
questions are put to a `FileSystem`, so that a run can be played on the tree of files that is kept
here as well as on a disk.  A path leads through directories: every part before the last has to be
one.
-/

namespace LateBridge

/-! ## Paths -/

namespace Path

/-- Whether a path starts at the root. -/
def isAbsolute (path : String) : Bool := path.toList.head? == some '/'

/-- **A path seen from a directory**; an absolute one stands by itself. -/
def join (base path : String) : String :=
  if isAbsolute path then path
  else if base.isEmpty || base.toList.getLast? == some '/' then base ++ path
  else base ++ "/" ++ path

/-- The parts of a path between its slashes. -/
def split : List Char → List (List Char)
  | [] => [[]]
  | c :: rest =>
    if c == '/' then [] :: split rest
    else match split rest with
      | [] => [[c]]
      | part :: parts => (c :: part) :: parts

/-- The parts of a path, without empty ones. -/
def parts (path : String) : List String :=
  ((split path.toList).filter (!·.isEmpty)).map String.ofList

/-- Whether a path has to lead to a directory, by its spelling. -/
def endsInDirectory (path : String) : Bool :=
  match (split path.toList).getLast? with
  | some last => last.isEmpty || last == ['.']
  | none => false

end Path

/-! ## File systems -/

/-- **Why a file system refuses.** -/
inductive FileError where
  | notFound
  | alreadyExists
  | notADirectory
  | isADirectory
  /-- A file is not text. -/
  | notText
  | other (message : String)
  deriving DecidableEq, Repr

/-- The message of a refusal, with the number the system gives it. -/
def FileError.message : FileError → String
  | .notFound => "No such file or directory (os error 2)"
  | .alreadyExists => "File exists (os error 17)"
  | .notADirectory => "Not a directory (os error 20)"
  | .isADirectory => "Is a directory (os error 21)"
  | .notText => "stream did not contain valid UTF-8"
  | .other message => message

/-- **What a run asks of a file system.** -/
structure FileSystem (m : Type → Type) where
  readText : String → m (Except FileError String)
  isFile : String → m Bool
  isDirectory : String → m Bool
  /-- Makes a directory with those around it. -/
  makeDirectories : String → m (Except FileError Unit)
  writeText : String → String → m (Except FileError Unit)

/-! ## Trees of files -/

/-- **A tree of files**: what each place below the root holds, a text or a directory. -/
structure FileTree where
  files : List (List String × String)
  directories : List (List String)
  deriving DecidableEq, Repr, Inhabited

namespace FileTree

variable (t : FileTree)

/-- The text at a place. -/
def text? (place : List String) : Option String := t.files.lookup place

/-- Whether a place is a directory: the root, a directory that was made, or one around a file. -/
def isDir (place : List String) : Bool :=
  place.isEmpty || t.directories.any (place.isPrefixOf ·) ||
    t.files.any fun (file, _) => place.isPrefixOf file && file != place

/-- Whether there is anything at a place. -/
def holds (place : List String) : Bool := (t.text? place).isSome || t.isDir place

/-- A place that has to be a directory. -/
def directory (place : List String) : Except FileError (List String) :=
  if t.isDir place then .ok place
  else if t.holds place then .error .notADirectory
  else .error .notFound

/-- **Where the parts of a path lead** from a place; every place passed has to be a directory. -/
def walk (place : List String) : List String → Except FileError (List String)
  | [] => .ok place
  | part :: rest => do
    let place ← t.directory place
    let next := if part == "." then place else if part == ".." then place.dropLast
      else place ++ [part]
    walk next rest

/-- **The place of a path**, which may hold nothing yet. -/
def place (path : String) : Except FileError (List String) := do
  let place ← t.walk [] (Path.parts path)
  if Path.endsInDirectory path then t.directory place else .ok place

/-- The text of a file. -/
def readText (path : String) : Except FileError String := do
  let place ← t.place path
  match t.text? place with
  | some text => .ok text
  | none => if t.isDir place then .error .isADirectory else .error .notFound

/-- Whether a path leads to a file. -/
def isFile (path : String) : Bool :=
  match t.place path with
  | .ok place => (t.text? place).isSome
  | .error _ => false

/-- Whether a path leads to a directory. -/
def isDirectory (path : String) : Bool :=
  match t.place path with
  | .ok place => t.isDir place
  | .error _ => false

/-- The tree with a text at a place. -/
def withText (place : List String) (text : String) : FileTree :=
  if (t.text? place).isSome then
    { t with files := t.files.map fun (p, old) => (p, if p == place then text else old) }
  else { t with files := t.files ++ [(place, text)] }

/-- The tree with a text in a file, whose directory has to be there. -/
def writeText (path text : String) : Except FileError FileTree := do
  let place ← t.place path
  if t.isDir place then .error .isADirectory else .ok (t.withText place text)

/-- The tree with one directory more at the end of some parts, where nothing may be yet. -/
def makeOne (parts : List String) : Except FileError FileTree := do
  let place ← t.walk [] parts
  if t.holds place then .error .alreadyExists
  else .ok { t with directories := t.directories ++ [place] }

/-- Whether some parts lead to a directory. -/
def leadsToDirectory (parts : List String) : Bool :=
  match t.walk [] parts with
  | .ok place => t.isDir place
  | .error _ => false

/-- The tree with one directory more, unless some parts lead to a directory as it is. -/
def ensure (parts : List String) : Except FileError FileTree :=
  match t.makeOne parts with
  | .ok t => .ok t
  | .error e => if t.leadsToDirectory parts then .ok t else .error e

/-- The tree with a directory and those around it, for the parts of its path from the last one on:
what is around is made first where it is missing. -/
def makeAround : List String → FileTree → Except FileError FileTree
  | [], t => .ok t
  | part :: around, t =>
    match t.makeOne (part :: around).reverse with
    | .error .notFound => do (← makeAround around t).ensure (part :: around).reverse
    | _ => t.ensure (part :: around).reverse

/-- The tree with the directory of a path and those around it.  A dot at the end of a path needs
the directory in front of it, but only what is around that one is made. -/
def makeDirectories (path : String) : Except FileError FileTree :=
  let parts := Path.parts path
  let named := parts.filter (· != ".")
  if parts.getLast? == some "." then
    match t.makeOne parts with
    | .error .notFound => do (← makeAround named.dropLast.reverse t).ensure parts
    | _ => t.ensure parts
  else makeAround named.reverse t

/-- A change of the tree, which stays as it is when the change is refused. -/
def change (f : FileTree → Except FileError FileTree) : StateM FileTree (Except FileError Unit) :=
  fun t =>
    match f t with
    | .ok t => (.ok (), t)
    | .error e => (.error e, t)

/-- **A tree of files as a file system.** -/
def fileSystem : FileSystem (StateM FileTree) where
  readText path := fun t => (t.readText path, t)
  isFile path := fun t => (t.isFile path, t)
  isDirectory path := fun t => (t.isDirectory path, t)
  makeDirectories path := change (·.makeDirectories path)
  writeText path text := change (·.writeText path text)

end FileTree

end LateBridge
