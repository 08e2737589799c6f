import LateBridge.CommandLine.Run

/-!
# Main — the program on a disk and a terminal

The only module that does anything: it lends the program a file system, prints what it shows and
ends with its code.
-/

namespace LateBridge

/-- A refusal of the system in the words of the library. -/
def FileError.ofSystem : IO.Error → FileError
  | .noFileOrDirectory .. | .noSuchThing .. => .notFound
  | .alreadyExists .. => .alreadyExists
  | .inappropriateType _ code details =>
    if code == 20 then .notADirectory
    else if code == 21 then .isADirectory
    else .other (details ++ " (os error " ++ toString code ++ ")")
  | .userError _ => .notText
  | e => .other (toString e)

/-- An action on the disk with its refusal told apart. -/
def onDisk {α : Type} (action : IO α) : IO (Except FileError α) := do
  match ← action.toBaseIO with
  | .ok a => return .ok a
  | .error e => return .error (FileError.ofSystem e)

/-- The text of a file on the disk. -/
def readFromDisk (path : String) : IO (Except FileError String) := onDisk (IO.FS.readFile path)

/-- **The disk as a file system.**  What a path leads to shows when it is read. -/
def disk : FileSystem IO where
  readText path := readFromDisk path
  isFile path := do
    match ← readFromDisk path with
    | .error .notFound | .error .notADirectory | .error .isADirectory => return false
    | _ => return true
  isDirectory path := do
    match ← readFromDisk path with
    | .error .isADirectory => return true
    | _ => return false
  makeDirectories path := onDisk (IO.FS.createDirAll path)
  writeText path text := onDisk (IO.FS.writeFile path text)

end LateBridge

def main (arguments : List String) : IO UInt32 := do
  let cwd ← IO.currentDir
  let output ← IO.getStdout
  let errors ← IO.getStderr
  let terminals : LateBridge.Terminals := ⟨← output.isTty, ← errors.isTty⟩
  let shown ← LateBridge.program LateBridge.disk terminals cwd.toString arguments
  output.putStr shown.out
  errors.putStr shown.err
  return shown.code.toUInt32
