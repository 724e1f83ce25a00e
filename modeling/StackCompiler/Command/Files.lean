/-!
# Files

What the command needs of its surroundings: to read a file as a text, to write a text to a file, and
to have a graph drawn by another program.  The command does the same with the files of a computer
and with files in memory.

A text that is written may come out on the command's own output, for example if the file is the
device that stands for it, and the other program prints where the command does.  So both say what is
printed meanwhile.
-/

namespace StackCompiler

/-- Why a file cannot be read or written. -/
inductive FileFault where
  | notFound
  | isDirectory
  | notADirectory
  | nameTooLong
  | notText
  | other (reason : String)
deriving DecidableEq, Repr

/-- The fault as messages show it. -/
def FileFault.message : FileFault → String
  | notFound => "No such file or directory (os error 2)"
  | isDirectory => "Is a directory (os error 21)"
  | notADirectory => "Not a directory (os error 20)"
  | nameTooLong => "File name too long (os error 36)"
  | notText => "stream did not contain valid UTF-8"
  | other reason => reason

/-- What something comes to, and what is printed meanwhile where the command prints. -/
structure Shown (α : Type) where
  value : α
  output : String := ""
  errors : String := ""
deriving DecidableEq, Repr

/-- How the program that draws graphs ends: it cannot be started, it fails with a status, or it
succeeds. -/
inductive Drawing where
  | notStarted (fault : FileFault)
  | failed (status : String)
  | done
deriving DecidableEq, Repr

/-- Why there is no picture. -/
def Drawing.failure? : Drawing → Option String
  | notStarted fault => some ("`dot` could not be started: " ++ fault.message)
  | failed status => some ("`dot` exited with " ++ status)
  | done => none

/-- How files are read and written, and how the graph in one file is drawn as a picture to
another. -/
structure FileAccess (m : Type → Type) where
  read : (path : String) → m (Except FileFault String)
  write : (path text : String) → m (Shown (Except FileFault Unit))
  draw : (graph picture : String) → m (Shown Drawing)

namespace Path

/-- The parts of characters before, between and after the slashes among them. -/
def parts : List Char → List (List Char)
  | [] => [[]]
  | c :: chars =>
    match c, parts chars with
    | '/', parts => [] :: parts
    | c, first :: others => (c :: first) :: others
    | c, [] => [[c]]

/-- The parts of a path between its slashes. -/
def segments (path : String) : List String :=
  (parts path.toList).map String.ofList

/-- A list without the last items for which a condition holds. -/
def dropLast {α : Type} (condition : α → Bool) (items : List α) : List α :=
  (items.reverse.dropWhile condition).reverse

/-- The segments of a path up to the last one that says more than to stay where one is; the first
one is always among them. -/
def leading (path : String) : List String :=
  match segments path with
  | [] => []
  | first :: rest => first :: dropLast (fun segment => segment == "" || segment == ".") rest

/-- The name of the file that a path names. -/
def fileName? (path : String) : Option String :=
  match (leading path).getLast? with
  | none => none
  | some name => if name == "" || name == "." || name == ".." then none else some name

/-- The name of a file in two parts at its last dot, which is in neither; a dot at the start does
not count. -/
def splitName (name : String) : String × Option String :=
  let chars := name.toList
  let extension := (chars.reverse.takeWhile (· != '.')).reverse
  let stem := chars.take (chars.length - extension.length - 1)
  if stem.isEmpty then (name, none) else (String.ofList stem, some (String.ofList extension))

/-- A path that is as many characters shorter as the extension of the file that it names is long. -/
def withoutExtension (path : String) : String :=
  match (fileName? path).bind fun name => (splitName name).2 with
  | none => path
  | some extension =>
    let chars := path.toList
    String.ofList (chars.take (chars.length - extension.length))

/-- A path with the extension set for the file that it names; a path that names no file stays. -/
def setExtension (path extension : String) : String :=
  match fileName? path with
  | none => path
  | some name =>
    "/".intercalate ((leading path).dropLast ++ [(splitName name).1 ++ "." ++ extension])

/-- A path with another extension for the file that it names.  The old extension goes first; where
only two dots are left of the name, they name no file any more and nothing is added. -/
def withExtension (path extension : String) : String :=
  setExtension (withoutExtension path) extension

end Path

end StackCompiler
