import StackCompiler.Command.Files

/-!
# Directories in memory

A directory is a list of files with their contents.  A file is named by the directories that lead to
it and its own name; a directory inside exists as soon as it holds a file.

Little is assumed of what lies outside.  The directory above and the one for temporary files take
every text, and it is not kept.  The null device is empty and takes every text, and the devices for
output print what is written to them.  Nothing else is there, and no program that draws graphs.
-/

namespace StackCompiler

/-- What a file holds: a text, or bytes that are none. -/
inductive Contents where
  | text (text : String)
  | noText
deriving DecidableEq, Repr

/-- Files by name. -/
structure Directory where
  files : List (List String × Contents) := []
deriving DecidableEq, Repr

namespace Directory

/-- The contents of the file with the given name. -/
def find? (directory : Directory) (name : List String) : Option Contents :=
  directory.files.lookup name

/-- Whether the given name is that of a directory. -/
def isDirectory (directory : Directory) (name : List String) : Bool :=
  name.isEmpty || directory.files.any fun (file, _) => name.isPrefixOf file && name != file

/-- The directory with a text as the contents of a file. -/
def put (directory : Directory) (name : List String) (text : String) : Directory :=
  if (directory.find? name).isSome then
    { files := directory.files.map fun (file, contents) =>
        (file, if file = name then .text text else contents) }
  else { files := directory.files ++ [(name, .text text)] }

/-- The files that are not in another directory, or not with the same contents. -/
def changes (directory before : Directory) : List (List String × Contents) :=
  directory.files.filter fun (file, contents) => before.find? file != some contents

/-- Where a path leads: into the directory, to a directory above it, to something in a directory
above it, or to a place that is named from the root of all directories. -/
inductive Place where
  | inside (name : List String)
  | above
  | beside
  | global (name : List String)
deriving DecidableEq, Repr

/-- Files that stand for something else. -/
inductive Device where
  | null
  | output
  | errors
deriving DecidableEq, Repr

/-- The device with the given name. -/
def device? : List String → Option Device
  | ["dev", "null"] => some .null
  | ["dev", "stdout"] => some .output
  | ["dev", "stderr"] => some .errors
  | _ => none

/-- The directory for temporary files. -/
def temporary : List String := ["tmp"]

/-- Whether the given name from the root is that of a directory. -/
def isGlobalDirectory (name : List String) : Bool :=
  name == [] || name == ["dev"] || name == temporary

/-- The largest number of bytes that a segment of a path can have. -/
def maxSegmentLength : Nat := 255

/-- The largest number of bytes that a path can have. -/
def maxPathLength : Nat := 4095

/-- Fails at a place that is no directory. -/
def enter (directory : Directory) : Place → Except FileFault Unit
  | .inside name =>
    if (directory.find? name).isSome then .error .notADirectory
    else if directory.isDirectory name then .ok () else .error .notFound
  | .above => .ok ()
  | .beside => .error .notFound
  | .global name =>
    if (device? name).isSome then .error .notADirectory
    else if isGlobalDirectory name then .ok () else .error .notFound

/-- The place that a name leads to in the directory at a place. -/
def child (place : Place) (segment : String) : Except FileFault Place :=
  if maxSegmentLength < segment.utf8ByteSize then .error .nameTooLong
  else
    match place with
    | .inside name => .ok (.inside (name ++ [segment]))
    | .above | .beside => .ok .beside
    | .global name => .ok (.global (name ++ [segment]))

/-- The place that contains the directory at a place. -/
def parent : Place → Place
  | .inside [] => .above
  | .inside name => .inside name.dropLast
  | .above | .beside => .above
  | .global name => .global name.dropLast

/-- The place that one more segment of a path leads to. -/
def step (directory : Directory) (place : Place) (segment : String) : Except FileFault Place := do
  directory.enter place
  if segment == "" || segment == "." then return place
  else if segment == ".." then return parent place
  else child place segment

/-- The place that a path leads to, apart from slashes at its end. -/
def resolve (directory : Directory) (path : String) : Except FileFault Place :=
  if maxPathLength < path.utf8ByteSize then .error .nameTooLong
  else
    let start := if path.startsWith "/" then .global [] else .inside []
    (Path.dropLast (· == "") (Path.segments path)).foldlM directory.step start

/-- The text of the file that a path leads to. -/
def read (directory : Directory) (path : String) : Except FileFault String := do
  match ← directory.resolve path with
  | .above => .error .isDirectory
  | .beside => .error .notFound
  | .global name =>
    match device? name with
    | some .null => if path.endsWith "/" then .error .notADirectory else .ok ""
    | some _ => .error .notFound
    | none => if isGlobalDirectory name then .error .isDirectory else .error .notFound
  | .inside name =>
    match directory.find? name with
    | some contents =>
      if path.endsWith "/" then .error .notADirectory
      else
        match contents with
        | .text text => .ok text
        | .noText => .error .notText
    | none => if directory.isDirectory name then .error .isDirectory else .error .notFound

/-- The directory with a text as the contents of the file that a path leads to, and what is printed
of the text.  A path that ends with a slash is taken for that of a directory. -/
def write (directory : Directory) (path text : String) : Except FileFault (Shown Directory) := do
  let place ← directory.resolve path
  if path.endsWith "/" then .error .isDirectory
  else
    match place with
    | .above => .error .isDirectory
    | .beside => .ok { value := directory }
    | .global name =>
      match device? name with
      | some .null => .ok { value := directory }
      | some .output => .ok { value := directory, output := text }
      | some .errors => .ok { value := directory, errors := text }
      | none =>
        if isGlobalDirectory name then .error .isDirectory
        else if name.dropLast = temporary then .ok { value := directory } else .error .notFound
    | .inside name =>
      if directory.isDirectory name then .error .isDirectory
      else .ok { value := directory.put name text }

/-- Access to the files of a directory. -/
def access : FileAccess (StateM Directory) where
  read path := do return (← get).read path
  write path text := do
    match (← get).write path text with
    | .ok written =>
      set written.value
      return { value := .ok (), output := written.output, errors := written.errors }
    | .error fault => return { value := .error fault }
  draw _ _ := return { value := .notStarted .notFound }

end Directory

end StackCompiler
