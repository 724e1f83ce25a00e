import StackCompiler.Command.Run

/-!
# Entry point

Runs the command with the words after its name, the files of the computer, and the verbosity that
the environment asks for.
-/

namespace StackCompiler.Command

/-- The fault with the given number, which some calls give as a negative one. -/
def faultOfCode? (code : UInt32) : Option FileFault :=
  match if code < 0x80000000 then code else 0 - code with
  | 2 => some .notFound
  | 20 => some .notADirectory
  | 21 => some .isDirectory
  | 36 => some .nameTooLong
  | _ => none

/-- The fault behind an error of the computer's files. -/
def systemFault (error : IO.Error) : FileFault :=
  let fault? :=
    match error with
    | .noFileOrDirectory _ code _ => faultOfCode? code
    | .inappropriateType _ code _ => faultOfCode? code
    | .invalidArgument _ code _ => faultOfCode? code
    | _ => none
  fault?.getD (.other (toString error))

/-- Reads a file of the computer as a text. -/
def readSystemFile (path : String) : IO (Except FileFault String) := do
  match ← (IO.FS.readBinFile path).toBaseIO with
  | .error error => return .error (systemFault error)
  | .ok bytes =>
    match String.fromUTF8? bytes with
    | some text => return .ok text
    | none => return .error .notText

/-- Writes a text to a file of the computer.  If it comes out where the command prints, then the
computer has printed it. -/
def writeSystemFile (path text : String) : IO (Shown (Except FileFault Unit)) := do
  match ← (IO.FS.writeFile path text).toBaseIO with
  | .error error => return { value := .error (systemFault error) }
  | .ok () => return { value := .ok () }

/-- Access to the files of the computer.  Other programs are not started. -/
def systemFiles : FileAccess IO where
  read := readSystemFile
  write := writeSystemFile
  draw _ _ := return { value := .notStarted .notFound }

/-- The exit code of an ending; aborting counts as the signal that it raises. -/
def exitCode : Ending → UInt32
  | .exit status => status.toUInt32
  | .abort => 134

end StackCompiler.Command

open StackCompiler

/-- Runs the command. -/
def main (words : List String) : IO UInt32 := do
  match Request.ofWords (← IO.getEnv "MELLON_LOG") words with
  | .error error =>
    IO.eprint (Command.usage error)
    return 2
  | .ok request =>
    let outcome ← Command.answer Command.systemFiles request
    IO.eprint outcome.errors
    IO.print outcome.output
    return Command.exitCode outcome.ending
