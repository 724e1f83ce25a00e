import StackCompiler.Command.Arguments
import StackCompiler.Command.Directory
import StackCompiler.Command.Report
import StackCompiler.Compile
import StackCompiler.Tree.Graph

/-!
# The command

The command reads its input, compiles it, writes the tree to a file and prints the code.  It prints
the code only if everything before has succeeded, and after all that is printed meanwhile.  The
picture of the tree is a convenience: when it cannot be made, that is reported and nothing else
changes.
-/

namespace StackCompiler

namespace Command

/-- How the command ends: with a status, or by aborting. -/
inductive Ending where
  | exit (status : Nat)
  | abort
deriving DecidableEq, Repr

/-- How the command ends and what it prints. -/
structure Outcome where
  ending : Ending
  output : String := ""
  errors : String := ""
deriving DecidableEq, Repr

/-- The version of the command. -/
def version : String := "mellon_cli 0.1.0\n"

/-- What the command can be asked. -/
def help : String :=
  "Compile a Mellon program to stack-machine assembly on stdout\n\n"
    ++ "Usage: mellon [OPTIONS] <INPUT> [DUMP]\n\n"
    ++ "Arguments:\n"
    ++ "  <INPUT>  Source file, or a tree dump when `--from-ast` is given\n"
    ++ "  [DUMP]   Where to write the tree dump of the compiled program [default: tree.ast]\n\n"
    ++ "Options:\n"
    ++ "      --from-ast               Read INPUT as a tree dump instead of source text\n"
    ++ "      --image <PNG>            Also render the tree to this PNG through Graphviz `dot`\n"
    ++ "      --entry <ENTRY>          Function that runs first [default: main]\n"
    ++ "      --log-level <LOG_LEVEL>  [env: MELLON_LOG=] [default: warn]\n"
    ++ "  -v, --verbose...             Raise the log level once per occurrence\n"
    ++ "  -h, --help                   Print help\n"
    ++ "  -V, --version                Print version\n"

/-- What is shown of words that are refused. -/
def usage (error : UsageError) : String :=
  "error: " ++ error.message ++ "\n\nUsage: mellon [OPTIONS] <INPUT> [DUMP]\n\n"
    ++ "For more information, try '--help'.\n"

/-- What is shown of a file that cannot be read or written. -/
def fileError (action path : String) (fault : FileFault) : String :=
  "Error: could not " ++ action ++ " " ++ path ++ "\n\nCaused by:\n    " ++ fault.message ++ "\n"

/-- Writes the graph of a tree beside the picture that is asked for and has it drawn.  What goes
wrong is reported and has no other consequence. -/
def draw {m : Type → Type} [Monad m] (files : FileAccess m) (arguments : Arguments) (t : Tree) :
    m (Shown Unit) := do
  match arguments.image with
  | none => return { value := () }
  | some picture =>
    let graph := Path.withExtension picture "dot"
    let log := arguments.verbosity.log
    let written ← files.write graph t.graph
    match written.value with
    | .error fault =>
      let reason := "could not write the graph description: " ++ fault.message
      return {
        value := ()
        output := written.output
        errors := written.errors ++ log [.drawingFailed reason] }
    | .ok () =>
      let drawn ← files.draw graph picture
      return {
        value := ()
        output := written.output ++ drawn.output
        errors := written.errors ++ log [.drawing graph picture] ++ drawn.errors
          ++ log (drawn.value.failure?.toList.map .drawingFailed) }

/-- Compiles a text as the arguments say. -/
def compileText (arguments : Arguments) (source : String) : Run Compilation :=
  if arguments.isTree then compileDump source else compile source arguments.entry

/-- Does what the arguments say. -/
def run {m : Type → Type} [Monad m] (files : FileAccess m) (arguments : Arguments) :
    m Outcome := do
  match ← files.read arguments.input with
  | .error fault =>
    return { ending := .exit 1, errors := fileError "read" arguments.input fault }
  | .ok source =>
    let compiled := compileText arguments source
    let log := arguments.verbosity.log
    match compiled.result with
    | .error (.verify findings) =>
      return {
        ending := .exit findings.bits
        errors := log compiled.events ++ Report.heading (.verify findings) }
    | .error error =>
      return {
        ending := .abort
        errors := log compiled.events ++ error.report arguments.input source }
    | .ok compilation =>
      let written ← files.write arguments.dump compilation.tree.dump
      match written.value with
      | .error fault =>
        return {
          ending := .exit 1
          output := written.output
          errors := log compiled.events ++ written.errors
            ++ fileError "write" arguments.dump fault }
      | .ok () =>
        let drawn ← draw files arguments compilation.tree
        return {
          ending := .exit 0
          output := written.output ++ drawn.output ++ compilation.assembly
          errors := log compiled.events ++ written.errors ++ log [.dumpWritten arguments.dump]
            ++ drawn.errors }

/-- Does what a request asks for. -/
def answer {m : Type → Type} [Monad m] (files : FileAccess m) : Request → m Outcome
  | .version => return { ending := .exit 0, output := version }
  | .help => return { ending := .exit 0, output := help }
  | .compile arguments => run files arguments

end Command

end StackCompiler
