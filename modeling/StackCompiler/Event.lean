import StackCompiler.Text.Lines
import StackCompiler.Text.Quoted
import StackCompiler.Tree.Findings

/-!
# Events

What a compilation reports on its way.  An event has a level, the part of the compiler it comes
from, a message and named values.
-/

namespace StackCompiler

/-- How important an event is, the most important level first. -/
inductive Level where
  | error
  | warn
  | info
  | debug
  | trace
deriving DecidableEq, Repr

namespace Level

/-- The place of a level among all levels, counted from one. -/
def rank : Level → Nat
  | error => 1
  | warn => 2
  | info => 3
  | debug => 4
  | trace => 5

/-- The name of a level. -/
def name : Level → String
  | error => "ERROR"
  | warn => "WARN"
  | info => "INFO"
  | debug => "DEBUG"
  | trace => "TRACE"

end Level

/-- A value that an event carries.  Some texts are quoted where they are shown, others are not. -/
inductive FieldValue where
  | number (value : Nat)
  | quoted (text : String)
  | plain (text : String)
deriving DecidableEq, Repr

/-- The value as a line of the log shows it. -/
def FieldValue.text : FieldValue → String
  | number value => toString value
  | quoted text => Text.quoted text
  | plain text => text

/-- What is reported. -/
inductive Event where
  | scanned (tokens bytes : Nat)
  | functionRegistered (name : String) (index : Nat)
  | functionsRegistered (count : Nat)
  | entryParametersUnbound (name : String)
  | parsed (nodes vars funcs : Nat)
  | verified (reached live : Nat) (findings : Findings)
  | functionBegun (index : Nat)
  | generated (lines : Nat)
  | treeRead (nodes vars funcs : Nat)
  | dumpWritten (path : String)
  | drawing (graph picture : String)
  | drawingFailed (reason : String)
deriving DecidableEq

namespace Event

/-- The level of an event. -/
def level : Event → Level
  | entryParametersUnbound _ | drawingFailed _ => .warn
  | dumpWritten _ => .info
  | functionRegistered _ _ | functionBegun _ => .trace
  | scanned _ _ | functionsRegistered _ | parsed _ _ _ | verified _ _ _ | generated _
  | treeRead _ _ _ | drawing _ _ => .debug

/-- The part of the compiler that an event comes from. -/
def origin : Event → String
  | scanned _ _ => "mellon::lexer"
  | functionRegistered _ _ => "mellon::parser::functions"
  | entryParametersUnbound _ | parsed _ _ _ => "mellon::parser"
  | verified _ _ _ => "mellon::ast::verify"
  | functionBegun _ | generated _ => "mellon::compiler"
  | treeRead _ _ _ => "mellon::ast::serial"
  | drawing _ _ => "mellon::ast::image"
  | functionsRegistered _ | dumpWritten _ | drawingFailed _ => "mellon"

/-- The message of an event. -/
def message : Event → String
  | scanned _ _ => "lexed source"
  | functionRegistered _ _ => "registered function"
  | functionsRegistered _ => "registered functions"
  | entryParametersUnbound _ => "parameters of the entry function are never bound"
  | parsed _ _ _ => "parsed program"
  | verified _ _ _ => "verified tree"
  | functionBegun _ => "emitting function"
  | generated _ => "generated assembly"
  | treeRead _ _ _ => "read tree"
  | dumpWritten _ => "wrote tree dump"
  | drawing _ _ => "running dot"
  | drawingFailed _ => "could not render the tree image"

/-- The values of an event, by name. -/
def fields : Event → List (String × FieldValue)
  | scanned tokens bytes => [("tokens", .number tokens), ("bytes", .number bytes)]
  | functionRegistered name index => [("name", .quoted name), ("index", .number index)]
  | functionsRegistered count => [("functions", .number count)]
  | entryParametersUnbound name => [("name", .quoted name)]
  | parsed nodes vars funcs | treeRead nodes vars funcs =>
    [("nodes", .number nodes), ("vars", .number vars), ("funcs", .number funcs)]
  | verified reached live findings =>
    [("reached", .number reached), ("live", .number live), ("errors", .plain findings.names)]
  | functionBegun index => [("index", .number index)]
  | generated lines => [("lines", .number lines)]
  | dumpWritten path => [("path", .plain path)]
  | drawing graph picture => [("dot", .plain graph), ("png", .plain picture)]
  | drawingFailed reason => [("err", .plain reason)]

/-- The event as a line of the log: the level in five columns, the origin, the message and the
values. -/
def logLine (event : Event) : String :=
  let values := event.fields.map fun (key, value) => " " ++ key ++ "=" ++ value.text
  Text.rightAligned 5 event.level.name ++ " " ++ event.origin ++ ": " ++ event.message
    ++ String.join values ++ "\n"

end Event

end StackCompiler
