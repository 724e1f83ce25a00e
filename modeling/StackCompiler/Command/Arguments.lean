import StackCompiler.Command.Verbosity

/-!
# Arguments

What the words after the command ask for.  A word that begins with a dash is an option, except for a
single dash; after two dashes alone no word is an option.  Words that are no options name the input
and the file for the tree, in this order.

Words are taken from left to right, and the first one that does not fit is refused.  A request for
the version or for help is met as soon as it is reached.
-/

namespace StackCompiler

/-- Options that take a value. -/
inductive ValueOption where
  | image
  | entry
  | logLevel
deriving DecidableEq, Repr

/-- The name of an option. -/
def ValueOption.name : ValueOption → String
  | image => "image"
  | entry => "entry"
  | logLevel => "log-level"

/-- Why words are refused. -/
inductive UsageError where
  | unknownOption (word : String)
  | missingValue (option : ValueOption)
  | unneededValue (word : String)
  | repeatedOption (name : String)
  | badValue (name value : String)
  | surplusWord (word : String)
  | missingInput
deriving DecidableEq, Repr

/-- The error as it is shown. -/
def UsageError.message : UsageError → String
  | unknownOption word => "unexpected argument '" ++ word ++ "' found"
  | missingValue option => "a value is required for '--" ++ option.name ++ "'"
  | unneededValue word => "unexpected value in '" ++ word ++ "'"
  | repeatedOption name => "the argument '" ++ name ++ "' cannot be used multiple times"
  | badValue name value => "invalid value '" ++ value ++ "' for '" ++ name ++ "'"
  | surplusWord word => "unexpected argument '" ++ word ++ "' found"
  | missingInput => "the following required arguments were not provided: <INPUT>"

/-- What a compilation is to do: the input and whether it is a tree, the file for the tree, the
picture, the function that runs first, and how much of the log is shown. -/
structure Arguments where
  input : String
  dump : String := "tree.ast"
  isTree : Bool := false
  image : Option String := none
  entry : String := "main"
  verbosity : Verbosity := ⟨some .warn⟩
deriving DecidableEq, Repr

/-- What the command is asked for. -/
inductive Request where
  | compile (arguments : Arguments)
  | version
  | help
deriving DecidableEq, Repr

namespace Arguments

/-- What the words so far have given. -/
structure Given where
  input : Option String := none
  dump : Option String := none
  isTree : Bool := false
  image : Option String := none
  entry : Option String := none
  logLevel : Option Verbosity := none
  raised : Nat := 0
deriving DecidableEq, Repr

namespace Given

/-- Takes a word that is no option. -/
def addWord (given : Given) (word : String) : Except UsageError Given :=
  match given.input, given.dump with
  | none, _ =>
    if word.isEmpty then .error (.badValue "<INPUT>" word)
    else .ok { given with input := some word }
  | some _, none =>
    if word.isEmpty then .error (.badValue "[DUMP]" word)
    else .ok { given with dump := some word }
  | some _, some _ => .error (.surplusWord word)

/-- Takes the value of an option. -/
def addValue (given : Given) (option : ValueOption) (value : String) : Except UsageError Given :=
  let repeatedOption := .error (.repeatedOption option.name)
  match option with
  | .image =>
    if given.image.isSome then repeatedOption
    else if value.isEmpty then .error (.badValue option.name value)
    else .ok { given with image := some value }
  | .entry =>
    if given.entry.isSome then repeatedOption
    else .ok { given with entry := some value }
  | .logLevel =>
    if given.logLevel.isSome then repeatedOption
    else
      match Verbosity.ofText? value with
      | none => .error (.badValue option.name value)
      | some verbosity => .ok { given with logLevel := some verbosity }

/-- Takes the request to read the input as a tree. -/
def addIsTree (given : Given) : Except UsageError Given :=
  if given.isTree then .error (.repeatedOption "from-ast")
  else .ok { given with isTree := true }

/-- Takes the request to show one more level of the log. -/
def addRaise (given : Given) : Given :=
  { given with raised := given.raised + 1 }

/-- The compilation that was asked for, where `setting` is the verbosity in case no option gives
it. -/
def arguments (given : Given) (setting : Option String) : Except UsageError Arguments := do
  let verbosity ←
    match given.logLevel, setting with
    | some verbosity, _ => .ok verbosity
    | none, none => .ok ⟨some .warn⟩
    | none, some value =>
      match Verbosity.ofText? value with
      | some verbosity => .ok verbosity
      | none => .error (.badValue ValueOption.logLevel.name value)
  match given.input with
  | none => .error .missingInput
  | some input =>
    return {
      input
      dump := given.dump.getD "tree.ast"
      isTree := given.isTree
      image := given.image
      entry := given.entry.getD "main"
      verbosity := verbosity.raise given.raised }

end Given

/-- What a word is. -/
inductive WordClass where
  | plain
  | divider
  | letters (letters : List Char)
  | long (name : String) (value : Option String)
deriving DecidableEq, Repr

/-- A text in two parts at its first equals sign, which is in neither. -/
def splitAtEquals (text : List Char) : String × Option String :=
  let name := text.takeWhile (· != '=')
  match text.drop name.length with
  | [] => (String.ofList name, none)
  | _ :: value => (String.ofList name, some (String.ofList value))

/-- What a word is by its leading dashes. -/
def wordClass (word : String) : WordClass :=
  match word.toList with
  | ['-', '-'] => .divider
  | '-' :: '-' :: text =>
    let (name, value) := splitAtEquals text
    .long name value
  | '-' :: letter :: letters => .letters (letter :: letters)
  | _ => .plain

/-- Options that take no value. -/
inductive Flag where
  | isTree
  | raise
  | version
  | help
deriving DecidableEq, Repr

/-- The option without a value that has the given long name. -/
def Flag.ofName? : String → Option Flag
  | "from-ast" => some .isTree
  | "verbose" => some .raise
  | "version" => some .version
  | "help" => some .help
  | _ => none

/-- The option without a value that has the given letter. -/
def Flag.ofLetter? : Char → Option Flag
  | 'v' => some .raise
  | 'V' => some .version
  | 'h' => some .help
  | _ => none

/-- The option with a value that has the given long name. -/
def optionOfName? (name : String) : Option ValueOption :=
  [.image, .entry, .logLevel].find? (·.name == name)

/-- Takes an option without a value; the right side is a request that is met at once. -/
def addFlag (given : Given) : Flag → Except UsageError (Given ⊕ Request)
  | .isTree => .inl <$> given.addIsTree
  | .raise => .ok (.inl given.addRaise)
  | .version => .ok (.inr .version)
  | .help => .ok (.inr .help)

/-- Takes the letters of a word one after the other. -/
def addLetters (word : String) (given : Given) :
    List Char → Except UsageError (Given ⊕ Request)
  | [] => .ok (.inl given)
  | letter :: letters =>
    match Flag.ofLetter? letter with
    | none => .error (.unknownOption word)
    | some flag => do
      match ← addFlag given flag with
      | .inl given => addLetters word given letters
      | .inr request => return .inr request

/-- Takes words that are no options. -/
def addWords (given : Given) : List String → Except UsageError Given
  | [] => .ok given
  | word :: words => do addWords (← given.addWord word) words

/-- Takes all words. -/
def addAll (given : Given) : List String → Except UsageError (Given ⊕ Request)
  | [] => .ok (.inl given)
  | word :: words =>
    match wordClass word with
    | .plain => do addAll (← given.addWord word) words
    | .divider => .inl <$> addWords given words
    | .letters letters => do
      match ← addLetters word given letters with
      | .inl given => addAll given words
      | .inr request => return .inr request
    | .long name value =>
      match Flag.ofName? name, optionOfName? name, value, words with
      | some flag, _, none, words => do
        match ← addFlag given flag with
        | .inl given => addAll given words
        | .inr request => return .inr request
      | some _, _, some _, _ => .error (.unneededValue word)
      | none, some option, some value, words => do
        addAll (← given.addValue option value) words
      | none, some option, none, [] => .error (.missingValue option)
      | none, some option, none, value :: words => do
        if wordClass value ≠ .plain then .error (.missingValue option)
        else addAll (← given.addValue option value) words
      | none, none, _, _ => .error (.unknownOption word)

end Arguments

/-- What words ask for, where `setting` is the verbosity in case no word gives it. -/
def Request.ofWords (setting : Option String) (words : List String) :
    Except UsageError Request := do
  match ← Arguments.addAll {} words with
  | .inr request => return request
  | .inl given => .compile <$> given.arguments setting

end StackCompiler
