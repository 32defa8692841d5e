/-
  Positional.CommandLine — what the program's arguments ask for.

      [-v | -q] binary [EXPRESSION...] [-p | --precision N]
      [-v | -q] radix [-f | --from BASE] [NUMBER] [-p | --precision N]

  - An argument that begins with `-` is an option, but `-` alone is a value. Options stand
    anywhere, and `--` ends them within a command. The verbosity flags are allowed before and
    after the command, not both of them on one side.
  - The value of an option is the rest of its argument (`-p3`, `-p=3`, `--precision=3`) or else
    the next argument, which must not be an option. Flags of one letter may share an argument.
  - Every option with a value is given once at most. A number needs its base.

  Without an expression or a number the command is a session. Usage errors are found before
  anything is done. An argument that has no place ends the reading at once, and so does asking
  for help or for the version; whether the options given fit together and have proper values is
  looked at only after that. `help` as a command takes the name of one command, or of itself.
-/
import Positional.Session.Binary
import Positional.Session.Radix

namespace Positional.CommandLine

/-! ## (1) Arguments -/

inductive Argument where
  | terminator
  | long (name : Text) (value : Option Text)
  /-- Letters after one `-`; there is at least one. -/
  | short (letters : Text)
  | value (content : Text)
  deriving DecidableEq

def Argument.ofText : Text → Argument
  | ['-', '-'] => .terminator
  | '-' :: '-' :: t =>
    match Text.cutAt? '=' t with
    | some (name, content) => .long name (some content)
    | none => .long t none
  | '-' :: x :: t => .short (x :: t)
  | t => .value t

inductive Key where
  | verbose
  | quiet
  | help
  | version
  | precision
  | origin
  deriving DecidableEq, Repr

namespace Key

def longName : Key → Text
  | verbose => "verbose".toList
  | quiet => "quiet".toList
  | help => "help".toList
  | version => "version".toList
  | precision => "precision".toList
  | origin => "from".toList

def letter : Key → Char
  | verbose => 'v'
  | quiet => 'q'
  | help => 'h'
  | version => 'V'
  | precision => 'p'
  | origin => 'f'

def takesValue : Key → Bool
  | precision | origin => true
  | _ => false

end Key

inductive Command where
  | binary
  | radix
  deriving DecidableEq, Repr

def Command.ofText? (t : Text) : Option Command :=
  if t == "binary".toList then some .binary
  else if t == "radix".toList then some .radix
  else none

/-- The options of the program itself. -/
def globalKeys : List Key := [.verbose, .quiet, .help, .version]

def Command.keys : Command → List Key
  | binary => [.verbose, .quiet, .help, .precision]
  | radix => [.verbose, .quiet, .help, .precision, .origin]

/-- A number is one argument, an expression any number of them. -/
def Command.takesOneValue : Command → Bool
  | binary => false
  | radix => true

/-! ## (2) Usage -/

inductive UsageError where
  | noCommand
  | unknownCommand (name : Text)
  | unknownOption (content : Text)
  | misplacedValue (key : Key)
  | missingValue (key : Key)
  | repeated (key : Key)
  | invalidValue (key : Key) (content : Text)
  | conflictingVerbosity
  | tooManyValues (content : Text)
  | missingOrigin
  deriving DecidableEq

def UsageError.message : UsageError → Text
  | noCommand => "a command is required: binary or radix".toList
  | unknownCommand name => "unknown command: ".toList ++ name
  | unknownOption content => "unknown option: ".toList ++ content
  | misplacedValue key => "no value is allowed for --".toList ++ key.longName
  | missingValue key => "a value is required for --".toList ++ key.longName
  | repeated key => "given more than once: --".toList ++ key.longName
  | invalidValue key content => "invalid value for --".toList ++ key.longName ++ ": ".toList ++ content
  | conflictingVerbosity => "--verbose and --quiet exclude each other".toList
  | tooManyValues content => "unexpected argument: ".toList ++ content
  | missingOrigin => "a number needs its base: --from BASE".toList

/-- Why arguments are not read to their end. -/
inductive Stop where
  | usage (error : UsageError)
  | help
  | version
  deriving DecidableEq

/-- What the arguments of one command, or those before it, have given so far. -/
structure Given where
  flags : List Key
  /-- Options with their values; one may have been given without. -/
  options : List (Key × Option Text)
  values : List Text
  deriving DecidableEq

namespace Given

def none : Given := ⟨[], [], []⟩

def flag (g : Given) (key : Key) : Except Stop Given :=
  match key with
  | .help => .error .help
  | .version => .error .version
  | key => .ok { g with flags := g.flags ++ [key] }

def option (g : Given) (key : Key) (content : Option Text) : Given :=
  { g with options := g.options ++ [(key, content)] }

/-- An option that waits for its value when something else comes stays without one. -/
def settle (g : Given) (pending : Option Key) : Given :=
  match pending with
  | .none => g
  | some key => g.option key .none

def value (c : Command) (g : Given) (content : Text) : Except Stop Given :=
  if c.takesOneValue && !g.values.isEmpty then .error (.usage (.tooManyValues content))
  else .ok { g with values := g.values ++ [content] }

/-- The one value given for an option. -/
def get (g : Given) (key : Key) : Except UsageError (Option Text) :=
  match g.options.filter (·.1 == key) with
  | [] => .ok .none
  | [(_, some content)] => .ok (some content)
  | [(_, .none)] => .error (.missingValue key)
  | _ => .error (.repeated key)

def checkVerbosity (g : Given) : Except UsageError Unit :=
  if g.flags.contains .verbose && g.flags.contains .quiet then .error .conflictingVerbosity else .ok ()

end Given

/-! ## (3) Options -/

/-- What an option argument gives, and the option that still waits for its value. -/
def readLong (keys : List Key) (name : Text) (value : Option Text) (g : Given) : Except Stop (Given × Option Key) :=
  match keys.find? (·.longName == name) with
  | none => .error (.usage (.unknownOption name))
  | some key =>
    match key.takesValue, value with
    | true, some content => .ok (g.option key (some content), none)
    | true, none => .ok (g, some key)
    | false, some _ => .error (.usage (.misplacedValue key))
    | false, none => (g.flag key).map (·, none)

def readShort (keys : List Key) : Text → Given → Except Stop (Given × Option Key)
  | [], g => .ok (g, none)
  | x :: letters, g =>
    match keys.find? (·.letter == x) with
    | none => .error (.usage (.unknownOption [x]))
    | some key =>
      if key.takesValue then
        match letters with
        | [] => .ok (g, some key)
        | '=' :: content => .ok (g.option key (some content), none)
        | content => .ok (g.option key (some content), none)
      else
        match g.flag key with
        | .error stop => .error stop
        | .ok g => if letters.head? = some '=' then .error (.usage (.misplacedValue key)) else readShort keys letters g

/-- The arguments of a command; `pending` is the option that waits for its value. -/
def readArguments (c : Command) : List Text → (pending : Option Key) → Given → Except Stop Given
  | [], pending, g => .ok (g.settle pending)
  | t :: args, pending, g =>
    match Argument.ofText t with
    | .terminator => args.foldlM (Given.value c) (g.settle pending)
    | .value content =>
      match pending with
      | some key => readArguments c args none (g.option key (some content))
      | none =>
        match g.value c content with
        | .error stop => .error stop
        | .ok g => readArguments c args none g
    | .long name value =>
      match readLong c.keys name value (g.settle pending) with
      | .error stop => .error stop
      | .ok (g, pending) => readArguments c args pending g
    | .short letters =>
      match readShort c.keys letters (g.settle pending) with
      | .error stop => .error stop
      | .ok (g, pending) => readArguments c args pending g

/-! ## (4) Requests -/

inductive Request where
  | binary (expression : List Text) (precision : Nat)
  | radix (origin : Option Radix) (number : Option Text) (precision : Nat)
  deriving DecidableEq

def defaultPrecision : Nat := 10

def precision (g : Given) : Except UsageError Nat := do
  match ← g.get .precision with
  | none => .ok defaultPrecision
  | some content =>
    match Text.natBelow? (twoPow 64) content with
    | some n => .ok n
    | none => .error (.invalidValue .precision content)

def origin (g : Given) : Except UsageError (Option Radix) := do
  match ← g.get .origin with
  | none => .ok none
  | some content =>
    match Radix.ofText content with
    | .ok r => .ok (some r)
    | .error _ => .error (.invalidValue .origin content)

def request (c : Command) (g : Given) : Except UsageError Request := do
  g.checkVerbosity
  let precision ← precision g
  match c with
  | .binary => .ok (.binary g.values precision)
  | .radix =>
    let origin ← origin g
    match g.values with
    | [] => .ok (.radix origin none precision)
    | number :: _ => if origin.isNone then .error .missingOrigin else .ok (.radix origin (some number) precision)

def isHelp (name : Text) : Bool := name == "help".toList

/-- What follows `help`: one name at most, and it must be known. -/
def readHelp : List Text → Stop
  | [] => .help
  | name :: rest =>
    if isHelp name || (Command.ofText? name).isSome then
      match rest with
      | [] => .help
      | extra :: _ => .usage (.unknownCommand extra)
    else .usage (.unknownCommand name)

/-- All arguments, those before the command first. -/
def readRequest : List Text → Given → Except Stop Request
  | [], _ => .error (.usage .noCommand)
  | t :: args, before =>
    match Argument.ofText t with
    | .terminator => .error (.usage .noCommand)
    | .value name =>
      match Command.ofText? name with
      | none => .error (if isHelp name then readHelp args else .usage (.unknownCommand name))
      | some c => do
        let g ← readArguments c args none .none
        (do before.checkVerbosity; request c g).mapError .usage
    | .long name value =>
      match readLong globalKeys name value before with
      | .error stop => .error stop
      | .ok (before, _) => readRequest args before
    | .short letters =>
      match readShort globalKeys letters before with
      | .error stop => .error stop
      | .ok (before, _) => readRequest args before

/-! ## (5) Answers -/

/-- What a run of the program leaves: its exit code and what it wrote. -/
structure Outcome where
  exit : Nat
  output : Text
  errors : Text
  deriving DecidableEq

def versionLine : Text := "radix-calculator-cli 0.1.0\n".toList

def usage : Text :=
  ("Converts numbers and arithmetic expressions between number systems\n\n" ++
    "    [-v | -q] binary [EXPRESSION...] [-p | --precision N]\n" ++
    "    [-v | -q] radix [-f | --from BASE] [NUMBER] [-p | --precision N]\n").toList

def Stop.outcome : Stop → Outcome
  | usage e => ⟨2, [], "error: ".toList ++ e.message ++ ['\n']⟩
  | help => ⟨0, CommandLine.usage, []⟩
  | version => ⟨0, versionLine, []⟩

def succeed (line : Text) : Outcome := ⟨0, line ++ ['\n'], []⟩

def fail (output : Text) (f : Failure) : Outcome := ⟨1, output, f.report⟩

def Outcome.ofTranscript (t : Transcript) : Outcome :=
  match t.failure with
  | none => ⟨0, t.output, []⟩
  | some e => fail t.output e.failure

/-- The arguments of an expression are one text. -/
def expressionText (arguments : List Text) : Text := Text.joined [' '] arguments

def convertBinary (s : Setting) (precision : Nat) (expression : Text) : Outcome :=
  match Conversion.inBinary s precision expression with
  | .ok digits => succeed digits
  | .error e => fail [] ⟨"could not convert ".toList ++ expression, some e.message⟩

def convertRadix (s : Setting) (origin : Radix) (precision : Nat) (number : Text) : Outcome :=
  match Conversion.inAllRadices s origin precision number with
  | .ok row => succeed (Text.joined " = ".toList row)
  | .error e =>
    fail [] ⟨"could not convert ".toList ++ number ++ " from base ".toList ++ Text.ofNat origin.base, some e.message⟩

/-- What there is to do: nothing but to report an outcome, or a session to hold. -/
inductive Task where
  | report (outcome : Outcome)
  | binarySession (precision : Nat)
  | radixSession (precision : Nat)

def Request.task (s : Setting) : Request → Task
  | binary [] precision => .binarySession precision
  | binary arguments precision => .report (convertBinary s precision (expressionText arguments))
  | radix (some origin) (some number) precision => .report (convertRadix s origin precision number)
  | radix _ _ precision => .radixSession precision

def task (s : Setting) (args : List Text) : Task :=
  match readRequest args .none with
  | .ok request => request.task s
  | .error stop => .report stop.outcome

/-- A whole run over the lines of its input. -/
def run (s : Setting) (args : List Text) (lines : List Line) : Outcome :=
  match task s args with
  | .report outcome => outcome
  | .binarySession precision => .ofTranscript (BinarySession.run s.elementary precision lines)
  | .radixSession precision => .ofTranscript (RadixSession.run s.elementary precision lines)

end Positional.CommandLine
