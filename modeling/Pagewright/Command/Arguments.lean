import Pagewright.Animation.Backend
import Pagewright.Number.Read

/-!
Command lines. Options and the name of a command come first, then the options and the arguments
of the command; an option may be given once in each of the two parts. An option that is missing
may be set in the environment.
-/

namespace Pagewright

inductive Command where
  | page
  | animation
  | project
deriving DecidableEq, Repr

namespace Command

def all : List Command := [page, animation, project]

def name : Command → String
  | page => "page"
  | animation => "animation"
  | project => "project"

def ofName? (name : String) : Option Command := all.find? fun c => c.name = name

end Command

/-- The options, each of which takes a value. -/
inductive Setting where
  | timeLimit
  | animations
  | backend
  | out
deriving DecidableEq, Repr

namespace Setting

def name : Setting → String
  | timeLimit => "format-timeout-ms"
  | animations => "animations"
  | backend => "backend"
  | out => "out"

end Setting

/-- A number of milliseconds: digits after an optional plus sign, in 64 bits. -/
def readMilliseconds? (value : String) : Option Nat :=
  let digits := match value.toList with
    | '+' :: digits => digits
    | digits => digits
  if digits = [] || !digits.all Char.isDigit || wordBound ≤ digitsValue digits then none
  else some (digitsValue digits)

/-- Whether an option takes a value. Only the name of a rendering may be empty. -/
def Setting.accepts (s : Setting) (value : String) : Bool :=
  match s with
  | .timeLimit => (readMilliseconds? value).isSome
  | .animations | .out => value ≠ ""
  | .backend => true

inductive UsageError where
  | noCommand
  | unknownCommand (name : String)
  | unknownOption (text : String)
  | missingValue (setting : Setting)
  | invalidValue (setting : Setting) (value : String)
  | repeatedOption (setting : Setting)
  | missingArgument
  | emptyArgument
  | unexpectedArgument (text : String)
  | missingOption (setting : Setting)
deriving DecidableEq, Repr

def UsageError.message : UsageError → String
  | noCommand => "a command is required: page, animation or project"
  | unknownCommand name => "unknown command '" ++ name ++ "'"
  | unknownOption text => "unknown option '" ++ text ++ "'"
  | missingValue setting => "option '--" ++ setting.name ++ "' needs a value"
  | invalidValue setting value =>
    "invalid value '" ++ value ++ "' for option '--" ++ setting.name ++ "'"
  | repeatedOption setting => "option '--" ++ setting.name ++ "' is given more than once"
  | missingArgument => "an input file is required"
  | emptyArgument => "the name of the input file is empty"
  | unexpectedArgument text => "unexpected argument '" ++ text ++ "'"
  | missingOption setting => "option '--" ++ setting.name ++ "' is required"

/-- Why reading a command line ends without a command to run. -/
inductive Stop where
  | usage (error : UsageError)
  | help
  | version
deriving DecidableEq, Repr

inductive Argument where
  /-- Two dashes: everything behind them is plain. -/
  | separator
  | long (name : String) (value : Option String)
  | short (letters : List Char)
  | plain (text : String)
deriving DecidableEq, Repr

/-- The form of a text. A single dash is plain. -/
def Argument.ofText (text : String) : Argument :=
  match text.toList with
  | ['-', '-'] => .separator
  | '-' :: '-' :: rest =>
    let value := match rest.dropWhile (· ≠ '=') with
      | [] => none
      | _ :: value => some (String.ofList value)
    .long (String.ofList (rest.takeWhile (· ≠ '='))) value
  | '-' :: c :: rest => .short (c :: rest)
  | _ => .plain text

/-- The options and the input file that one part of a command line gives. -/
structure Given where
  values : List (Setting × String)
  input : Option String

namespace Given

def nothing : Given := ⟨[], none⟩

def value? (g : Given) (s : Setting) : Option String := g.values.lookup s

/-- Takes the value of an option, which must be new and fit. -/
def enter (g : Given) (s : Setting) (value : String) : Except Stop Given :=
  if !s.accepts value then .error (.usage (.invalidValue s value))
  else if (g.value? s).isSome then .error (.usage (.repeatedOption s))
  else .ok { g with values := g.values ++ [(s, value)] }

/-- Takes an argument, of which there may be one. -/
def enterInput (g : Given) (text : String) : Except Stop Given :=
  if g.input.isSome then .error (.usage (.unexpectedArgument text))
  else if text = "" then .error (.usage .emptyArgument)
  else .ok { g with input := some text }

/-- Sets an option from the environment, unless it is given. -/
def complete (g : Given) (environment : List (String × String)) (s : Setting) (name : String) :
    Except Stop Given :=
  match g.value? s, environment.lookup name with
  | none, some value => g.enter s value
  | _, _ => .ok g

end Given

structure Part where
  settings : List Setting
  /-- The part ends in a command; otherwise it takes an input file. -/
  endsInCommand : Bool

namespace Part

def leading : Part := ⟨[.timeLimit], true⟩

def following : Command → Part
  | .page => ⟨[.timeLimit, .animations, .backend, .out], false⟩
  | .animation => ⟨[.timeLimit, .backend], false⟩
  | .project => ⟨[.timeLimit, .out], false⟩

/-- What a flag asks for. Only the first part knows the flag for the version. -/
def flag (p : Part) (long : String) : Option Stop :=
  if long = "help" then some .help
  else if p.endsInCommand && long = "version" then some .version
  else none

/-- What a group of letters asks for, which its first letter decides. -/
def letters (p : Part) : List Char → Stop
  | 'h' :: _ => .help
  | letters@('V' :: _) => if p.endsInCommand then .version else unknown letters
  | letters => unknown letters
where
  unknown (letters : List Char) : Stop := .usage (.unknownOption (String.ofList ('-' :: letters)))

/-- Ends reading, for an option that takes no separate value: a flag, or an unknown option. -/
def stop (p : Part) (name : String) (value : Option String) : Stop :=
  match p.flag name, value with
  | some stop, none => stop
  | _, _ => .usage (.unknownOption ("--" ++ name))

def readPlain (p : Part) (g : Given) (text : String) : Except Stop Given :=
  if p.endsInCommand then .error (.usage (.unknownCommand text)) else g.enterInput text

/-- What a request for help ends in. It may name one command; whatever stands behind that is taken
as the name of a command inside it, and there is none. -/
def help : List String → Stop
  | [] => .help
  | about :: further =>
    if about ≠ "help" && (Command.ofName? about).isNone then .usage (.unknownCommand about)
    else match further with
      | [] => .help
      | next :: _ => .usage (.unknownCommand next)

/-- What the first part does with a name: a command ends the part with the arguments behind it. -/
def command (g : Given) (name : String) (rest : List String) :
    Except Stop (Given × Option (Command × List String)) :=
  if name = "help" then .error (help rest)
  else match Command.ofName? name with
    | some command => .ok (g, some (command, rest))
    | none => .error (.usage (.unknownCommand name))

/-- Reads a part from left to right, up to the name of a command or the end. -/
def read (p : Part) (g : Given) :
    List String → Except Stop (Given × Option (Command × List String))
  | [] => .ok (g, none)
  | text :: rest =>
    match Argument.ofText text with
    | .separator => (rest.foldlM p.readPlain g).map fun g => (g, none)
    | .short letters => .error (p.letters letters)
    | .plain text =>
      if p.endsInCommand then command g text rest
      else (g.enterInput text).bind fun g => p.read g rest
    | .long name value =>
      match p.settings.find? fun s => s.name = name with
      | none => .error (p.stop name value)
      | some setting =>
        match value, rest with
        | some value, rest => (g.enter setting value).bind fun g => p.read g rest
        | none, [] => .error (.usage (.missingValue setting))
        | none, next :: rest =>
          match Argument.ofText next with
          | .plain value => (g.enter setting value).bind fun g => p.read g rest
          | _ => .error (.usage (.missingValue setting))

end Part

inductive Task where
  /-- One page, with its animations, into a file or to the output. -/
  | page (page : String) (animations : Option String) (backend : Backend) (out : Option String)
  | animation (animation : String) (backend : Backend)
  | project (site out : String)
deriving DecidableEq, Repr

structure Invocation where
  /-- The time limit of the formatter, in milliseconds. -/
  limit : Option Nat
  task : Task
deriving DecidableEq, Repr

abbrev Environment := List (String × String)

namespace Environment

def timeLimit : String := "SITEGEN_FORMAT_TIMEOUT_MS"

def backend : String := "SITEGEN_BACKEND"

def out : String := "SITEGEN_OUT_DIR"

def names : List String := [timeLimit, backend, out]

end Environment

namespace Command

/-- The options of a command that the environment can set. -/
def environmental : Command → List (Setting × String)
  | page | animation => [(.timeLimit, Environment.timeLimit), (.backend, Environment.backend)]
  | project => [(.timeLimit, Environment.timeLimit), (.out, Environment.out)]

def task (c : Command) (g : Given) : Except Stop Task := do
  let some input := g.input | throw (.usage .missingArgument)
  let backend (default : Backend) := ((g.value? .backend).map Backend.ofName).getD default
  match c with
  | page => return .page input (g.value? .animations) (backend .css) (g.value? .out)
  | animation => return .animation input (backend .fallback)
  | project =>
    let some out := g.value? .out | throw (.usage (.missingOption .out))
    return .project input out

end Command

def Invocation.read (environment : Environment) (arguments : List String) :
    Except Stop Invocation := do
  let (before, command) ← Part.leading.read .nothing arguments
  let some (command, rest) := command | throw (.usage .noCommand)
  let (given, _) ← (Part.following command).read .nothing rest
  let after ← command.environmental.foldlM (fun g v => g.complete environment v.1 v.2) given
  let task ← command.task after
  let before ← before.complete environment .timeLimit Environment.timeLimit
  let limit := (given.value? .timeLimit).or (before.value? .timeLimit)
  return ⟨limit.bind readMilliseconds?, task⟩

end Pagewright
