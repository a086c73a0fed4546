/-
The arguments of the command line program.
-/
import Tableau.CommandLine.Program

namespace Tableau

/-- What is written on the command line. -/
structure Arguments where
  /-- The problem file. -/
  file : Option String := none
  verbose : Bool := false
  maxRuntime : Option String := none
  /-- The file for results. -/
  output : Option String := none
  /-- The file for statistics. -/
  statistics : Option String := none
  help : Bool := false

/-- Why a command line cannot be understood. -/
inductive UsageError where
  | unknownOption (option : String)
  | missingValue (option : String)
  | repeatedOption (option : String)
  | unexpectedArgument (argument : String)
  | missingFile

namespace UsageError

def message : UsageError → String
  | unknownOption option => "unknown option " ++ option
  | missingValue option => "a value is required for " ++ option
  | repeatedOption option => "the option " ++ option ++ " cannot be used more than once"
  | unexpectedArgument argument => "unexpected argument " ++ argument
  | missingFile => "a problem file is required"

end UsageError

namespace Arguments

def usage : String :=
  String.intercalate "\n"
    ["Usage: tableau [OPTIONS] <FILE>",
      "",
      "Reports whether the goal of the problem in FILE follows from its premises.",
      "",
      "Options:",
      "  --verbose                Report every inference at log level info",
      "  --max-runtime <SECONDS>  Give up after the given number of seconds",
      "  -o <OUTPUT>              Write proofs, countermodels and error details to a file",
      "  --stats <STATS>          Write search statistics in JSON format to a file",
      "  -h, --help               Print help",
      "",
      "The environment variable LOG may be info, debug or trace.",
      ""]

/-- An option that takes a value. -/
inductive Setting where
  | maxRuntime
  | output
  | statistics

def Setting.render : Setting → String
  | maxRuntime => "--max-runtime"
  | output => "-o"
  | statistics => "--stats"

/-- Sets an option that has not been set before. -/
def assign (args : Arguments) (setting : Setting) (value : String) :
    Except UsageError Arguments :=
  let old := match setting with
    | .maxRuntime => args.maxRuntime
    | .output => args.output
    | .statistics => args.statistics
  if old.isSome then
    .error (.repeatedOption setting.render)
  else
    .ok <| match setting with
      | .maxRuntime => { args with maxRuntime := some value }
      | .output => { args with output := some value }
      | .statistics => { args with statistics := some value }

/-- An argument that is no option. -/
def positional (args : Arguments) (argument : String) : Except UsageError Arguments :=
  if args.file.isSome then
    .error (.unexpectedArgument argument)
  else
    .ok { args with file := some argument }

/-- A word of the command line. -/
inductive Word where
  | verbose
  | help
  | endOfOptions
  /-- An option with the value behind its equals sign or its letter, if any. -/
  | setting (setting : Setting) (value : Option String)
  | positional
  | unknown

/-- The value of a long option: what stands behind an equals sign. -/
def attached : List Char → Option (Option String)
  | [] => some none
  | '=' :: value => some (some (String.ofList value))
  | _ => none

def Word.ofString (word : String) : Word :=
  let cs := word.toList
  let long (name : String) := (name.toList.isPrefixOf? cs).bind attached
  if word = "--verbose" then .verbose
  else if word = "--help" || word = "-h" then .help
  else if word = "--" then .endOfOptions
  else match long "--max-runtime", long "--stats", cs with
    | some value, _, _ => .setting .maxRuntime value
    | _, some value, _ => .setting .statistics value
    | _, _, ['-', 'o'] => .setting .output none
    | _, _, '-' :: 'o' :: '=' :: value => .setting .output (some (String.ofList value))
    | _, _, '-' :: 'o' :: value => .setting .output (some (String.ofList value))
    | _, _, '-' :: _ :: _ => .unknown
    | _, _, _ => .positional

/-- Reads the words of a command line from left to right; `options` tells
whether options are still recognised, and `waiting` which one waits for its
value. -/
def readWords (args : Arguments) (options : Bool) (waiting : Option Setting) :
    List String → Except UsageError Arguments
  | [] =>
      match waiting with
      | some setting => .error (.missingValue setting.render)
      | none => .ok args
  | word :: rest =>
      match waiting with
      | some setting => do readWords (← args.assign setting word) options none rest
      | none =>
          if !options then do
            readWords (← args.positional word) options none rest
          else
            match Word.ofString word with
            | .verbose =>
                if args.verbose then
                  .error (.repeatedOption word)
                else
                  readWords { args with verbose := true } options none rest
            | .help => .ok { args with help := true }
            | .endOfOptions => readWords args false none rest
            | .setting setting (some value) => do
                readWords (← args.assign setting value) options none rest
            | .setting setting none => readWords args options (some setting) rest
            | .positional => do readWords (← args.positional word) options none rest
            | .unknown => .error (.unknownOption word)

/-- Reads a command line. -/
def parse (words : List String) : Except UsageError Arguments := do
  let args ← readWords {} true none words
  if args.file.isNone && !args.help then
    .error .missingFile
  else
    return args

def invocation (args : Arguments) : Invocation :=
  { verbose := args.verbose, maxRuntime := args.maxRuntime }

end Arguments

end Tableau
