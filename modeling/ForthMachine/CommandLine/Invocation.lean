import ForthMachine.Text.Quoted

namespace ForthMachine.CommandLine

structure Invocation where
  /-- The name of the file with the settings; without a name the default settings hold. -/
  settings : String := ""
  trace : Bool := false
  files : List String := []
  deriving DecidableEq, Repr

inductive Refusal where
  | help
  | badSyntax (argument : String)
  | unknown (option : String)
  | missingValue (option : String)
  | notBoolean (option value : String)
  deriving DecidableEq, Repr

def usage : String :=
  "Usage of tforth:\n"
    ++ "  -config file\n    \tconfiguration file\n"
    ++ "  -trace\n    \ttrace execution to standard error\n"

namespace Refusal

def message : Refusal → String
  | help => usage
  | badSyntax argument => "bad flag syntax: " ++ argument ++ "\n" ++ usage
  | unknown option => "flag provided but not defined: -" ++ option ++ "\n" ++ usage
  | missingValue option => "flag needs an argument: -" ++ option ++ "\n" ++ usage
  | notBoolean option value =>
    "invalid boolean value " ++ Text.quote value ++ " for -" ++ option ++ ": parse error\n" ++ usage

def code : Refusal → UInt8
  | help => 0
  | _ => 2

end Refusal

inductive Argument where
  /-- One or two hyphens, a name, and a value after an equals sign if there is one. -/
  | option (name : String) (value : Option String)
  | terminator
  | file
  | malformed
  deriving DecidableEq, Repr

namespace Argument

/-- Splits an option into its name and its value. The name is not empty, so an equals sign at its
start does not end it. -/
def split (body : List Char) : Argument :=
  let name := body.take 1 ++ (body.drop 1).takeWhile (· ≠ '=')
  let value := match body.drop name.length with
    | [] => none
    | _ :: value => some (String.ofList value)
  .option (String.ofList name) value

def ofString (argument : String) : Argument :=
  match argument.toList with
  | ['-', '-'] => .terminator
  | '-' :: '-' :: '-' :: _ | '-' :: '-' :: '=' :: _ | '-' :: '=' :: _ => .malformed
  | '-' :: '-' :: body => split body
  | '-' :: c :: rest => split (c :: rest)
  -- a single hyphen is a name of a file, and so is an empty argument
  | _ => .file

end Argument

namespace Invocation

def boolean? (text : String) : Option Bool :=
  if text ∈ ["1", "t", "T", "true", "TRUE", "True"] then some true
  else if text ∈ ["0", "f", "F", "false", "FALSE", "False"] then some false
  else none

/-- Reads the arguments over what is known already. An option that comes again counts anew. -/
def read (known : Invocation) : List String → Except Refusal Invocation
  | [] => .ok known
  | argument :: rest =>
    match Argument.ofString argument with
    | .file => .ok { known with files := argument :: rest }
    | .terminator => .ok { known with files := rest }
    | .malformed => .error (.badSyntax argument)
    | .option name value =>
      if name = "config" then
        match value, rest with
        | some value, rest => read { known with settings := value } rest
        -- the next argument is the value, whatever it looks like
        | none, value :: rest => read { known with settings := value } rest
        | none, [] => .error (.missingValue name)
      else if name = "trace" then
        match value with
        | none => read { known with trace := true } rest
        | some value =>
          match boolean? value with
          | some trace => read { known with trace } rest
          | none => .error (.notBoolean name value)
      else if name = "help" ∨ name = "h" then .error .help
      else .error (.unknown name)

def parse (arguments : List String) : Except Refusal Invocation := read {} arguments

end Invocation

end ForthMachine.CommandLine
