/-!
Splitting the words of a command line into options.

An option has a long name. It takes a value, behind an equals sign or in the next word, or stands
alone as a switch. A word that begins with a hyphen is no value unless it is just the hyphen. No
option may be given twice, and `--` ends the options.
-/
namespace Codemod

inductive UsageError where
  | noCommand
  | unknownCommand (word : String)
  | unexpectedArgument (word : String)
  | missingValue (option : String)
  | unexpectedValue (option : String)
  | repeated (option : String)
  | conflict (first second : String)
  | invalidValue (option value : String)
  deriving DecidableEq, Repr

def UsageError.message : UsageError → String
  | noCommand => "a command is required"
  | unknownCommand word => "unknown command '" ++ word ++ "'"
  | unexpectedArgument word => "unexpected argument '" ++ word ++ "'"
  | missingValue option => "a value is required for '--" ++ option ++ "'"
  | unexpectedValue option => "no value is expected for '--" ++ option ++ "'"
  | repeated option => "'--" ++ option ++ "' cannot be used more than once"
  | conflict first second => "'--" ++ first ++ "' cannot be used with '--" ++ second ++ "'"
  | invalidValue option value => "invalid value '" ++ value ++ "' for '--" ++ option ++ "'"

structure OptionNames where
  valued : List String
  switches : List String

abbrev GivenOptions := List (String × Option String)

/-- What a word of the command line is. -/
inductive Word where
  /-- The mark that ends the options. -/
  | terminator
  /-- A long option and the value attached to it. -/
  | long (name : String) (value : Option String)
  /-- Options of one letter. -/
  | short (letters : List Char)
  | plain (text : String)

namespace Word

def ofLong (cs : List Char) : Word :=
  let name := String.ofList (cs.takeWhile fun c => c != '=')
  match cs.dropWhile fun c => c != '=' with
  | [] => long name none
  | _ :: value => long name (some (String.ofList value))

def ofText (text : String) : Word :=
  match text.toList with
  | ['-', '-'] => terminator
  | '-' :: '-' :: rest => ofLong rest
  | '-' :: first :: rest => short (first :: rest)
  | _ => plain text

end Word

inductive OptionsResult where
  | given (options : GivenOptions)
  /-- Help was asked for. -/
  | help
  | refused (error : UsageError)

namespace OptionsResult

/-- Adds an option unless it was given before. -/
def add (options : GivenOptions) (name : String) (value : Option String) :
    Except UsageError GivenOptions :=
  if options.any fun option => option.1 == name then .error (.repeated name)
  else .ok (options ++ [(name, value)])

/-- Reads the options of a command. An option may be waiting for its value. -/
def read (names : OptionNames) : Option String → List String → GivenOptions → OptionsResult
  | none, [], options => given options
  | some waiting, [], _ => refused (.missingValue waiting)
  | some waiting, word :: rest, options =>
    match Word.ofText word with
    | .plain value =>
      match add options waiting (some value) with
      | .ok options => read names none rest options
      | .error error => refused error
    | _ => refused (.missingValue waiting)
  | none, word :: rest, options =>
    match Word.ofText word with
    | .terminator =>
      match rest with
      | [] => given options
      | next :: _ => refused (.unexpectedArgument next)
    | .plain text => refused (.unexpectedArgument text)
    | .short letters =>
      if letters.head? = some 'h' then help else refused (.unexpectedArgument word)
    | .long name value =>
      if names.valued.contains name then
        match value with
        | none => read names (some name) rest options
        | some value =>
          match add options name (some value) with
          | .ok options => read names none rest options
          | .error error => refused error
      else if names.switches.contains name || name == "help" then
        if value.isSome then refused (.unexpectedValue name)
        else if name == "help" then help
        else
          match add options name none with
          | .ok options => read names none rest options
          | .error error => refused error
      else refused (.unexpectedArgument word)

end OptionsResult

def GivenOptions.value? (options : GivenOptions) (name : String) : Option String :=
  (options.lookup name).bind id

def GivenOptions.isGiven (options : GivenOptions) (name : String) : Bool :=
  (options.lookup name).isSome

end Codemod
