import BinarySchema.Command.Write

/-!
# Command line arguments

The first argument names a command.  Of the others, options open with two hyphens and take their
value from the next argument or from behind an equals sign; all further arguments are positional.
Every fault in the arguments is a usage error.
-/

namespace BinarySchema.Command

inductive Request where
  | types (request : TypesRequest)
  | read (request : ReadRequest)
  | write (request : WriteRequest)
  deriving DecidableEq, Repr

/-- Arguments sorted into positional ones, options with values, and flags. -/
structure Arguments where
  positional : List String := []
  options : List (String × String) := []
  flags : List String := []
  deriving DecidableEq, Repr

namespace Arguments

/-- An argument that cannot be a value: it opens with a hyphen and is longer than that. -/
def looksLikeOption (argument : String) : Bool :=
  match argument.toList with
  | '-' :: _ :: _ => true
  | _ => false

/-- The name behind the hyphens and, behind an equals sign, the value. -/
def splitOption (argument : List Char) : String × Option String :=
  let name := argument.takeWhile (· ≠ '=')
  match argument.drop name.length with
  | _ :: value => (String.ofList name, some (String.ofList value))
  | [] => (String.ofList name, none)

def addPositional (arguments : Arguments) (value : String) : Arguments :=
  { arguments with positional := arguments.positional ++ [value] }

/-- Nothing may be given twice. -/
def addOption? (arguments : Arguments) (name value : String) : Option Arguments :=
  if (arguments.options.lookup name).isSome then none
  else some { arguments with options := (name, value) :: arguments.options }

def addFlag? (arguments : Arguments) (name : String) : Option Arguments :=
  if name ∈ arguments.flags then none
  else some { arguments with flags := name :: arguments.flags }

/-- Sorts arguments; behind a lone double hyphen all of them are positional. -/
def sort? (options flags : List String) (sorted : Arguments) :
    List String → Option Arguments
  | [] => some sorted
  | argument :: rest =>
      match argument.toList with
      | '-' :: '-' :: [] => some (rest.foldl addPositional sorted)
      | '-' :: '-' :: option =>
          match splitOption option with
          | (name, some value) =>
              if name ∈ options then
                match sorted.addOption? name value with
                | some sorted => sort? options flags sorted rest
                | none => none
              else none
          | (name, none) =>
              if name ∈ flags then
                match sorted.addFlag? name with
                | some sorted => sort? options flags sorted rest
                | none => none
              else if name ∈ options then
                match rest with
                | value :: rest =>
                    if looksLikeOption value then none
                    else
                      match sorted.addOption? name value with
                      | some sorted => sort? options flags sorted rest
                      | none => none
                | [] => none
              else none
      | '-' :: _ :: _ => none
      | _ => sort? options flags (sorted.addPositional argument) rest

def option? (arguments : Arguments) (name : String) : Option String :=
  arguments.options.lookup name

/-! ## Values -/

def path? (text : String) : Option String :=
  if text.isEmpty then none else some text

def platform? (arguments : Arguments) : Option Platform :=
  match arguments.option? "target" with
  | none => some .arm
  | some id => (Platform.ofId id).toOption

def offset? (arguments : Arguments) : Option UInt64 :=
  match arguments.option? "offset" with
  | none => some 0
  | some text => Text.word? 10 text.toList

def json (arguments : Arguments) : Bool :=
  arguments.flags.contains "json"

/-! ## Commands -/

def types? (arguments : Arguments) : Option TypesRequest :=
  match arguments.positional with
  | [schema] => do
      let schema ← path? schema
      let platform ← arguments.platform?
      pure ⟨schema, arguments.option? "type", platform, arguments.json⟩
  | _ => none

/-- The bytes come from hexadecimal text or from a file, not from both. -/
def read? (arguments : Arguments) : Option ReadRequest :=
  match arguments.positional with
  | [schema, typeName] => do
      let schema ← path? schema
      let platform ← arguments.platform?
      let offset ← arguments.offset?
      match arguments.option? "hex", arguments.option? "file" with
      | some hex, none => pure ⟨schema, typeName, some hex, none, offset, platform, arguments.json⟩
      | none, some file => do
          let file ← path? file
          pure ⟨schema, typeName, none, some file, offset, platform, arguments.json⟩
      | _, _ => none
  | _ => none

def write? (arguments : Arguments) : Option WriteRequest :=
  match arguments.positional with
  | [schema, typeName] => do
      let schema ← path? schema
      let platform ← arguments.platform?
      let value ← arguments.option? "value"
      pure ⟨schema, typeName, value, platform, arguments.json⟩
  | _ => none

end Arguments

namespace Request

def ofArguments? : List String → Option Request
  | "types" :: rest => do
      let arguments ← Arguments.sort? ["type", "target"] ["json"] {} rest
      (arguments.types?).map .types
  | "read" :: rest => do
      let arguments ← Arguments.sort? ["hex", "file", "offset", "target"] ["json"] {} rest
      (arguments.read?).map .read
  | "write" :: rest => do
      let arguments ← Arguments.sort? ["value", "target"] ["json"] {} rest
      (arguments.write?).map .write
  | _ => none

def paths : Request → List String
  | .types request => [request.schema]
  | .read request => request.schema :: request.file.toList
  | .write request => [request.schema]

def run (request : Request) (files : Files) : Option (Except Error String) :=
  match request with
  | .types request => some (request.run files)
  | .read request => request.run files
  | .write request => some (request.run files)

end Request

/-! ## Whole runs -/

/-- How a run ended, with the text for the output or for the error stream. -/
inductive Exit where
  | success (output : String)
  | failure (complaint : String)
  deriving DecidableEq, Repr

/-- The run of a request; none if it has no end. -/
def execute (request : Request) (files : Files) : Option Exit := do
  match ← request.run files with
  | .ok output => pure (.success output)
  | .error failure => pure (.failure ("error: " ++ failure.message ++ "\n"))

end BinarySchema.Command
