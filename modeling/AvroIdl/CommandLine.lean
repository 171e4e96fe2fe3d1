import AvroIdl.Text

/-!
# Command line

The arguments of the tool: a command, at most an input and an output, and options anywhere between
them. Asking for help or the version ends the reading at once.
-/
namespace AvroIdl.CommandLine

inductive Command where
  /-- Compile one file to a protocol, a schema or a list of schemas. -/
  | idl
  /-- Write one schema file per named type. -/
  | idlToSchemata
  deriving DecidableEq, Repr

structure Options where
  command : Option Command := none
  /-- Absent or a lone minus sign for standard input. -/
  input : Option Text := none
  /-- A file or, for schemata, a directory. -/
  output : Option Text := none
  importDirectories : List Text := []
  help : Bool := false
  version : Bool := false
  verbose : Bool := false
  deriving DecidableEq, Repr

/-- What is wrong with the arguments. -/
inductive UsageError where
  | missingCommand
  | unknownOption (argument : Text)
  | missingInput
  | missingImportDirectory
  | unknownCommand (argument : Text)
  | tooManyArguments (argument : Text)
  deriving DecidableEq, Repr

def UsageError.message : UsageError → Text
  | missingCommand => "AVDL-E1000 MissingCommand: expected 'idl' or 'idl2schemata'.\n"
  | unknownOption a => "AVDL-E1001 UnknownOption: unrecognised option '" ++ a ++ "'.\n"
  | missingInput =>
    "AVDL-E1002 MissingInput: idl2schemata requires an input file or directory.\n"
  | missingImportDirectory =>
    "AVDL-E1003 MissingImportDir: expected directory after --import-dir option.\n"
  | unknownCommand a =>
    "AVDL-E1004 UnknownCommand: expected 'idl' or 'idl2schemata', got '" ++ a ++ "'.\n"
  | tooManyArguments a => "AVDL-E1005 TooManyArguments: unexpected argument '" ++ a ++ "'.\n"

/-- The options when all arguments have been read: the first positional one is the input and the
second the output. -/
def finish (o : Options) (positional : List Text) : Except UsageError Options :=
  match o.command with
  | none => .error .missingCommand
  | some command =>
    match positional with
    | _ :: _ :: extra :: _ => .error (.tooManyArguments extra)
    | _ =>
      let o := { o with input := positional[0]?, output := positional[1]? }
      if command = .idlToSchemata ∧ (o.input = none ∨ o.input = some ("-" : Text)) then
        .error .missingInput
      else .ok o

/-- Reads the arguments from the left. A lone minus sign is positional. -/
def readFrom (o : Options) (positional : List Text) : List Text → Except UsageError Options
  | [] => finish o positional
  | a :: rest =>
    if a = "--help" ∨ a = "-h" then .ok { o with help := true }
    else if a = "--version" then .ok { o with version := true }
    else if a = "--verbose" ∨ a = "-v" then readFrom { o with verbose := true } positional rest
    else
      match Text.dropStart "--import-dir=" a with
      | some [] => .error .missingImportDirectory
      | some directory =>
        readFrom { o with importDirectories := o.importDirectories ++ [directory] } positional rest
      | none =>
        if a = "--import-dir" then
          match rest with
          | [] => .error .missingImportDirectory
          | directory :: rest =>
            readFrom { o with importDirectories := o.importDirectories ++ [directory] }
              positional rest
        else if 1 < a.length ∧ a.head? = some Byte.minus then .error (.unknownOption a)
        else
          match o.command with
          | some _ => readFrom o (positional ++ [a]) rest
          | none =>
            if a = "idl" then readFrom { o with command := some .idl } positional rest
            else if a = "idl2schemata" then
              readFrom { o with command := some .idlToSchemata } positional rest
            else .error (.unknownCommand a)

/-- The options in the arguments after the tool's own name. -/
def parse (arguments : List Text) : Except UsageError Options := readFrom {} [] arguments

end AvroIdl.CommandLine
