import StubInference.Inference

/-!
# Command line

The program reads the code object of a module from a file and prints the stub of the module, or
with `--check` its findings. Options may come from a settings file.

## Main definitions

* `Invocation`, `Invocation.parse` — what a command line asks for
* `Invocation.output?` — what is printed and what is reported besides
* `main` — read the files, print and set the exit code
-/

namespace StubInference

/-- What a command line asks for. -/
structure Invocation where
  input : Option String
  config : Option String
  output : Option String
  checkOnly : Bool

/-- Why a command line is refused: it asks for help, an argument is unknown, the file name behind an
argument is missing, or no input file is named. -/
inductive Refusal where
  | help
  | unknownArgument (argument : String)
  | missingValue
  | noInput

/-- How the program is to be called. -/
def usage : String :=
  "Usage: stub-inference [--config FILE] [--check] [--output FILE] [--verbose] <code.json>"

/-- The lines that a refused command line is answered by. -/
def Refusal.lines : Refusal → List String
  | .help | .missingValue => [usage]
  | .unknownArgument argument => ["Unknown argument: " ++ argument, usage]
  | .noInput => ["Error: input file required", usage]

namespace Invocation

/-- A command line without arguments. -/
def empty : Invocation := ⟨none, none, none, false⟩

/-- Read arguments from left to right. The last of several input files counts. `--verbose` is
accepted and changes nothing. -/
def parseFrom (found : Invocation) : List String → Except Refusal Invocation
  | [] => .ok found
  | ["-c"] | ["--config"] | ["-o"] | ["--output"] => .error .missingValue
  | "-c" :: path :: rest | "--config" :: path :: rest =>
    parseFrom { found with config := some path } rest
  | "-o" :: path :: rest | "--output" :: path :: rest =>
    parseFrom { found with output := some path } rest
  | "--check" :: rest => parseFrom { found with checkOnly := true } rest
  | "-v" :: rest | "--verbose" :: rest => parseFrom found rest
  | "-h" :: _ | "--help" :: _ => .error .help
  | argument :: rest =>
    if argument.startsWith "-" then .error (.unknownArgument argument)
    else parseFrom { found with input := some argument } rest

/-- Read a command line. -/
def parse (arguments : List String) : Except Refusal Invocation := parseFrom empty arguments

/-- The text to print for the source of a code object, and the findings to report besides. -/
def output? (invocation : Invocation) (source : String) (options : Options) :
    Except Fault (String × Log) := do
  let code ← readCode source options
  if invocation.checkOnly then pure ((← checkTypes code options).text, [])
  else
    let (unit, log) ← inferTypes code options
    pure (unit.text, log)

end Invocation

/-! ## Files -/

/-- Report a fault and end with exit code one. -/
def reportFault (message : String) : IO UInt32 := do
  IO.eprintln ("Error: " ++ message)
  pure 1

/-- Answer a refused command line and end with exit code one. -/
def Refusal.report (refusal : Refusal) : IO UInt32 := do
  refusal.lines.forM fun line => IO.eprintln line
  pure 1

/-- Read a whole file, or say why it cannot be read. -/
def readText (path : String) : IO (Except String String) := do
  try pure (.ok (← IO.FS.readFile path))
  catch cause => pure (.error (toString cause))

/-- The options that the settings file holds, if one is named. The input file names the analysed
module where the settings do not. -/
def loadOptions (config : Option String) (input : String) : IO (Except String Options) := do
  let named (options : Options) : Options :=
    { options with input := some (options.input.getD input) }
  match config with
  | none => pure (.ok (named .standard))
  | some path =>
    match ← readText path with
    | .error cause => pure (.error s!"cannot read config '{path}': {cause}")
    | .ok source =>
      match Options.parse? source with
      | some options => pure (.ok (named options))
      | none => pure (.error s!"invalid config: {path}")

/-- Print a text, or write it to the file that is named. -/
def writeText (path : Option String) (text : String) : IO UInt32 := do
  match path with
  | none => do
    IO.print text
    pure 0
  | some path =>
    try
      IO.FS.writeFile path text
      pure 0
    catch cause => reportFault s!"failed to write '{path}': {cause}"

/-- Do what a command line asks for. -/
def execute (invocation : Invocation) (input : String) : IO UInt32 := do
  match ← loadOptions invocation.config input with
  | .error message => reportFault message
  | .ok options =>
    match ← readText input with
    | .error cause => reportFault s!"failed to read input file '{input}': {cause}"
    | .ok source =>
      match invocation.output? source options with
      | .error (.panic cause) => do
        IO.eprintln cause.message
        pure 101
      | .error cause => reportFault cause.message
      | .ok (text, log) => do
        log.forM fun finding => IO.eprintln finding.text
        writeText invocation.output text

end StubInference

/-- Run the program. The exit code is one after any fault, and a larger one after a panic. -/
def main (arguments : List String) : IO UInt32 := do
  match StubInference.Invocation.parse arguments with
  | .error refusal => refusal.report
  | .ok invocation =>
    match invocation.input with
    | none => StubInference.Refusal.noInput.report
    | some input => StubInference.execute invocation input
