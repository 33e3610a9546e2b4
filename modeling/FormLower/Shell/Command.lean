import FormLower.Encoding.Target
import FormLower.Lowering
import FormLower.Shell.Arguments
import FormLower.Shell.FormsTable
import FormLower.Shell.Path
import FormLower.Shell.Verbosity

/-! # Commands

What the program does with its arguments.  Files are reached through a host, so that the same
commands run on a disk and on files held in memory. -/

namespace FormLower

/-! ### Hosts -/

/-- Why a file cannot be written. -/
inductive WriteFault where
  | noEntry
  | notDirectory
  | isDirectory
  | denied
  | nameTooLong
  /-- A path with a null character in it leads nowhere. -/
  | nullCharacter
  | other (code : Nat) (reason : String)
deriving DecidableEq, Repr

def WriteFault.text : WriteFault → String
  | .noEntry => "No such file or directory (os error 2)"
  | .notDirectory => "Not a directory (os error 20)"
  | .isDirectory => "Is a directory (os error 21)"
  | .denied => "Permission denied (os error 13)"
  | .nameTooLong => "File name too long (os error 36)"
  | .nullCharacter => "file name contained an unexpected NUL byte"
  | .other code reason => reason ++ " (os error " ++ toString code ++ ")"

/-- How files are reached.  Paths with a null character are not asked for. -/
structure Host (m : Type → Type) where
  /-- the text of a file, if there is one and it is text -/
  readText : String → m (Option String)
  /-- write a text to a file, instead of what is in it -/
  writeText : String → String → m (Except WriteFault Unit)

namespace Host

variable {m : Type → Type} [Monad m]

def readAt (host : Host m) (path : String) : m (Option String) :=
  if Path.hasNull path then pure none else host.readText path

def writeAt (host : Host m) (path text : String) : m (Except WriteFault Unit) :=
  if Path.hasNull path then pure (.error .nullCharacter) else host.writeText path text

end Host

/-! ### The command `lower` -/

/-- A run of a command. -/
abbrev CommandRun (α : Type) : Type := Run Report α

/-- What is printed of the trees of a script. -/
def Dump.render (dump : Dump) (name : String) (forest : List Source) : CommandRun String :=
  match dump with
  | .tree => pure (String.join (forest.map fun s => s.text ++ "\n"))
  | .target => do
    let program ← (compile name forest).mapError LoweringError.report
    pure program.listing
  | .json => do
    let program ← (compile name forest).mapError LoweringError.report
    pure (program.stored ++ "\n")

namespace LowerRequest

/-- What is printed, given the text of the file if it can be read. -/
def render (r : LowerRequest) (content : Option String) : CommandRun String :=
  match content with
  | none => .fail (missingScript r.file)
  | some content => do
    let script := Script.atPath r.file content
    let forest ← Run.ofExcept (script.read.mapError ReadError.report)
    Run.note (.read forest.length script.name)
    r.dump.render (r.name.getD (Script.moduleName r.file script.name)) forest

/-- The report of an output that cannot be written. -/
def writeFailure (path : String) (fault : WriteFault) : Report :=
  outputFailure ("Failed to write " ++ path ++ ": " ++ fault.text)

/-- Read the file and print the result, or write it to the output file; what is given back is what
is printed. -/
def execute {m : Type → Type} [Monad m] (host : Host m) (r : LowerRequest) :
    m (CommandRun String) := do
  let content ← host.readAt r.file
  let run := r.render content
  match run.result, r.output with
  | .ok text, some path => do
    match ← host.writeAt path text with
    | .ok () => pure ⟨run.notices, .ok ""⟩
    | .error fault => pure ⟨run.notices, .error (writeFailure path fault)⟩
  | _, _ => pure run

end LowerRequest

/-- Execute a command; what is given back is what is printed. -/
def Command.execute {m : Type → Type} [Monad m] (host : Host m) :
    Command → m (CommandRun String)
  | .lower request => request.execute host
  | .forms => pure (pure (Forms.default.table.text ++ "\n"))
  | .idle =>
    pure (pure "No valid subcommand was used. Use --help for more information.\n")

/-! ### The program -/

/-- How the program ends: its exit code and what it prints on its two outputs. -/
structure Ending where
  code : UInt32
  stdout : String
  stderr : String
deriving DecidableEq, Repr

/-- What the program tells about its use. -/
def helpText : String :=
  "Lowers Lisp-style source into an imperative program tree\n\n" ++
  "Usage: hyforge [OPTIONS] [COMMAND]\n\n" ++
  "Commands:\n" ++
  "  lower  Lower a source file and print the resulting program\n" ++
  "  forms  List the structural and special forms the lowerer recognizes\n" ++
  "  help   Print this message or the help of the given subcommand(s)\n\n" ++
  "Options:\n" ++
  "  -v, --verbose...  Increase log verbosity (repeatable)\n" ++
  "  -q, --quiet       Only log errors\n" ++
  "  -h, --help        Print help\n" ++
  "  -V, --version     Print version\n"

namespace Ending

/-- The end of a program whose arguments were not for running a command. -/
def ofStop : Stop → Ending
  | .help => ⟨0, helpText, ""⟩
  | .version => ⟨0, "hyforge 0.1.0\n", ""⟩
  | .misuse => ⟨2, "", "error: invalid arguments\n\n" ++ helpText⟩

/-- The end of a command: the notices that are shown, and what is printed or the report. -/
def ofRun (limit : Option Severity) (run : CommandRun String) : Ending :=
  let notices := String.join ((run.notices.filter (Notice.isShown limit)).map Notice.shown)
  match run.result with
  | .ok text => ⟨0, text, notices⟩
  | .error report => ⟨1, "", notices ++ report.summary ++ "\n"⟩

end Ending

/-- Run the program with its arguments and the filter for notices in its environment. -/
def runProgram {m : Type → Type} [Monad m] (host : Host m) (args : List String)
    (filter : Option String) : m Ending :=
  match Invocation.ofArguments args with
  | .error stop => pure (.ofStop stop)
  | .ok i => do
    let run ← i.command.execute host
    pure (.ofRun (shownFrom i.switches.verbosity i.switches.quiet filter) run)

end FormLower
