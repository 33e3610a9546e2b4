/-! # Command-line arguments

The arguments are read one after the other.  Switches may stand before or after the name of the
command; the options and the file belong to the command `lower`.  Reading stops at the first
request for help or for the version, or at the first argument that does not fit. -/

namespace FormLower

/-- What is printed of a lowered file. -/
inductive Dump where
  | tree
  | target
  | json
deriving DecidableEq, Repr

/-- The dump of a name. -/
def Dump.ofName? : String → Option Dump
  | "tree" => some .tree
  | "target" => some .target
  | "json" => some .json
  | _ => none

/-- What is asked of the command `lower`. -/
structure LowerRequest where
  file : String
  dump : Dump
  name : Option String
  output : Option String
deriving DecidableEq, Repr

/-- What the program is asked to do. -/
inductive Command where
  | lower (request : LowerRequest)
  | forms
  | idle
deriving DecidableEq, Repr

/-- The switches that every command has. -/
structure Switches where
  verbosity : Nat
  quiet : Bool
deriving DecidableEq, Repr

def Switches.none : Switches := ⟨0, false⟩

/-- Switches given before the name of a command and after it: the later ones count, the earlier
ones only where there are no later ones. -/
def Switches.orElse (later earlier : Switches) : Switches :=
  ⟨if later.verbosity = 0 then earlier.verbosity else later.verbosity,
    later.quiet || earlier.quiet⟩

/-- A command with its switches. -/
structure Invocation where
  command : Command
  switches : Switches
deriving DecidableEq, Repr

/-- Why reading arguments stops early. -/
inductive Stop where
  | help
  | version
  | misuse
deriving DecidableEq, Repr

/-! ### Reading arguments -/

/-- An option that takes a value. -/
inductive ValueOption where
  | dump
  | name
  | output
deriving DecidableEq, Repr

/-- The command that arguments are read for; for help, whether it has been asked about a command
already. -/
inductive Scope where
  | top
  | lower
  | forms
  | help (named : Bool)
deriving DecidableEq, Repr

/-- What has been read. -/
structure ArgState where
  scope : Scope
  /-- the switches before the name of the command -/
  earlier : Switches
  /-- the switches since -/
  switches : Switches
  file : Option String
  dump : Option Dump
  name : Option String
  output : Option String
  /-- the option whose value comes next -/
  pending : Option ValueOption
  /-- whether only files may follow -/
  onlyFiles : Bool
deriving DecidableEq, Repr

namespace ArgState

/-- Nothing has been read. -/
def start : ArgState := ⟨.top, .none, .none, none, none, none, none, none, false⟩

/-- Count a switch for verbosity. -/
def moreVerbose (s : ArgState) : ArgState :=
  { s with switches := { s.switches with verbosity := min 255 (s.switches.verbosity + 1) } }

/-- Take the switch for quiet, which may be given once. -/
def beQuiet (s : ArgState) : Except Stop ArgState :=
  if s.switches.quiet then .error .misuse
  else .ok { s with switches := { s.switches with quiet := true } }

/-- Give an option its value, which it may be given once. -/
def setOption (s : ArgState) (option : ValueOption) (value : String) : Except Stop ArgState :=
  match option, s.dump, s.name, s.output, Dump.ofName? value with
  | .dump, none, _, _, some dump => .ok { s with dump := some dump }
  | .name, _, none, _, _ => .ok { s with name := some value }
  | .output, _, _, none, _ => .ok { s with output := some value }
  | _, _, _, _, _ => .error .misuse

/-- The option of a letter. -/
def shortOption? : Char → Option ValueOption
  | 'd' => some .dump
  | 'n' => some .name
  | 'o' => some .output
  | _ => none

/-- The option of a word. -/
def longOption? : String → Option ValueOption
  | "dump" => some .dump
  | "name" => some .name
  | "output" => some .output
  | _ => none

/-- Read an option with what follows its letter in the same argument: its value, after an equals
sign or not, or nothing if the value is the next argument. -/
def attached (s : ArgState) (option : ValueOption) : List Char → Except Stop ArgState
  | [] => .ok { s with pending := some option }
  | '=' :: value => s.setOption option (String.ofList value)
  | value => s.setOption option (String.ofList value)

/-- Read the letters of an argument that starts with one dash. -/
def letters (s : ArgState) : List Char → Except Stop ArgState
  | [] => .ok s
  | 'v' :: cs => s.moreVerbose.letters cs
  | 'q' :: cs =>
    match s.beQuiet with
    | .ok s' => s'.letters cs
    | .error stop => .error stop
  | 'h' :: _ => .error .help
  | 'V' :: _ => .error (if s.scope = .top then .version else .misuse)
  | c :: cs =>
    match shortOption? c with
    | some option => if s.scope = .lower then s.attached option cs else .error .misuse
    | none => .error .misuse

/-- Read the word of an argument that starts with two dashes, with the value after an equals sign
if there is one. -/
def word (s : ArgState) (name : String) (value : Option String) : Except Stop ArgState :=
  match name, value with
  | "verbose", none => .ok s.moreVerbose
  | "quiet", none => s.beQuiet
  | "help", none => .error .help
  | "version", none => .error (if s.scope = .top then .version else .misuse)
  | name, value =>
    match longOption? name, value with
    | some option, value =>
      if s.scope = .lower then
        match value with
        | some value => s.setOption option value
        | none => .ok { s with pending := some option }
      else .error .misuse
    | none, _ => .error .misuse

/-- Cut an argument at its first equals sign. -/
def cutEquals (cs : List Char) : String × Option String :=
  match cs.dropWhile (· ≠ '=') with
  | [] => (String.ofList cs, none)
  | _ :: value => (String.ofList (cs.takeWhile (· ≠ '=')), some (String.ofList value))

/-- Read a file, of which there may be one. -/
def takeFile (s : ArgState) (file : String) : Except Stop ArgState :=
  match s.scope, s.file with
  | .lower, none => .ok { s with file := some file }
  | _, _ => .error .misuse

/-- Go on with the arguments of a command. -/
def enter (s : ArgState) (scope : Scope) : ArgState :=
  { s with scope := scope, earlier := s.switches, switches := .none }

/-- Read an argument that is no switch and no option. -/
def plain (s : ArgState) (arg : String) : Except Stop ArgState :=
  match s.scope, arg with
  | .top, "lower" => .ok (s.enter .lower)
  | .top, "forms" => .ok (s.enter .forms)
  | .top, "help" => .ok (s.enter (.help false))
  | _, _ => s.takeFile arg

/-- Read the name of a command that help is asked about. -/
def helpTopic (s : ArgState) (named : Bool) (arg : String) : Except Stop ArgState :=
  if !named && (arg = "lower" || arg = "forms" || arg = "help") then
    .ok { s with scope := .help true }
  else .error .misuse

def step (s : ArgState) (arg : String) : Except Stop ArgState :=
  match s.scope, s.pending, s.onlyFiles, arg.toList with
  | .help named, _, _, _ => s.helpTopic named arg
  | _, _, true, _ => s.takeFile arg
  | _, none, false, ['-', '-'] => .ok { s with onlyFiles := true }
  | _, none, false, '-' :: '-' :: cs => s.word (cutEquals cs).1 (cutEquals cs).2
  | _, none, false, '-' :: c :: cs => s.letters (c :: cs)
  | _, none, false, _ => s.plain arg
  | _, some _, false, '-' :: _ :: _ => .error .misuse
  | _, some option, false, _ => { s with pending := none }.setOption option arg

/-- What has been asked for when the arguments end here. -/
def finish (s : ArgState) : Except Stop Invocation :=
  let switches := s.switches.orElse s.earlier
  match s.scope, s.pending, s.file with
  | .top, _, _ => .ok ⟨.idle, switches⟩
  | .forms, _, _ => .ok ⟨.forms, switches⟩
  | .help _, _, _ => .error .help
  | .lower, none, some file => .ok ⟨.lower ⟨file, s.dump.getD .target, s.name, s.output⟩, switches⟩
  | .lower, _, _ => .error .misuse

end ArgState

/-- Read the arguments of the program. -/
def Invocation.ofArguments (args : List String) : Except Stop Invocation := do
  let s ← args.foldlM ArgState.step ArgState.start
  s.finish

end FormLower
