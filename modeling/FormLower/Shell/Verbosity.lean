import FormLower.Lowering.Run

/-! # Which notices are shown

Notices are shown from a severity on.  Switches on the command line decide which; without any, the
environment may. -/

namespace FormLower

namespace Severity

/-- The severity that switches ask for: warnings by default, more the more often the switch for
verbosity is given, and only errors if quiet is asked for. -/
def ofSwitches (verbosity : Nat) (quiet : Bool) : Severity :=
  if quiet then .error
  else
    match verbosity with
    | 0 => .warn
    | 1 => .info
    | 2 => .debug
    | _ => .trace

/-- The name of a severity in a filter. -/
def filterName : Severity → String
  | .error => "error"
  | .warn => "warn"
  | .info => "info"
  | .debug => "debug"
  | .trace => "trace"

/-- The filter of a name or a number; `some none` shows nothing. -/
def ofFilter? (name : String) : Option (Option Severity) :=
  let lower := String.ofList (name.toList.map Char.toLower)
  if lower = "off" ∨ lower = "0" then some none
  else if lower = "error" ∨ lower = "1" ∨ lower = "" then some (some .error)
  else if lower = "warn" ∨ lower = "2" then some (some .warn)
  else if lower = "info" ∨ lower = "3" then some (some .info)
  else if lower = "debug" ∨ lower = "4" then some (some .debug)
  else if lower = "trace" ∨ lower = "5" then some (some .trace)
  else none

end Severity

/-- From which severity on notices are shown, if any are: switches come before the environment, and
a filter in the environment that names no severity shows nothing. -/
def shownFrom (verbosity : Nat) (quiet : Bool) (environment : Option String) : Option Severity :=
  if 0 < verbosity ∨ quiet then some (.ofSwitches verbosity quiet)
  else
    match environment with
    | some name => (Severity.ofFilter? name).getD none
    | none => some (.ofSwitches verbosity quiet)

namespace Notice

def isShown (limit : Option Severity) (n : Notice) : Bool :=
  match limit with
  | some limit => limit.within n.severity
  | none => false

/-- What a character of a notice is shown as: control characters that would act on a terminal are
shown by their code. -/
def showChar (c : Char) : List Char :=
  let n := c.toNat
  if n = 0x07 ∨ n = 0x08 ∨ n = 0x0c ∨ n = 0x1b ∨ n = 0x7f then
    let digits := Nat.toDigits 16 n
    ['\\', 'x'] ++ List.replicate (2 - digits.length) '0' ++ digits
  else if 0x80 ≤ n ∧ n < 0xa0 then
    ['\\', 'u', '\x7b'] ++ Nat.toDigits 16 n ++ ['\x7d']
  else [c]

/-- The line that a notice is shown as: its severity, flush right in five columns, and its text. -/
def shown (n : Notice) : String :=
  let label := n.severity.text
  String.ofList (List.replicate (5 - label.length) ' ') ++ label ++ " " ++
    String.ofList (n.text.toList.flatMap showChar) ++ "\n"

end Notice

end FormLower
