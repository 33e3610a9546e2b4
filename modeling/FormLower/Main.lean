import FormLower.Shell.Command

/-! # The program

The commands on the files of the machine the program runs on. -/

open FormLower

/-- Why writing a file failed. -/
def writeFault : IO.Error → WriteFault
  | .noFileOrDirectory .. => .noEntry
  | .inappropriateType _ 20 _ => .notDirectory
  | .inappropriateType _ 21 _ => .isDirectory
  | .permissionDenied .. => .denied
  | .invalidArgument _ 36 _ => .nameTooLong
  | e => .other 0 (toString e)

/-- The files of the machine. -/
def disk : Host IO where
  readText path := do
    try
      let bytes ← IO.FS.readBinFile path
      return String.fromUTF8? bytes
    catch _ => return none
  writeText path text := do
    try
      IO.FS.writeBinFile path text.toUTF8
      return .ok ()
    catch e => return .error (writeFault e)

/-- Run the program with the arguments of its command line. -/
def main (args : List String) : IO UInt32 := do
  let ending ← runProgram disk args (← IO.getEnv "RUST_LOG")
  (← IO.getStderr).putStr ending.stderr
  (← IO.getStdout).putStr ending.stdout
  return ending.code
