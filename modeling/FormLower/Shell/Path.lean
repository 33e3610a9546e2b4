import FormLower.Surface.Reader
import FormLower.Text.Quoted

/-! # Paths

A path is a text whose components are separated by slashes.  Empty components and single dots only
matter at the beginning of a path. -/

namespace FormLower
namespace Path

/-- The parts of a path between its slashes. -/
def parts : List Char → List (List Char)
  | [] => [[]]
  | c :: cs =>
    match parts cs with
    | [] => [[]]
    | part :: rest => if c = '/' then [] :: part :: rest else (c :: part) :: rest

/-- The texts between the slashes of a path. -/
def split (path : String) : List String := (parts path.toList).map String.ofList

/-- Whether there is a null character in a path. -/
def hasNull (path : String) : Bool := path.toList.any (· = '\x00')

/-- The components of a path that lead somewhere. -/
def components (path : String) : List String :=
  (split path).filter fun part => part ≠ "" && part ≠ "."

/-- The last component of a path, unless it leads upwards. -/
def fileName? (path : String) : Option String :=
  match (components path).getLast? with
  | some ".." => none
  | last => last

/-- A file name without its extension: what is before the last dot, if there is anything before
it. -/
def withoutExtension (name : String) : String :=
  let reversed := name.toList.reverse
  match reversed.dropWhile (· ≠ '.') with
  | _ :: stem => if stem = [] then name else String.ofList stem.reverse
  | [] => name

/-- The file name of a path without its extension. -/
def fileStem? (path : String) : Option String := (fileName? path).map withoutExtension

end Path

/-! ### Scripts in files -/

/-- The report of a script that cannot be read. -/
def missingScript (path : String) : Report :=
  ⟨.error, "Missing script at " ++ quote path, "hyforge.script", .unknown⟩

/-- The report of output that cannot be written. -/
def outputFailure (message : String) : Report := ⟨.error, message, "hyforge.cli", .unknown⟩

namespace Script

/-- The script at a path; it is named by its file name. -/
def atPath (path content : String) : Script := ⟨(Path.fileName? path).getD "", content⟩

/-- The name of the program that a script at a path is lowered to. -/
def moduleName (path scriptName : String) : String := (Path.fileStem? path).getD scriptName

end Script

end FormLower
