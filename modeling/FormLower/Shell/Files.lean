import FormLower.Shell.Command

/-! # Files in memory

A tree of directories and files held as a value.  Paths are followed component by component from
the working directory or, if they start with a slash, from the root. -/

namespace FormLower

/-- What stands at a path. -/
inductive FileNode where
  | directory
  | file (bytes : ByteArray)

/-- Directories and files by their components, from the root; the root itself is always there. -/
structure Files where
  nodes : List (List String × FileNode)
  working : List String

namespace Files

/-- What stands at a path from the root. -/
def node? (fs : Files) (path : List String) : Option FileNode :=
  if path = [] then some .directory else (fs.nodes.find? fun n => n.1 = path).map Prod.snd

/-- Put something at a path from the root, instead of what is there. -/
def put (fs : Files) (path : List String) (node : FileNode) : Files :=
  { fs with nodes := (path, node) :: fs.nodes.filter fun n => n.1 ≠ path }

/-- Make the directories on the way to a path from the root. -/
def makeParents (fs : Files) : List String → List String → Files
  | done, part :: next :: rest =>
    let here := done ++ [part]
    let fs := match fs.node? here with
      | some _ => fs
      | none => fs.put here .directory
    fs.makeParents here (next :: rest)
  | _, _ => fs

/-- Put a file below the working directory, and the directories on the way to it. -/
def addFile (fs : Files) (path : String) (bytes : ByteArray) : Files :=
  let parts := fs.working ++ Path.components path
  (fs.makeParents [] parts).put parts (.file bytes)

/-- The longest name of a directory or file, in encoded bytes. -/
def maxNameLength : Nat := 255

/-- The longest path, in encoded bytes. -/
def maxPathLength : Nat := 4095

/-- Whether a component leads to a directory that is always there: the one it is in, or the one
above that. -/
def isDots (part : String) : Bool := part = "." || part = ".."

/-- Fail unless a directory stands at a path from the root. -/
def requireDirectory (fs : Files) (here : List String) : Except WriteFault Unit :=
  match fs.node? here with
  | some .directory => .ok ()
  | some (.file _) => .error .notDirectory
  | none => .error .noEntry

/-- Follow one component from a directory. -/
def descend (fs : Files) (here : List String) (part : String) :
    Except WriteFault (List String) := do
  fs.requireDirectory here
  if part = "" ∨ part = "." then .ok here
  else if part = ".." then .ok here.dropLast
  else if maxNameLength < part.utf8ByteSize then .error .nameTooLong
  else .ok (here ++ [part])

/-- Where a path starts. -/
def origin (fs : Files) (path : String) : List String :=
  if path.startsWith "/" then [] else fs.working

/-- Fail unless a path may be followed at all. -/
def checkPath (path : String) : Except WriteFault Unit :=
  if path = "" then .error .noEntry
  else if maxPathLength < path.utf8ByteSize then .error .nameTooLong
  else .ok ()

/-- Where a path leads to; all but its last component have to be directories. -/
def follow (fs : Files) (path : String) : Except WriteFault (List String) := do
  checkPath path
  (Path.split path).foldlM fs.descend (fs.origin path)

/-- The text of a file. -/
def readText (fs : Files) (path : String) : Option String :=
  match fs.follow path with
  | .error _ => none
  | .ok parts =>
    match fs.node? parts with
    | some (.file bytes) => String.fromUTF8? bytes
    | _ => none

/-- Where a file is made or overwritten.  A path that ends with a slash asks for a directory, also
where there is none; that is told before the name is looked up. -/
def followToWrite (fs : Files) (path : String) : Except WriteFault (List String) := do
  checkPath path
  let names := (Path.split path).filter (· ≠ "")
  match names.getLast? with
  | none => .error .isDirectory
  | some last => do
    let parent ← names.dropLast.foldlM fs.descend (fs.origin path)
    fs.requireDirectory parent
    if isDots last || path.endsWith "/" then .error .isDirectory
    else
      let here ← fs.descend parent last
      match fs.node? here with
      | some .directory => .error .isDirectory
      | _ => .ok here

/-- Write a text to a file, which is made if it is not there. -/
def writeText (fs : Files) (path text : String) : Except WriteFault Files := do
  let here ← fs.followToWrite path
  .ok (fs.put here (.file text.toUTF8))

/-- Files in memory as a host. -/
def host : Host (StateM Files) where
  readText path := do return (← get).readText path
  writeText path text := do
    match (← get).writeText path text with
    | .ok fs => set fs; return .ok ()
    | .error fault => return .error fault

end Files

end FormLower
