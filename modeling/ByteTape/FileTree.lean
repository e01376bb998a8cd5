import ByteTape.Error

/-! Files and directories, and the reading of a file by its path, as the system
resolves it from a working directory. -/
namespace ByteTape

/-- Entries are lists of names from the root. The directories on the way to an entry
or to the working directory need not be listed. -/
structure FileTree where
  directories : List (List String)
  files : List (List String × List UInt8)
  /-- Where relative paths start. -/
  working : List String
  deriving DecidableEq

namespace FileTree

def pieces (path : String) : List String :=
  (path.split '/').map (·.toString) |>.toList

def names (path : String) : List String :=
  (pieces path).filter fun piece => piece ≠ "" && piece ≠ "."

def isAbsolute (path : String) : Bool := path.startsWith "/"

def origin (working : List String) (path : String) : List String :=
  if isAbsolute path then [] else working

def ofPaths (working : String) (directories : List String)
    (files : List (String × List UInt8)) : FileTree :=
  let place (path : String) := origin (names working) path ++ names path
  { directories := directories.map place
    files := files.map fun f => (place f.1, f.2)
    working := names working }

inductive Place where
  | directory (path : List String)
  | file (content : List UInt8)
  deriving DecidableEq

def hasDirectory (t : FileTree) (path : List String) : Bool :=
  path.isPrefixOf t.working || t.directories.any (path.isPrefixOf ·) ||
    t.files.any fun f => path.isPrefixOf f.1

def nameLimit : Nat := 255

def enter (t : FileTree) (directory : List String) (name : String) :
    Except StreamError Place :=
  if nameLimit < name.utf8ByteSize then .error .nameTooLong
  else
    let path := directory ++ [name]
    match t.files.lookup path with
    | some content => .ok (.file content)
    | none => if t.hasDirectory path then .ok (.directory path) else .error .noSuchFile

/-- Follow the pieces of a path. Every piece, also an empty one, is looked up in a
directory. The directory above the root is the root. -/
def walk (t : FileTree) : Place → List String → Except StreamError Place
  | place, [] => .ok place
  | .file _, _ :: _ => .error .notADirectory
  | .directory path, piece :: rest =>
    if piece = "" ∨ piece = "." then walk t (.directory path) rest
    else if piece = ".." then walk t (.directory path.dropLast) rest
    else match t.enter path piece with
      | .error e => .error e
      | .ok next => walk t next rest

def pathLimit : Nat := 4096

def read (t : FileTree) (path : String) : Except StreamError (List UInt8) :=
  if path.contains '\x00' then .error .zeroInName
  else if path.isEmpty then .error .noSuchFile
  else if pathLimit ≤ path.utf8ByteSize then .error .nameTooLong
  else match t.walk (.directory (origin t.working path)) (pieces path) with
    | .error e => .error e
    | .ok (.file content) => .ok content
    | .ok (.directory _) => .error .isADirectory

end FileTree
end ByteTape
