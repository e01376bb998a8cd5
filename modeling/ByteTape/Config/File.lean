import ByteTape.Config.Setting
import ByteTape.Error
import ByteTape.Text.Utf8

/-! Configuration files. Lines of the form key = value count below a header line
`[interpreter]` and above the next header. A line that cannot be applied is
reported with its number and changes nothing. -/
namespace ByteTape
namespace Config

inductive Line where
  /-- Blank, or a comment. -/
  | skipped
  | header (name : List Char)
  | entry (key value : List Char)
  /-- Neither a header nor a key with a value. -/
  | bare
  deriving DecidableEq

/-- A text cut at its line feeds. A carriage return before a line feed is blank
at the end of its line. -/
def lines (text : List Char) : List (List Char) :=
  text.foldr
    (fun c rest =>
      if c = '\n' then [] :: rest
      else match rest with
        | [] => [[c]]
        | line :: rest => (c :: line) :: rest)
    [[]]

def splitEquals (line : List Char) : Option (List Char × List Char) :=
  match line.dropWhile (· ≠ '=') with
  | [] => none
  | _ :: value => some (line.takeWhile (· ≠ '='), value)

def unquote (value : List Char) : List Char :=
  if 2 ≤ value.length ∧ value.head? = some '"' ∧ value.getLast? = some '"' then
    value.tail.dropLast
  else value

def headerName? (line : List Char) : Option (List Char) :=
  if line.head? = some '[' ∧ line.getLast? = some ']' then
    some (Text.trim line.tail.dropLast)
  else none

def Line.read (raw : List Char) : Line :=
  let line := Text.trim raw
  if line = [] ∨ line.head? = some '#' then .skipped
  else match headerName? line with
    | some name => .header name
    | none =>
      match splitEquals line with
      | some (key, value) => .entry (Text.trim key) (unquote (Text.trim value))
      | none => .bare

def sectionName : List Char := "interpreter".toList

/-- A line that could not be applied; lines are numbered from 1. -/
structure Warning where
  line : Nat
  problem : Problem
  deriving DecidableEq

def Warning.message (w : Warning) : String := s!"line {w.line}: {w.problem.message}"

structure Draft where
  config : Config
  warnings : Array Warning
  /-- Whether the last header named the section that counts. -/
  active : Bool
  deriving DecidableEq

namespace Draft

def initial : Draft := ⟨{}, #[], false⟩

def warn (d : Draft) (n : Nat) (problem : Problem) : Draft :=
  { d with warnings := d.warnings.push ⟨n, problem⟩ }

def line (d : Draft) (n : Nat) (raw : List Char) : Draft :=
  match Line.read raw with
  | .skipped => d
  | .header name => { d with active := name == sectionName }
  | .entry key value =>
    if d.active then
      match Setting.read key value with
      | .ok setting => { d with config := d.config.set setting }
      | .error problem => d.warn n problem
    else d
  | .bare => if d.active then d.warn n .noEquals else d

end Draft

def parse (text : List Char) : Config × List Warning :=
  let d := ((lines text).zipIdx 1).foldl (fun d l => d.line l.2 l.1) Draft.initial
  (d.config, d.warnings.toList)

/-- The configuration in a file of which `content` was read, and the notices to
print. A file that cannot be read, or is no text, is as good as none. -/
def ofFile (path : String) (content : Except StreamError (List UInt8)) :
    Config × List String :=
  match content with
  | .error _ => ({}, [])
  | .ok bytes =>
    match Text.Utf8.decode? bytes with
    | none => ({}, [])
    | some text =>
      let (config, warnings) := parse text
      (config, warnings.map fun w => s!"{path}: {w.message}\n")

/-- Put a name below a directory. One slash is added unless the directory is
empty or ends in one; nothing else is touched. -/
def join (directory name : String) : String :=
  if directory.isEmpty || directory.endsWith "/" then directory ++ name
  else directory ++ "/" ++ name

/-- Where the configuration is looked for: in the configuration directory if one
is named, or else in the usual place below the home directory. -/
def location (home : String) (directory : Option String) : String :=
  join (directory.getD (join home ".config")) "tape-bf.toml"

end Config
end ByteTape
