import ByteTape.CommandLine.Usage

/-! What a list of arguments asks for. Arguments are read from the left: the first
flag, or the first thing that is wrong, decides. -/
namespace ByteTape.CommandLine

inductive Request where
  | run (file : String)
  | print (text : String)
  | refuse (e : UsageError)
  deriving DecidableEq

inductive Argument where
  | separator
  /-- A long flag and what follows its equals sign. -/
  | long (name : String) (value : Option String)
  /-- The first letter after a single dash; no letter lets another one count. -/
  | short (letter : Char)
  | file (name : String)
  deriving DecidableEq

/-- A single dash is a file name. -/
def Argument.read (text : String) : Argument :=
  match text.toList with
  | ['-', '-'] => .separator
  | '-' :: '-' :: flag =>
    .long (String.ofList (flag.takeWhile (· ≠ '=')))
      (match flag.dropWhile (· ≠ '=') with
        | [] => none
        | _ :: value => some (String.ofList value))
  | '-' :: letter :: _ => .short letter
  | _ => .file text

/-- A flag is obeyed at once, unless the file before it has no name. -/
def obey (file : Option String) (text : String) : Request :=
  if file = some "" then .refuse .emptyFile else .print text

def settled : Option String → Request
  | none => .refuse .missingFile
  | some "" => .refuse .emptyFile
  | some file => .run file

def readFiles : Option String → List String → Request
  | file, [] => settled file
  | none, name :: rest => readFiles (some name) rest
  | some _, name :: _ => .refuse (.extra name)

def readArguments : Option String → List String → Request
  | file, [] => settled file
  | file, text :: rest =>
    match Argument.read text with
    | .separator => readFiles file rest
    | .long "help" none => obey file longHelp
    | .long "version" none => obey file versionText
    | .long "help" (some value) => .refuse (.unexpectedValue .help value)
    | .long "version" (some value) => .refuse (.unexpectedValue .version value)
    | .long name _ => .refuse (.unknown s!"--{name}" (propose name))
    | .short 'h' => obey file shortHelp
    | .short 'V' => obey file versionText
    | .short letter => .refuse (.unknown s!"-{letter}" none)
    | .file name =>
      match file with
      | none => readArguments (some name) rest
      | some _ => .refuse (.extra name)

def Request.read (arguments : List String) : Request := readArguments none arguments

end ByteTape.CommandLine
