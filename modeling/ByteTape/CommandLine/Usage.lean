import ByteTape.Text.Similarity
import ByteTape.Text.Terminal

/-! The texts of the command line: help, version, and what is wrong with a list of
arguments. -/
namespace ByteTape.CommandLine

def programName : String := "tape-bf"

inductive Flag where
  | help
  | version
  deriving DecidableEq

def Flag.long : Flag → String
  | help => "help"
  | version => "version"

def Flag.dashed (flag : Flag) : String := "--" ++ flag.long

def versionText : String := "tape-bf 0.1.0\n"

def printed (lines : List String) : String := String.join (lines.map (· ++ "\n"))

def shortHelp : String := printed [
  "A small byte-tape interpreter that resolves loop brackets by scanning at run time",
  "",
  "Usage: tape-bf <FILE>",
  "",
  "Arguments:",
  "  <FILE>  Program file; its whole contents are the program text",
  "",
  "Options:",
  "  -h, --help     Print help (see more with '--help')",
  "  -V, --version  Print version"]

def longHelp : String := printed [
  "Run a byte-tape program read from FILE.",
  "",
  "`.` writes raw bytes to stdout and `,` reads bytes from stdin. " ++
    "Policies such as end-of-input handling are read from tape-bf.toml in the user's " ++
    "config directory.",
  "",
  "Usage: tape-bf <FILE>",
  "",
  "Arguments:",
  "  <FILE>",
  "          Program file; its whole contents are the program text",
  "",
  "Options:",
  "  -h, --help",
  "          Print help (see a summary with '-h')",
  "",
  "  -V, --version",
  "          Print version"]

inductive UsageError where
  | missingFile
  /-- The empty text is no file. -/
  | emptyFile
  /-- A second file. -/
  | extra (argument : String)
  /-- A flag that there is not, shown with its dashes, and a flag that was perhaps meant. -/
  | unknown (flag : String) (meant : Option Flag)
  /-- A value for a flag that takes none. -/
  | unexpectedValue (flag : Flag) (value : String)
  deriving DecidableEq

open Text.Terminal (Style)

def usage (flag : Option Flag) : String :=
  let title := Style.title.apply "Usage:"
  let name := Style.literal.apply programName
  match flag with
  | none => s!"{title} {name} <FILE>"
  | some flag => s!"{title} {name} {Style.literal.apply flag.dashed} <FILE>"

def complaint (wrong : String) (details : List String) : String :=
  let more := s!"For more information, try '{Style.literal.apply Flag.help.dashed}'.\n"
  "\n\n".intercalate ((Style.error.apply "error:" ++ " " ++ wrong) :: details ++ [more])

def tip (advice : String) : String := "  " ++ Style.valid.apply "tip:" ++ " " ++ advice

def UsageError.styled : UsageError → String
  | missingFile =>
    complaint ("the following required arguments were not provided:\n  " ++
      Style.valid.apply "<FILE>") [usage none]
  | emptyFile =>
    let file := Style.literal.apply "<FILE>"
    complaint s!"a value is required for '{file}' but none was supplied" []
  | extra argument =>
    complaint s!"unexpected argument '{Style.invalid.apply argument}' found" [usage none]
  | unknown flag none =>
    let escaped := Style.valid.apply ("-- " ++ flag)
    complaint s!"unexpected argument '{Style.invalid.apply flag}' found"
      [tip s!"to pass '{Style.invalid.apply flag}' as a value, use '{escaped}'", usage none]
  | unknown flag (some meant) =>
    complaint s!"unexpected argument '{Style.invalid.apply flag}' found"
      [tip s!"a similar argument exists: '{Style.valid.apply meant.dashed}'", usage (some meant)]
  | unexpectedValue flag value =>
    let given := Style.invalid.apply value
    complaint
      (s!"unexpected value '{given}' for '{Style.literal.apply flag.dashed}' found; " ++
        "no more were expected")
      [usage (some flag)]

def UsageError.text (e : UsageError) : String := Text.Terminal.plain e.styled

def likeness : Float := 0.7

def propose (name : String) : Option Flag :=
  let rate (flag : Flag) := Text.Similarity.jaro name.toList flag.long.toList
  let help := rate .help
  let version := rate .version
  if version > likeness && version >= help then some .version
  else if help > likeness then some .help
  else none

end ByteTape.CommandLine
