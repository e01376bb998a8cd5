import ByteTape.Config
import ByteTape.Text.Blank
import ByteTape.Text.Numeral

/-! What one key and its value say about a run. -/
namespace ByteTape

inductive Config.Problem where
  | noEquals
  | unknownKey (key : String)
  | invalidEof (value : String)
  | invalidMaxSteps (value : String) (reason : Text.NumeralError)
  | invalidTrace (value : String)
  deriving DecidableEq

def Config.Problem.message : Config.Problem → String
  | noEquals => "expected 'key = value'"
  | unknownKey key => s!"unknown key '{key}'"
  | invalidEof value => s!"invalid eof value: {value}, must be 'error', 'zero' or 'unchanged'"
  | invalidMaxSteps value reason => s!"invalid max_steps value: {value} ({reason.message})"
  | invalidTrace value => s!"invalid trace value: {value}, must be true or false"

def EofPolicy.ofName? : String → Option EofPolicy
  | "error" => some .error
  | "zero" => some .zero
  | "unchanged" => some .unchanged
  | _ => none

/-- Read a policy without regard to blanks around it or to ASCII case. What is
reported is the value in that form. -/
def EofPolicy.read (value : List Char) : Except Config.Problem EofPolicy :=
  let word := String.ofList ((Text.trim value).map Char.toLower)
  match EofPolicy.ofName? word with
  | some policy => .ok policy
  | none => .error (.invalidEof word)

namespace Config

inductive Setting where
  | eof (policy : EofPolicy)
  | maxSteps (limit : Nat)
  | trace (on : Bool)
  deriving DecidableEq

def Setting.read (key value : List Char) : Except Problem Setting :=
  match String.ofList key with
  | "eof" => (EofPolicy.read value).map .eof
  | "max_steps" =>
    match Text.Numeral.read value with
    | .ok limit => .ok (.maxSteps limit)
    | .error reason => .error (.invalidMaxSteps (String.ofList value) reason)
  | "trace" =>
    match String.ofList value with
    | "true" => .ok (.trace true)
    | "false" => .ok (.trace false)
    | other => .error (.invalidTrace other)
  | other => .error (.unknownKey other)

def set (c : Config) : Setting → Config
  | .eof policy => { c with eof := policy }
  | .maxSteps limit => { c with maxSteps := some limit }
  | .trace on => { c with trace := on }

end Config
end ByteTape
