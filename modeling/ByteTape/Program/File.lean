import ByteTape.Error
import ByteTape.Program
import ByteTape.Text.Utf8

/-! Programs from files. -/
namespace ByteTape
namespace Program

/-- Every byte string is a program: what is no text becomes replacement
characters, which are comments. -/
def ofBytes (bytes : List UInt8) : Program := ofList (Text.Utf8.decodeLossy bytes)

def ofFile (path : String) (content : Except StreamError (List UInt8)) :
    Except LoadError Program :=
  match content with
  | .error source => .error ⟨path, source⟩
  | .ok bytes => .ok (ofBytes bytes)

end Program
end ByteTape
