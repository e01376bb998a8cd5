import ByteTape.CommandLine.Session

/-! The program itself: the command line between the streams of a process. Bytes
are fetched one at a time as they are asked for, and handed on as soon as the line
buffer lets go of them. -/
namespace ByteTape.CommandLine

/-- A failure with the number that the system gives it, which may come negated. -/
private def systemError (code : UInt32) (details : String) : StreamError :=
  match if code.toNat < Nat.pow 2 31 then code.toNat else Nat.pow 2 32 - code.toNat with
  | 2 => .noSuchFile
  | 20 => .notADirectory
  | 21 => .isADirectory
  | 28 => .noSpaceLeft
  | 36 => .nameTooLong
  | number => .ofSystem details.capitalize number

private def streamError : IO.Error → StreamError
  | .noFileOrDirectory _ code details | .interrupted _ code details => systemError code details
  | .alreadyExists _ code details | .invalidArgument _ code details
  | .permissionDenied _ code details | .resourceExhausted _ code details
  | .inappropriateType _ code details | .noSuchThing _ code details => systemError code details
  | .otherError code details | .resourceBusy code details | .resourceVanished code details
  | .hardwareFault code details | .timeExpired code details => systemError code details
  | e => ⟨.other, toString e⟩

private def attempt (act : IO α) : BaseIO (Except StreamError α) := do
  match ← act.toBaseIO with
  | .ok a => return .ok a
  | .error e => return .error (streamError e)

private def readFile (path : String) : BaseIO (Except StreamError (List UInt8)) :=
  attempt do return (← IO.FS.readBinFile path).toList

private def starved (x : Execution LineBuffered) : Bool :=
  x.input.isExhausted && x.veto.isNone && x.program.get? x.ip == some Instruction.read.symbol

private def deliver (x : Execution LineBuffered) :
    BaseIO (Execution LineBuffered × Except StreamError Unit) := do
  let written := x.output.device.stored
  let rows := x.tracer.elim #[] (·.sink.stored)
  let x := { x with output.device.stored := #[],
                    tracer := x.tracer.map fun t => { t with sink.stored := #[] } }
  let outcome ← attempt do
    unless rows.isEmpty do (← IO.getStderr).write ⟨rows⟩
    unless written.isEmpty do
      let stdout ← IO.getStdout
      stdout.write ⟨written⟩
      stdout.flush
  return (x, outcome)

private def fetch : BaseIO Source.Item := do
  match ← attempt do (← IO.getStdin).read 1 with
  | .error e => return .failure e
  | .ok bytes => return if bytes.isEmpty then .ended else .data bytes.toList

/-- Supply a tick that would otherwise starve. What was written before is seen first. -/
private def supply (x : Execution LineBuffered) :
    BaseIO (Execution LineBuffered × Except StreamError Unit) := do
  match ByteOutput.flush x.output with
  | (output, _) =>
    match ← deliver { x with output := output } with
    | (x, .error e) => return (x, .error e)
    | (x, .ok ()) => return ({ x with input.items := [← fetch] }, .ok ())

private partial def drive (x : Execution LineBuffered) :
    BaseIO (Execution LineBuffered × Except Fault Unit) := do
  let ip := x.ip
  let failed (e : StreamError) : Except Fault Unit := .error (.error (.stream ip e))
  match ← if starved x then supply x else pure (x, .ok ()) with
  | (x, .error e) => return (x, failed e)
  | (x, .ok ()) =>
    match x.tick with
    | .running y =>
      match ← deliver y with
      | (y, .error e) => return (y, failed e)
      | (y, .ok ()) => drive y
    | .ended y result =>
      let (y, result) := y.conclude result
      match ← deliver y, result with
      | (y, .error e), .ok () => return (y, .error (.error (.stream y.ip e)))
      | (y, _), result => return (y, result)

private def runProgram (path : String) : IO UInt32 := do
  let stderr ← IO.getStderr
  let place := Config.location ((← IO.getEnv "HOME").getD "") (← IO.getEnv "XDG_CONFIG_HOME")
  match launch path place (← readFile path) (← readFile place) with
  | .error e =>
    stderr.putStr (Diagnostic.ofLoadError (← stderr.isTty) programName e)
    return 1
  | .ok ⟨machine, notices⟩ =>
    stderr.putStr notices
    let (x, result) ← drive (machine.start (.ofItems []) (.ofSink .unlimited))
    stderr.putStr (epilogue (← stderr.isTty) x.program result)
    return UInt32.ofNat (exitStatus result)

end ByteTape.CommandLine

open ByteTape.CommandLine in
def main (arguments : List String) : IO UInt32 := do
  match Request.read arguments with
  | .print text =>
    IO.print text
    return 0
  | .refuse e =>
    let stderr ← IO.getStderr
    stderr.putStr (if ← stderr.isTty then e.styled else e.text)
    return 2
  | .run path => runProgram path
