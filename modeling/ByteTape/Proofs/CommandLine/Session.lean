import ByteTape.CommandLine.Session
import ByteTape.Proofs.Config.Meaning
import ByteTape.Proofs.Machine.Buffered

/-! The program as a whole: what it leaves is put together from a run as a library does it, the
warnings of the configuration and the failure, and nothing of these is lost on the way. -/
namespace ByteTape

namespace Config

/-- The configuration and the warnings of a configuration file of which `content` was read. A file
that cannot be read, or is no text, is an empty one. -/
def ofContent (content : Except StreamError (List UInt8)) : Config × List Warning :=
  ((content.toOption.bind Text.Utf8.decode?).map parse).getD ({}, [])

private theorem ofFile_eq (place : String) (content : Except StreamError (List UInt8)) :
    ofFile place content = ((ofContent content).1,
      (ofContent content).2.map fun w => s!"{place}: {w.message}\n") := by
  unfold ofFile ofContent
  rcases content with e | bytes
  · rfl
  · cases h : Text.Utf8.decode? bytes <;> simp [Except.toOption, h]

private theorem ordered_ofContent (content : Except StreamError (List UInt8)) :
    (ofContent content).2.Pairwise (·.line < ·.line) := by
  unfold ofContent
  cases content.toOption.bind Text.Utf8.decode? with
  | none => exact List.Pairwise.nil
  | some text => exact (Draft.describes_foldl (lines text)).ordered

end Config

namespace CommandLine

/-- The lines that tell of a failure under `p`: the headline alone, or the headline with the window
of the program and the caret below it if the error has a place. -/
def failureLines (p : Program) (e : RunError) : String :=
  let headline := s!"{programName}: {e.message}"
  e.ip?.elim s!"{headline}\n" fun ip =>
    s!"{headline}\n  {String.ofList (Diagnostic.window p.toList ip)}" ++
      s!"\n  {String.ofList (Diagnostic.caret ip)}\n"

private theorem epilogue_error {e : RunError} (h : e ≠ .interrupted) (p : Program) :
    epilogue false p (.error (.error e)) = failureLines p e := by
  cases e with
  | interrupted => exact absurd rfl h
  | stepLimitExceeded => rfl
  | _ => simp [epilogue, failureLines, Diagnostic.ofRunError, Diagnostic.withContext,
      Diagnostic.paint, RunError.ip?, String.append_assoc]

private theorem exitStatus_error {e : RunError} (h : e ≠ .interrupted) :
    exitStatus (.error (.error e)) = 1 := by
  cases e with
  | interrupted => exact absurd rfl h
  | _ => rfl

section Path
variable {path : String} (hname : path ≠ "") (hflag : path = "-" ∨ path.toList.head? ≠ some '-')
include hname hflag

private theorem read_file : Request.read [path] = .run path := by
  have hfile : Argument.read path = .file path := by
    unfold Argument.read
    rcases hflag with rfl | hhead
    · rfl
    · split <;> simp_all
  have hsettled : settled (some path) = .run path := by
    unfold settled
    split <;> simp_all
  simp only [Request.read, readArguments, hfile, hsettled]

end Path

def warningLines (place : String) (warnings : List Config.Warning) : String :=
  String.join (warnings.map fun w => s!"{place}: {w.message}\n")

def tableText (c : Config) (rows : List Trace.Row) : String :=
  if c.trace then String.ofList (Text.Utf8.decodeLossy (Trace.table false rows)) else ""

def Outcome.ofLibrary (notices : String) (r : Execution Sink × Except Fault Unit) : Outcome where
  status := exitStatus r.2
  stdout := r.1.output.stored.toList
  stderr := notices ++ traceText r.1.toMachine ++ epilogue false r.1.program r.2

end CommandLine

namespace Machine
open Execution CommandLine

def watched (p : Program) (c : Config) : Machine := { Machine.new p c with cancel := some false }

abbrev executedOn (p : Program) (c : Config) (n : Nat) (bytes : List UInt8) :
    List (Stride Sink) :=
  (new p c).executed (List.replicate n none) (.ofBytes bytes) Sink.unlimited

variable {p : Program} {c : Config} {n : Nat} {bytes : List UInt8} {d : Sink}

private theorem piped_watched (hsilent : d.alarm = none) (hempty : d.stored = #[]) :
    Piped p (watched p c) (.ofBytes bytes) d where
  bounds := (lasting_inside (σ := Sink) p).cancel _ _ ⟨remembers_new p c, inside_new p c⟩
  flag := nofun
  input := Source.silent_ofBytes bytes
  silent := hsilent
  empty := hempty

section Library
variable {x : Execution Sink} {result : Except Fault Unit} {f : Fault}

private theorem quiet_new (p : Program) (c : Config) : (new p c).Quiet := by
  intro t ht
  unfold new at ht
  split at ht
  · obtain rfl := Option.some.inj ht
    exact ⟨rfl, rfl⟩
  · cases ht

private theorem traceText_of_run
    (hrun : (new p c).run n (.ofBytes bytes) Sink.unlimited = some (x, result)) :
    traceText x.toMachine = tableText c ((executedOn p c n bytes).map Stride.row) := by
  have hgained := gained_executed (quiet_new p c) (List.replicate n none) (.ofBytes bytes)
    Sink.unlimited
  rw [runBy_of_run hrun, Progress.state] at hgained
  unfold traceText tableText
  generalize x.tracer = t at hgained ⊢
  cases htrace : c.trace with
  | false =>
    have htracer : (new p c).tracer = none := by simp [new, htrace]
    rw [htracer] at hgained
    cases hgained
    rfl
  | true =>
    have htracer : (new p c).tracer = some (.ofSink .unlimited) := by simp [new, htrace]
    rw [htracer] at hgained
    cases hgained with
    | some hwrote =>
      exact congrArg (fun text => String.ofList (Text.Utf8.decodeLossy text)) hwrote.text

private theorem ofLibrary_ok
    (hrun : (new p c).run n (.ofBytes bytes) Sink.unlimited = some (x, .ok ()))
    (notices : String) : Outcome.ofLibrary notices (x, .ok ()) = ⟨0, x.output.stored.toList,
      notices ++ tableText c ((executedOn p c n bytes).map Stride.row)⟩ := by
  simp [Outcome.ofLibrary, exitStatus, epilogue, traceText_of_run hrun]

private theorem ofLibrary_error
    (hrun : (new p c).run n (.ofBytes bytes) Sink.unlimited = some (x, .error f))
    (notices : String) : ∃ e, f = .error e ∧ Outcome.ofLibrary notices (x, .error f) =
      ⟨1, x.output.stored.toList, notices ++
        tableText c ((executedOn p c n bytes).map Stride.row) ++ failureLines p e⟩ := by
  have hprogram := (lasting_program (σ := Sink) p).runBy (m := new p c) rfl
    (List.replicate n none) (.ofBytes bytes) Sink.unlimited
  rw [runBy_of_run hrun, Progress.state] at hprogram
  rcases result_of_undisturbed ⟨remembers_new p c, inside_new p c⟩
    (undisturbed_direct (m := new p c) (Source.silent_ofBytes bytes)) hrun with hok | ⟨e, hf, he⟩
  · cases hok
  · obtain rfl := Except.error.inj hf
    refine ⟨e, rfl, ?_⟩
    simp only [Outcome.ofLibrary, exitStatus_error he, epilogue_error he, hprogram,
      traceText_of_run hrun]

private theorem status_ofLibrary
    (hrun : (new p c).run n (.ofBytes bytes) Sink.unlimited = some (x, result))
    (notices : String) : (Outcome.ofLibrary notices (x, result)).status = 0 ↔ result = .ok () := by
  rcases result with f | _
  · obtain ⟨e, _, he⟩ := ofLibrary_error hrun notices
    simp [he]
  · simp [ofLibrary_ok hrun]

end Library

/-- Nothing is lost between a run through the buffer and the run as a library does it, as long as
nothing hinders the first. -/
private theorem outcome_of_unhindered (hsilent : d.alarm = none) (hempty : d.stored = #[])
    (hfree : (watched p c).Unhindered n (.ofBytes bytes) d) (notices : String) :
    ((watched p c).run n (.ofBytes bytes) (LineBuffered.ofSink d)).map
        (fun r => Outcome.ofRun notices r.1 r.2) =
      ((new p c).run n (.ofBytes bytes) Sink.unlimited).map (Outcome.ofLibrary notices) := by
  have hpiped : Piped p (watched p c) (.ofBytes bytes) d := piped_watched hsilent hempty
  have hsame := congrArg (Option.map fun r : Execution Transcript × Except Fault Unit =>
    (⟨exitStatus r.2, r.1.output.bytes,
      notices ++ traceText r.1.toMachine ++ epilogue false r.1.program r.2⟩ : Outcome))
    (hpiped.run_eq hfree)
  rw [Option.map_map, Option.map_map] at hsame
  refine Eq.trans (Option.map_congr fun r hr => ?_) hsame
  have hstored := hpiped.stored_eq hfree hr
  simp only [Outcome.ofRun, hstored]
  rfl

section Full
variable (hsilent : d.alarm = none) (hempty : d.stored = #[]) (hroom : d.room = some 0)

private theorem printing_watched_iff : (watched p c).printing n (.ofBytes bytes) = [] ↔
    ∀ s ∈ executedOn p c n bytes, s.instruction ≠ .write :=
  printed_eq_nil_iff fun _ => not_refused_of_unfailing _ (good_direct _ _)

include hsilent hempty hroom

private theorem outcome_of_silent (hwrite : ∀ s ∈ executedOn p c n bytes, s.instruction ≠ .write)
    (notices : String) : ((watched p c).run n (.ofBytes bytes) (LineBuffered.ofSink d)).map
        (fun r => Outcome.ofRun notices r.1 r.2) =
      ((new p c).run n (.ofBytes bytes) Sink.unlimited).map (Outcome.ofLibrary notices) :=
  have hpiped : Piped p (watched p c) (.ofBytes bytes) d := piped_watched hsilent hempty
  outcome_of_unhindered hsilent hempty
    (hpiped.unhindered_of_silent hroom (printing_watched_iff.mpr hwrite)) notices

/-- A device with no room takes nothing. A run on it succeeds if it executes no write and succeeds on
a device that takes all, and only then. -/
private theorem outcome_of_full {notices : String} {o : Outcome}
    (ho : ((watched p c).run n (.ofBytes bytes) (LineBuffered.ofSink d)).map
      (fun r => Outcome.ofRun notices r.1 r.2) = some o) :
    o.stdout = [] ∧ (o.status = 0 ∨ o.status = 1) ∧
      (o.status = 0 ↔ (∀ s ∈ executedOn p c n bytes, s.instruction ≠ .write) ∧
        ∃ x, (new p c).run n (.ofBytes bytes) Sink.unlimited = some (x, .ok ())) := by
  have hpiped : Piped p (watched p c) (.ofBytes bytes) d := piped_watched hsilent hempty
  obtain ⟨⟨x, result⟩, hx, rfl⟩ := Option.map_eq_some_iff.mp ho
  have hstdout : x.output.device.stored.toList = [] := by
    rw [hpiped.device_of_run hroom hx, hempty]
  rcases result_of_undisturbed hpiped.bounds hpiped.undisturbed hx with rfl | ⟨e, rfl, he⟩
  · refine ⟨hstdout, .inl rfl, iff_of_true rfl ?_⟩
    have hwrite := printing_watched_iff.mp (hpiped.silent_of_ok hroom hx)
    rw [outcome_of_silent hsilent hempty hroom hwrite] at ho
    obtain ⟨⟨y, result⟩, hy, hsame⟩ := Option.map_eq_some_iff.mp ho
    have hstatus := (status_ofLibrary hy notices).mp (congrArg Outcome.status hsame)
    exact ⟨hwrite, y, hstatus ▸ hy⟩
  · have hone : (Outcome.ofRun notices x (.error (.error e))).status = 1 := exitStatus_error he
    have hzero : (0 : Nat) ≠ 1 := by decide
    refine ⟨hstdout, .inr hone, iff_of_false (fun h => hzero (h.symm.trans hone)) ?_⟩
    rintro ⟨hwrite, y, hy⟩
    rw [outcome_of_silent hsilent hempty hroom hwrite, hy] at ho
    have hstatus := (status_ofLibrary hy notices).mpr rfl
    rw [Option.some.inj ho] at hstatus
    exact hzero (hstatus.symm.trans hone)

end Full

end Machine

namespace CommandLine
section Run
variable {n : Nat} {s : Surroundings} {path : String} (place : String)

theorem runFile_of_error {e : StreamError} (h : s.file path = .error e) :
    runFile n s path place =
      some ⟨1, [], s!"{programName}: {LoadError.message ⟨path, e⟩}\n"⟩ := by
  simp only [runFile, launch, Program.ofFile, h]
  rfl

/-- A program file that can be read is run under the configuration, with its warnings told first. -/
theorem runFile_of_ok {code : List UInt8} (h : s.file path = .ok code) :
    let content := Config.ofContent (s.file place)
    runFile n s path place =
      ((Machine.watched (.ofBytes code) content.1).run n s.input s.output).map
        fun r => .ofRun (warningLines place content.2) r.1 r.2 := by
  simp only [runFile, launch, Program.ofFile, h, Config.ofFile_eq]
  rfl

end Run

/-- The program run on the file at `path`, with its configuration at `place`, leaves what a library
run under the same program, configuration and input leads to: its output, with the status 0 if it
succeeds and 1 if not, and on the other stream the warnings of the configuration in line order, the
table of the run if one is asked for, and the failure if there is one. A program file that cannot be
read leaves its message and nothing else. A device with no room takes nothing; a run that executes a
write then does not succeed, whatever else it does, and one that executes none is not disturbed. -/
theorem runFile_composes (s : Surroundings) (stdin : List UInt8) (path place : String) (n : Nat) :
    let on (output : LineBuffered) : Option Outcome :=
      runFile n { s with input := .ofBytes stdin, output := output } path place
    let config := (Config.ofContent (s.file place)).1
    let warnings := (Config.ofContent (s.file place)).2
    let notices := warningLines place warnings
    warnings.Pairwise (·.line < ·.line) ∧
    (∀ e output, s.file path = .error e → on output =
      some ⟨1, [], s!"{programName}: {LoadError.message ⟨path, e⟩}\n"⟩) ∧
    ∀ code, s.file path = .ok code →
      let program := Program.ofBytes code
      let machine := Machine.new program config
      let library := machine.run n (.ofBytes stdin) Sink.unlimited
      let executed := machine.executed (List.replicate n none) (.ofBytes stdin) Sink.unlimited
      let table := tableText config (executed.map Stride.row)
      let working := on (.ofSink .unlimited)
      (∀ x, library = some (x, .ok ()) →
        working = some ⟨0, x.output.stored.toList, notices ++ table⟩) ∧
      (∀ x f, library = some (x, .error f) → ∃ e, f = .error e ∧
        working = some ⟨1, x.output.stored.toList, notices ++ table ++ failureLines program e⟩) ∧
      (library = none → working = none) ∧
      ∀ refusal, let full := on (.ofSink { Sink.full with refusal := refusal })
        (∀ o, full = some o → o.stdout = [] ∧ (o.status = 0 ∨ o.status = 1) ∧
          (o.status = 0 ↔
            (∀ s ∈ executed, s.instruction ≠ .write) ∧ ∃ x, library = some (x, .ok ()))) ∧
        ((∀ s ∈ executed, s.instruction ≠ .write) → full = working) ∧
        (library.isSome → full.isSome) := by
  intro on config warnings notices
  refine ⟨Config.ordered_ofContent _, fun e output h => runFile_of_error place h, ?_⟩
  intro code hcode program machine library executed table working
  have hrun (d : Sink) : on (.ofSink d) =
      ((Machine.watched program config).run n (.ofBytes stdin) (LineBuffered.ofSink d)).map
        fun r => .ofRun notices r.1 r.2 := runFile_of_ok place hcode
  have hworking : working = library.map (Outcome.ofLibrary notices) :=
    (hrun _).trans (Machine.outcome_of_unhindered rfl rfl
      (Machine.unhindered_of_sturdy ⟨rfl, rfl⟩) notices)
  refine ⟨?_, ?_, fun hnone => by rw [hworking, hnone, Option.map_none], ?_⟩
  · intro x hx
    rw [hworking, hx]
    exact congrArg some (Machine.ofLibrary_ok hx notices)
  · intro x f hx
    obtain ⟨e, rfl, he⟩ := Machine.ofLibrary_error hx notices
    refine ⟨e, rfl, ?_⟩
    rw [hworking, hx]
    exact congrArg some he
  · intro refusal full
    have hpiped : Machine.Piped program (Machine.watched program config) (.ofBytes stdin)
      { Sink.full with refusal := refusal } := Machine.piped_watched rfl rfl
    refine ⟨fun o ho => Machine.outcome_of_full rfl rfl rfl ((hrun _).symm.trans ho), ?_, ?_⟩
    · intro hwrite
      rw [hworking]
      exact (hrun _).trans (Machine.outcome_of_silent rfl rfl rfl hwrite notices)
    · intro hsome
      have hends := hpiped.isSome_of_direct (n := n) hsome
      rw [show full = _ from hrun _, Option.isSome_map]
      exact hends

/-- The program with the file at `path` as its one argument runs that file under the configuration
file that belongs to its surroundings, and leaves what the library run leads to. -/
theorem session_composes (home : String) (configHome : Option String)
    (file : String → Except StreamError (List UInt8)) (stdin : List UInt8) (path : String)
    (hname : path ≠ "") (hflag : path = "-" ∨ path.toList.head? ≠ some '-') (n : Nat) :
    let on (output : LineBuffered) : Surroundings :=
      ⟨[path], home, configHome, file, .ofBytes stdin, output⟩
    let place := Config.location home configHome
    let config := (Config.ofContent (file place)).1
    let warnings := (Config.ofContent (file place)).2
    let notices := warningLines place warnings
    warnings.Pairwise (·.line < ·.line) ∧
    (∀ e output, file path = .error e → session n (on output) =
      some ⟨1, [], s!"{programName}: {LoadError.message ⟨path, e⟩}\n"⟩) ∧
    ∀ code, file path = .ok code →
      let program := Program.ofBytes code
      let machine := Machine.new program config
      let library := machine.run n (.ofBytes stdin) Sink.unlimited
      let executed := machine.executed (List.replicate n none) (.ofBytes stdin) Sink.unlimited
      let table := tableText config (executed.map Stride.row)
      let working := session n (on (.ofSink .unlimited))
      (∀ x, library = some (x, .ok ()) →
        working = some ⟨0, x.output.stored.toList, notices ++ table⟩) ∧
      (∀ x f, library = some (x, .error f) → ∃ e, f = .error e ∧
        working = some ⟨1, x.output.stored.toList, notices ++ table ++ failureLines program e⟩) ∧
      (library = none → working = none) ∧
      ∀ refusal, let full := session n (on (.ofSink { Sink.full with refusal := refusal }))
        (∀ o, full = some o → o.stdout = [] ∧ (o.status = 0 ∨ o.status = 1) ∧
          (o.status = 0 ↔
            (∀ s ∈ executed, s.instruction ≠ .write) ∧ ∃ x, library = some (x, .ok ()))) ∧
        ((∀ s ∈ executed, s.instruction ≠ .write) → full = working) ∧
        (library.isSome → full.isSome) := by
  intro on place config warnings notices
  have hsession (output : LineBuffered) :
      session n (on output) = runFile n (on output) path place := by
    simp only [session, on, read_file hname hflag, place]
  simp only [hsession]
  exact runFile_composes (on (.ofSink .unlimited)) stdin path place n

/-- The byte that still waits when a read fails comes out. A device with no room takes nothing, and
the run fails on it as well. -/
theorem byte_before_failure :
    session 2 ⟨["a.b"], "/", none, fun _ => .ok [46, 44], .ofBytes [], .ofSink .unlimited⟩ =
        some ⟨1, [0], "tape-bf: input exhausted at instruction 1\n  .,\n   ^\n"⟩ ∧
      ∀ o, session 2 ⟨["a.b"], "/", none, fun _ => .ok [46, 44], .ofBytes [], .ofSink .full⟩ =
        some o → o.stdout = [] ∧ o.status = 1 := by
  obtain ⟨_, _, hcode⟩ := session_composes "/" none (fun _ => .ok [46, 44]) [] "a.b" (by decide)
    (.inr (by decide)) 2
  obtain ⟨_, herror, _, hfull⟩ := hcode _ rfl
  obtain ⟨e, he, hsession⟩ := herror _ _ rfl
  obtain rfl := Fault.error.inj he
  refine ⟨hsession.trans rfl, fun o ho => ?_⟩
  obtain ⟨hstdout, hstatus, hzero⟩ := (hfull .noSpaceLeft).1 o ho
  refine ⟨hstdout, hstatus.resolve_left fun h => ?_⟩
  obtain ⟨_, x, hx⟩ := hzero.mp h
  cases hx

end CommandLine
end ByteTape
