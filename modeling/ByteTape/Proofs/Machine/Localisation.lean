import ByteTape.Proofs.Bracket.Pairing
import ByteTape.Proofs.Diagnostic.Window
import ByteTape.Proofs.Machine.Atomicity
import ByteTape.Proofs.Machine.Safety

/-! Where errors point. An error that names a place names the instruction at which the run
broke off, or the end of the program if only the last flushes failed, and a diagnostic of it
has its caret there. -/
namespace ByteTape
open ByteTape.Bracket

namespace Execution
variable {σ : Type} {x y z : Execution σ} {p : Program} {e : RunError}

/-- Why an instruction fails. Each kind of error belongs to instructions of its own. -/
inductive Refusal (x : Execution σ) : Instruction → RunError → Prop
  | bracket {i : Instruction} {d : Direction} (direction : i.direction? = some d)
      (calls : x.calls d = true) (unpaired : ∀ j, ¬ Partner x.program x.ip j) :
      Refusal x i (.unmatchedBracket x.ip d.side)
  | left (pointer : x.pointer = 0) : Refusal x .left (.pointerUnderflow x.ip)
  | exhausted (policy : x.config.eof = .error) : Refusal x .read (.inputExhausted x.ip)
  | stream {i : Instruction} (kind : i = .write ∨ i = .read) (e : StreamError) :
      Refusal x i (.stream x.ip e)

private theorem refusal_of_accept (h : x.accept = (y, .error (.error e))) :
    Refusal x .read e := by
  unfold accept at h
  split at h
  · exact absurd h change_ne_error
  · split at h
    · rename_i policy
      obtain ⟨_, he⟩ := Prod.mk.inj h
      cases he
      exact .exhausted policy
    · exact absurd h change_ne_error
    · cases h
  · obtain ⟨_, he⟩ := Prod.mk.inj h
    cases he
    exact .stream (.inr rfl) _

variable [ByteOutput σ]

private theorem refusal_of_perform {i : Instruction} (hr : x.Remembers)
    (hi : x.program.get? x.ip = some i.symbol) (h : x.perform i = (y, .error (.error e))) :
    Refusal x i e := by
  cases hd : i.direction? with
  | some d =>
    rcases bracket_cases hr hi hd with ⟨_, hx⟩ | ⟨_, j, _, hx⟩ | ⟨hcalls, hunpaired, hx⟩
    · rw [hx] at h
      cases h
    · rw [hx] at h
      cases h
    · rw [hx] at h
      obtain ⟨_, he⟩ := Prod.mk.inj h
      cases he
      exact .bracket hd hcalls hunpaired
  | none =>
    cases i with
    | right =>
      simp only [perform, moveTo] at h
      split at h <;> cases h
    | left =>
      simp only [perform] at h
      split at h
      · rename_i hpointer
        obtain ⟨_, he⟩ := Prod.mk.inj h
        cases he
        exact .left hpointer
      · cases h
    | increment => exact absurd h change_ne_error
    | decrement => exact absurd h change_ne_error
    | write =>
      simp only [perform, emit] at h
      split at h
      · obtain ⟨_, he⟩ := Prod.mk.inj h
        cases he
        exact .stream (.inl rfl) _
      · cases h
    | read =>
      rcases hf : ByteOutput.flush x.output with ⟨o, e' | _⟩ <;>
        simp only [perform, prompt, hf] at h
      · obtain ⟨_, he⟩ := Prod.mk.inj h
        cases he
        exact .stream (.inr rfl) _
      · -- a flush of the output is not seen by the read that follows it
        cases refusal_of_accept h with
        | exhausted policy => exact .exhausted policy
        | stream kind e' => exact .stream kind e'
        | bracket hdirection => cases hdirection
    | loopOpen => cases hd
    | loopClose => cases hd

/-- What stands behind an error that names a place of the program `p`, if the run came
through `z` last and left the machine `m`. -/
inductive Origin (p : Program) (z : Execution σ) (m : Machine) : RunError → Prop
  | opening {k : Nat} (char : p.get? k = some '[') (zero : m.current = 0)
      (alone : k ∈ unpaired p .opening) : Origin p z m (.unmatchedBracket k .opening)
  | closing {k : Nat} (char : p.get? k = some ']') (nonzero : m.current ≠ 0)
      (alone : k ∈ unpaired p .closing) : Origin p z m (.unmatchedBracket k .closing)
  | underflow {k : Nat} (char : p.get? k = some '<') (pointer : m.pointer = 0) :
      Origin p z m (.pointerUnderflow k)
  | exhausted {k : Nat} (char : p.get? k = some ',') (policy : m.config.eof = .error) :
      Origin p z m (.inputExhausted k)
  /-- The input or the output failed under the instruction that works on it. -/
  | stream {k : Nat} {e : StreamError} {i : Instruction} (kind : i = .write ∨ i = .read)
      (char : p.get? k = some i.symbol) (place : z.ip = k)
      (failed : (z.perform i).2 = .error (.error (.stream k e))) : Origin p z m (.stream k e)
  /-- The instruction was performed, whichever it is, but its row could not be written. -/
  | row {k : Nat} {e : StreamError} {i : Instruction} {r : Trace.Row} {t : Tracer}
      (char : p.get? k = some i.symbol) (place : z.ip = k) (performed : z.row? = some r)
      (tracer : z.tracer = some t) (failed : (t.row r).2 = .error e) : Origin p z m (.stream k e)
  /-- The run had come to the end of the program, and one of the last flushes failed. -/
  | flush {e : StreamError} (finished : z.tick = .ended z (.ok ()))
      (failed : (ByteOutput.flush z.output).2 = .error e ∨
        ∃ t ∈ z.tracer, t.flush.2 = .error e) : Origin p z m (.stream p.size e)

/-- The error of a tick stands at the instruction of that tick. -/
theorem origin_of_ended {k : Nat} (hr : x.Remembers) (hp : x.program = p)
    (h : x.tick = .ended y (.error (.error e))) (hk : e.ip? = some k) :
    Origin p x y.toMachine e ∧ ∃ i : Instruction, p.get? k = some i.symbol := by
  subst hp
  rcases ended_cases h with ⟨_, _, he⟩ | ⟨i, e', _, hv, _, he⟩ | ⟨i, f, hi, _, hperform, he⟩ |
    ⟨i, w, t, f, hi, hv, hperform, hrecord, _, he⟩
  · cases he
  · cases he
    rw [ip?_of_veto hv] at hk
    cases hk
  · cases he
    obtain ⟨hlook, hip⟩ := perform_error hperform
    obtain rfl := Option.some.inj (hip.symm.trans hk)
    refine ⟨?_, i, hi⟩
    have hcurrent : y.current = x.current := by
      simp only [Machine.current, hlook.tape, hlook.pointer]
    have hconfig := (kept_perform i x).config
    rw [hperform] at hconfig
    cases refusal_of_perform hr hi hperform with
    | @bracket _ d hd hcalls hunpaired =>
      rw [Instruction.direction?_eq_some_iff.mp hd] at hi
      cases d with
      | forward =>
        refine .opening hi ?_ (mem_unpaired_opening_iff.mpr ⟨hi, fun j hm => hunpaired j (.inl hm)⟩)
        rw [hcurrent]
        simpa [calls] using hcalls
      | backward =>
        refine .closing hi ?_ (mem_unpaired_closing_iff.mpr ⟨hi, fun j hm => hunpaired j (.inr hm)⟩)
        rw [hcurrent]
        simpa [calls] using hcalls
    | left hpointer => exact .underflow hi (hlook.pointer.trans hpointer)
    | exhausted hpolicy => exact .exhausted hi (by rw [hconfig]; exact hpolicy)
    | stream hkind e' => exact .stream hkind hi rfl (by rw [hperform])
  · cases he
    obtain ⟨u, e', hu, hrow, he⟩ := record_error hrecord
    cases he
    obtain rfl := Option.some.inj hk
    have htracer := (kept_perform i x).tracer
    rw [hperform] at htracer
    exact ⟨.row hi rfl (row?_of_perform_ok hi hv hperform) (htracer.symm.trans hu) hrow, i, hi⟩

/-- The last flushes leave nothing to see of it that was not there before. -/
private theorem Origin.concluded (h : Origin p z x.toMachine e) (result : Except Fault Unit) :
    Origin p z (x.conclude result).1.toMachine e := by
  obtain ⟨o, t, hx⟩ := x.conclude_eq result
  rw [hx]
  cases h with
  | opening char zero alone => exact .opening char zero alone
  | closing char nonzero alone => exact .closing char nonzero alone
  | underflow char pointer => exact .underflow char pointer
  | exhausted char policy => exact .exhausted char policy
  | stream kind char place failed => exact .stream kind char place failed
  | row char place performed tracer failed => exact .row char place performed tracer failed
  | flush finished failed => exact .flush finished failed

private theorem eq_of_finished (h : x.tick = .ended y (.ok ())) : y = x := by
  rcases ended_cases h with ⟨_, hy, _⟩ | ⟨_, _, _, _, _, he⟩ | ⟨_, _, _, _, _, he⟩ |
    ⟨_, _, _, _, _, _, _, _, _, he⟩
  · exact hy
  · cases he
  · cases he
  · cases he

private theorem flush_of_conclude (h : (x.conclude (.ok ())).2 = .error (.error e)) :
    ∃ e', e = .stream x.ip e' ∧ ((ByteOutput.flush x.output).2 = .error e' ∨
      ∃ t ∈ x.tracer, t.flush.2 = .error e') := by
  rcases ho : ByteOutput.flush x.output with ⟨o, e' | _⟩
  · refine ⟨e', ?_, .inl rfl⟩
    cases ht : x.tracer <;> simp_all [conclude, flushTracer, settle]
  · cases ht : x.tracer with
    | none => simp [conclude, ho, flushTracer, ht, settle] at h
    | some t =>
      rcases hf : t.flush with ⟨t', e' | _⟩
      · refine ⟨e', ?_, .inr ⟨t, rfl, by rw [hf]⟩⟩
        simpa [conclude, ho, flushTracer, ht, hf, settle, eq_comm] using h
      · simp [conclude, ho, flushTracer, ht, hf, settle] at h

end Execution

namespace Machine
variable {σ : Type} [ByteOutput σ]

private theorem exists_origin {p : Program} {m : Machine} {input : Source} {output : σ}
    {ws : List (Option Bool)} {x : Execution σ} {e : RunError} {k : Nat}
    (hm : (m.start input output).Bounded p)
    (hrun : m.runBy Execution.perform ws input output = .ended x (.error (.error e)))
    (hk : e.ip? = some k) :
    (∃ z, ((m.start input output).trail Execution.perform ws).getLast? = some z ∧
      z.Origin p x.toMachine e) ∧
    (k = p.size ∨ ∃ i : Instruction, p.get? k = some i.symbol) := by
  obtain ⟨y, result, hd, hx⟩ := runBy_eq_ended_iff.mp hrun
  obtain rfl : (y.conclude result).1 = x := congrArg Prod.fst hx
  have hresult : (y.conclude result).2 = .error (.error e) := congrArg Prod.snd hx
  obtain ⟨z, hz, hend⟩ := Execution.exists_last_of_ended hd
  have hb := (Execution.steady_bounded p).trail hm ws z (List.mem_of_getLast? hz)
  rcases y.result_conclude result with he | ⟨rfl, _⟩
  · rw [he] at hresult
    subst hresult
    obtain ⟨horigin, hi⟩ := Execution.origin_of_ended hb.remembers hb.inside.program hend hk
    exact ⟨⟨z, hz, horigin.concluded _⟩, .inr hi⟩
  · obtain ⟨e', rfl, hfailed⟩ := Execution.flush_of_conclude hresult
    obtain rfl := Execution.eq_of_finished hend
    have hip := (Execution.inside_of_ended hb.remembers hb.inside hend).2.2.1 rfl
    rw [hip] at hk ⊢
    exact ⟨⟨y, hz, Execution.Origin.concluded (.flush hend hfailed) _⟩,
      .inl (Option.some.inj hk).symm⟩

/-- An error that names a place names it right. Whatever has been run before, the place is the
instruction at which the run broke off, of the kind that can fail so, or the end of the program
if the run had come there and a last flush failed. What is printed for the error is its headline
and a window of the program, one line, with the caret under the character at that place, or
just behind the window at the end of the program. -/
theorem error_located (p : Program) (c : Config) (es : List (Event σ)) (ws : List (Option Bool))
    (input : Source) (output : σ) (x : Execution σ) (e : RunError) (k : Nat)
    (hrun : ((Machine.new p c).after es).runBy Execution.perform ws input output =
      .ended x (.error (.error e)))
    (hk : e.ip? = some k) :
    k ≤ p.size ∧ x.config = c ∧
    (∃ z, ((((Machine.new p c).after es).start input output).trail Execution.perform ws).getLast? =
      some z ∧ z.Origin p x.toMachine e) ∧
    (k < p.size → ∃ i : Instruction, p.get? k = some i.symbol) ∧
    ∀ terminal name,
      let window := Diagnostic.window p.toList k
      let column := min k Diagnostic.reach
      let caret := List.replicate column ' ' ++ ['^']
      let headline := s!"{name}: {Diagnostic.paint terminal e.message}"
      Diagnostic.ofRunError terminal name x.program.source.toList e =
        s!"{headline}\n  {String.ofList window}\n  {String.ofList caret}\n" ∧
      '\n' ∉ window ∧ window[column]? = p.get? k ∧ (k = p.size → window.length = column) := by
  let m := (Machine.new p c).after es
  have hm : m.Remembers ∧ m.Inside p :=
    (lasting_inside p).after ⟨remembers_new p c, inside_new p c⟩ es
  have hafter := (lasting_inside p).runBy hm ws input output
  have hconfig := (lasting_config (σ := σ) c).runBy (m := m)
    ((lasting_config c).after (m := Machine.new p c) rfl es) ws input output
  rw [hrun] at hafter hconfig
  obtain ⟨horigin, hplace⟩ := exists_origin (bounded_start hm input output) hrun hk
  refine ⟨?_, hconfig, horigin, fun hlt => hplace.resolve_left hlt.ne, ?_⟩
  · rcases hplace with rfl | ⟨i, hi⟩
    · exact le_rfl
    · exact (Program.lt_size_of_get? hi).le
  · intro terminal name window column caret headline
    have hprogram : x.program = p := hafter.2.program
    have hsource : x.program.source.toList = p.toList := by
      rw [hprogram, Program.source, String.toList_ofList]
    refine ⟨?_, Diagnostic.lineFeed_not_mem_window _ _, Diagnostic.window_of_place hplace⟩
    rw [hsource, Diagnostic.ofRunError_of_ip hk, Diagnostic.withContext, Diagnostic.caret_eq]
    rfl

/-- A table without room refuses the row of a jump. The machine stands behind the loop by then,
and the error names its beginning. -/
theorem row_refused_after_jump :
    ∃ x, ((Machine.new (.ofList ['\n', '[', ']']) {}).after
        ([.tracer (.ofSink .full)] : List (Event Sink))).runBy Execution.perform
          (List.replicate 2 none) (.ofBytes []) Sink.unlimited =
            .ended x (.error (.error (.stream 1 .noSpaceLeft))) ∧
      (RunError.stream 1 .noSpaceLeft).ip? = some 1 ∧ x.ip = 2 ∧
      (∃ z : Execution Sink, z.Origin (.ofList ['\n', '[', ']']) x.toMachine
        (.stream 1 .noSpaceLeft)) ∧
      Diagnostic.window ['\n', '[', ']'] 1 = [' ', '[', ']'] ∧
      (Diagnostic.window ['\n', '[', ']'] 1)[1]? = some '[' := by
  have hrun := Progress.eq_ended_of_result? (show (((Machine.new (.ofList ['\n', '[', ']']) {}).after
      ([.tracer (.ofSink .full)] : List (Event Sink))).runBy Execution.perform
        (List.replicate 2 none) (.ofBytes []) Sink.unlimited).result? =
          some (.error (.error (.stream 1 .noSpaceLeft))) by decide +kernel)
  obtain ⟨_, _, ⟨z, _, horigin⟩, _, hprint⟩ := error_located _ _ _ _ _ _ _ _ 1 hrun rfl
  exact ⟨_, hrun, rfl, by decide +kernel, ⟨z, horigin⟩, rfl, (hprint false "").2.2.1⟩

end Machine
end ByteTape
