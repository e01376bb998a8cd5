import ByteTape.Proofs.Machine.Moments
import ByteTape.Proofs.Machine.Remembered
import ByteTape.Proofs.Machine.StepLimit

/-! The program that copies its input up to the first zero byte, on every input. It is followed
from one turn of its loop to the next; before each turn the device holds the bytes of the turns so
far, and was flushed after each of them. -/
namespace ByteTape
open ByteTape.Bracket

namespace Program

def copy : Program := .ofList [',', '[', '.', ',', ']']

private theorem matched_copy : Matched copy 1 4 := scan_forward_iff.mp ⟨rfl, rfl⟩

private theorem matched_copy_iff {i j : Nat} : Matched copy i j ↔ i = 1 ∧ j = 4 := by
  constructor
  · intro h
    have hplace : ∀ k < 5, copy.get? k = some '[' → k = 1 := by decide
    obtain rfl := hplace i (Program.lt_size_of_get? h.opening) h.opening
    exact ⟨rfl, h.right_unique matched_copy⟩
  · rintro ⟨rfl, rfl⟩
    exact matched_copy

end Program

namespace JumpMemo
variable {m : JumpMemo} {crossed found : List (Nat × Nat)}

private theorem Records.scans_copy (h : Records .copy m crossed found) (hne : crossed ≠ []) :
    m.scans = 1 := by
  have hcrossed : ∀ q ∈ crossed, q = (1, 4) := by
    rintro ⟨i, j⟩ hq
    obtain ⟨rfl, rfl⟩ := Program.matched_copy_iff.mp (h.matched i j hq)
    rfl
  obtain ⟨q, hq⟩ := List.exists_mem_of_ne_nil crossed hne
  have hmem : (1, 4) ∈ found := (h.mem_found _).mpr (hcrossed q hq ▸ hq)
  have hfound : found = List.replicate found.length (1, 4) :=
    List.eq_replicate_of_mem fun r hr => hcrossed r ((h.mem_found r).mp hr)
  have honce : found.length ≤ 1 := List.nodup_replicate.mp (hfound ▸ h.nodup)
  have hpos := List.length_pos_of_mem hmem
  rw [h.scans]
  omega

end JumpMemo

namespace Copying
open Execution

/-- A device that holds `written`, and was flushed `f` times: when it held nothing, when it held
one byte, and so on. -/
def copied (written : List UInt8) (f : Nat) : Sink :=
  { Sink.unlimited with stored := written.toArray, flushes := Array.range f }

def unread (s : List UInt8) (d : Nat) : Source :=
  { items := [.data s], delivered := d, alarm := none, reads := d }

def drained (d : Nat) : Source :=
  { items := [], delivered := d, alarm := none, reads := d + 1 }

def copying (e : EofPolicy) (memo : JumpMemo) (ip steps : Nat) (cell : UInt8) (input : Source)
    (output : Sink) : Execution Sink where
  program := .copy
  config := { eof := e }
  tape := ⟨#[cell]⟩
  pointer := 0
  ip := ip
  steps := steps
  memo := memo
  cancel := none
  tracer := none
  input := input
  output := output

variable {e : EofPolicy} {memo : JumpMemo} {ip steps d f : Nat} {cell b : UInt8}
  {input : Source} {output : Sink} {s w : List UInt8}

private theorem put_copied (w : List UInt8) (f : Nat) (b : UInt8) :
    ByteOutput.put (copied w f) b = (copied (w ++ [b]) f, .ok ()) := by
  simp [ByteOutput.put, Sink.write, Sink.room, copied, Sink.unlimited]

private theorem flush_copied (w : List UInt8) :
    ByteOutput.flush (copied w w.length) = (copied w (w.length + 1), .ok ()) := by
  simp [ByteOutput.flush, Sink.flush, copied, Sink.unlimited, Array.range_succ]

private theorem tick_copying {i : Instruction} (hip : Program.copy.get? ip = some i.symbol) :
    (copying e memo ip steps cell input output).tick =
      (copying e memo ip steps cell input output).execute i := by
  simp [tick, copying, hip, veto]

private theorem tick_of_perform {i : Instruction} {memo' : JumpMemo} {ip' : Nat} {cell' : UInt8}
    {input' : Source} {output' : Sink} (hip : Program.copy.get? ip = some i.symbol)
    (hperform : (copying e memo ip steps cell input output).perform i =
      (copying e memo' ip' steps cell' input' output', .ok ())) :
    (copying e memo ip steps cell input output).tick =
      .running (copying e memo' (ip' + 1) (steps + 1) cell' input' output') := by
  rw [tick_copying hip]
  simp only [execute, hperform]
  rfl

private theorem tick_read (hip : Program.copy.get? ip = some ',') :
    (copying e memo ip steps cell (unread (b :: s) d) (copied w w.length)).tick =
      .running (copying e memo (ip + 1) (steps + 1) b (unread s (d + 1))
        (copied w (w.length + 1))) := by
  apply tick_of_perform (i := .read) hip
  simp only [perform, prompt, copying, flush_copied]
  rfl

private theorem tick_read_zero (hip : Program.copy.get? ip = some ',') :
    (copying .zero memo ip steps cell (unread [] d) (copied w w.length)).tick =
      .running (copying .zero memo (ip + 1) (steps + 1) 0 (drained d)
        (copied w (w.length + 1))) := by
  apply tick_of_perform (i := .read) hip
  simp only [perform, prompt, copying, flush_copied]
  rfl

private theorem tick_read_error (hip : Program.copy.get? ip = some ',') :
    (copying .error memo ip steps cell (unread [] d) (copied w w.length)).tick =
      .ended (copying .error memo ip steps cell (drained d) (copied w (w.length + 1)))
        (.error (.error (.inputExhausted ip))) := by
  rw [tick_copying (i := .read) hip]
  simp only [execute, perform, prompt, copying, flush_copied]
  rfl

private theorem tick_write :
    (copying e memo 2 steps b input (copied w f)).tick =
      .running (copying e memo 3 (steps + 1) b input (copied (w ++ [b]) f)) := by
  have hput : ByteOutput.put (copying e memo 2 steps b input (copied w f)).output
      (copying e memo 2 steps b input (copied w f)).current = _ := put_copied w f b
  apply tick_of_perform (i := .write) rfl
  simp only [perform, emit, hput]
  rfl

private theorem tick_open (hb : b ≠ 0) :
    (copying e memo 1 steps b input output).tick =
      .running (copying e memo 2 (steps + 1) b input output) :=
  tick_of_perform (i := .loopOpen) rfl (if_neg hb)

private theorem tick_skip {crossed found : List (Nat × Nat)}
    (h : memo.Records .copy crossed found) :
    (copying e memo 1 steps 0 input output).tick =
      .running (copying e (memo.visit 1 4) 5 (steps + 1) 0 input output) := by
  have hresolve := JumpMemo.resolve_of_partner (d := .forward) h.sound h.size.ge rfl
    (.inl Program.matched_copy)
  have hjump : (copying e memo 1 steps 0 input output).jump .forward =
      (copying e (memo.visit 1 4) 4 steps 0 input output, .ok ()) := by
    simp only [jump, copying, hresolve]
  exact tick_of_perform (i := .loopOpen) rfl hjump

private theorem tick_again {crossed found : List (Nat × Nat)} (h : memo.Records .copy crossed found)
    (hb : b ≠ 0) : (copying e memo 4 steps b input output).tick =
      .running (copying e (memo.visit 4 1) 2 (steps + 1) b input output) := by
  have hresolve := JumpMemo.resolve_of_partner (d := .backward) h.sound h.size.ge rfl
    (.inr Program.matched_copy)
  have hjump : (copying e memo 4 steps b input output).jump .backward =
      (copying e (memo.visit 4 1) 1 steps b input output, .ok ()) := by
    simp only [jump, copying, hresolve]
  exact tick_of_perform (i := .loopClose) rfl ((if_neg hb).trans hjump)

private theorem tick_leave : (copying e memo 4 steps 0 input output).tick =
    .running (copying e memo 5 (steps + 1) 0 input output) := rfl

def turning (e : EofPolicy) (memo : JumpMemo) (w : List UInt8) (b : UInt8) (s : List UInt8) :
    Execution Sink :=
  copying e memo 2 (2 + 3 * w.length) b (unread s (w.length + 1))
    (copied w (w.length + 1))

def passed (e : EofPolicy) (memo : JumpMemo) (w : List UInt8) (input : Source) :
    Execution Sink :=
  copying e memo 5 (2 + 3 * w.length) 0 input (copied w (w.length + 1))

def starved (memo : JumpMemo) (w : List UInt8) (b : UInt8) (input : Source) : Execution Sink :=
  copying .error memo 3 (3 * w.length) b input (copied w (w.length + 1))

private theorem tick_turning : (turning e memo w b s).tick =
    .running (copying e memo 3 (2 + 3 * w.length + 1) b (unread s (w ++ [b]).length)
      (copied (w ++ [b]) (w ++ [b]).length)) := by
  rw [turning, tick_write, List.length_append]
  rfl

private theorem ticks_turn {crossed found : List (Nat × Nat)} (h : memo.Records .copy crossed found)
    (hb : b ≠ 0) : (turning e memo w cell (b :: s)).ticks 3 =
      .running (turning e (memo.visit 4 1) (w ++ [cell]) b s) := by
  rw [ticks_succ tick_turning, ticks_succ (tick_read rfl), ticks_succ (tick_again h hb), turning,
    List.length_append]
  rfl

private theorem ticks_turn_zero : (turning e memo w cell (0 :: s)).ticks 4 =
    .ended (passed e memo (w ++ [cell]) (unread s (w.length + 2))) (.ok ()) := by
  rw [ticks_succ tick_turning, ticks_succ (tick_read rfl), ticks_succ tick_leave, passed,
    List.length_append]
  rfl

private theorem ticks_turn_end : (turning .zero memo w cell []).ticks 4 =
    .ended (passed .zero memo (w ++ [cell]) (drained (w.length + 1))) (.ok ()) := by
  rw [ticks_succ tick_turning, ticks_succ (tick_read_zero rfl), ticks_succ tick_leave, passed,
    List.length_append]
  rfl

private theorem ticks_turn_starved : (turning .error memo w cell []).ticks 2 =
    .ended (starved memo (w ++ [cell]) cell (drained (w.length + 1)))
      (.error (.error (.inputExhausted 3))) := by
  have hsteps : 2 + 3 * w.length + 1 = 3 * (w.length + 1) := by omega
  rw [ticks_succ tick_turning, ticks, tick_read_error rfl, starved, List.length_append, hsteps]
  rfl

/-- The loop writes the byte that it is entered with and the bytes read up to the first zero. -/
private theorem ends_turning (w : List UInt8) (cell : UInt8) {crossed found : List (Nat × Nat)}
    (h : memo.Records .copy crossed found) (hend : e = .zero ∨ 0 ∈ s) :
    ∃ n memo' input, (turning e memo w cell s).ticks n =
      .ended (passed e memo' (w ++ cell :: s.takeWhile (· ≠ 0)) input) (.ok ()) ∧
      memo'.scans = if s.takeWhile (· ≠ 0) = [] then memo.scans else 1 := by
  -- on the input left: only its first byte can still make the memo scan
  induction s generalizing memo w cell crossed found with
  | nil =>
    obtain rfl : e = .zero := by simpa using hend
    exact ⟨4, memo, _, ticks_turn_end, rfl⟩
  | cons b s ih =>
    by_cases hb : b = 0
    · subst hb
      exact ⟨4, memo, _, by simpa using ticks_turn_zero, by simp⟩
    · obtain ⟨found', hrec⟩ := h.visit Program.matched_copy (.inr rfl)
      have hscans : (memo.visit 4 1).scans = 1 := hrec.scans_copy (by simp)
      have hrest : e = .zero ∨ 0 ∈ s := by simpa [Ne.symm hb] using hend
      obtain ⟨n, memo', input, hn, hmemo⟩ := ih (w ++ [cell]) b hrec hrest
      refine ⟨3 + n, memo', input, ?_, by simp [hmemo, hscans, hb]⟩
      rw [ticks_add (ticks_turn h hb), hn]
      simp [hb]

/-- Without a zero the loop writes all that is left, until a read fails. -/
private theorem starved_of_turning (w : List UInt8) (cell : UInt8)
    {crossed found : List (Nat × Nat)} (h : memo.Records .copy crossed found) (hs : 0 ∉ s) :
    ∃ n memo' b input, (turning .error memo w cell s).ticks n =
      .ended (starved memo' (w ++ cell :: s) b input) (.error (.error (.inputExhausted 3))) := by
  induction s generalizing memo w cell crossed found with
  | nil => exact ⟨2, memo, cell, _, ticks_turn_starved⟩
  | cons b s ih =>
    obtain ⟨hb, hrest⟩ : b ≠ 0 ∧ 0 ∉ s := by simpa [eq_comm] using hs
    obtain ⟨found', hrec⟩ := h.visit Program.matched_copy (.inr rfl)
    obtain ⟨n, memo', c, input, hn⟩ := ih (w ++ [cell]) b hrec hrest
    refine ⟨3 + n, memo', c, input, ?_⟩
    rw [ticks_add (ticks_turn h hb), hn, List.append_assoc]
    rfl

/-- The first byte is read before the loop, which is passed over if that byte is 0. -/
private theorem ends_copying {crossed found : List (Nat × Nat)}
    (h : memo.Records .copy crossed found) (hend : e = .zero ∨ 0 ∈ s) : ∃ n memo' input,
      (copying e memo 0 0 0 (unread s 0) (copied [] 0)).ticks n =
        .ended (passed e memo' (s.takeWhile (· ≠ 0)) input) (.ok ()) ∧
      memo'.scans = if (s.takeWhile (· ≠ 0)).length = 1 then memo.scans else 1 := by
  obtain ⟨found', hrec⟩ := h.visit Program.matched_copy (.inl rfl)
  have hskip : (memo.visit 1 4).scans = 1 := hrec.scans_copy (by simp)
  cases s with
  | nil =>
    obtain rfl : e = .zero := by simpa using hend
    have hread : (copying .zero memo 0 0 0 (unread [] 0) (copied [] 0)).tick =
      .running (copying .zero memo 1 1 0 (drained 0) (copied [] 1)) := tick_read_zero (w := []) rfl
    refine ⟨3, memo.visit 1 4, drained 0, ?_, hskip⟩
    rw [ticks_succ hread, ticks_succ (tick_skip h)]
    rfl
  | cons b s =>
    have hread : (copying e memo 0 0 0 (unread (b :: s) 0) (copied [] 0)).tick =
      .running (copying e memo 1 1 b (unread s 1) (copied [] 1)) := tick_read (w := []) rfl
    by_cases hb : b = 0
    · subst hb
      refine ⟨3, memo.visit 1 4, unread s 1, ?_, by simpa using hskip⟩
      rw [ticks_succ hread, ticks_succ (tick_skip h), List.takeWhile_cons_of_neg (by decide)]
      rfl
    · have hrest : e = .zero ∨ 0 ∈ s := by simpa [Ne.symm hb] using hend
      obtain ⟨n, memo', input, hn, hmemo⟩ := ends_turning [] b h hrest
      refine ⟨n + 1 + 1, memo', input, ?_, by simpa [hb] using hmemo⟩
      have hopen : (copying e memo 1 1 b (unread s 1) (copied [] 1)).tick =
        .running (turning e memo [] b s) := tick_open hb
      rw [ticks_succ hread, ticks_succ hopen, hn]
      simp [hb]

private theorem starved_of_copying {crossed found : List (Nat × Nat)}
    (h : memo.Records .copy crossed found) (hs : 0 ∉ s) : ∃ n memo' ip steps b input,
      (copying .error memo 0 0 0 (unread s 0) (copied [] 0)).ticks n =
        .ended (copying .error memo' ip steps b input (copied s (s.length + 1)))
          (.error (.error (.inputExhausted (if s = [] then 0 else 3)))) := by
  cases s with
  | nil =>
    have hread : (copying .error memo 0 0 0 (unread [] 0) (copied [] 0)).tick =
        .ended (copying .error memo 0 0 0 (drained 0) (copied [] 1))
          (.error (.error (.inputExhausted 0))) := tick_read_error (w := []) rfl
    refine ⟨1, memo, 0, 0, 0, drained 0, ?_⟩
    rw [ticks, hread]
    rfl
  | cons b s =>
    obtain ⟨hb, hrest⟩ : b ≠ 0 ∧ 0 ∉ s := by simpa [eq_comm] using hs
    obtain ⟨n, memo', c, input, hn⟩ := starved_of_turning [] b h hrest
    refine ⟨n + 1 + 1, memo', 3, 3 * (b :: s).length, c, input, ?_⟩
    have hread : (copying .error memo 0 0 0 (unread (b :: s) 0) (copied [] 0)).tick =
      .running (copying .error memo 1 1 b (unread s 1) (copied [] 1)) :=
        tick_read (w := []) rfl
    rw [ticks_succ hread, ticks_succ (tick_open hb)]
    exact hn

private theorem conclude_copying (e : EofPolicy) (memo : JumpMemo) (ip steps : Nat) (cell : UInt8)
    (input : Source) (w : List UInt8) (f : Nat) (r : Except RunError Unit) :
    (copying e memo ip steps cell input (copied w f)).conclude (r.mapError .error) =
      (copying e memo ip steps cell input
        { copied w f with flushes := (Array.range f).push w.length }, r.mapError .error) := by
  cases r <;> rfl

end Copying

namespace Machine
open Copying

private theorem start_copying {m : Machine} {e : EofPolicy} (hprogram : m.program = .copy)
    (hconfig : m.config = { eof := e }) (hcancel : m.cancel = none) (htracer : m.tracer = none)
    (s : List UInt8) : m.start (.ofBytes s) Sink.unlimited =
      copying e m.memo 0 0 0 (unread s 0) (copied [] 0) := by
  obtain ⟨p, c, t, i, j, k, memo, cancel, tracer⟩ := m
  subst hprogram hconfig hcancel htracer
  rfl

/-- The copying program on every input, whatever has been run before. If a zero byte ends the copy,
or a zero is what the end of input is read as, the run ends well behind the loop: the output is the
input up to its first zero, each byte was flushed before the next one was read, and the loop was
scanned for by now, unless there was exactly one byte to copy, which adds no scan to those made
before; a new machine has made none. If the end of input is an error it is
one at the read that found it, after all of the input has been copied. -/
theorem run_copy (e : EofPolicy) (es : List (Event Sink)) (s : List UInt8)
    (hcancel : ((Machine.new .copy { eof := e }).after es).cancel = none)
    (htracer : ((Machine.new .copy { eof := e }).after es).tracer = none) :
    let m := (Machine.new .copy { eof := e }).after es
    let p := s.takeWhile (· ≠ 0)
    ((e = .zero ∨ 0 ∈ s) → ∃ n x, m.run n (.ofBytes s) Sink.unlimited = some (x, .ok ()) ∧
      x.output.stored.toList = p ∧
      x.output.flushes.toList = List.range (p.length + 1) ++ [p.length] ∧
      x.steps = 2 + 3 * p.length ∧ x.tape.cells = #[0] ∧ x.ip = 5 ∧
      x.scans = if p.length = 1 then m.scans else 1) ∧
    (e = .error → 0 ∉ s → ∃ n x, m.run n (.ofBytes s) Sink.unlimited =
        some (x, .error (.error (.inputExhausted (if s = [] then 0 else 3)))) ∧
      x.output.stored.toList = s) := by
  have hrec := records_after (m := Machine.new .copy { eof := e })
    ⟨rfl, JumpMemo.records_empty .copy⟩ es
  have hconfig := (lasting_config (σ := Sink) { eof := e }).after
    (m := Machine.new .copy { eof := e }) rfl es
  generalize (Machine.new .copy { eof := e }).after es = m at *
  have hstart := start_copying hrec.program hconfig hcancel htracer s
  intro m' p
  constructor
  · intro hend
    obtain ⟨n, memo, input, hn, hscans⟩ := ends_copying hrec.memo hend
    have hlast := conclude_copying e memo 5 (2 + 3 * p.length) 0 input p (p.length + 1) (.ok ())
    have hflushes : ((Array.range (p.length + 1)).push p.length).toList =
        List.range (p.length + 1) ++ [p.length] := by simp
    exact ⟨n, _, run_eq_some_iff.mpr ⟨_, _, hstart ▸ hn, hlast⟩, rfl, hflushes, rfl, rfl, rfl,
      hscans⟩
  · rintro rfl hs
    obtain ⟨n, memo, ip, steps, b, input, hn⟩ := starved_of_copying hrec.memo hs
    have hlast := conclude_copying .error memo ip steps b input s (s.length + 1)
      (.error (.inputExhausted (if s = [] then 0 else 3)))
    exact ⟨n, _, run_eq_some_iff.mpr ⟨_, _, hstart ▸ hn, hlast⟩, rfl⟩

/-- Two bytes are copied up to a zero with one scan, and one byte with no zero behind it is copied
before the end of input is an error. -/
theorem copies_to_zero_or_end :
    (∃ n x, (Machine.new .copy { eof := .error }).run n (.ofBytes [72, 105, 0, 33])
        Sink.unlimited = some (x, .ok ()) ∧ x.output.stored.toList = [72, 105] ∧
      x.output.flushes.toList = [0, 1, 2, 2] ∧ x.steps = 8 ∧ x.scans = 1) ∧
    ∃ n x, (Machine.new .copy { eof := .error }).run n (.ofBytes [72]) Sink.unlimited =
        some (x, .error (.error (.inputExhausted 3))) ∧ x.output.stored.toList = [72] := by
  constructor
  · obtain ⟨n, x, hrun, hstored, hflushes, hsteps, _, _, hscans⟩ :=
      (run_copy .error [] [72, 105, 0, 33] rfl rfl).1 (.inr (by decide))
    exact ⟨n, x, hrun, hstored, hflushes, hsteps, hscans⟩
  · exact (run_copy .error [] [72] rfl rfl).2 rfl (by decide)

end Machine
end ByteTape
