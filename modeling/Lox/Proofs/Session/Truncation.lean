import Mathlib
import Lox.Proofs.Session.Termination

/-!
# Output that does not fit

A run over a sink with room for so many bytes goes in step with the run over a sink that takes
everything, for as long as its output fits. The first print that does not fit fails, what waits is
undone, and the sink is left with the bytes that fitted.
-/
namespace Lox

namespace Sink

/-- A sink that takes everything, with what was written to it before. -/
def endless (written : ByteArray) : Sink := ⟨written, none, false⟩

/-- A sink that holds so many bytes in all. -/
def holding (capacity : Nat) (written : ByteArray) : Sink :=
  ⟨written, some (capacity - written.size), false⟩

/-- A write that fits. -/
theorem write_fits {capacity : Nat} {written : ByteArray} {text : String}
    (fits : (written ++ text.toUTF8).size ≤ capacity) :
    (holding capacity written).write text = (holding capacity (written ++ text.toUTF8), true) := by
  rw [ByteArray.size_append] at fits
  have room : text.toUTF8.size ≤ capacity - written.size := by omega
  simp only [write, holding, if_pos room, ByteArray.size_append, Nat.sub_sub]

/-- Of a write that does not fit the first bytes are kept. -/
theorem write_full {capacity : Nat} {written : ByteArray} {text : String}
    (before : written.size ≤ capacity) (full : capacity < (written ++ text.toUTF8).size) :
    (holding capacity written).write text =
      (⟨(written ++ text.toUTF8).extract 0 capacity, some 0, false⟩, false) := by
  rw [ByteArray.size_append] at full
  have room : ¬ text.toUTF8.size ≤ capacity - written.size := by omega
  have kept : (written ++ text.toUTF8).extract 0 capacity =
      written ++ text.toUTF8.extract 0 (capacity - written.size) := by
    rw [ByteArray.extract_append, Nat.zero_sub]
    congr 1
    ext1
    simp [ByteArray.data_extract, before]
  simp only [write, holding, if_neg room, kept]

end Sink

namespace Config

/-- What was written up to now. -/
def output (c : Config) : ByteArray := c.state.sink.written

/-- The same over a sink that holds so many bytes. -/
def held (c : Config) (capacity : Nat) : Config := c.into (.holding capacity c.output)

variable {c : Config} {capacity : Nat}

/-- A step adds to the output. -/
theorem output_step (h : c.Boundless) : ∃ more, c.step.output = c.output ++ more := by
  cases hp : c.prints? with
  | none => exact ⟨.empty, by rw [output, sink_step hp, ByteArray.append_empty, output]⟩
  | some v =>
    obtain ⟨pending, _, step⟩ := eq_of_prints hp
    rw [step, print_boundless h.room]
    exact ⟨_, rfl⟩

theorem output_run (h : c.Boundless) {m n : Nat} (le : m ≤ n) :
    ∃ more, (c.run n).output = (c.run m).output ++ more := by
  induction le with
  | refl => exact ⟨.empty, ByteArray.append_empty.symm⟩
  | @step n _ ih =>
    obtain ⟨before, hb⟩ := ih
    obtain ⟨more, hm⟩ := output_step (h.run n)
    exact ⟨before ++ more, by rw [run_succ, hm, hb, ByteArray.append_assoc]⟩

/-- While the output fits, the step is the same. -/
theorem step_held (h : c.Boundless) (fits : c.step.output.size ≤ capacity) :
    (c.held capacity).step = c.step.held capacity := by
  cases hp : c.prints? with
  | none =>
    have same : c.step.output = c.output := by rw [output, sink_step hp, output]
    rw [held, held, same]
    exact step_into hp _
  | some v =>
    obtain ⟨pending, now, step⟩ := eq_of_prints hp
    rw [step, print_boundless h.room] at fits ⊢
    rw [now]
    show print v pending { c.state with sink := .holding capacity c.state.sink.written } = _
    simp only [print, Sink.write_fits fits]
    rfl

/-- A step whose output does not fit fails. -/
theorem step_full (h : c.Boundless) (before : c.output.size ≤ capacity)
    (full : capacity < c.step.output.size) :
    ∃ v pending, c = ⟨.value v, .printing :: pending, c.state⟩ ∧
      (c.held capacity).step = ⟨.failed (.output .sinkFull), pending,
        { c.state with sink := ⟨c.step.output.extract 0 capacity, some 0, false⟩ }⟩ := by
  cases hp : c.prints? with
  | none =>
    have same : c.step.output = c.output := by rw [output, sink_step hp, output]
    rw [same] at full
    exact absurd before (Nat.not_le_of_lt full)
  | some v =>
    obtain ⟨pending, now, step⟩ := eq_of_prints hp
    refine ⟨v, pending, now, ?_⟩
    rw [step, print_boundless h.room] at full ⊢
    rw [now]
    show print v pending { c.state with sink := .holding capacity c.state.sink.written } = _
    simp only [print]
    have kept : (Sink.holding capacity c.state.sink.written).write (c.state.store.display v ++ "\n") =
        (⟨(c.state.sink.written ++ c.state.store.line v).extract 0 capacity, some 0, false⟩, false) :=
      Sink.write_full before full
    rw [kept]
    rfl

/-- While the output fits, so is the run. -/
theorem run_held (h : c.Boundless) {n : Nat} (fits : (c.run n).output.size ≤ capacity) :
    (c.held capacity).run n = (c.run n).held capacity := by
  induction n with
  | zero => rfl
  | succ n ih =>
    obtain ⟨more, hm⟩ := output_step (h.run n)
    rw [run_succ] at fits ⊢
    have before : (c.run n).output.size ≤ capacity := by
      rw [hm, ByteArray.size_append] at fits
      omega
    rw [ih before, run_succ]
    exact step_held (h.run n) fits

/-- A fault undoes all that waits. -/
theorem run_failed (f : Fault) (pending : List Pending) (σ : State) :
    ∃ current depth, (Config.mk (.failed f) pending σ).run pending.length =
      ⟨.failed f, [], { σ with current, depth }⟩ := by
  induction pending generalizing σ with
  | nil => exact ⟨σ.current, σ.depth, rfl⟩
  | cons first pending ih =>
    have step : ∃ current depth, unwind f first pending σ =
        ⟨.failed f, pending, { σ with current, depth }⟩ := by
      unfold unwind
      split <;> exact ⟨_, _, rfl⟩
    obtain ⟨current, depth, step⟩ := step
    obtain ⟨current', depth', rest⟩ := ih { σ with current, depth }
    refine ⟨current', depth', ?_⟩
    rw [List.length_cons, run]
    show Config.run pending.length (unwind f first pending σ) = _
    rw [step, rest]

/-- Output that does not fit at some moment had fitted up to one print. -/
theorem exists_full (before : c.output.size ≤ capacity) {k : Nat}
    (full : capacity < (c.run k).output.size) :
    ∃ m, (c.run m).output.size ≤ capacity ∧ capacity < (c.run (m + 1)).output.size := by
  induction k with
  | zero => exact absurd before (Nat.not_le_of_lt full)
  | succ k ih =>
    by_cases fits : (c.run k).output.size ≤ capacity
    · exact ⟨k, fits, full⟩
    · exact ih (Nat.lt_of_not_le fits)

/-- The first bytes of the output stay. -/
theorem extract_output (h : c.Boundless) {m n : Nat} (full : capacity < (c.run m).output.size)
    (full' : capacity < (c.run n).output.size) :
    (c.run m).output.extract 0 capacity = (c.run n).output.extract 0 capacity := by
  have later {m n : Nat} (le : m ≤ n) (full : capacity < (c.run m).output.size) :
      (c.run m).output.extract 0 capacity = (c.run n).output.extract 0 capacity := by
    obtain ⟨more, added⟩ := output_run h le
    have within : capacity - (c.run m).output.size = 0 := Nat.sub_eq_zero_of_le (Nat.le_of_lt full)
    rw [added, ByteArray.extract_append, within]
    simp
  rcases Nat.le_total m n with le | le
  · exact later le full
  · exact (later le full').symm

/-- The run ends with the print that does not fit. -/
theorem held_ends (h : c.Boundless) {m : Nat} (fits : (c.run m).output.size ≤ capacity)
    (full : capacity < (c.run (m + 1)).output.size) :
    ∃ v pending current depth, c.run m = ⟨.value v, .printing :: pending, (c.run m).state⟩ ∧
      (c.held capacity).run (m + (pending.length + 1)) = ⟨.failed (.output .sinkFull), [],
        { (c.run m).state with
          current, depth
          sink := ⟨(c.run (m + 1)).output.extract 0 capacity, some 0, false⟩ }⟩ := by
  rw [run_succ] at full ⊢
  obtain ⟨v, pending, now, failing⟩ := step_full (h.run m) fits full
  obtain ⟨current, depth, undone⟩ := run_failed (.output .sinkFull) pending
    { (c.run m).state with sink := ⟨(c.run m).step.output.extract 0 capacity, some 0, false⟩ }
  have going : ((c.run m).held capacity).finished = false := by
    rw [now]
    rfl
  refine ⟨v, pending, current, depth, now, ?_⟩
  rw [run_add, run_held h fits, run, going, failing]
  exact undone

end Config

namespace Session

/-- The same session over another sink. -/
def into (s : Session) (sink : Sink) : Session := { s with state := { s.state with sink } }

variable {s s' : Session} {source : String} {program : List Stmt}

/-- Loading a source has nothing to do with the sink. -/
theorem load_into (s : Session) (sink : Sink) (source : String) :
    (s.into sink).load source = ((s.load source).1.into sink, (s.load source).2) := by
  simp only [load]
  (repeat' split) <;> simp_all [into, State.record]

theorem run_into (load : s.load source = (s', .ok program)) (sink : Sink) (fuel : Nat) :
    (s.into sink).run fuel source =
      finish? s'.nextId (((s'.state.interpreting program).into sink).run fuel) := by
  rw [Session.run, load_into, load]
  rfl

/-- What is left is the same over another sink whose flush succeeds as well. -/
theorem finish?_into (c : Config) (nextId : Nat) {sink : Sink} (flush : c.state.sink.flushFails = false)
    (flush' : sink.flushFails = false) : finish? nextId (c.into sink) =
      (finish? nextId c).map fun result => (result.1.into sink, result.2) := by
  have done : (c.into sink).finished = c.finished := c.finished_disturb fun _ => sink
  simp only [finish?, Config.ending?, done]
  split
  · simp [Config.into, Sink.flush?, flush, flush', into]
  · rfl

/-- A full sink only truncates. A source that is accepted runs over a sink without a bound, and over
one with room for `n` bytes that keeps those that fit. While the output has no more bytes, both runs
are the same but for the room that is left. If it gets more, the second run ends: with the fault of
the sink, with the first `n` bytes, and with all else as it was when the print that did not fit was
made, in the global environment and outside of all calls. -/
theorem full_sink_truncates {programs : List (List Stmt)} (reached : Reached programs s)
    (load : s.load source = (s', .ok program)) (w : ByteArray) (n : Nat) :
    let endless := s.into ⟨w, none, false⟩
    let limited := s.into ⟨w, some n, false⟩
    let start := (s'.state.interpreting program).into ⟨w, none, false⟩
    let output k := (start.run k).output
    (∀ fuel, endless.run fuel source = finish? s'.nextId (start.run fuel)) ∧
      (∀ fuel, (output fuel).size ≤ w.size + n →
        limited.run fuel source = (endless.run fuel source).map fun (after, outcome) =>
          (after.into ⟨output fuel, some (w.size + n - (output fuel).size), false⟩, outcome)) ∧
      ((∃ k, w.size + n < (output k).size) → ∃ m v pending fuel after outcome,
        start.run m = ⟨.value v, .printing :: pending, (start.run m).state⟩ ∧
          (output m).size ≤ w.size + n ∧ w.size + n < (output (m + 1)).size ∧
          (∀ more, fuel ≤ more → limited.run more source = some (after, outcome)) ∧
          outcome = .failed (.output .sinkFull) ∧ outcome.exitCode = 70 ∧
          after.nextId = s'.nextId ∧
          after.state = { (start.run m).state with
            current := State.globals
            depth := 0
            sink := after.state.sink } ∧
          ∀ k, w.size + n < (output k).size →
            after.state.sink = ⟨(output k).extract 0 (w.size + n), some 0, false⟩) := by
  intro endless limited start output
  have boundless : start.Boundless := by
    refine ⟨rfl, rfl, fun f raised => ?_⟩
    cases raised
  have held : (s'.state.interpreting program).into ⟨w, some n, false⟩ = start.held (w.size + n) := by
    have room : Sink.holding (w.size + n) w = ⟨w, some n, false⟩ := by simp [Sink.holding]
    rw [← room]
    rfl
  have unlimited (fuel : Nat) : endless.run fuel source = finish? s'.nextId (start.run fuel) :=
    run_into load _ fuel
  have bounded (fuel : Nat) :
      limited.run fuel source = finish? s'.nextId ((start.held (w.size + n)).run fuel) := by
    rw [← held]
    exact run_into load _ fuel
  refine ⟨unlimited, fun fuel fits => ?_, fun ⟨k, full⟩ => ?_⟩
  · rw [bounded, unlimited, Config.run_held boundless fits, Config.held,
      finish?_into _ _ (boundless.run fuel).flush rfl]
    rfl
  · have before : start.output.size ≤ w.size + n := Nat.le_add_right _ _
    obtain ⟨m, fits, exceeds⟩ := Config.exists_full before full
    obtain ⟨v, pending, current, depth, now, ends⟩ := Config.held_ends boundless fits exceeds
    let fuel := m + (pending.length + 1)
    let cut : Sink := ⟨(output (m + 1)).extract 0 (w.size + n), some 0, false⟩
    have done : ((start.held (w.size + n)).run fuel).finished = true := by
      rw [ends]
      rfl
    have restored : current = State.globals ∧ depth = 0 := by
      have ended : (((s'.state.interpreting program).into ⟨w, some n, false⟩).run fuel).ending? =
          some (some (.output .sinkFull),
            { (start.run m).state with current, depth, sink := cut }) := by
        rw [held, ends]
        rfl
      obtain ⟨here, outside⟩ :=
        State.interpreting_restored (σ := { s'.state with sink := ⟨w, some n, false⟩ }) ended
      obtain ⟨_, _, _, _, same⟩ := load_ok load
      rw [same] at here outside
      exact ⟨here.trans reached.restored.1, outside.trans reached.restored.2⟩
    obtain ⟨rfl, rfl⟩ := restored
    refine ⟨m, v, pending, fuel,
      ⟨{ (start.run m).state with current := State.globals, depth := 0, sink := cut }, s'.nextId⟩, _,
      now, fits, exceeds, fun more le => ?_, rfl, rfl, rfl, rfl, fun k full => ?_⟩
    · rw [bounded, Config.run_of_le done le, ends]
      rfl
    · show cut = _
      rw [← Config.extract_output boundless exceeds full]

/-- Two lines of two bytes each where there is room for three bytes. -/
theorem second_line_truncated :
    let s := initial .unlimited fun _ => 0
    ∃ fuel after, (s.into ⟨.empty, some 3, false⟩).run fuel "print \"a\"; print \"b\";" =
        some (after, .failed (.output .sinkFull)) ∧
      after.state.sink.written = "a\nb".toUTF8 := by
  intro s
  let program : List Stmt := [.print (.literal (.string "a")), .print (.literal (.string "b"))]
  have lexed : errorsOnly (scan "print \"a\"; print \"b\";") = [] := by cbv
  have parsed : parse (okOnly (scan "print \"a\"; print \"b\";")) 0 = ⟨program, [], 0⟩ := by cbv
  have load := load_of_clean (s := s) lexed parsed rfl
  obtain ⟨_, _, truncates⟩ := full_sink_truncates (.initial _ _) load .empty 3
  have printed : ((((s.state.record (resolve program).occurrences).interpreting program).into
      ⟨.empty, none, false⟩).run 9).output = "a\nb\n".toUTF8 := by
    cbv
  have full : 3 < ((((s.state.record (resolve program).occurrences).interpreting program).into
      ⟨.empty, none, false⟩).run 9).output.size := by
    rw [printed]
    decide
  obtain ⟨m, v, pending, fuel, after, outcome, _, _, _, ran, rfl, _, _, _, sink⟩ :=
    truncates ⟨9, full⟩
  refine ⟨fuel, after, ran fuel (Nat.le_refl fuel), ?_⟩
  have first : ("a\nb\n".toUTF8).extract 0 3 = "a\nb".toUTF8 := by decide
  rw [sink 9 full]
  exact (congrArg (ByteArray.extract · 0 3) printed).trans first

end Session

end Lox
