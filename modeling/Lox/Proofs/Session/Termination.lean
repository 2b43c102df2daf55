import Lox.Proofs.Machine.Termination

/-!
# Sources that come to an end

A source without loops ends in every session in which no function or method that can still be called
has a loop. However its functions, methods and classes call each other, they do so no deeper than
calls may nest.
-/
namespace Lox

/-- Once a run has its result more steps change nothing. -/
theorem Config.run_of_le {c : Config} {fuel more : Nat} (done : (c.run fuel).finished = true)
    (le : fuel ≤ more) : c.run more = c.run fuel := by
  obtain ⟨rest, rfl⟩ := Nat.exists_eq_add_of_le le
  rw [run_add, run_of_finished done]

namespace Session

open Grammar (StartsLoop)

/-- A run that is finished has an outcome: the fault of the flush, or its own one, or success. -/
theorem finish?_of_finished {c : Config} (done : c.finished = true) (nextId : Nat) :
    ∃ outcome, finish? nextId c = some (⟨c.state, nextId⟩, outcome) ∧
      (outcome = .success ∨
        ∃ f, outcome = .failed f ∧ (c.state.sink.flush? = some f ∨ c.control = .failed f)) := by
  simp only [finish?, Config.ending?, if_pos done, Option.map_some]
  refine ⟨_, rfl, ?_⟩
  cases hf : c.state.sink.flush? with
  | some f => exact .inr ⟨f, rfl, .inl rfl⟩
  | none =>
    cases hc : c.control with
    | failed f => exact .inr ⟨f, rfl, .inr rfl⟩
    | _ => exact .inl rfl

/-- A program diverges only through a loop. In a session in which the functions and methods that can
be reached have no loops, a source without `while` and without `for` that is accepted ends. Where
output always succeeds it ends with success or with a runtime fault. -/
theorem ends_of_loopFree {programs : List (List Stmt)} {s s' : Session} {source : String}
    {program : List Stmt} (reached : Reached programs s) (stored : s.state.LoopFree)
    (loopless : ∀ t ∈ okOnly (scan source), ¬ StartsLoop t)
    (load : s.load source = (s', .ok program)) :
    ∃ fuel after outcome, (∀ more, fuel ≤ more → s.run more source = some (after, outcome)) ∧
      (s.state.sink.room = none → s.state.sink.flushFails = false →
        outcome = .success ∨ ∃ cause line, outcome = .failed (.runtime cause line)) := by
  obtain ⟨parsed, clean, _, _, after⟩ := load_ok load
  have free : Stmt.allLoopFree program = true := parsed ▸ loopFree_parse clean loopless
  have ready : s'.state.LoopFree := after ▸ ⟨stored.functions, stored.methods⟩
  have depth : s'.state.depth = 0 := after ▸ reached.restored.2
  obtain ⟨fuel, done⟩ := ready.exists_finished (depth ▸ Nat.zero_le _) free
  obtain ⟨outcome, finish, kind⟩ := finish?_of_finished done s'.nextId
  let c := (s'.state.interpreting program).run fuel
  refine ⟨fuel, ⟨c.state, s'.nextId⟩, outcome, fun more le => ?_, fun room flush => ?_⟩
  · rw [Session.run, load]
    simp only
    rw [Config.run_of_le done le]
    exact finish
  · have start : (s'.state.interpreting program).Boundless := by
      subst after
      refine ⟨room, flush, fun f raised => ?_⟩
      cases raised
    have run := start.run fuel
    have flushed : c.state.sink.flush? = none := by rw [Sink.flush?, run.flush, if_neg nofun]
    rcases kind with rfl | ⟨f, rfl, own | own⟩
    · exact .inl rfl
    · cases flushed.symm.trans own
    · obtain ⟨cause, line, rfl⟩ := run.faults f own
      exact .inr ⟨cause, line, rfl⟩

/-- A function that calls itself without end. -/
theorem endless_recursion_ends :
    let s := initial .unlimited fun _ => 0
    ∃ fuel after outcome,
      (∀ more, fuel ≤ more → s.run more "fun f() \x7b f(); \x7d f();" = some (after, outcome)) ∧
        (outcome = .success ∨ ∃ cause line, outcome = .failed (.runtime cause line)) := by
  intro s
  have passes : Passes "fun f() \x7b f(); \x7d f();" := by cbv
  have none : ((okOnly (scan "fun f() \x7b f(); \x7d f();")).all fun t => !StartsLoop t) = true := by
    cbv
  have loopless : ∀ t ∈ okOnly (scan "fun f() \x7b f(); \x7d f();"), ¬ StartsLoop t := by
    simpa using none
  have stored : s.state.LoopFree :=
    ⟨fun f c h => by simp [s, initial, State.initial, Store.empty, Store.addEnvironment] at h,
      fun k name c h => by
        simp [s, initial, State.initial, Store.empty, Store.addEnvironment, Store.ownMethod?] at h⟩
  obtain ⟨lexed, parsed, resolved⟩ := passes
  have load := load_of_clean (s := s) lexed (congrArg (Parsed.mk _ · _) parsed) resolved
  obtain ⟨fuel, after, outcome, ran, kind⟩ :=
    ends_of_loopFree (.initial _ _) stored loopless load
  exact ⟨fuel, after, outcome, ran, kind rfl rfl⟩

end Session

end Lox
