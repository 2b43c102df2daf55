import Lox.Machine.Step

/-!
# Runs

A run takes a given number of steps at most. One that has not ended by then is told apart from
every result, and more steps never change a result once there is one.
-/
namespace Lox

namespace Config

/-- Whether there is a result and nothing waits for it. -/
def finished : Config → Bool
  | ⟨.evaluate _, _, _⟩ => false
  | ⟨.execute _, _, _⟩ => false
  | ⟨_, pending, _⟩ => pending.isEmpty

/-- At most so many steps. -/
def run : Nat → Config → Config
  | 0, c => c
  | fuel + 1, c => if c.finished then c else run fuel c.step

theorem step_of_finished {c : Config} (h : c.finished = true) : c.step = c := by
  obtain ⟨control, pending, σ⟩ := c
  cases pending with
  | nil =>
    cases control with
    | evaluate e => cases h
    | execute s => cases h
    | value v => rfl
    | completed c => rfl
    | failed f => rfl
  | cons first pending => cases control <;> cases h

theorem run_of_finished {c : Config} (h : c.finished = true) (fuel : Nat) : c.run fuel = c := by
  cases fuel with
  | zero => rfl
  | succ fuel => rw [run, if_pos h]

/-- A run may be interrupted and taken up again. -/
theorem run_add (m n : Nat) (c : Config) : c.run (m + n) = (c.run m).run n := by
  induction m generalizing c with
  | zero => rw [Nat.zero_add, run]
  | succ m ih =>
    rw [Nat.succ_add, run, run]
    split
    · next h => rw [run_of_finished h]
    · exact ih c.step

/-- One more step comes after the others. -/
theorem run_succ (n : Nat) (c : Config) : c.run (n + 1) = (c.run n).step := by
  rw [run_add, run]
  split
  · next h => rw [step_of_finished h]
  · rfl

end Config

namespace State

def evaluating (σ : State) (e : Expr) : Config := ⟨.evaluate e, [], σ⟩

def executing (σ : State) (s : Stmt) : Config := ⟨.execute s, [], σ⟩

/-- A program runs its statements in order up to the first fault. -/
def interpreting (σ : State) (program : List Stmt) : Config :=
  ⟨.completed .normal, [.program program], σ⟩

end State

/-- How a program ended, once it did: its output is flushed then, and a flush that fails is
what counts. -/
def Config.ending? (c : Config) : Option (Option Fault × State) :=
  if c.finished then
    let own := match c.control with
      | .failed f => some f
      | _ => none
    some (c.state.sink.flush?.or own, c.state)
  else none

/-- What an end leaves is the state of the configuration that is finished. -/
theorem Config.finished_of_ending? {c : Config} {own : Option Fault} {σ : State}
    (h : c.ending? = some (own, σ)) : c.finished = true ∧ σ = c.state := by
  unfold ending? at h
  split at h
  · next done =>
    cases h
    exact ⟨done, rfl⟩
  · cases h

end Lox
