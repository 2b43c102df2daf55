import Mathlib
import Lox.Proofs.Machine.Returns
import Lox.Proofs.Session.Reached

/-!
# Returns in a session

Whatever sources ran before, a source that is accepted never returns at its top: each return ends the
innermost call in progress, which is a call of the function that the return stands in.
-/
namespace Lox

section
variable {programs : List (List Stmt)}

theorem Sourced.more {c : Closure} (h : Sourced programs c) (program : List Stmt) :
    Sourced (program :: programs) c := by
  obtain ⟨ctx, kind, visited, initializes⟩ := h
  exact ⟨ctx, kind, visited.more program, initializes⟩

theorem Store.Sourced.more {σ : Store} (h : σ.Sourced programs) (program : List Stmt) :
    σ.Sourced (program :: programs) :=
  ⟨fun i c hi => (h.functions i c hi).more program,
    fun k name c hm => (h.methods k name c hm).more program⟩

end

namespace Session

variable {programs : List (List Stmt)} {s s' : Session} {source : String} {program : List Stmt}

/-- Every moment of the run of an accepted program. -/
theorem placed_running (reached : Reached programs s) (sourced : s.state.store.Sourced programs)
    (load : s.load source = (s', .ok program)) (fuel : Nat) :
    ((s'.state.interpreting program).run fuel).Placed (program :: programs) := by
  have recorded := (reached.scoped.accept load).recorded
  have store : s'.state.store.Sourced (program :: programs) := by
    obtain ⟨_, _, _, _, rfl⟩ := load_ok load
    exact sourced.more program
  have start : (s'.state.interpreting program).Placed (program :: programs) :=
    .normal store (.program (.program List.mem_cons_self))
  exact start.run recorded fuel

theorem Reached.sourced (h : Reached programs s) : s.state.store.Sourced programs := by
  induction h with
  | initial => exact ⟨nofun, nofun⟩
  | rejected _ load ih =>
    obtain ⟨_, same | ⟨program, _, same⟩⟩ := load_error load <;> exact same ▸ ih
  | between _ _ _ ih => exact ih
  | ended before load finish ih =>
    obtain ⟨⟨own, σ⟩, he, hs⟩ := Option.map_eq_some_iff.mp finish
    cases hs
    obtain ⟨_, rfl⟩ := Config.finished_of_ending? he
    exact (placed_running before ih load _).store

/-- The rules for returns are sound. At no moment of the run of an accepted source does a return
come to the top of the program. It passes over what is left of the body it stands in, which does
nothing more, and ends the innermost call in progress; the value is the result of the call, but for
an initializer, and there it is nil. A return that is executed stands in the text of the function
that was called last. -/
theorem returns_end_innermost (reached : Reached programs s)
    (load : s.load source = (s', .ok program)) (fuel : Nat) {c : Config}
    (moment : (s'.state.interpreting program).run fuel = c) :
    (∀ v, c.control = .completed (.returned v) →
      (∀ rest below, c.pending ≠ .program rest :: below) ∧
      ∃ passed caller closure rest, c.Leaving v passed caller closure rest ∧
        (closure.isInitializer = false →
          bodyResult c.state.store closure (.returned v) = v) ∧
        (closure.isInitializer = true → v = .nil)) ∧
    ∀ keyword value, c.control = .execute (.returnWith keyword value) →
      ∃ passed caller closure rest ctx, Innermost c.pending passed caller closure rest ∧
        Belongs (program :: programs) (some closure) ctx (.stmt (.returnWith keyword value)) ∧
        (closure.isInitializer = true → value = none) := by
  have placed := placed_running reached reached.sourced load fuel
  have recorded := (reached.scoped.accept load).recorded
  rw [moment] at placed
  constructor
  · rintro v returned
    cases placed with
    | @returned closure _ pending σ bare store waits =>
      cases returned
      obtain ⟨passed, caller, rest, innermost⟩ := waits.innermost
      refine ⟨?_, passed, caller, closure, rest, innermost.leaving,
        fun other => bodyResult_returned other _ v, bare⟩
      rintro rest' below rfl
      cases waits
    | _ => cases returned
  · rintro keyword value executed
    cases placed with
    | @execute within ctx _ pending σ belongs store waits =>
      cases executed
      obtain ⟨closure, rfl, bare⟩ := belongs.returns recorded
      obtain ⟨passed, caller, rest, innermost⟩ := waits.innermost
      exact ⟨passed, caller, closure, rest, ctx, innermost, belongs, bare⟩
    | _ => cases executed

/-- A function that leaves its loop by a return only. -/
def find : FunctionDecl :=
  ⟨⟨.identifier, "find", 1⟩, [], [.whileLoop (.literal (.bool true))
    (.block [.returnWith ⟨.keyword .returnWord, "return", 1⟩ (some (.literal (.string "found")))])]⟩

theorem found_returned :
    ∃ s' program, (initial .unlimited fun _ => 0).load
        "fun find() \x7b while (true) \x7b return \"found\"; \x7d \x7d find();" =
          (s', .ok program) ∧
      let c := (s'.state.interpreting program).run 16
      c.control = .completed (.returned (.string "found")) ∧
        ∃ passed caller closure rest, c.Leaving (.string "found") passed caller closure rest ∧
          closure.decl = find ∧
          bodyResult c.state.store closure (.returned (.string "found")) = .string "found" := by
  let program : List Stmt := [.functionDecl find, .expression
    (.call (.var 0 ⟨.identifier, "find", 1⟩) ⟨.symbol .rightParen, ")", 1⟩ [])]
  let σ := (State.initial .unlimited fun _ => 0).record (resolve program).occurrences
  have load : (initial .unlimited fun _ => 0).load
      "fun find() \x7b while (true) \x7b return \"found\"; \x7d \x7d find();" =
        (⟨σ, 1⟩, .ok program) := by
    cbv
  have control : ((σ.interpreting program).run 16).control =
      .completed (.returned (.string "found")) := by
    cbv
  have called : ((σ.interpreting program).run 16).pending.dropWhile (·.passedOver) =
      .body State.globals ⟨find, State.globals, false⟩ :: [.discard, .program []] := by
    cbv
  obtain ⟨-, passed, caller, closure, rest, leaving, value, -⟩ :=
    (returns_end_innermost (.initial _ _) load 16 rfl).1 _ control
  obtain ⟨⟨rfl, rfl⟩, rfl⟩ : (caller = _ ∧ closure = _) ∧ rest = _ := by
    simpa using leaving.innermost.beyond.symm.trans called
  exact ⟨_, program, load, control, passed, _, _, _, leaving, rfl, value rfl⟩

end Session

end Lox
