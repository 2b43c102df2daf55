import Mathlib
import Lox.Proofs.Machine.Initializers
import Lox.Proofs.Session.Dispatch
import Lox.Proofs.Session.Returns

/-!
# Initializers in a session

Whatever sources ran before, a class that is called gives a new instance of its own on which its
nearest initializer was run, and an initializer that is called gives its instance, whichever way it
was reached.
-/
namespace Lox

namespace Session

variable {programs : List (List Stmt)} {s s' : Session} {source : String} {program : List Stmt}
  {past : Config → Prop}

/-- The store of every moment of a run has grown from that of an earlier one. -/
theorem extends_running (scopes : Scoped (program :: programs) s) {m n : Nat} (le : m ≤ n) :
    ((s.state.interpreting program).run m).state.store.Extends
      ((s.state.interpreting program).run n).state.store := by
  induction le with
  | refl => exact Store.extends_of_environments rfl rfl
  | @step n _ ih =>
    rw [Config.run_succ]
    exact ih.trans (Config.step_extends fun _ named =>
      ((scopes.running 0).run scopes.recorded n).binding_plain scopes.recorded named)

/-- Every moment of the run of an accepted program. -/
theorem initialized_running (scopes : Scoped (program :: programs) s)
    (initialized : s.state.store.Initialized) (n : Nat) :
    ((s.state.interpreting program).run n).Initialized := by
  induction n with
  | zero => exact ⟨initialized, nofun⟩
  | succ n ih =>
    rw [Config.run_succ]
    exact ih.step fun _ named =>
      ((scopes.running 0).run scopes.recorded n).binding_plain scopes.recorded named

theorem Reached.initialized (h : Reached programs s) : s.state.store.Initialized := by
  induction h with
  | initial => exact ⟨nofun, nofun⟩
  | rejected _ load ih =>
    obtain ⟨_, same | ⟨program, _, same⟩⟩ := load_error load <;> exact same ▸ ih
  | between _ _ _ ih => exact ih
  | ended before load finish ih =>
    obtain ⟨⟨own, σ⟩, he, hs⟩ := Option.map_eq_some_iff.mp finish
    cases hs
    obtain ⟨_, rfl⟩ := Config.finished_of_ending? he
    have scopes := before.scoped.accept load
    obtain ⟨_, _, _, _, rfl⟩ := load_ok load
    exact (initialized_running scopes ih _).store

/-- At every moment of a run calls and initializers keep their contract, and a function that is an
initializer on an instance, at that moment or before the run, is one on the same instance ever
after. -/
theorem initializer_contract (lived : Lived programs s past)
    (load : s.load source = (s', .ok program)) (n : Nat) :
    let start := s'.state.interpreting program
    let c := start.run n
    c.Constructs ∧ c.GivesReceiver ∧ c.AccessBinds ∧ c.ReceiversPresent ∧ c.CallsCounted ∧
      (∀ id i, s.state.store.Initializes id i → c.state.store.Initializes id i) ∧
      ∀ id i m, c.state.store.Initializes id i → (start.run (n + m)).state.store.Initializes id i := by
  intro start c
  have scopes := lived.reached.scoped.accept load
  have recorded := scopes.recorded
  have sound := ((lived.tracked.accept load).running n).2
  have sourced := (placed_running lived.reached lived.reached.sourced load n).store
  obtain ⟨_, _, _, _, rfl⟩ := load_ok load
  have initialized := initialized_running scopes lived.reached.initialized n
  have grows (m : Nat) : c.state.store.Extends (c.run m).state.store := by
    rw [← Config.run_add]
    exact extends_running scopes (Nat.le_add_right n m)
  have onwards (m : Nat) : c.step.state.store.Extends (c.run (m + 1)).state.store := by
    rw [← Config.run_succ, ← Config.run_add]
    exact extends_running scopes (by omega)
  refine ⟨initialized.constructs sound onwards recorded sourced,
    Config.givesReceiver grows recorded sourced, initialized.accessBinds,
    initialized.receiversPresent, Config.callsCounted recorded sourced, fun id i was => ?_,
    fun id i m was => ?_⟩
  · exact was.kept (extends_running scopes (Nat.zero_le n)) (start.run_lasts (Nat.zero_le n))
  · exact was.kept (extends_running scopes (Nat.le_add_right n m))
      (start.run_lasts (Nat.le_add_right n m))

/-- An initializer that returns early. -/
def early : FunctionDecl :=
  ⟨⟨.identifier, "init", 1⟩, [⟨.identifier, "n", 1⟩],
    [.returnWith ⟨.keyword .returnWord, "return", 1⟩ none]⟩

theorem early_constructed :
    ∃ s' program, (initial .unlimited fun _ => 0).load
        "class A \x7b init(n) \x7b return; \x7d \x7d A(nil);" = (s', .ok program) ∧
      let c := (s'.state.interpreting program).run 8
      c.Completes (.classRef 0) ⟨.symbol .rightParen, ")", 1⟩ [.nil] 5 (.instanceRef 0) ∧
        (c.run 6).state.store.instances[0]?.map InstanceObject.classId = some 0 ∧
        ∃ closure, closure.decl = early ∧
          c.Starts closure [.nil] (.construction 0 :: c.pending.tail) := by
  let program : List Stmt := [.classDecl ⟨.identifier, "A", 1⟩ none [early],
    .expression (.call (.var 0 ⟨.identifier, "A", 1⟩) ⟨.symbol .rightParen, ")", 1⟩
      [.literal .nil])]
  let σ := (State.initial .unlimited fun _ => 0).record (resolve program).occurrences
  have load : (initial .unlimited fun _ => 0).load
      "class A \x7b init(n) \x7b return; \x7d \x7d A(nil);" = (⟨σ, 1⟩, .ok program) := by
    cbv
  have constructs := (initializer_contract (.initial _ _) load 8).1
  have own : ((σ.interpreting program).run 8).state.store.ownMethod? 0 initializerName =
      some ⟨early, State.globals, true⟩ := by
    cbv
  have control : ((σ.interpreting program).run 8).control = .value .nil := by cbv
  have pending : ((σ.interpreting program).run 8).pending =
      [.argument (.classRef 0) ⟨.symbol .rightParen, ")", 1⟩ [] [], .discard, .program []] := by
    cbv
  have going : ((List.range 5).all fun m =>
      2 < (((σ.interpreting program).run 8).run (m + 1)).pending.length) = true := by
    cbv
  have given : (((σ.interpreting program).run 8).run 6).control = .value (.instanceRef 0) ∧
      (((σ.interpreting program).run 8).run 6).pending = [.discard, .program []] := by
    constructor <;> cbv
  have completes : ((σ.interpreting program).run 8).Completes (.classRef 0)
      ⟨.symbol .rightParen, ")", 1⟩ [.nil] 5 (.instanceRef 0) := by
    refine ⟨?_, fun m hm => ?_, ?_⟩
    · have now : (σ.interpreting program).run 8 = ⟨.value .nil,
          .argument (.classRef 0) ⟨.symbol .rightParen, ")", 1⟩ [] [] :: [.discard, .program []],
          ((σ.interpreting program).run 8).state⟩ := by
        rw [← control, ← pending]
      rw [now]
      exact .applied
    · rw [pending]
      exact of_decide_eq_true (List.all_eq_true.mp going m (List.mem_range.mpr hm))
    · rw [pending]
      exact given
  have first : ((σ.interpreting program).run 8).state.store.nextInstance = 0 := by cbv
  obtain ⟨-, -, -, kind, -, run⟩ := constructs _ _ _ _ _ completes
  obtain ⟨closure, same, -, -, -, starts, -⟩ := run _ (.own own)
  rw [first] at kind starts
  exact ⟨_, program, load, completes, kind, closure, same, starts⟩

end Session

end Lox
