import Lox.Proofs.Machine.Operators
import Lox.Proofs.Machine.Reserved

/-!
# Regular programs in a session

Every program that a session accepts is regular throughout. What a run evaluates or executes comes
from one of them, so no run meets an operator without a rule, and the names that it binds are no
keywords, so none of them meets `this` or `super`.
-/
namespace Lox

open Scope (Part)

section
variable {programs : List (List Stmt)} {table : Distances} {n : Nat} {c : Config}

/-- A part of a regular program is regular throughout. -/
theorem Visited.regular {ctx : Scope.Context} {part : Part} (h : Visited programs ctx part)
    (regular : ∀ p ∈ programs, (Part.stmts p).Throughout Part.Regular) :
    part.Throughout Part.Regular := by
  obtain ⟨program, hp, visits⟩ := h
  exact (regular program hp).visited visits

theorem Config.Scoped.evaluates (h : c.Scoped programs)
    (regular : ∀ p ∈ programs, (Part.stmts p).Throughout Part.Regular) {e : Expr}
    (now : c.control = .evaluate e) : (Part.expr e).Throughout Part.Regular := by
  cases h with
  | evaluate visited =>
    cases now
    exact visited.regular regular
  | _ => cases now

theorem Config.Scoped.executes (h : c.Scoped programs)
    (regular : ∀ p ∈ programs, (Part.stmts p).Throughout Part.Regular) {s : Stmt}
    (now : c.control = .execute s) : (Part.stmt s).Throughout Part.Regular := by
  cases h with
  | execute visited =>
    cases now
    exact visited.regular regular
  | _ => cases now

theorem Config.Operates.run (h : c.Operates) (placed : c.Scoped programs)
    (recorded : Recorded programs table n)
    (regular : ∀ p ∈ programs, (Part.stmts p).Throughout Part.Regular) (k : Nat) :
    (c.run k).Operates := by
  induction k with
  | zero => exact h
  | succ k ih =>
    rw [run_succ]
    exact ih.step fun e now => ((placed.run recorded k).evaluates regular now).here

theorem Config.Reserved.run (h : c.Reserved) (placed : c.Scoped programs)
    (recorded : Recorded programs table n) (k : Nat) : (c.run k).Reserved := by
  induction k with
  | zero => exact h
  | succ k ih =>
    rw [run_succ]
    exact ih.step (placed.run recorded k) recorded

end

/-- What a moment of a run keeps to: nodes are regular, operators have their rules, and names that
are bound do not meet `this` or `super`. -/
structure Config.Orderly (c : Config) : Prop where
  evaluates : ∀ e, c.control = .evaluate e → (Part.expr e).Throughout Part.Regular
  executes : ∀ s, c.control = .execute s → (Part.stmt s).Throughout Part.Regular
  operators : ∀ f, c.control = .failed f → f.ofOperator = false
  bindings : ∀ name, c.binding? = some name → name.Plain
  reserved : c.state.store.Reserved
  kept : ∀ e name v, Implicit name → c.state.store.local? e name = some v →
    c.step.state.store.local? e name = some v

namespace Session

variable {programs : List (List Stmt)} {s s' : Session} {source : String} {program : List Stmt}

theorem regular_of_load (load : s.load source = (s', .ok program)) :
    (Part.stmts program).Throughout Part.Regular := by
  obtain ⟨rfl, _⟩ := load_ok load
  exact Grammar.regular_parse _ _

theorem Reached.regular (h : Reached programs s) :
    ∀ p ∈ programs, (Part.stmts p).Throughout Part.Regular := by
  induction h with
  | initial => exact List.forall_mem_nil _
  | rejected _ _ ih => exact ih
  | ended _ load _ ih => exact List.forall_mem_cons.mpr ⟨regular_of_load load, ih⟩
  | between _ _ _ ih => exact ih

/-- The global environment is for the names of programs, like every other in use. -/
structure Reserved (s : Session) : Prop where
  store : s.state.store.Reserved
  globals : s.state.store.Open State.globals

theorem reserved_initial (sink : Sink) (readings : Nat → Float) :
    Reserved (initial sink readings) := by
  have empty : Store.empty.Reserved :=
    ⟨fun e x v hv => by simp [Store.local?, Store.empty] at hv,
      fun e k v _ hv => by simp [Store.local?, Store.empty] at hv⟩
  have clock : ¬ Implicit Native.clock.name := by
    rintro (h | h)
    · exact absurd h (by decide)
    · exact absurd h (by decide)
  have made : Store.empty.Retains (State.initial sink readings).store ∧
      (State.initial sink readings).store.Open State.globals := by
    refine empty.enter fun x v hx => ?_
    rw [Bindings.get?_insert] at hx
    split at hx
    · next he => exact he ▸ clock
    · cases hx
  exact ⟨made.1.reserved, made.2⟩

theorem Reserved.interpreting (h : Reserved s) (current : s.state.current = State.globals)
    (program : List Stmt) : (s.state.interpreting program).Reserved := by
  refine ⟨h.store, ?_, fun p hp e he => ?_⟩
  · show s.state.store.Open s.state.current
    rw [current]
    exact h.globals
  · cases List.mem_singleton.mp hp
    cases he

theorem Reserved.accept (h : Reserved s) (load : s.load source = (s', .ok program)) :
    Reserved s' := by
  obtain ⟨_, _, _, _, rfl⟩ := load_ok load
  exact ⟨h.store, h.globals⟩

/-- Between two sources the environments of `this` and of `super` are in order. -/
theorem Reached.reserved (h : Reached programs s) : Reserved s := by
  induction h with
  | initial sink readings => exact reserved_initial sink readings
  | rejected _ load ih =>
    obtain ⟨_, same | ⟨program, _, same⟩⟩ := load_error load
    · exact ⟨same ▸ ih.store, same ▸ ih.globals⟩
    · exact ⟨same ▸ ih.store, same ▸ ih.globals⟩
  | @ended _ s s' _ _ program fuel _ before load finish ih =>
    have accepted := before.scoped.accept load
    have start : (s'.state.interpreting program).Reserved :=
      (ih.accept load).interpreting accepted.current program
    have ran := start.run (accepted.running 0) accepted.recorded fuel
    obtain ⟨⟨own, σ⟩, he, hs⟩ := Option.map_eq_some_iff.mp finish
    cases hs
    obtain ⟨done, rfl⟩ := Config.finished_of_ending? he
    have back := ((accepted.running fuel).finished done).2
    exact ⟨ran.store, back ▸ ran.current⟩
  | between _ sink clock ih => exact ⟨ih.store, ih.globals⟩

/-- Every moment of the run of an accepted program is in order. -/
theorem Reached.orderly (h : Reached programs s) (load : s.load source = (s', .ok program))
    (k : Nat) : ((s'.state.interpreting program).run k).Orderly := by
  have accepted := h.scoped.accept load
  have regular : ∀ p ∈ program :: programs, (Part.stmts p).Throughout Part.Regular :=
    List.forall_mem_cons.mpr ⟨regular_of_load load, h.regular⟩
  have reserved : Reserved s' := h.reserved.accept load
  have start : (s'.state.interpreting program).Scoped (program :: programs) := accepted.running 0
  have placed := accepted.running k
  have operates : (s'.state.interpreting program).Operates :=
    ⟨fun f hf => (by cases hf), fun p hp => by cases List.mem_singleton.mp hp; trivial⟩
  have table : Recorded (program :: programs)
      ((s'.state.interpreting program).run k).state.distances s'.nextId := by
    rw [Config.distances_run]
    exact accepted.recorded
  refine ⟨fun e => placed.evaluates regular, fun t => placed.executes regular,
    (operates.run start accepted.recorded regular k).sound, fun name => placed.binding_plain table,
    ((reserved.interpreting accepted.current program).run start accepted.recorded k).store, ?_⟩
  intro e name v implicit bound
  obtain ⟨w, after, same⟩ :=
    (Config.step_extends fun name => placed.binding_plain table).kept e name v bound
  rw [after, same implicit]

end Session

/-- Whatever the tokens, what is read from them is regular throughout; identifiers that are
scanned are no keywords; and no run of an accepted program meets an operator without a rule, or
binds a name beside `this` or `super`. -/
theorem parsed_in_order :
    (∀ (tokens : List Token) (n : Nat),
      (Part.stmts (parse tokens n).statements).Throughout Part.Regular) ∧
    (∀ (source : String), ∀ t ∈ okOnly (scan source), t.kind = .identifier → t.Plain) ∧
    ∀ {programs : List (List Stmt)} {s s' : Session} {source : String} {program : List Stmt},
      Session.Reached programs s → s.load source = (s', .ok program) →
        ∀ k, ((s'.state.interpreting program).run k).Orderly :=
  ⟨Grammar.regular_parse, fun source t ht => (spelled_scan source t ht).1,
    fun reached load => reached.orderly load⟩

/-- A method that negates its receiver is called. -/
def negatedReceiver : List Stmt :=
  [.classDecl ⟨.identifier, "A", 1⟩ none
    [⟨⟨.identifier, "m", 1⟩, [], [.expression
      (.unary ⟨.symbol .minus, "-", 1⟩ (.thisRef 0 ⟨.keyword .thisWord, "this", 1⟩))]⟩],
    .expression (.call (.get (.call (.var 1 ⟨.identifier, "A", 1⟩) ⟨.symbol .rightParen, ")", 1⟩ [])
      ⟨.identifier, "m", 1⟩) ⟨.symbol .rightParen, ")", 1⟩ [])]

theorem negatedReceiver_in_order :
    ∃ s', (Session.initial .unlimited fun _ => 0).load
        "class A \x7b m() \x7b -this; \x7d \x7d A().m();" = (s', .ok negatedReceiver) ∧
      ((s'.state.interpreting negatedReceiver).run 16).Orderly := by
  let σ := (State.initial .unlimited fun _ => 0).record (resolve negatedReceiver).occurrences
  have load : (Session.initial .unlimited fun _ => 0).load
      "class A \x7b m() \x7b -this; \x7d \x7d A().m();" = (⟨σ, 2⟩, .ok negatedReceiver) := by
    cbv
  exact ⟨_, load, parsed_in_order.2.2 (.initial _ _) load 16⟩

end Lox
