import Lox.Proofs.Machine.Scoping

/-!
# Sessions that are reached

A session goes from one source to the next with the distances of all programs accepted so far,
with closures that were met in one of them, and in the global environment. This holds however a
source ended, and rejected sources change nothing of it.
-/
namespace Lox

namespace Session

/-- The sessions that come about by running sources one after another, each with the programs
that were accepted on the way, the last one first. Output may be taken out between two sources,
and the clock may be another one. -/
inductive Reached : List (List Stmt) → Session → Prop where
  | initial (sink : Sink) (readings : Nat → Float) : Reached [] (initial sink readings)
  | rejected {programs : List (List Stmt)} {s s' : Session} {source : String}
      {faults : List Fault} (before : Reached programs s)
      (load : s.load source = (s', .error faults)) : Reached programs s'
  | ended {programs : List (List Stmt)} {s s' s'' : Session} {source : String}
      {program : List Stmt} {fuel : Nat} {outcome : Outcome} (before : Reached programs s)
      (load : s.load source = (s', .ok program))
      (finish : finish? s'.nextId ((s'.state.interpreting program).run fuel) =
        some (s'', outcome)) : Reached (program :: programs) s''
  | between {programs : List (List Stmt)} {s : Session} (before : Reached programs s)
      (sink : Sink) (clock : Clock) :
      Reached programs { s with state := { s.state with sink, clock } }

/-- Running a source leads from a session that is reached to another. -/
theorem Reached.run {programs : List (List Stmt)} {s s' : Session} {fuel : Nat} {source : String}
    {outcome : Outcome} (h : Reached programs s) (ran : s.run fuel source = some (s', outcome)) :
    ∃ programs', Reached programs' s' := by
  unfold Session.run at ran
  split at ran
  · next load =>
    cases ran
    exact ⟨programs, h.rejected load⟩
  · next program load => exact ⟨program :: programs, h.ended load ran⟩

/-- What holds between two sources. -/
structure Scoped (programs : List (List Stmt)) (s : Session) : Prop where
  recorded : Recorded programs s.state.distances s.nextId
  store : s.state.store.Scoped programs
  current : s.state.current = State.globals

end Session

/-! ## More programs -/

section
variable {programs : List (List Stmt)}

theorem Visited.more {ctx : Scope.Context} {part : Scope.Part} (h : Visited programs ctx part)
    (program : List Stmt) : Visited (program :: programs) ctx part := by
  obtain ⟨p, hp, hv⟩ := h
  exact ⟨p, List.mem_cons_of_mem _ hp, hv⟩

theorem Store.Scoped.more {σ : Store} (h : σ.Scoped programs) (program : List Stmt) :
    σ.Scoped (program :: programs) := by
  refine ⟨h.made, fun i c hi => ?_, fun i made hi name c hm => ?_⟩
  · obtain ⟨ctx, kind, visited, mirrors⟩ := h.functions i c hi
    exact ⟨ctx, kind, visited.more program, mirrors⟩
  · obtain ⟨ctx, kind, scopes, visited, hs, mirrors⟩ := h.methods i made hi name c hm
    exact ⟨ctx, kind, scopes, visited.more program, hs, mirrors⟩

/-! ## The state of a run -/

/-- A program may start: the environment in use is the global one, which mirrors no scopes. -/
theorem Store.Scoped.interpreting {σ : State} (h : σ.store.Scoped programs)
    (current : σ.current = State.globals) {program : List Stmt} (hp : program ∈ programs) :
    (σ.interpreting program).Scoped programs := by
  have mirrors : σ.store.Mirrors σ.current [] := current ▸ .globals h.made
  exact .completed ⟨h, ⟨mirrors, trivial⟩,
    .program ⟨program, hp, .program program⟩ rfl current rfl⟩

/-- Once nothing waits the environment in use is the global one. -/
theorem Config.Scoped.finished {c : Config} (h : c.Scoped programs) (done : c.finished = true) :
    c.state.store.Scoped programs ∧ c.state.current = State.globals := by
  have last {σ : Store} {e : EnvironmentId} {scopes : Scope.Scopes} {pending : List Pending}
      (waits : Waits programs σ e scopes pending) (he : pending.isEmpty = true) :
      e = State.globals := by
    cases waits with
    | nothing global => exact global
    | _ => cases he
  cases h with
  | evaluate => cases done
  | execute => cases done
  | value ready => exact ⟨ready.store, last ready.waits done⟩
  | completed ready => exact ⟨ready.store, last ready.waits done⟩
  | failed store waits => exact ⟨store, last waits done⟩

end

/-! ## Distances along a run -/

theorem distances_finishClass (name : Token) (parent : Option ClassId)
    (methods : List FunctionDecl) (environment : EnvironmentId) (pending : List Pending)
    (σ : State) :
    (finishClass name parent methods environment pending σ).state.distances = σ.distances := by
  unfold finishClass
  simp only
  split <;> rfl

theorem distances_declareClass (name : Token) (parent : Option ClassId)
    (methods : List FunctionDecl) (pending : List Pending) (σ : State) :
    (declareClass name parent methods pending σ).state.distances = σ.distances := by
  cases parent <;> exact distances_finishClass _ _ _ _ _ _

theorem distances_call (callee : Value) (paren : Token) (arguments : List Value)
    (pending : List Pending) (σ : State) :
    (call callee paren arguments pending σ).state.distances = σ.distances := by
  unfold call apply construct
  (repeat' split) <;> rfl

theorem distances_nextArgument (callee : Value) (paren : Token) (before : List Value)
    (after : List Expr) (pending : List Pending) (σ : State) :
    (nextArgument callee paren before after pending σ).state.distances = σ.distances := by
  cases after with
  | nil => exact distances_call _ _ _ _ _
  | cons e rest => rfl

theorem distances_assign (id : Nat) (name : Token) (v : Value) (pending : List Pending)
    (σ : State) : (assign id name v pending σ).state.distances = σ.distances := by
  unfold assign
  (repeat' split) <;> rfl

theorem distances_property (object : Value) (name : Token) (pending : List Pending) (σ : State) :
    (property object name pending σ).state.distances = σ.distances := by
  unfold property
  (repeat' split) <;> rfl

theorem distances_resume (v : Value) (first : Pending) (pending : List Pending) (σ : State) :
    (resume v first pending σ).state.distances = σ.distances := by
  cases first with
  | assignment id name => exact distances_assign _ _ _ _ _
  | callee paren arguments => exact distances_nextArgument _ _ _ _ _ _
  | argument callee paren before after => exact distances_nextArgument _ _ _ _ _ _
  | property name => exact distances_property _ _ _ _
  | superclass name expression methods =>
    cases v with
    | classRef c => exact distances_declareClass _ _ _ _ _
    | _ => rfl
  | target name value => cases v <;> rfl
  | decision | branch | loopTest =>
    simp only [resume]
    (repeat' split) <;> rfl
  | _ => rfl

/-- The table of distances is not changed by running. -/
theorem Config.distances_step (c : Config) : c.step.state.distances = c.state.distances := by
  obtain ⟨control, pending, σ⟩ := c
  cases control with
  | evaluate e =>
    cases e with
    | superRef id keyword method =>
      show (superMethod id keyword method pending σ).state.distances = _
      unfold superMethod
      (repeat' split) <;> rfl
    | _ => rfl
  | execute s =>
    cases s with
    | classDecl name parent methods =>
      cases parent with
      | none => exact distances_declareClass _ _ _ _ _
      | some e => rfl
    | returnWith keyword value => cases value <;> rfl
    | varDecl name value => cases value <;> rfl
    | _ => rfl
  | value v =>
    cases pending with
    | nil => rfl
    | cons first pending => exact distances_resume v first pending σ
  | completed completion =>
    cases pending with
    | nil => rfl
    | cons first pending =>
      show (proceed completion first pending σ).state.distances = _
      unfold proceed
      (repeat' split) <;> rfl
  | failed f =>
    cases pending with
    | nil => rfl
    | cons first pending =>
      show (unwind f first pending σ).state.distances = _
      unfold unwind
      split <;> rfl

theorem Config.distances_run (fuel : Nat) (c : Config) :
    (c.run fuel).state.distances = c.state.distances := by
  induction fuel generalizing c with
  | zero => rfl
  | succ fuel ih =>
    rw [run]
    split
    · rfl
    · rw [ih, distances_step]

theorem State.interpreting_distances {σ τ : State} {program : List Stmt} {fuel : Nat}
    {own : Option Fault} (h : ((σ.interpreting program).run fuel).ending? = some (own, τ)) :
    τ.distances = σ.distances := by
  obtain ⟨_, rfl⟩ := Config.finished_of_ending? h
  exact Config.distances_run fuel _

/-! ## Sessions that are reached -/

namespace Session

variable {programs : List (List Stmt)} {s s' : Session} {source : String} {program : List Stmt}

theorem scoped_initial (sink : Sink) (readings : Nat → Float) :
    Scoped [] (initial sink readings) where
  recorded := .empty
  store := ⟨Nat.zero_lt_one, nofun, nofun⟩
  current := rfl

/-- A source that is accepted leaves a session in which its program may start. -/
theorem Scoped.accept (h : Scoped programs s) (load : s.load source = (s', .ok program)) :
    Scoped (program :: programs) s' := by
  have accepted := load_ok_accepted load
  obtain ⟨_, _, _, _, rfl⟩ := load_ok load
  exact ⟨h.recorded.accept accepted, h.store.more program, h.current⟩

theorem Scoped.reject {faults : List Fault} (h : Scoped programs s)
    (load : s.load source = (s', .error faults)) : Scoped programs s' := by
  obtain ⟨le, same | ⟨program, numbered, same⟩⟩ := load_error load
  · exact ⟨same ▸ h.recorded.later le, same ▸ h.store, same ▸ h.current⟩
  · exact ⟨same ▸ h.recorded.reject numbered le, same ▸ h.store, same ▸ h.current⟩

/-- Every moment of the run of an accepted program. -/
theorem Scoped.running (h : Scoped (program :: programs) s) (fuel : Nat) :
    ((s.state.interpreting program).run fuel).Scoped (program :: programs) :=
  (h.store.interpreting h.current List.mem_cons_self).run h.recorded fuel

theorem Scoped.finish {nextId fuel : Nat} {outcome : Outcome}
    (h : Scoped (program :: programs) s) (hn : nextId = s.nextId)
    (finish : finish? nextId ((s.state.interpreting program).run fuel) = some (s', outcome)) :
    Scoped (program :: programs) s' := by
  obtain ⟨⟨own, σ⟩, he, hs⟩ := Option.map_eq_some_iff.mp finish
  cases hs
  have kept := State.interpreting_distances he
  obtain ⟨done, rfl⟩ := Config.finished_of_ending? he
  obtain ⟨store, current⟩ := (h.running fuel).finished done
  exact ⟨by rw [kept, hn]; exact h.recorded, store, current⟩

/-- Every session that is reached is scoped. -/
theorem Reached.scoped (h : Reached programs s) : Scoped programs s := by
  induction h with
  | initial sink readings => exact scoped_initial sink readings
  | rejected _ load ih => exact ih.reject load
  | ended _ load finish ih => exact (ih.accept load).finish rfl finish
  | between _ sink clock ih => exact ⟨ih.recorded, ih.store, ih.current⟩

end Session

end Lox
