import Lox.Proofs.Machine.Restoration

/-!
# Where output makes a difference

A step neither reads nor changes the sink unless it prints. So the same step is made over another
sink, and its result differs in the sink only. What a step that prints adds to the sink are bytes at
the end.
-/
namespace Lox

/-- The same over another sink. -/
def Config.into (c : Config) (sink : Sink) : Config :=
  { c with state := { c.state with sink } }

/-- The value that the next step prints. -/
def Config.prints? : Config → Option Value
  | ⟨.value v, .printing :: _, _⟩ => some v
  | _ => none

section
variable {pending : List Pending} {σ : State} (sink : Sink)

theorem property_into (object : Value) (name : Token) :
    property object name pending { σ with sink } = (property object name pending σ).into sink := by
  unfold property
  (repeat' split) <;> simp_all [Config.into]

theorem superMethod_into (id : Nat) (keyword method : Token) :
    superMethod id keyword method pending { σ with sink } =
      (superMethod id keyword method pending σ).into sink := by
  have same : superParts { σ with sink } id keyword = superParts σ id keyword := rfl
  unfold superMethod
  rw [same]
  (repeat' split) <;> simp_all [Config.into]

theorem call_into (callee : Value) (paren : Token) (arguments : List Value) :
    call callee paren arguments pending { σ with sink } =
      (call callee paren arguments pending σ).into sink := by
  unfold call apply construct
  (repeat' split) <;> simp_all [Config.into, enterBody, State.enter]

theorem nextArgument_into (callee : Value) (paren : Token) (before : List Value)
    (after : List Expr) : nextArgument callee paren before after pending { σ with sink } =
      (nextArgument callee paren before after pending σ).into sink := by
  cases after with
  | nil => exact call_into sink _ _ _
  | cons e rest => rfl

theorem assign_into (id : Nat) (name : Token) (v : Value) :
    assign id name v pending { σ with sink } = (assign id name v pending σ).into sink := by
  unfold assign
  (repeat' split) <;> simp_all [Config.into]

theorem finishClass_into (name : Token) (parent : Option ClassId) (methods : List FunctionDecl)
    (environment : EnvironmentId) :
    finishClass name parent methods environment pending { σ with sink } =
      (finishClass name parent methods environment pending σ).into sink := by
  unfold finishClass
  simp only
  split <;> simp_all [Config.into]

theorem declareClass_into (name : Token) (parent : Option ClassId) (methods : List FunctionDecl) :
    declareClass name parent methods pending { σ with sink } =
      (declareClass name parent methods pending σ).into sink := by
  cases parent with
  | none => exact finishClass_into sink _ _ _ _
  | some k => exact finishClass_into (σ := { σ with store := _ }) sink _ _ _ _

theorem evaluate_into (e : Expr) :
    evaluate e pending { σ with sink } = (evaluate e pending σ).into sink := by
  cases e with
  | superRef id keyword method => exact superMethod_into sink id keyword method
  | _ => rfl

theorem execute_into (s : Stmt) :
    execute s pending { σ with sink } = (execute s pending σ).into sink := by
  cases s with
  | classDecl name parent methods =>
    cases parent with
    | none => exact declareClass_into (σ := σ.define name.lexeme .nil) sink name none methods
    | some e => rfl
  | returnWith keyword value => cases value <;> rfl
  | varDecl name value => cases value <;> rfl
  | _ => rfl

/-- A value is given to what waits over any sink alike, unless it is printed. -/
theorem resume_into (v : Value) {first : Pending} (silent : first ≠ .printing) :
    resume v first pending { σ with sink } = (resume v first pending σ).into sink := by
  cases first with
  | printing => exact absurd rfl silent
  | assignment id name => exact assign_into sink _ _ _
  | callee paren arguments => exact nextArgument_into sink _ _ _ _
  | argument callee paren before after => exact nextArgument_into sink _ _ _ _
  | property name => exact property_into sink _ _
  | superclass name expression methods =>
    cases v with
    | classRef k => exact declareClass_into sink name (some k) methods
    | _ => rfl
  | target name value => cases v <;> rfl
  | decision | branch | loopTest =>
    simp only [resume]
    (repeat' split) <;> rfl
  | _ => rfl

theorem proceed_into (c : Completion) (first : Pending) :
    proceed c first pending { σ with sink } = (proceed c first pending σ).into sink := by
  unfold proceed
  (repeat' split) <;> rfl

theorem unwind_into (f : Fault) (first : Pending) :
    unwind f first pending { σ with sink } = (unwind f first pending σ).into sink := by
  unfold unwind
  split <;> rfl

end

namespace Config

/-- A step that does not print is the same over any sink. -/
theorem step_into {c : Config} (silent : c.prints? = none) (sink : Sink) :
    (c.into sink).step = c.step.into sink := by
  obtain ⟨control, pending, σ⟩ := c
  cases control with
  | evaluate e => exact evaluate_into sink e
  | execute s => exact execute_into sink s
  | value v =>
    cases pending with
    | nil => rfl
    | cons first pending =>
      refine resume_into sink v fun same => ?_
      subst same
      cases silent
  | completed completion =>
    cases pending with
    | nil => rfl
    | cons first pending => exact proceed_into sink completion first
  | failed f =>
    cases pending with
    | nil => rfl
    | cons first pending => exact unwind_into sink f first

/-- So it leaves the sink as it is. -/
theorem sink_step {c : Config} (silent : c.prints? = none) : c.step.state.sink = c.state.sink := by
  have same : c.step = c.step.into c.state.sink := step_into silent c.state.sink
  rw [same]
  rfl

theorem eq_of_prints {c : Config} {v : Value} (h : c.prints? = some v) :
    ∃ pending, c = ⟨.value v, .printing :: pending, c.state⟩ ∧ c.step = print v pending c.state := by
  unfold prints? at h
  split at h
  · cases h
    exact ⟨_, rfl, rfl⟩
  · cases h

end Config

/-! ## Faults of a run -/

/-- A fault that the program itself is to blame for. -/
def Fault.Runtime (f : Fault) : Prop := ∃ cause line, f = .runtime cause line

section
variable {pending : List Pending} {σ : State} {f : Fault}

theorem runtime_of_fault {cause : RuntimeCause} {blamed : Token}
    (h : Control.fault cause blamed = .failed f) : f.Runtime := by
  cases h
  exact ⟨_, _, rfl⟩

theorem property_runtime {object : Value} {name : Token}
    (h : (property object name pending σ).control = .failed f) : f.Runtime := by
  unfold property at h
  (repeat' split at h) <;> first
    | exact runtime_of_fault h
    | cases h

theorem superMethod_runtime {id : Nat} {keyword method : Token}
    (h : (superMethod id keyword method pending σ).control = .failed f) : f.Runtime := by
  unfold superMethod at h
  split at h
  · next hf =>
    cases h
    obtain ⟨name, rfl⟩ := superParts_fault hf
    exact ⟨_, _, rfl⟩
  · split at h
    · cases h
    · exact runtime_of_fault h

theorem call_runtime {callee : Value} {paren : Token} {arguments : List Value}
    (h : (call callee paren arguments pending σ).control = .failed f) : f.Runtime := by
  unfold call apply construct enterBody at h
  (repeat' split at h) <;> first
    | exact runtime_of_fault h
    | cases h

theorem nextArgument_runtime {callee : Value} {paren : Token} {before : List Value}
    {after : List Expr} (h : (nextArgument callee paren before after pending σ).control = .failed f) :
    f.Runtime := by
  cases after with
  | nil => exact call_runtime h
  | cons e rest => cases h

theorem runtime_of_assign {store : Store} {e : EnvironmentId} {name : Token} {v : Value}
    (h : store.assign e name v = .error f) : f.Runtime := by
  unfold Store.assign at h
  split at h <;> cases h
  exact ⟨_, _, rfl⟩

theorem runtime_of_assignAt {store : Store} {e : EnvironmentId} {distance : Nat} {name : Token}
    {v : Value} (h : store.assignAt e distance name v = .error f) : f.Runtime := by
  unfold Store.assignAt at h
  split at h <;> cases h
  exact ⟨_, _, rfl⟩

theorem assign_runtime {id : Nat} {name : Token} {v : Value}
    (h : (assign id name v pending σ).control = .failed f) : f.Runtime := by
  unfold assign at h
  split at h
  · split at h
    · cases h
    · next hf =>
      cases h
      exact runtime_of_assignAt hf
  · split at h
    · cases h
    · next hf =>
      cases h
      exact runtime_of_assign hf

theorem finishClass_runtime {name : Token} {parent : Option ClassId}
    {methods : List FunctionDecl} {environment : EnvironmentId}
    (h : (finishClass name parent methods environment pending σ).control = .failed f) :
    f.Runtime := by
  unfold finishClass at h
  simp only at h
  split at h
  · cases h
  · next hf =>
    cases h
    exact runtime_of_assign hf

theorem declareClass_runtime {name : Token} {parent : Option ClassId}
    {methods : List FunctionDecl}
    (h : (declareClass name parent methods pending σ).control = .failed f) : f.Runtime := by
  cases parent <;> exact finishClass_runtime h

theorem evaluate_runtime {e : Expr} (h : (evaluate e pending σ).control = .failed f) :
    f.Runtime := by
  have looked {id : Nat} {name : Token} (h : Control.ofExcept (σ.lookup id name) = .failed f) :
      f.Runtime := by
    cases hr : σ.lookup id name with
    | ok v =>
      rw [hr] at h
      cases h
    | error g =>
      rw [hr] at h
      cases h
      rcases lookup_fault hr with rfl | rfl <;> exact ⟨_, _, rfl⟩
  cases e with
  | var id name => exact looked h
  | thisRef id keyword => exact looked h
  | superRef id keyword method => exact superMethod_runtime h
  | _ => cases h

theorem execute_runtime {s : Stmt} (h : (execute s pending σ).control = .failed f) :
    f.Runtime := by
  cases s with
  | classDecl name parent methods =>
    cases parent with
    | none => exact declareClass_runtime h
    | some e => cases h
  | returnWith keyword value => cases value <;> cases h
  | varDecl name value => cases value <;> cases h
  | _ => cases h

/-- Only a print fails for another reason. -/
theorem resume_runtime {v : Value} {first : Pending} (silent : first ≠ .printing)
    (h : (resume v first pending σ).control = .failed f) : f.Runtime := by
  cases first with
  | printing => exact absurd rfl silent
  | assignment id name => exact assign_runtime h
  | callee paren arguments => exact nextArgument_runtime h
  | argument callee paren before after => exact nextArgument_runtime h
  | property name => exact property_runtime h
  | operation left operator =>
    simp only [resume, binary] at h
    (repeat' split at h) <;> first
      | exact runtime_of_fault h
      | cases h
  | negation operator =>
    simp only [resume, unary] at h
    (repeat' split at h) <;> first
      | exact runtime_of_fault h
      | cases h
  | superclass name expression methods =>
    cases v with
    | classRef c => exact declareClass_runtime h
    | _ => exact runtime_of_fault h
  | target name value =>
    cases v with
    | instanceRef i => cases h
    | _ => exact runtime_of_fault h
  | decision | branch | loopTest =>
    simp only [resume] at h
    (repeat' split at h) <;> cases h
  | _ => cases h

end

namespace Config

/-- A fault that a step raises is a runtime fault, or a print did not fit. -/
theorem raises_runtime {c : Config} {f : Fault} (silent : c.prints? = none) (h : c.Raises f) :
    f.Runtime := by
  obtain ⟨raised, new⟩ := h
  obtain ⟨control, pending, σ⟩ := c
  cases control with
  | evaluate e => exact evaluate_runtime raised
  | execute s => exact execute_runtime raised
  | value v =>
    cases pending with
    | nil => cases raised
    | cons first pending =>
      refine resume_runtime (fun same => ?_) raised
      subst same
      cases silent
  | completed completion =>
    cases pending with
    | nil => cases raised
    | cons first pending => exact absurd raised (proceed_resolved _ _ _)
  | failed g => exact absurd rfl (new g)

end Config

/-- The bytes that a print writes. -/
def Store.line (store : Store) (v : Value) : ByteArray := (store.display v ++ "\n").toUTF8

theorem print_boundless {σ : State} (room : σ.sink.room = none) (v : Value)
    (pending : List Pending) :
    print v pending σ = ⟨.completed .normal, pending, { σ with
      sink := { σ.sink with written := σ.sink.written ++ σ.store.line v } }⟩ := by
  simp only [print, Sink.write, room]
  rfl

namespace Config

/-- The sink takes everything, and its flush will succeed. There are runtime faults only. -/
structure Boundless (c : Config) : Prop where
  room : c.state.sink.room = none
  flush : c.state.sink.flushFails = false
  faults : ∀ f, c.control = .failed f → f.Runtime

theorem Boundless.step {c : Config} (h : c.Boundless) : c.step.Boundless := by
  cases hp : c.prints? with
  | some v =>
    obtain ⟨pending, _, step⟩ := eq_of_prints hp
    rw [step, print_boundless h.room]
    refine ⟨h.room, h.flush, fun f raised => ?_⟩
    cases raised
  | none =>
    have same := sink_step hp
    refine ⟨same ▸ h.room, same ▸ h.flush, fun f raised => ?_⟩
    by_cases new : ∀ g, c.control ≠ .failed g
    · exact raises_runtime hp ⟨raised, new⟩
    · -- A fault that was raised before is handed on.
      obtain ⟨control, pending, σ⟩ := c
      obtain ⟨g, rfl⟩ : ∃ g, control = .failed g := by simpa using new
      have same : g = f := by
        cases pending with
        | nil =>
          cases raised
          rfl
        | cons first pending => cases first <;> cases raised <;> rfl
      exact same ▸ h.faults g rfl

theorem Boundless.run {c : Config} (h : c.Boundless) (n : Nat) : (c.run n).Boundless := by
  induction n with
  | zero => exact h
  | succ n ih =>
    rw [run_succ]
    exact ih.step

end Config

end Lox
