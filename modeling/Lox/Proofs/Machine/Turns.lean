import Lox.Proofs.Machine.Environments
import Lox.Proofs.Scope.Nesting

/-!
# What one step does

At hand in a configuration are the parts of a program that are done now or wait, each with the
environment that it will find, and the values that are computed so far. A step takes parts and
values from what is at hand, and changes the store in one of a few ways. `Config.turns` says this
once, for every step.
-/
namespace Lox

open Scope (Part thisName superName)

/-! ## Parts at hand -/

/-- A part and those right below it in the same environment. -/
@[simp] def Scope.Part.near (part : Part) : List Part :=
  part :: ((part.children .top).map Prod.snd).filter fun p => (part.opens p).isEmpty

@[simp] def Control.parts : Control → List Part
  | .evaluate e => [.expr e]
  | .execute s => [.stmt s]
  | _ => []

/-- What is done when there is a result. -/
@[simp] def Pending.parts : Pending → List Part
  | .rightOperand _ right => [.expr right]
  | .callee _ arguments => [.exprs arguments]
  | .argument _ _ _ after => [.exprs after]
  | .decision _ right => [.expr right]
  | .target _ value => [.expr value]
  | .branch thenBranch elseBranch => .stmt thenBranch :: (elseBranch.map Part.stmt).toList
  | .superclass name parent methods => [.stmt (.classDecl name (some parent) methods)]
  | .loopTest condition repeated => [.stmt (.whileLoop condition repeated)]
  | .loopBody condition repeated => [.stmt (.whileLoop condition repeated)]
  | .sequence rest => [.stmts rest]
  | .program rest => [.stmts rest]
  | _ => []

/-- The environment that the end of a block or of a body goes back to. -/
def Pending.outer? : Pending → Option EnvironmentId
  | .restoration environment => some environment
  | .body caller _ => some caller
  | _ => none

/-- The parts that wait, each with the environment that it will find. -/
def waitingParts (e : EnvironmentId) : List Pending → List (EnvironmentId × Part)
  | [] => []
  | first :: rest =>
    first.parts.map (e, ·) ++ waitingParts (first.outer?.getD e) rest

def Config.parts (c : Config) : List (EnvironmentId × Part) :=
  c.control.parts.map (c.state.current, ·) ++ waitingParts c.state.current c.pending

/-- The parts at hand and those right below them. -/
def Config.nextParts (c : Config) : List (EnvironmentId × Part) :=
  c.parts.flatMap fun x => x.2.near.map (x.1, ·)

/-! ## Values at hand -/

def Control.values : Control → List Value
  | .value v => [v]
  | .completed (.returned v) => [v]
  | _ => []

def Pending.values : Pending → List Value
  | .operation left _ => [left]
  | .argument called _ before _ => called :: before
  | .field object _ => [.instanceRef object]
  | .construction object => [.instanceRef object]
  | _ => []

def Config.values (c : Config) : List Value :=
  c.control.values ++ c.pending.flatMap Pending.values

/-- Neither a class nor an instance. -/
def Value.Plain : Value → Prop
  | .classRef _ => False
  | .instanceRef _ => False
  | _ => True

/-- A value that a step may use: it is at hand or in the store, or is no object that could be missing
there. -/
inductive Config.Offers (c : Config) (v : Value) : Prop where
  | atHand (h : v ∈ c.values)
  | plain (h : v.Plain)
  | bound {e : EnvironmentId} {name : String} (h : c.state.store.local? e name = some v)
  | field {i : InstanceId} {name : String} (h : c.state.store.field? i name = some v)

/-! ## Steps -/

/-- What is at hand after the step comes from what was at hand before. -/
structure Config.Follows (c : Config) : Prop where
  parts : ∀ x ∈ c.step.parts, x ∈ c.nextParts
  values : ∀ v ∈ c.step.values, c.Offers v

/-- What waits here was waiting before. -/
structure Config.Leaves (c : Config) (pending : List Pending) : Prop where
  parts : ∀ x ∈ waitingParts c.state.current pending, x ∈ c.nextParts
  values : ∀ v ∈ pending.flatMap Pending.values, c.Offers v

/-- The name that a step may bind in an environment that there is already. -/
def Config.binding? : Config → Option Token
  | ⟨.execute (.classDecl name _ _), _, _⟩ => some name
  | ⟨.execute (.functionDecl decl), _, _⟩ => some decl.name
  | ⟨.execute (.varDecl name _), _, _⟩ => some name
  | ⟨.value _, .assignment _ name :: _, _⟩ => some name
  | ⟨.value _, .definition name :: _, _⟩ => some name
  | ⟨.value _, .superclass name _ _ :: _, _⟩ => some name
  | _ => none

/-- A class in which a step may look a method up: one that is called, that of an instance at hand, or
the one above a `super`. -/
inductive Config.Consults (c : Config) (k : ClassId) : Prop where
  | called (h : .classRef k ∈ c.values)
  | receiver {i : InstanceId} {object : InstanceObject} (h : .instanceRef i ∈ c.values)
      (stored : c.state.store.instances[i]? = some object) (made : object.classId = k)
  | above {id : Nat} {keyword : Token} {i : InstanceId}
      (h : superParts c.state id keyword = .ok (k, i))

/-- What the step from a configuration does. -/
inductive Config.Turns (c : Config) : Prop where
  | going (follows : c.Follows) (store : c.step.state.store = c.state.store)
  | binding {owner : EnvironmentId} {name : Token} {v : Value} (follows : c.Follows)
      (named : c.binding? = some name) (offered : c.Offers v)
      (store : c.step.state.store = c.state.store.define owner name.lexeme v)
  | setting {i : InstanceId} {name : String} {v : Value} (follows : c.Follows)
      (offered : c.Offers v) (store : c.step.state.store = c.state.store.setField i name v)
  | block {body : List Stmt} {pending : List Pending}
      (part : (c.state.current, .stmt (.block body)) ∈ c.parts) (leaves : c.Leaves pending)
      (step : c.step = ⟨.completed .normal,
        .sequence body :: .restoration c.state.current :: pending,
        c.state.enter c.state.current .empty⟩)
  | creation {k : ClassId} {pending : List Pending} (offered : c.Offers (.classRef k))
      (leaves : c.Leaves pending)
      (step : c.step = ⟨.value (.instanceRef c.state.store.nextInstance), pending,
        { c.state with store := c.state.store.addInstance k }⟩)
  | body {id : FunctionId} {closure : Closure} {arguments : List Value} {pending : List Pending}
      (stored : c.state.store.functions[id]? = some closure)
      (offered : ∀ v ∈ arguments, c.Offers v) (leaves : c.Leaves pending)
      (step : c.step = enterBody closure arguments pending c.state)
      (called : .functionRef id ∈ c.values)
  | construction {k : ClassId} {initializer : Closure} {arguments : List Value}
      {pending : List Pending} (made : c.Offers (.classRef k))
      (found : c.state.store.findMethod k initializerName = some initializer)
      (offered : ∀ v ∈ arguments, c.Offers v) (leaves : c.Leaves pending)
      (step : c.step =
        let bound := (c.state.store.addInstance k).bind initializer c.state.store.nextInstance
        enterBody bound.1 arguments (.construction c.state.store.nextInstance :: pending)
          { c.state with store := bound.2 })
      (consulted : c.Consults k)
  | method {k : ClassId} {name : String} {method : Closure} {i : InstanceId}
      {pending : List Pending} (found : c.state.store.findMethod k name = some method)
      (offered : c.Offers (.instanceRef i)) (leaves : c.Leaves pending)
      (step : c.step = ⟨.value (c.state.store.boundMethod method i).1, pending,
        { c.state with store := (c.state.store.boundMethod method i).2 }⟩)
      (consulted : c.Consults k)
  | function {decl : FunctionDecl} {pending : List Pending}
      (part : (c.state.current, .stmt (.functionDecl decl)) ∈ c.parts)
      (named : c.binding? = some decl.name) (leaves : c.Leaves pending)
      (step : c.step = ⟨.completed .normal, pending,
        State.define { c.state with
          store := c.state.store.addFunction ⟨decl, c.state.current, false⟩ }
          decl.name.lexeme (.functionRef c.state.store.nextFunction)⟩)
  | baseClass {name : Token} {methods : List FunctionDecl} {pending : List Pending}
      (part : (c.state.current, .stmt (.classDecl name none methods)) ∈ c.parts)
      (named : c.binding? = some name) (leaves : c.Leaves pending)
      (step : c.step = finishClass name none methods c.state.current pending
        (c.state.define name.lexeme .nil))
  | derivedClass {name : Token} {parent : Expr} {methods : List FunctionDecl} {k : ClassId}
      {pending : List Pending} {σ : State}
      (now : c = ⟨.value (.classRef k), .superclass name parent methods :: pending, σ⟩)
      (step : c.step = finishClass name (some k) methods σ.store.nextEnvironment pending
        { σ with
          store := σ.store.addEnvironment (some σ.current)
            (Bindings.empty.insert superName (.classRef k)) })

variable {c : Config} {pending : List Pending}

theorem waitingParts_cons {first : Pending} (stays : first.outer? = none) (e : EnvironmentId)
    (rest : List Pending) :
    waitingParts e (first :: rest) = first.parts.map (e, ·) ++ waitingParts e rest := by
  rw [waitingParts, stays]
  rfl

namespace Config

theorem mem_nextParts {e : EnvironmentId} {part part' : Part} (h : (e, part) ∈ c.parts)
    (hp : part' ∈ part.near) : (e, part') ∈ c.nextParts :=
  List.mem_flatMap.mpr ⟨_, h, List.mem_map_of_mem hp⟩

theorem nextParts_of_parts {x : EnvironmentId × Part} (h : x ∈ c.parts) : x ∈ c.nextParts :=
  mem_nextParts h List.mem_cons_self

theorem mem_parts_control {control : Control} {pending : List Pending} {σ : State} {part : Part}
    (h : part ∈ control.parts) : (σ.current, part) ∈ (Config.mk control pending σ).parts :=
  List.mem_append_left _ (List.mem_map_of_mem h)

theorem mem_parts_first {control : Control} {first : Pending} {pending : List Pending} {σ : State}
    {part : Part} (h : part ∈ first.parts) :
    (σ.current, part) ∈ (Config.mk control (first :: pending) σ).parts :=
  List.mem_append_right _ (List.mem_append_left _ (List.mem_map_of_mem h))

namespace Leaves

/-- All that waits may go on waiting. -/
theorem all (control : Control) (pending : List Pending) (σ : State) :
    Leaves ⟨control, pending, σ⟩ pending :=
  ⟨fun _ hx => nextParts_of_parts (List.mem_append_right _ hx),
    fun _ hv => .atHand (List.mem_append_right _ hv)⟩

/-- What waits first may be done with. -/
theorem rest {control : Control} {first : Pending} {pending : List Pending} {σ : State}
    (stays : first.outer? = none) : Leaves ⟨control, first :: pending, σ⟩ pending := by
  obtain ⟨parts, values⟩ := all control (first :: pending) σ
  constructor
  · rw [waitingParts_cons stays] at parts
    exact fun x hx => parts x (List.mem_append_right _ hx)
  · exact fun v hv => values v (List.mem_append_right _ hv)

theorem cons (h : c.Leaves pending) {first : Pending} (stays : first.outer? = none)
    (parts : ∀ p ∈ first.parts, (c.state.current, p) ∈ c.nextParts)
    (values : ∀ v ∈ first.values, c.Offers v) : c.Leaves (first :: pending) := by
  constructor
  · rw [waitingParts_cons stays]
    intro x hx
    rcases List.mem_append.mp hx with hx | hx
    · obtain ⟨p, hp, rfl⟩ := List.mem_map.mp hx
      exact parts p hp
    · exact h.parts x hx
  · intro v hv
    rcases List.mem_append.mp hv with hv | hv
    · exact values v hv
    · exact h.values v hv

/-- A step that changes nothing of what waits. -/
theorem follows (h : c.Leaves pending) {control : Control} {σ : State}
    (step : c.step = ⟨control, pending, σ⟩) (current : σ.current = c.state.current)
    (parts : ∀ p ∈ control.parts, (c.state.current, p) ∈ c.nextParts)
    (values : ∀ v ∈ control.values, c.Offers v) : c.Follows := by
  constructor
  · intro x hx
    rw [step] at hx
    rcases List.mem_append.mp hx with hx | hx
    · obtain ⟨p, hp, rfl⟩ := List.mem_map.mp hx
      rw [current]
      exact parts p hp
    · exact h.parts x (current ▸ hx)
  · intro v hv
    rw [step] at hv
    rcases List.mem_append.mp hv with hv | hv
    · exact values v hv
    · exact h.values v hv

end Leaves

/-- A part near one at hand is done next, and others near it wait. -/
theorem Leaves.enters (h : c.Leaves pending) {next : Control} {first : Pending} {σ : State}
    {part : Part} (here : (c.state.current, part) ∈ c.parts)
    (step : c.step = ⟨next, first :: pending, σ⟩) (current : σ.current = c.state.current)
    (stays : first.outer? = none) (quiet : next.values = [])
    (values : ∀ v ∈ first.values, c.Offers v)
    (near : ∀ p ∈ next.parts ++ first.parts, p ∈ part.near) : c.Follows := by
  have leaves := h.cons stays
    (fun p hp => mem_nextParts here (near p (List.mem_append_right _ hp))) values
  exact leaves.follows step current
    (fun p hp => mem_nextParts here (near p (List.mem_append_left _ hp))) (by simp [quiet])

/-- A step to a result. -/
theorem Leaves.ends (h : c.Leaves pending) {next : Control} {σ : State}
    (step : c.step = ⟨next, pending, σ⟩) (current : σ.current = c.state.current)
    (result : next.parts = []) (values : ∀ v ∈ next.values, c.Offers v) : c.Follows :=
  h.follows step current (by rw [result]; exact nofun) values

/-- A step to a fault. -/
theorem Leaves.fails (h : c.Leaves pending) {f : Fault} {σ : State}
    (step : c.step = ⟨.failed f, pending, σ⟩) (current : σ.current = c.state.current)
    (store : σ.store = c.state.store) : c.Turns :=
  .going (h.ends step current rfl nofun) (by rw [step]; exact store)

/-- A step that goes back to the environment around. -/
theorem Follows.leaving {control next : Control} {first : Pending} {pending : List Pending}
    {σ σ' : State} (outside : first.outer? = some σ'.current)
    (step : Config.step ⟨control, first :: pending, σ⟩ = ⟨next, pending, σ'⟩)
    (result : next.parts = [])
    (values : ∀ v ∈ next.values, Offers ⟨control, first :: pending, σ⟩ v) :
    Follows ⟨control, first :: pending, σ⟩ := by
  constructor
  · intro x hx
    rw [step] at hx
    rcases List.mem_append.mp hx with hx | hx
    · rw [result] at hx
      cases hx
    · refine nextParts_of_parts (List.mem_append_right _ (List.mem_append_right _ ?_))
      rw [outside]
      exact hx
  · intro v hv
    rw [step] at hv
    rcases List.mem_append.mp hv with hv | hv
    · exact values v hv
    · exact .atHand (List.mem_append_right _ (List.mem_append_right _ hv))

theorem Turns.stays (h : c.step = c) : c.Turns := by
  refine .going ⟨fun x hx => ?_, fun v hv => ?_⟩ (by rw [h])
  · rw [h] at hx
    exact nextParts_of_parts hx
  · rw [h] at hv
    exact .atHand hv

end Config

/-! ## Expressions -/

theorem State.bound_of_lookup {σ : State} {id : Nat} {name : Token} {v : Value}
    (h : σ.lookup id name = .ok v) : ∃ e, σ.store.local? e name.lexeme = some v := by
  unfold State.lookup at h
  split at h
  · unfold Store.getAt at h
    split at h
    · next hl =>
      cases h
      obtain ⟨e, _, hv⟩ := Option.bind_eq_some_iff.mp hl
      exact ⟨e, hv⟩
    · cases h
  · unfold Store.get at h
    split at h
    · next hl =>
      cases h
      obtain ⟨e, _, hv⟩ := Option.bind_eq_some_iff.mp hl
      exact ⟨e, hv⟩
    · cases h

theorem turns_lookup {e : Expr} {pending : List Pending} {σ : State} {id : Nat} {name : Token}
    (step : Config.step ⟨.evaluate e, pending, σ⟩ = ⟨.ofExcept (σ.lookup id name), pending, σ⟩) :
    Config.Turns ⟨.evaluate e, pending, σ⟩ := by
  refine .going ((Config.Leaves.all _ pending σ).follows step rfl ?_ ?_) (by rw [step])
  · cases σ.lookup id name <;> exact nofun
  · cases hl : σ.lookup id name with
    | error f => exact nofun
    | ok v =>
      obtain ⟨e, he⟩ := State.bound_of_lookup hl
      intro w hw
      obtain rfl := List.mem_singleton.mp hw
      exact .bound he

theorem bound_of_superParts {σ : State} {id : Nat} {keyword : Token} {k : ClassId} {i : InstanceId}
    (h : superParts σ id keyword = .ok (k, i)) :
    ∃ e, σ.store.local? e thisName = some (.instanceRef i) := by
  unfold superParts at h
  simp only at h
  split at h
  · cases h
  · split at h
    · cases h
    · split at h
      · cases h
      · split at h
        · next hl =>
          cases h
          obtain ⟨e, _, hv⟩ := Option.bind_eq_some_iff.mp hl
          exact ⟨e, hv⟩
        · cases h
    · cases h

theorem turns_superMethod (id : Nat) (keyword method : Token) (pending : List Pending) (σ : State) :
    Config.Turns ⟨.evaluate (.superRef id keyword method), pending, σ⟩ := by
  have leaves := Config.Leaves.all (.evaluate (.superRef id keyword method)) pending σ
  have step : Config.step ⟨.evaluate (.superRef id keyword method), pending, σ⟩ =
    superMethod id keyword method pending σ := rfl
  cases hp : superParts σ id keyword with
  | error f =>
    rw [superMethod, hp] at step
    exact leaves.fails step rfl rfl
  | ok parts =>
    obtain ⟨k, i⟩ := parts
    rw [superMethod, hp] at step
    cases hf : σ.store.findMethod k method.lexeme with
    | none =>
      simp only [hf] at step
      exact leaves.fails step rfl rfl
    | some found =>
      simp only [hf] at step
      obtain ⟨e, he⟩ := bound_of_superParts hp
      exact .method hf (.bound he) leaves step (.above hp)

theorem turns_evaluate (e : Expr) (pending : List Pending) (σ : State) :
    Config.Turns ⟨.evaluate e, pending, σ⟩ := by
  have leaves := Config.Leaves.all (.evaluate e) pending σ
  have here : (σ.current, .expr e) ∈ (Config.mk (.evaluate e) pending σ).parts :=
    Config.mem_parts_control (List.mem_singleton_self _)
  cases e with
  | superRef id keyword method => exact turns_superMethod id keyword method pending σ
  | thisRef id keyword => exact turns_lookup rfl
  | var id name => exact turns_lookup rfl
  | literal value =>
    refine .going (leaves.ends rfl rfl rfl fun v hv => .plain ?_) rfl
    obtain rfl := List.mem_singleton.mp hv
    cases value <;> trivial
  | grouping inner =>
    refine .going (leaves.follows rfl rfl (fun p hp => ?_) (List.forall_mem_nil _)) rfl
    exact Config.mem_nextParts here (List.mem_cons_of_mem _ hp)
  | assign | binary | call | get | logical | set | unary =>
    refine .going (leaves.enters here rfl rfl rfl rfl (List.forall_mem_nil _) ?_) rfl
    simp [Part.children, Part.opens]

/-! ## Statements -/

theorem turns_execute (s : Stmt) (pending : List Pending) (σ : State) :
    Config.Turns ⟨.execute s, pending, σ⟩ := by
  have leaves := Config.Leaves.all (.execute s) pending σ
  have here : (σ.current, .stmt s) ∈ (Config.mk (.execute s) pending σ).parts :=
    Config.mem_parts_control (List.mem_singleton_self _)
  cases s with
  | block body => exact .block here leaves rfl
  | classDecl name parent methods =>
    cases parent with
    | none => exact .baseClass here rfl leaves rfl
    | some parent =>
      refine .binding (v := .nil) (leaves.enters here rfl rfl rfl rfl (List.forall_mem_nil _) ?_) rfl
        (.plain trivial) rfl
      simp [Part.children, Part.opens]
  | functionDecl decl => exact .function here rfl leaves rfl
  | returnWith keyword value =>
    cases value with
    | none =>
      refine .going (leaves.ends rfl rfl rfl fun v hv => .plain ?_) rfl
      obtain rfl := List.mem_singleton.mp hv
      trivial
    | some e =>
      refine .going (leaves.enters here rfl rfl rfl rfl (List.forall_mem_nil _) ?_) rfl
      simp [Part.children, Part.opens]
  | varDecl name value =>
    cases value with
    | none =>
      have ends := leaves.ends rfl rfl rfl (List.forall_mem_nil _)
      exact .binding (v := .nil) ends rfl (.plain trivial) rfl
    | some e =>
      refine .going (leaves.enters here rfl rfl rfl rfl (List.forall_mem_nil _) ?_) rfl
      simp [Part.children, Part.opens]
  | ifElse condition thenBranch elseBranch =>
    refine .going (leaves.enters here rfl rfl rfl rfl (List.forall_mem_nil _) ?_) rfl
    cases elseBranch <;>
      simp [Part.children, Part.opens]
  | expression | print | whileLoop =>
    refine .going (leaves.enters here rfl rfl rfl rfl (List.forall_mem_nil _) ?_) rfl
    simp [Part.children, Part.opens]

/-! ## Calls -/

theorem turns_construct {k : ClassId} {arguments : List Value} (leaves : c.Leaves pending)
    (step : c.step = construct k arguments pending c.state) (called : .classRef k ∈ c.values)
    (offered : ∀ v ∈ arguments, c.Offers v) : c.Turns := by
  unfold construct at step
  cases hf : c.state.store.findMethod k initializerName with
  | none =>
    simp only [hf] at step
    exact .creation (.atHand called) leaves step
  | some initializer =>
    simp only [hf] at step
    exact .construction (.atHand called) hf offered leaves step (.called called)

theorem turns_apply {callee : Value} {paren : Token} {arguments : List Value}
    (leaves : c.Leaves pending) (step : c.step = apply callee paren arguments pending c.state)
    (called : callee ∈ c.values) (offered : ∀ v ∈ arguments, c.Offers v) : c.Turns := by
  cases callee with
  | native function =>
    cases function
    refine .going (leaves.ends step rfl rfl fun v hv => .plain ?_) (by rw [step]; rfl)
    obtain rfl := List.mem_singleton.mp hv
    trivial
  | functionRef id =>
    unfold apply at step
    cases hc : c.state.store.functions[id]? with
    | none =>
      simp only [hc] at step
      exact leaves.fails step rfl rfl
    | some closure =>
      simp only [hc] at step
      exact .body hc offered leaves step called
  | classRef k => exact turns_construct leaves step called offered
  | nil | bool | number | string | instanceRef => exact leaves.fails step rfl rfl

theorem turns_call {callee : Value} {paren : Token} {arguments : List Value}
    (leaves : c.Leaves pending) (step : c.step = call callee paren arguments pending c.state)
    (called : callee ∈ c.values) (offered : ∀ v ∈ arguments, c.Offers v) : c.Turns := by
  unfold call at step
  split at step
  · exact leaves.fails step rfl rfl
  · split at step
    · exact leaves.fails step rfl rfl
    · split at step
      · exact leaves.fails step rfl rfl
      · exact turns_apply leaves step called offered

theorem turns_nextArgument {callee : Value} {paren : Token} {before : List Value}
    {after : List Expr} (leaves : c.Leaves pending)
    (here : (c.state.current, .exprs after) ∈ c.parts)
    (step : c.step = nextArgument callee paren before after pending c.state)
    (called : callee ∈ c.values) (offered : ∀ v ∈ before, c.Offers v) : c.Turns := by
  cases after with
  | nil =>
    refine turns_call leaves step called fun v hv => ?_
    exact offered v (List.mem_reverse.mp hv)
  | cons e rest =>
    refine .going (leaves.enters here step rfl rfl rfl ?_ ?_) (by rw [step]; rfl)
    · exact List.forall_mem_cons.mpr ⟨.atHand called, offered⟩
    · simp [Part.children, Part.opens]

/-! ## Results -/

theorem turns_assign {id : Nat} {name : Token} {v : Value} (leaves : c.Leaves pending)
    (step : c.step = assign id name v pending c.state) (named : c.binding? = some name)
    (offered : c.Offers v) : c.Turns := by
  have bound {owner : EnvironmentId} (step : c.step = ⟨.value v, pending,
      { c.state with store := c.state.store.define owner name.lexeme v }⟩) : c.Turns := by
    refine .binding (leaves.ends step rfl rfl fun w hw => ?_) named offered (by rw [step])
    obtain rfl := List.mem_singleton.mp hw
    exact offered
  unfold assign Store.assignAt Store.assign at step
  split at step
  · split at step
    · next hs =>
      split at hs
      · cases hs
        exact bound step
      · cases hs
    · exact leaves.fails step rfl rfl
  · split at step
    · next hs =>
      split at hs
      · cases hs
        exact bound step
      · cases hs
    · exact leaves.fails step rfl rfl

theorem turns_property {object : Value} {name : Token} (leaves : c.Leaves pending)
    (step : c.step = property object name pending c.state) (receiver : object ∈ c.values) :
    c.Turns := by
  cases object with
  | instanceRef i =>
    unfold property at step
    simp only at step
    split at step
    · next v hv =>
      refine .going (leaves.ends step rfl rfl fun w hw => ?_) (by rw [step])
      obtain rfl := List.mem_singleton.mp hw
      exact .field hv
    · split at step
      · next hm =>
        obtain ⟨_, stored, hf⟩ := Option.bind_eq_some_iff.mp hm
        exact .method hf (.atHand receiver) leaves step (.receiver receiver stored rfl)
      · exact leaves.fails step rfl rfl
  | nil | bool | number | string | native | functionRef | classRef =>
    exact leaves.fails step rfl rfl

/-- An operator gives no object. -/
theorem binary_plain (operator : Token) (left right : Value) :
    (binary operator left right).parts = [] ∧
      ∀ v ∈ (binary operator left right).values, v.Plain := by
  unfold binary Control.fault
  (repeat' split) <;> simp [Control.values, Value.Plain]

theorem unary_plain (operator : Token) (right : Value) :
    (unary operator right).parts = [] ∧ ∀ v ∈ (unary operator right).values, v.Plain := by
  unfold unary Control.fault
  (repeat' split) <;> simp [Control.values, Value.Plain]

theorem turns_print {v : Value} (leaves : c.Leaves pending)
    (step : c.step = print v pending c.state) : c.Turns := by
  unfold print at step
  simp only at step
  split at step
  · exact .going (leaves.ends step rfl rfl nofun) (by rw [step])
  · exact leaves.fails step rfl rfl

theorem turns_resume (v : Value) (first : Pending) (pending : List Pending) (σ : State) :
    Config.Turns ⟨.value v, first :: pending, σ⟩ := by
  have current : v ∈ (Config.mk (.value v) (first :: pending) σ).values :=
    List.mem_append_left _ (List.mem_singleton_self v)
  have offered : Config.Offers ⟨.value v, first :: pending, σ⟩ v := .atHand current
  have held : ∀ w ∈ first.values, w ∈ (Config.mk (.value v) (first :: pending) σ).values :=
    fun w hw => List.mem_append_right _ (List.mem_append_left _ hw)
  have waiting : ∀ w ∈ first.values, Config.Offers ⟨.value v, first :: pending, σ⟩ w :=
    fun w hw => .atHand (held w hw)
  have here {part : Part} (hp : part ∈ first.parts) :
      (σ.current, part) ∈ (Config.mk (.value v) (first :: pending) σ).parts :=
    Config.mem_parts_first hp
  have result {w : Value} (ho : Config.Offers ⟨.value v, first :: pending, σ⟩ w) :
      ∀ u ∈ (Control.value w).values, Config.Offers ⟨.value v, first :: pending, σ⟩ u := by
    intro u hu
    obtain rfl := List.mem_singleton.mp hu
    exact ho
  cases first with
  | restoration | body | loopBody | sequence | program => exact .stays rfl
  | assignment id name => exact turns_assign (.rest rfl) rfl rfl offered
  | rightOperand operator right =>
    refine .going ((Config.Leaves.rest rfl).enters (here List.mem_cons_self) rfl rfl rfl rfl ?_ ?_) rfl
    · exact result offered
    · simp
  | operation left operator =>
    obtain ⟨parts, plain⟩ := binary_plain operator left v
    exact .going ((Config.Leaves.rest rfl).ends rfl rfl parts fun w hw => .plain (plain w hw)) rfl
  | callee paren arguments =>
    exact turns_nextArgument (.rest rfl) (here List.mem_cons_self) rfl current nofun
  | argument callee paren before after =>
    have called : callee ∈ _ := held callee List.mem_cons_self
    have values := List.forall_mem_cons.mp waiting
    exact turns_nextArgument (.rest rfl) (here List.mem_cons_self) rfl called
      (List.forall_mem_cons.mpr ⟨offered, values.2⟩)
  | property name => exact turns_property (.rest rfl) rfl current
  | decision operator right =>
    have step : Config.step ⟨.value v, .decision operator right :: pending, σ⟩ =
      resume v (.decision operator right) pending σ := rfl
    unfold resume at step
    simp only at step
    split at step
    · exact .going ((Config.Leaves.rest rfl).ends step rfl rfl (result offered)) (by rw [step])
    · refine .going ((Config.Leaves.rest rfl).follows step rfl (fun p hp => ?_) nofun) (by rw [step])
      exact Config.nextParts_of_parts (here hp)
  | target name value =>
    cases v with
    | instanceRef i =>
      refine .going ((Config.Leaves.rest rfl).enters (here List.mem_cons_self) rfl rfl rfl rfl ?_ ?_) rfl
      · exact result offered
      · simp
    | nil | bool | number | string | native | functionRef | classRef =>
      exact (Config.Leaves.rest rfl).fails rfl rfl rfl
  | field i name =>
    exact .setting ((Config.Leaves.rest rfl).ends rfl rfl rfl (result offered)) offered rfl
  | negation operator =>
    obtain ⟨parts, plain⟩ := unary_plain operator v
    exact .going ((Config.Leaves.rest rfl).ends rfl rfl parts fun w hw => .plain (plain w hw)) rfl
  | discard => exact .going ((Config.Leaves.rest rfl).ends rfl rfl rfl nofun) rfl
  | branch thenBranch elseBranch =>
    have step : Config.step ⟨.value v, .branch thenBranch elseBranch :: pending, σ⟩ =
      resume v (.branch thenBranch elseBranch) pending σ := rfl
    have done {p : Part} (hp : p ∈ (Pending.branch thenBranch elseBranch).parts) :=
      Config.nextParts_of_parts (here hp)
    unfold resume at step
    simp only at step
    split at step
    · refine .going ((Config.Leaves.rest rfl).follows step rfl (fun p hp => done ?_) nofun)
        (by rw [step])
      exact List.mem_cons.mpr (.inl (List.mem_singleton.mp hp))
    · cases elseBranch with
      | some other =>
        refine .going ((Config.Leaves.rest rfl).follows step rfl (fun p hp => done ?_) nofun)
          (by rw [step])
        exact List.mem_cons_of_mem _ hp
      | none => exact .going ((Config.Leaves.rest rfl).ends step rfl rfl nofun) (by rw [step])
  | printing => exact turns_print (.rest rfl) rfl
  | returning =>
    exact .going ((Config.Leaves.rest rfl).ends rfl rfl rfl (result offered)) rfl
  | definition name =>
    exact .binding ((Config.Leaves.rest rfl).ends rfl rfl rfl nofun) rfl offered rfl
  | superclass name parent methods =>
    cases v with
    | classRef k => exact .derivedClass rfl rfl
    | nil | bool | number | string | native | functionRef | instanceRef =>
      exact (Config.Leaves.rest rfl).fails rfl rfl rfl
  | construction i =>
    exact .going ((Config.Leaves.rest rfl).ends rfl rfl rfl waiting) rfl
  | loopTest condition repeated =>
    have step : Config.step ⟨.value v, .loopTest condition repeated :: pending, σ⟩ =
      resume v (.loopTest condition repeated) pending σ := rfl
    unfold resume at step
    simp only at step
    split at step
    · refine .going ((Config.Leaves.rest rfl).enters (here List.mem_cons_self) step rfl rfl rfl nofun
        ?_) (by rw [step])
      simp [Part.children, Part.opens]
    · exact .going ((Config.Leaves.rest rfl).ends step rfl rfl nofun) (by rw [step])

/-! ## Completions and faults -/

theorem turns_proceed (completion : Completion) (first : Pending) (pending : List Pending)
    (σ : State) : Config.Turns ⟨.completed completion, first :: pending, σ⟩ := by
  have here {part : Part} (hp : part ∈ first.parts) :
      (σ.current, part) ∈ (Config.mk (.completed completion) (first :: pending) σ).parts :=
    Config.mem_parts_first hp
  have result : ∀ v ∈ (Control.completed completion).values,
      Config.Offers ⟨.completed completion, first :: pending, σ⟩ v :=
    fun v hv => .atHand (List.mem_append_left _ hv)
  cases first with
  | loopBody condition repeated =>
    cases completion with
    | normal =>
      refine .going ((Config.Leaves.rest rfl).enters (here List.mem_cons_self) rfl rfl rfl rfl
        (List.forall_mem_nil _) ?_) rfl
      simp [Part.children, Part.opens]
    | returned v => exact .going ((Config.Leaves.rest rfl).ends rfl rfl rfl result) rfl
  | sequence statements =>
    cases completion with
    | returned v => exact .going ((Config.Leaves.rest rfl).ends rfl rfl rfl result) rfl
    | normal =>
      cases statements with
      | nil => exact .going ((Config.Leaves.rest rfl).ends rfl rfl rfl (List.forall_mem_nil _)) rfl
      | cons s statements =>
        refine .going ((Config.Leaves.rest rfl).enters (here List.mem_cons_self) rfl rfl rfl rfl
          (List.forall_mem_nil _) ?_) rfl
        simp [Part.children, Part.opens]
  | program statements =>
    cases statements with
    | nil => exact .going ((Config.Leaves.rest rfl).ends rfl rfl rfl (List.forall_mem_nil _)) rfl
    | cons s statements =>
      refine .going ((Config.Leaves.rest rfl).enters (here List.mem_cons_self) rfl rfl rfl rfl
        (List.forall_mem_nil _) ?_) rfl
      simp [Part.children, Part.opens]
  | restoration environment => exact .going (.leaving rfl rfl rfl result) rfl
  | body caller closure =>
    refine .going (.leaving rfl rfl rfl fun v hv => ?_) rfl
    obtain rfl := List.mem_singleton.mp hv
    unfold bodyResult
    split
    · cases hl : σ.store.local? closure.environment thisName with
      | none => exact .plain trivial
      | some w => exact .bound hl
    · cases completion with
      | normal => exact .plain trivial
      | returned w => exact result w (List.mem_singleton_self w)
  | _ => exact .stays rfl

theorem turns_unwind (f : Fault) (first : Pending) (pending : List Pending) (σ : State) :
    Config.Turns ⟨.failed f, first :: pending, σ⟩ := by
  cases first with
  | restoration environment => exact .going (.leaving rfl rfl rfl nofun) rfl
  | body caller closure => exact .going (.leaving rfl rfl rfl nofun) rfl
  | _ => exact (Config.Leaves.rest rfl).fails rfl rfl rfl

theorem Config.turns (c : Config) : c.Turns := by
  obtain ⟨control, pending, σ⟩ := c
  cases control with
  | evaluate e => exact turns_evaluate e pending σ
  | execute s => exact turns_execute s pending σ
  | value v =>
    cases pending with
    | nil => exact .stays rfl
    | cons first pending => exact turns_resume v first pending σ
  | completed completion =>
    cases pending with
    | nil => exact .stays rfl
    | cons first pending => exact turns_proceed completion first pending σ
  | failed f =>
    cases pending with
    | nil => exact .stays rfl
    | cons first pending => exact turns_unwind f first pending σ

/-! ## The declaration of a class -/

/-- The class that a declaration makes. -/
def declaredClass (name : Token) (parent : Option ClassId) (methods : List FunctionDecl)
    (environment : EnvironmentId) : ClassObject :=
  ⟨name.lexeme, parent, methodTable environment methods⟩

/-- The class is added to the store, and then the name is rebound to it wherever it is bound. -/
theorem finishClass_adds (name : Token) (parent : Option ClassId) (methods : List FunctionDecl)
    (environment : EnvironmentId) (pending : List Pending) (σ : State) :
    let made := σ.store.addClass (declaredClass name parent methods environment)
    ∃ control store,
      finishClass name parent methods environment pending σ = ⟨control, pending, { σ with store }⟩ ∧
        control.parts = [] ∧ control.values = [] ∧
          (store = made ∨
            ∃ owner, store = made.define owner name.lexeme (.classRef σ.store.nextClass)) := by
  intro made
  unfold finishClass
  simp only [Store.assign]
  split
  · next store hs =>
    split at hs
    · next owner _ =>
      cases hs
      exact ⟨_, _, rfl, rfl, rfl, .inr ⟨owner, rfl⟩⟩
    · cases hs
  · exact ⟨_, _, rfl, rfl, rfl, .inl rfl⟩

end Lox
