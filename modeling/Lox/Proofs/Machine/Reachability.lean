import Lox.Proofs.Machine.Objects
import Lox.Proofs.Machine.Scoping

/-!
# What an evaluation can reach

A step uses references that are at hand or that lead on from there, so it stays within every closed
set of objects that holds what is at hand, as long as the set holds what the step makes. Taking for
this set what is reachable at the start together with what the run makes, nothing else is changed,
and no other object is the result.
-/
namespace Lox

open Scope (thisName superName)

/-! ## Inside a set of objects -/

/-- The environments to which a block or a call goes back, and that of the function called. -/
def Pending.environments : Pending → List EnvironmentId
  | .restoration environment => [environment]
  | .body caller closure => [caller, closure.environment]
  | _ => []

/-- The values and environments that wait are in the set. -/
structure Pending.Inside (R : Object → Prop) (p : Pending) : Prop where
  values : ∀ v ∈ p.values, v.Inside R
  environments : ∀ e ∈ p.environments, R (.environment e)

/-- What is at hand in a state is in the set, and so is all that it leads to. -/
structure State.Inside (R : Object → Prop) (σ : State) : Prop where
  store : σ.store.Closed R
  globals : R (.environment State.globals)
  current : R (.environment σ.current)

/-- All that is at hand is in the set, and so is all that it leads to. -/
structure Config.Inside (R : Object → Prop) (c : Config) : Prop where
  state : c.state.Inside R
  values : ∀ v ∈ c.control.values, v.Inside R
  pending : ∀ p ∈ c.pending, p.Inside R

/-- The objects that one store has and another does not are in the set. -/
def Store.Supplies (R : Object → Prop) (σ σ' : Store) : Prop := ∀ o, ¬ σ.Has o → σ'.Has o → R o

/-- What a step leaves: the store changed within the set, and only objects of the set at hand. -/
structure Config.Obeys (R : Object → Prop) (σ : Store) (c : Config) : Prop where
  store : σ.Confined R c.state.store
  current : R (.environment c.state.current)
  values : ∀ v ∈ c.control.values, v.Inside R
  pending : ∀ p ∈ c.pending, p.Inside R

variable {R : Object → Prop}

theorem Value.inside_plain {v : Value} (h : v.object? = none) : v.Inside R := by
  intro o ho
  rw [h] at ho
  cases ho

theorem Value.inside_object {v : Value} {o : Object} (h : v.object? = some o) (ho : R o) :
    v.Inside R := by
  intro other hother
  rw [h] at hother
  cases hother
  exact ho

section
variable {σ : Store} {e : EnvironmentId} {v : Value} {name : Token}

theorem Store.Closed.getAt (closed : σ.Closed R) (he : R (.environment e)) {distance : Nat}
    (h : σ.getAt e distance name = .ok v) : v.Inside R := by
  unfold Store.getAt at h
  split at h
  · next hl =>
    cases h
    obtain ⟨a, ha, hv⟩ := Option.bind_eq_some_iff.mp hl
    exact closed.locals a _ _ hv (closed.ancestor he ha)
  · cases h

theorem Store.Closed.get (closed : σ.Closed R) (he : R (.environment e))
    (h : σ.get e name = .ok v) : v.Inside R := by
  unfold Store.get at h
  split at h
  · next hl =>
    cases h
    obtain ⟨a, ha, hv⟩ := Option.bind_eq_some_iff.mp hl
    exact closed.locals a _ _ hv (closed.owner he ha)
  · cases h

end

section
variable {σ : State} {pending : List Pending}

theorem State.Inside.lookup (h : σ.Inside R) {id : Nat} {name : Token} {v : Value}
    (found : σ.lookup id name = .ok v) : v.Inside R := by
  unfold State.lookup at found
  split at found
  · exact h.store.getAt h.current found
  · exact h.store.get h.globals found

theorem State.Inside.superParts (h : σ.Inside R) {id : Nat} {keyword : Token} {k : ClassId}
    {i : InstanceId} (found : superParts σ id keyword = .ok (k, i)) :
    R (.classObject k) ∧ R (.instanceObject i) := by
  unfold Lox.superParts at found
  simp only at found
  split at found
  · cases found
  split at found
  · cases found
  · next hg =>
    split at found
    · cases found
    · split at found
      · next hl =>
        cases found
        obtain ⟨a, ha, hv⟩ := Option.bind_eq_some_iff.mp hl
        exact ⟨h.store.getAt h.current hg _ rfl,
          h.store.locals a _ _ hv (h.store.ancestor h.current ha) _ rfl⟩
      · cases found
  · cases found

namespace Config

/-- A step that leaves the store as it is. -/
theorem Obeys.still (h : σ.Inside R) (waiting : ∀ p ∈ pending, p.Inside R) {control : Control}
    (values : ∀ v ∈ control.values, v.Inside R) : Obeys R σ.store ⟨control, pending, σ⟩ :=
  ⟨.refl h.store, h.current, values, waiting⟩

theorem Obeys.changed (h : σ.Inside R) (waiting : ∀ p ∈ pending, p.Inside R) {store : Store}
    (confined : σ.store.Confined R store) {control : Control}
    (values : ∀ v ∈ control.values, v.Inside R) :
    Obeys R σ.store ⟨control, pending, { σ with store }⟩ :=
  ⟨confined, h.current, values, waiting⟩

/-- A change of the store that comes before. -/
theorem Obeys.after {σ σ' : Store} {c : Config} (changed : σ.Confined R σ') (h : Obeys R σ' c) :
    Obeys R σ c :=
  ⟨changed.trans h.store, h.current, h.values, h.pending⟩

/-- Something more waits, for a value or a completion. -/
theorem Obeys.waits (h : σ.Inside R) (waiting : ∀ p ∈ pending, p.Inside R) {control : Control}
    {first : Pending} (quiet : control.values = []) (known : ∀ v ∈ first.values, v.Inside R)
    (stays : first.environments = []) : Obeys R σ.store ⟨control, first :: pending, σ⟩ := by
  have inside : first.Inside R := ⟨known, stays ▸ List.forall_mem_nil _⟩
  exact .still h (List.forall_mem_cons.mpr ⟨inside, waiting⟩) (quiet ▸ List.forall_mem_nil _)

end Config

open Config

/-- A name bound in a new environment. -/
theorem inside_single {name : String} {v : Value} (known : v.Inside R) :
    ∀ other w, (Bindings.empty.insert name v).get? other = some w → w.Inside R := by
  intro other w h
  rw [Bindings.get?_insert] at h
  split at h
  · cases h
    exact known
  · cases h

theorem inside_result {v : Value} (known : v.Inside R) :
    ∀ w ∈ (Control.value v).values, w.Inside R :=
  List.forall_mem_singleton.mpr known

/-! ## Properties -/

theorem Store.Closed.bind {σ : Store} (closed : σ.Closed R) {method : Closure} {i : InstanceId}
    (new : R (.environment σ.nextEnvironment)) (inside : R (.environment method.environment))
    (receiver : R (.instanceObject i)) : σ.Confined R (σ.bind method i).2 :=
  Store.confined_addEnvironment closed new inside
    (inside_single (Value.inside_object rfl receiver))

theorem obeys_boundMethod (h : σ.Inside R) (waiting : ∀ p ∈ pending, p.Inside R)
    {method : Closure} {i : InstanceId} (inside : R (.environment method.environment))
    (receiver : R (.instanceObject i))
    (supplied : σ.store.Supplies R (σ.store.boundMethod method i).2) :
    Obeys R σ.store ⟨.value (σ.store.boundMethod method i).1, pending,
      { σ with store := (σ.store.boundMethod method i).2 }⟩ := by
  have new : R (.environment σ.store.nextEnvironment) :=
    supplied _ (Nat.lt_irrefl _) (by simp [Store.Has, Store.boundMethod, Store.bind,
      Store.addFunction, Store.nextEnvironment])
  have made : R (.function σ.store.nextFunction) :=
    supplied _ (Nat.lt_irrefl _) (by simp [Store.Has, Store.boundMethod, Store.bind,
      Store.addFunction, Store.addEnvironment, Store.nextFunction])
  have bound := h.store.bind new inside receiver
  exact .changed h waiting (bound.trans (Store.confined_addFunction bound.closed new))
    (inside_result (Value.inside_object rfl made))

theorem obeys_property (h : σ.Inside R) (waiting : ∀ p ∈ pending, p.Inside R) {object : Value}
    (known : object.Inside R) (name : Token)
    (supplied : σ.store.Supplies R (property object name pending σ).state.store) :
    Obeys R σ.store (property object name pending σ) := by
  cases object with
  | instanceRef i =>
    have receiver : R (.instanceObject i) := known _ rfl
    revert supplied
    unfold property
    simp only
    split
    · next v hv =>
      have held := h.store.fields i _ v hv receiver
      exact fun _ => .still h waiting (inside_result held)
    · split
      · next method hm =>
        obtain ⟨object, ho, hf⟩ := Option.bind_eq_some_iff.mp hm
        have inside := h.store.findMethod (h.store.instances i object ho receiver) hf
        exact obeys_boundMethod h waiting inside receiver
      · exact fun _ => .still h waiting (List.forall_mem_nil _)
  | nil | bool | number | string | native | functionRef | classRef =>
    exact .still h waiting (List.forall_mem_nil _)

theorem obeys_superMethod (h : σ.Inside R) (waiting : ∀ p ∈ pending, p.Inside R) (id : Nat)
    (keyword method : Token)
    (supplied : σ.store.Supplies R (superMethod id keyword method pending σ).state.store) :
    Obeys R σ.store (superMethod id keyword method pending σ) := by
  revert supplied
  unfold superMethod
  split
  · exact fun _ => .still h waiting (List.forall_mem_nil _)
  · next k i hp =>
    obtain ⟨parent, receiver⟩ := h.superParts hp
    split
    · next found hf => exact obeys_boundMethod h waiting (h.store.findMethod parent hf) receiver
    · exact fun _ => .still h waiting (List.forall_mem_nil _)

/-! ## Calls -/

theorem obeys_enterBody (h : σ.Inside R) (waiting : ∀ p ∈ pending, p.Inside R)
    {closure : Closure} (inside : R (.environment closure.environment)) {arguments : List Value}
    (known : ∀ v ∈ arguments, v.Inside R) (new : R (.environment σ.store.nextEnvironment)) :
    Obeys R σ.store (enterBody closure arguments pending σ) where
  store := Store.confined_addEnvironment h.store new inside fun _ v hv =>
    known v (mem_of_parameterBindings hv)
  current := new
  values := nofun
  pending := by
    have body : (Pending.body σ.current closure).Inside R :=
      ⟨nofun, by simpa [Pending.environments] using ⟨h.current, inside⟩⟩
    exact List.forall_mem_cons.mpr ⟨⟨nofun, nofun⟩, List.forall_mem_cons.mpr ⟨body, waiting⟩⟩

theorem obeys_construct (h : σ.Inside R) (waiting : ∀ p ∈ pending, p.Inside R) {k : ClassId}
    (known : R (.classObject k)) {arguments : List Value} (given : ∀ v ∈ arguments, v.Inside R)
    (supplied : σ.store.Supplies R (construct k arguments pending σ).state.store) :
    Obeys R σ.store (construct k arguments pending σ) := by
  revert supplied
  unfold construct
  simp only
  split
  · intro supplied
    have made : R (.instanceObject σ.store.nextInstance) :=
      supplied _ (Nat.lt_irrefl _) (by simp [Store.Has, Store.addInstance, Store.nextInstance])
    exact .changed h waiting (Store.confined_addInstance h.store made known)
      (inside_result (Value.inside_object rfl made))
  · next method hf =>
    intro supplied
    have made : R (.instanceObject σ.store.nextInstance) :=
      supplied _ (Nat.lt_irrefl _) (by simp [Store.Has, enterBody, State.enter, Store.bind,
        Store.addEnvironment, Store.addInstance, Store.nextInstance])
    have opened (e : EnvironmentId) (old : σ.store.environments.size ≤ e)
        (new : e < σ.store.environments.size + 2) : R (.environment e) :=
      supplied _ (Nat.not_lt_of_le old) (Nat.lt_of_lt_of_eq new (by simp [enterBody, State.enter,
        Store.bind, Store.addInstance]))
    have receiver : R (.environment σ.store.nextEnvironment) :=
      opened _ (Nat.le_refl _) (Nat.lt_succ_of_lt (Nat.lt_succ_self _))
    have frame : R (.environment (σ.store.nextEnvironment + 1)) :=
      opened _ (Nat.le_succ _) (Nat.lt_succ_self _)
    have instanced := Store.confined_addInstance h.store made known
    have bound : σ.store.Confined R ((σ.store.addInstance k).bind method σ.store.nextInstance).2 :=
      instanced.trans (instanced.closed.bind receiver (h.store.findMethod known hf) made)
    let σ₁ : State :=
      { σ with store := ((σ.store.addInstance k).bind method σ.store.nextInstance).2 }
    have constructing : (Pending.construction σ.store.nextInstance).Inside R :=
      ⟨List.forall_mem_singleton.mpr (Value.inside_object rfl made), List.forall_mem_nil _⟩
    have inside : R (.environment
        ((σ.store.addInstance k).bind method σ.store.nextInstance).1.environment) := receiver
    have entered : Obeys R σ₁.store
        (enterBody ((σ.store.addInstance k).bind method σ.store.nextInstance).1 arguments
          (.construction σ.store.nextInstance :: pending) σ₁) := by
      have constructed : σ₁.Inside R := ⟨bound.closed, h.globals, h.current⟩
      refine obeys_enterBody constructed
        (List.forall_mem_cons.mpr ⟨constructing, waiting⟩) inside given ?_
      simpa [σ₁, Store.nextEnvironment, Store.bind, Store.addEnvironment, Store.addInstance]
        using frame
    exact .after bound entered

theorem obeys_apply (h : σ.Inside R) (waiting : ∀ p ∈ pending, p.Inside R) {callee : Value}
    (known : callee.Inside R) (paren : Token) {arguments : List Value}
    (given : ∀ v ∈ arguments, v.Inside R)
    (supplied : σ.store.Supplies R (apply callee paren arguments pending σ).state.store) :
    Obeys R σ.store (apply callee paren arguments pending σ) := by
  cases callee with
  | native function =>
    cases function
    exact ⟨.refl h.store, h.current, inside_result (Value.inside_plain rfl), waiting⟩
  | functionRef id =>
    revert supplied
    unfold apply
    simp only
    split
    · next closure hc =>
      intro supplied
      have inside := h.store.functions id closure hc (known _ rfl)
      refine obeys_enterBody h waiting inside given (supplied _ (Nat.lt_irrefl _) ?_)
      simp [Store.Has, enterBody, State.enter, Store.nextEnvironment]
    · exact fun _ => .still h waiting (List.forall_mem_nil _)
  | classRef k => exact obeys_construct h waiting (known _ rfl) given supplied
  | nil | bool | number | string | instanceRef => exact .still h waiting (List.forall_mem_nil _)

theorem obeys_call (h : σ.Inside R) (waiting : ∀ p ∈ pending, p.Inside R) {callee : Value}
    (known : callee.Inside R) (paren : Token) {arguments : List Value}
    (given : ∀ v ∈ arguments, v.Inside R)
    (supplied : σ.store.Supplies R (call callee paren arguments pending σ).state.store) :
    Obeys R σ.store (call callee paren arguments pending σ) := by
  revert supplied
  unfold call
  split
  · exact fun _ => .still h waiting nofun
  split
  · exact fun _ => .still h waiting nofun
  split
  · exact fun _ => .still h waiting nofun
  · exact obeys_apply h waiting known paren given

theorem obeys_nextArgument (h : σ.Inside R) (waiting : ∀ p ∈ pending, p.Inside R) {callee : Value}
    (known : callee.Inside R) (paren : Token) {before : List Value}
    (given : ∀ v ∈ before, v.Inside R) (after : List Expr)
    (supplied : σ.store.Supplies R (nextArgument callee paren before after pending σ).state.store) :
    Obeys R σ.store (nextArgument callee paren before after pending σ) := by
  cases after with
  | nil =>
    have reversed : ∀ v ∈ before.reverse, v.Inside R := fun v hv =>
      given v (List.mem_reverse.mp hv)
    exact obeys_call h waiting known paren reversed supplied
  | cons e rest =>
    exact .waits h waiting rfl (List.forall_mem_cons.mpr ⟨known, given⟩) rfl

/-! ## Assignments and declarations -/

theorem obeys_assign (h : σ.Inside R) (waiting : ∀ p ∈ pending, p.Inside R) (id : Nat)
    (name : Token) {v : Value} (known : v.Inside R) :
    Obeys R σ.store (assign id name v pending σ) := by
  have bound {owner : EnvironmentId} (ho : R (.environment owner)) :
      Obeys R σ.store ⟨.value v, pending, { σ with store := σ.store.define owner name.lexeme v }⟩ :=
    .changed h waiting (Store.confined_define h.store ho _ known) (inside_result known)
  unfold assign Store.assignAt Store.assign
  split
  · split
    · next hs =>
      split at hs
      · next owner ho =>
        cases hs
        exact bound (h.store.ancestor h.current (Option.filter_eq_some_iff.mp ho).1)
      · cases hs
    · exact .still h waiting nofun
  · split
    · next hs =>
      split at hs
      · next owner ho =>
        cases hs
        exact bound (h.store.owner h.globals ho)
      · cases hs
    · exact .still h waiting nofun

theorem State.Inside.define (h : σ.Inside R) (name : String) {v : Value} (known : v.Inside R) :
    (σ.define name v).Inside R :=
  ⟨(Store.confined_define h.store h.current name known).closed, h.globals, h.current⟩

theorem obeys_finishClass (h : σ.Inside R) (waiting : ∀ p ∈ pending, p.Inside R) (name : Token)
    {parent : Option ClassId} (known : ∀ k, parent = some k → R (.classObject k))
    (methods : List FunctionDecl) {environment : EnvironmentId}
    (inside : R (.environment environment)) (made : R (.classObject σ.store.nextClass)) :
    Obeys R σ.store (finishClass name parent methods environment pending σ) := by
  let declared := declaredClass name parent methods environment
  have referred : declared.Inside R := by
    refine ⟨known, fun name c hc => ?_⟩
    obtain ⟨decl, _, rfl⟩ := methodTable_mem hc
    exact inside
  have added := Store.confined_addClass h.store referred
  unfold finishClass Store.assign
  simp only
  split
  · next hs =>
    split at hs
    · next owner ho =>
      cases hs
      have owned : R (.environment owner) := added.closed.owner h.current ho
      exact .changed h waiting (added.trans (Store.confined_define added.closed owned _
        (Value.inside_object rfl made))) nofun
    · cases hs
  · exact .changed h waiting added nofun

theorem size_finishClass {name : Token} {parent : Option ClassId} {methods : List FunctionDecl}
    {environment : EnvironmentId} :
    σ.store.classes.size <
      (finishClass name parent methods environment pending σ).state.store.classes.size := by
  obtain ⟨control, store, same, _, _, rfl | ⟨owner, rfl⟩⟩ :=
    finishClass_adds name parent methods environment pending σ <;>
    simp [same, Store.addClass]

theorem obeys_declareClass (h : σ.Inside R) (waiting : ∀ p ∈ pending, p.Inside R) (name : Token)
    {parent : Option ClassId} (known : ∀ k, parent = some k → R (.classObject k))
    (methods : List FunctionDecl)
    (supplied : σ.store.Supplies R (declareClass name parent methods pending σ).state.store) :
    Obeys R σ.store (declareClass name parent methods pending σ) := by
  cases parent with
  | none =>
    have made : R (.classObject σ.store.nextClass) :=
      supplied _ (Nat.lt_irrefl _) size_finishClass
    exact obeys_finishClass h waiting name known methods h.current made
  | some k =>
    let bindings := Bindings.empty.insert superName (Value.classRef k)
    let σ₁ : State := { σ with store := σ.store.addEnvironment (some σ.current) bindings }
    have kept := (finishClass_lasts name (some k) methods σ.store.nextEnvironment pending
      σ₁).environments
    have new : R (.environment σ.store.nextEnvironment) := by
      refine supplied _ (Nat.lt_irrefl _) (Nat.lt_of_lt_of_le ?_ kept)
      simp [σ₁, Store.nextEnvironment]
    have made : R (.classObject σ.store.nextClass) :=
      supplied _ (Nat.lt_irrefl _) (size_finishClass (σ := σ₁))
    have opened : σ.store.Confined R σ₁.store :=
      Store.confined_addEnvironment h.store new h.current
        (inside_single (Value.inside_object rfl (known k rfl)))
    have inner : σ₁.Inside R := ⟨opened.closed, h.globals, h.current⟩
    exact .after opened (obeys_finishClass inner waiting name known methods new made)

/-! ## Steps -/

theorem obeys_evaluate (h : σ.Inside R) (waiting : ∀ p ∈ pending, p.Inside R) (e : Expr)
    (supplied : σ.store.Supplies R (evaluate e pending σ).state.store) :
    Obeys R σ.store (evaluate e pending σ) := by
  have looked (id : Nat) (name : Token) :
      Obeys R σ.store ⟨.ofExcept (σ.lookup id name), pending, σ⟩ := by
    refine .still h waiting ?_
    cases hl : σ.lookup id name with
    | error f => exact nofun
    | ok v => exact inside_result (h.lookup hl)
  cases e with
  | superRef id keyword method => exact obeys_superMethod h waiting id keyword method supplied
  | thisRef id keyword => exact looked id keyword
  | var id name => exact looked id name
  | literal value =>
    refine .still h waiting (inside_result (Value.inside_plain ?_))
    cases value <;> rfl
  | grouping inner => exact .still h waiting nofun
  | assign | binary | call | get | logical | set | unary =>
    exact .waits h waiting rfl (List.forall_mem_nil _) rfl

theorem obeys_execute (h : σ.Inside R) (waiting : ∀ p ∈ pending, p.Inside R) (s : Stmt)
    (supplied : σ.store.Supplies R (execute s pending σ).state.store) :
    Obeys R σ.store (execute s pending σ) := by
  have defined (name : Token) : σ.store.Confined R (σ.define name.lexeme .nil).store :=
    Store.confined_define h.store h.current _ (Value.inside_plain rfl)
  cases s with
  | block body =>
    have new : R (.environment σ.store.nextEnvironment) :=
      supplied _ (Nat.lt_irrefl _) (by simp [Store.Has, execute, State.enter,
        Store.nextEnvironment])
    have back : (Pending.restoration σ.current).Inside R :=
      ⟨List.forall_mem_nil _, List.forall_mem_singleton.mpr h.current⟩
    have rest : (Pending.sequence body).Inside R := ⟨List.forall_mem_nil _, List.forall_mem_nil _⟩
    exact ⟨Store.confined_addEnvironment h.store new h.current (by simp), new, List.forall_mem_nil _,
      List.forall_mem_cons.mpr ⟨rest, List.forall_mem_cons.mpr ⟨back, waiting⟩⟩⟩
  | classDecl name parent methods =>
    have named : (σ.define name.lexeme .nil).Inside R := h.define _ (Value.inside_plain rfl)
    cases parent with
    | none =>
      have made : (σ.define name.lexeme .nil).store.Supplies R
          (declareClass name none methods pending (σ.define name.lexeme .nil)).state.store := by
        intro o new
        rw [State.define, Store.has_define] at new
        exact supplied o new
      have base : ∀ k, (none : Option ClassId) = some k → R (.classObject k) := by simp
      exact .after (defined name) (obeys_declareClass named waiting name base methods made)
    | some parent =>
      exact ⟨defined name, h.current, List.forall_mem_nil _,
        List.forall_mem_cons.mpr ⟨⟨List.forall_mem_nil _, List.forall_mem_nil _⟩, waiting⟩⟩
  | functionDecl decl =>
    have made : R (.function σ.store.nextFunction) :=
      supplied _ (Nat.lt_irrefl _) (by simp [Store.Has, execute, State.define, Store.addFunction,
        Store.nextFunction])
    have added := Store.confined_addFunction (c := ⟨decl, σ.current, false⟩) h.store h.current
    exact .changed h waiting (added.trans (Store.confined_define added.closed h.current _
      (Value.inside_object rfl made))) (List.forall_mem_nil _)
  | returnWith keyword value =>
    cases value with
    | none => exact .still h waiting (List.forall_mem_singleton.mpr (Value.inside_plain rfl))
    | some e => exact .waits h waiting rfl (List.forall_mem_nil _) rfl
  | varDecl name value =>
    cases value with
    | none => exact .changed h waiting (defined name) (List.forall_mem_nil _)
    | some e => exact .waits h waiting rfl (List.forall_mem_nil _) rfl
  | expression | ifElse | print | whileLoop =>
    exact .waits h waiting rfl (List.forall_mem_nil _) rfl

/-- An operator gives no object. -/
theorem inside_operator {control : Control} (plain : ∀ v ∈ control.values, v.object? = none) :
    ∀ v ∈ control.values, v.Inside R :=
  fun v hv => Value.inside_plain (plain v hv)

theorem binary_values (operator : Token) (left right : Value) :
    ∀ v ∈ (binary operator left right).values, v.object? = none := by
  unfold binary Control.fault
  (repeat' split) <;> simp [Control.values, Value.object?]

theorem unary_values (operator : Token) (right : Value) :
    ∀ v ∈ (unary operator right).values, v.object? = none := by
  unfold unary Control.fault
  (repeat' split) <;> simp [Control.values, Value.object?]

theorem obeys_print (h : σ.Inside R) (waiting : ∀ p ∈ pending, p.Inside R) (v : Value) :
    Obeys R σ.store (print v pending σ) := by
  unfold print
  simp only
  split <;> exact ⟨.refl h.store, h.current, nofun, waiting⟩

theorem obeys_resume (h : σ.Inside R) {v : Value} (known : v.Inside R) {first : Pending}
    (waiting : ∀ p ∈ first :: pending, p.Inside R)
    (supplied : σ.store.Supplies R (resume v first pending σ).state.store) :
    Obeys R σ.store (resume v first pending σ) := by
  obtain ⟨now, rest⟩ := List.forall_mem_cons.mp waiting
  have result := inside_result known
  cases first with
  | assignment id name => exact obeys_assign h rest id name known
  | rightOperand operator right => exact .waits h rest rfl result rfl
  | operation left operator => exact .still h rest (inside_operator (binary_values operator left v))
  | callee paren arguments =>
    have none : ∀ w ∈ ([] : List Value), w.Inside R := nofun
    exact obeys_nextArgument h rest known paren none arguments supplied
  | argument callee paren before after =>
    obtain ⟨called, given⟩ := List.forall_mem_cons.mp now.values
    have more := List.forall_mem_cons.mpr ⟨known, given⟩
    exact obeys_nextArgument h rest called paren more after supplied
  | property name => exact obeys_property h rest known name supplied
  | decision operator right =>
    unfold resume
    simp only
    split
    · exact .still h rest result
    · exact .still h rest nofun
  | target name value =>
    cases v with
    | instanceRef i => exact .waits h rest rfl result rfl
    | nil | bool | number | string | native | functionRef | classRef => exact .still h rest nofun
  | field i name =>
    have owner : R (.instanceObject i) := List.forall_mem_singleton.mp now.values _ rfl
    exact .changed h rest (Store.confined_setField h.store owner _ known) result
  | negation operator => exact .still h rest (inside_operator (unary_values operator v))
  | discard => exact .still h rest nofun
  | branch thenBranch elseBranch =>
    unfold resume
    simp only
    split
    · exact .still h rest nofun
    · cases elseBranch <;> exact .still h rest nofun
  | printing => exact obeys_print h rest v
  | returning => exact .still h rest result
  | definition name => exact .changed h rest (Store.confined_define h.store h.current _ known) nofun
  | superclass name parent methods =>
    cases v with
    | classRef k =>
      refine obeys_declareClass h rest name (fun other same => ?_) methods supplied
      cases same
      exact known _ rfl
    | nil | bool | number | string | native | functionRef | instanceRef => exact .still h rest nofun
  | construction i => exact .still h rest now.values
  | loopTest condition body =>
    unfold resume
    simp only
    split
    · exact .waits h rest rfl (List.forall_mem_nil _) rfl
    · exact .still h rest nofun
  | loopBody | sequence | program | restoration | body => exact .still h waiting result

theorem obeys_proceed (h : σ.Inside R) {c : Completion}
    (known : ∀ v ∈ (Control.completed c).values, v.Inside R) {first : Pending}
    (waiting : ∀ p ∈ first :: pending, p.Inside R) :
    Obeys R σ.store (proceed c first pending σ) := by
  obtain ⟨now, rest⟩ := List.forall_mem_cons.mp waiting
  cases first with
  | loopBody condition body =>
    cases c with
    | normal => exact .waits h rest rfl (List.forall_mem_nil _) rfl
    | returned v => exact .still h rest known
  | sequence statements =>
    cases c with
    | returned v => exact .still h rest known
    | normal =>
      cases statements with
      | nil => exact .still h rest nofun
      | cons s statements => exact .waits h rest rfl (List.forall_mem_nil _) rfl
  | program statements =>
    cases statements with
    | nil => exact .still h rest nofun
    | cons s statements => exact .waits h rest rfl (List.forall_mem_nil _) rfl
  | restoration e =>
    exact ⟨.refl h.store, now.environments _ (List.mem_singleton_self _), known, rest⟩
  | body caller closure =>
    have inside : R (.environment closure.environment) :=
      now.environments _ (List.mem_cons_of_mem _ (List.mem_singleton_self _))
    refine ⟨.refl h.store, now.environments _ List.mem_cons_self, inside_result ?_, rest⟩
    unfold bodyResult
    split
    · cases hl : σ.store.local? closure.environment thisName with
      | none => exact Value.inside_plain rfl
      | some w => exact h.store.locals _ _ w hl inside
    · cases c with
      | normal => exact Value.inside_plain rfl
      | returned w => exact known w (List.mem_singleton_self w)
  | _ => exact .still h waiting known

theorem obeys_unwind (h : σ.Inside R) (f : Fault) {first : Pending}
    (waiting : ∀ p ∈ first :: pending, p.Inside R) :
    Obeys R σ.store (unwind f first pending σ) := by
  obtain ⟨now, rest⟩ := List.forall_mem_cons.mp waiting
  cases first with
  | restoration e =>
    exact ⟨.refl h.store, now.environments _ (List.mem_singleton_self _), nofun, rest⟩
  | body caller closure =>
    exact ⟨.refl h.store, now.environments _ List.mem_cons_self, nofun, rest⟩
  | _ => exact .still h rest nofun

end

namespace Config

variable {c : Config}

theorem Inside.obeys (h : c.Inside R)
    (supplied : c.state.store.Supplies R c.step.state.store) : Obeys R c.state.store c.step := by
  obtain ⟨control, pending, σ⟩ := c
  obtain ⟨state, values, waiting⟩ := h
  cases control with
  | evaluate e => exact obeys_evaluate state waiting e supplied
  | execute s => exact obeys_execute state waiting s supplied
  | value v =>
    cases pending with
    | nil => exact .still state waiting values
    | cons first pending =>
      exact obeys_resume state (List.forall_mem_singleton.mp values) waiting supplied
  | completed completion =>
    cases pending with
    | nil => exact .still state waiting values
    | cons first pending => exact obeys_proceed state values waiting
  | failed f =>
    cases pending with
    | nil => exact .still state waiting values
    | cons first pending => exact obeys_unwind state f waiting

/-- A step stays within a set that holds what the step makes. -/
theorem Inside.step (h : c.Inside R) (supplied : c.state.store.Supplies R c.step.state.store) :
    c.step.Inside R := by
  have obeys := h.obeys supplied
  exact ⟨⟨obeys.store.closed, h.state.globals, obeys.current⟩, obeys.values, obeys.pending⟩

/-- So does a run. -/
theorem Inside.run (h : c.Inside R) {n : Nat}
    (supplied : c.state.store.Supplies R (c.run n).state.store) :
    (c.run n).Inside R ∧ c.state.store.Confined R (c.run n).state.store := by
  induction n with
  | zero => exact ⟨h, .refl h.state.store⟩
  | succ n ih =>
    have grown : (c.run n).state.store.Lasts (c.run (n + 1)).state.store :=
      c.run_lasts (Nat.le_succ n)
    have old : c.state.store.Lasts (c.run n).state.store := c.run_lasts (Nat.zero_le n)
    obtain ⟨inside, confined⟩ := ih fun o new made => supplied o new (grown.has made)
    rw [run_succ] at supplied grown ⊢
    have made : (c.run n).state.store.Supplies R (c.run n).step.state.store :=
      fun o new made => supplied o (fun was => new (old.has was)) made
    exact ⟨inside.step made, confined.trans (inside.obeys made).store⟩

end Config

/-! ## What a run may touch -/

/-- Nothing that was out of reach is touched, and the result was in reach or is new. -/
structure State.Confines (σ : State) (c : Config) : Prop where
  environments : ∀ e, σ.store.Has (.environment e) → ¬ σ.Reaches (.environment e) →
    c.state.store.environments[e]? = σ.store.environments[e]?
  instances : ∀ i, σ.store.Has (.instanceObject i) → ¬ σ.Reaches (.instanceObject i) →
    c.state.store.instances[i]? = σ.store.instances[i]?
  values : ∀ v ∈ c.control.values, ∀ o, v.object? = some o →
    σ.Reaches o ∨ ¬ σ.store.Has o ∧ c.state.store.Has o

/-- What is reachable and what is new at the end. -/
def State.Available (σ : State) (τ : Store) (o : Object) : Prop :=
  σ.Reaches o ∨ ¬ σ.store.Has o ∧ τ.Has o

/-- What is not there yet leads nowhere, so it may be added to what is reachable. -/
theorem State.closed_reaches (σ : State) {new : Object → Prop}
    (missing : ∀ o, new o → ¬ σ.store.Has o) :
    σ.store.Closed fun o => σ.Reaches o ∨ new o := by
  refine Store.closed_iff.mpr fun o o' link ho => ?_
  rcases ho with (fromCurrent | fromGlobals) | ho
  · exact .inl (.inl (fromCurrent.tail link))
  · exact .inl (.inr (fromGlobals.tail link))
  · exact absurd link.has (missing o ho)

theorem State.closed_available (σ : State) (τ : Store) : σ.store.Closed (σ.Available τ) :=
  σ.closed_reaches fun _ ho => ho.1

theorem State.confines_run (σ : State) {control : Control} (quiet : control.values = []) (n : Nat) :
    σ.Confines ((Config.mk control [] σ).run n) := by
  let τ := ((Config.mk control [] σ).run n).state.store
  have start : (Config.mk control [] σ).Inside (σ.Available τ) :=
    ⟨⟨σ.closed_available τ, .inl (.inr .refl), .inl (.inl .refl)⟩,
      quiet ▸ List.forall_mem_nil _, List.forall_mem_nil _⟩
  obtain ⟨inside, confined⟩ := start.run (n := n) fun o new made => .inr ⟨new, made⟩
  refine ⟨fun e old out => confined.environments e ?_, fun i old out => confined.instances i ?_,
    inside.values⟩
  · rintro (reached | ⟨new, _⟩)
    · exact out reached
    · exact new old
  · rintro (reached | ⟨new, _⟩)
    · exact out reached
    · exact new old

end Lox
