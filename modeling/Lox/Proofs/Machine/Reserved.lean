import Lox.Proofs.Machine.Origins

/-!
# Environments of `this` and of `super`

What binds `this` or `super` binds nothing else, for it is made for one of them alone and is never
the environment in use. The names that a program declares or assigns to are no keywords, so none of
them is ever bound there, and no step gives `this` or `super` another value.
-/
namespace Lox

open Scope (Context Scopes thisName superName)

/-- One of the names that are bound without a declaration. -/
def Implicit (name : String) : Prop := name = thisName ∨ name = superName

theorem Token.Plain.not_implicit {name : Token} (plain : name.Plain) : ¬ Implicit name.lexeme :=
  fun h => Scope.Token.Plain.ne plain h rfl

namespace Store

/-- An environment for the names of a program: neither `this` nor `super` is bound there. -/
structure Open (σ : Store) (e : EnvironmentId) : Prop where
  made : e < σ.environments.size
  free : ∀ name v, σ.local? e name = some v → ¬ Implicit name

/-- Where `this` or `super` is bound no other name is, and it is bound to what it must be. -/
structure Reserved (σ : Store) : Prop where
  fits : ∀ e name v, σ.local? e name = some v → v.Fits name
  alone : ∀ e keyword v, Implicit keyword → σ.local? e keyword = some v →
    ∀ name w, σ.local? e name = some w → name = keyword

/-- A change of the store that keeps both. -/
structure Retains (σ σ' : Store) : Prop where
  reserved : σ'.Reserved
  opened : ∀ e, σ.Open e → σ'.Open e

variable {σ σ' σ'' : Store} {e : EnvironmentId} {name : Token}

theorem Retains.trans (h : Retains σ σ') (h' : Retains σ' σ'') : Retains σ σ'' :=
  ⟨h'.reserved, fun e he => h'.opened e (h.opened e he)⟩

theorem Reserved.of_environments (h : σ.Reserved) (same : σ'.environments = σ.environments) :
    Retains σ σ' := by
  have binds : ∀ a x, σ'.local? a x = σ.local? a x := fun a x => by rw [local?, same, local?]
  refine ⟨⟨fun a x v hv => h.fits a x v (binds a x ▸ hv), fun a k v hk hv x w hw => ?_⟩,
    fun a ha => ⟨same ▸ ha.made, fun x v hv => ha.free x v (binds a x ▸ hv)⟩⟩
  exact h.alone a k v hk (binds a k ▸ hv) x w (binds a x ▸ hw)

/-- A name that is no keyword is bound where neither `this` nor `super` is. -/
theorem Reserved.define (h : σ.Reserved) (plain : name.Plain) (free : σ.Open e) (v : Value) :
    Retains σ (σ.define e name.lexeme v) := by
  have old : ∀ a x w, Implicit x → (σ.define e name.lexeme v).local? a x = some w →
      σ.local? a x = some w := by
    intro a x w hx hw
    have other : ¬(a = e ∧ e < σ.environments.size ∧ x = name.lexeme) :=
      fun hc => plain.not_implicit (hc.2.2 ▸ hx)
    rwa [local?_define, if_neg other] at hw
  refine ⟨⟨fun a x w hw => ?_, fun a k u hk hu x w hw => ?_⟩, fun a ha => ?_⟩
  · rw [local?_define] at hw
    split at hw
    · next hc =>
      rw [hc.2.2]
      exact fits_plain plain w
    · exact h.fits a x w hw
  · have bound := old a k u hk hu
    have other : a ≠ e := fun ha => free.free k u (ha ▸ bound) hk
    rw [local?_define, if_neg fun hc => other hc.1] at hw
    exact h.alone a k u hk bound x w hw
  · refine ⟨by rw [size_define]; exact ha.made, fun x w hw hx => ?_⟩
    exact ha.free x w (old a x w hx hw) hx

/-- An environment that binds a name of the program binds neither `this` nor `super`. -/
theorem Reserved.open_of_bound (h : σ.Reserved) (plain : name.Plain) {v : Value}
    (bound : σ.local? e name.lexeme = some v) : σ.Open e := by
  refine ⟨lt_of_local? bound, fun x w hw hx => ?_⟩
  exact plain.not_implicit (h.alone e x w hx hw name.lexeme v bound ▸ hx)

theorem Reserved.assign (h : σ.Reserved) (plain : name.Plain) {v : Value}
    (assigned : σ.assign e name v = .ok σ') : Retains σ σ' := by
  unfold Store.assign at assigned
  split at assigned
  · next owner found =>
    cases assigned
    obtain ⟨w, bound⟩ := bound_of_owner? found
    exact h.define plain (h.open_of_bound plain bound) v
  · cases assigned

theorem Reserved.assignAt (h : σ.Reserved) (plain : name.Plain) {distance : Nat} {v : Value}
    (assigned : σ.assignAt e distance name v = .ok σ') : Retains σ σ' := by
  unfold Store.assignAt at assigned
  split at assigned
  · next owner found =>
    cases assigned
    obtain ⟨w, bound⟩ := Option.isSome_iff_exists.mp (Option.filter_eq_some_iff.mp found).2
    exact h.define plain (h.open_of_bound plain bound) v
  · cases assigned

section
variable {enclosing : Option EnvironmentId} {bindings : Bindings Value}

theorem Reserved.addEnvironment (h : σ.Reserved)
    (fits : ∀ x v, bindings.get? x = some v → v.Fits x)
    (alone : ∀ k v, Implicit k → bindings.get? k = some v →
      ∀ x w, bindings.get? x = some w → x = k) :
    Retains σ (σ.addEnvironment enclosing bindings) := by
  refine ⟨⟨fun a x v hv => ?_, fun a k u hk hu x w hw => ?_⟩, fun a ha => ⟨?_, fun x v hv => ?_⟩⟩
  · rw [local?_addEnvironment] at hv
    split at hv
    · exact fits x v hv
    · exact h.fits a x v hv
  · rw [local?_addEnvironment] at hu hw
    split at hu
    · next here =>
      rw [if_pos here] at hw
      exact alone k u hk hu x w hw
    · next there =>
      rw [if_neg there] at hw
      exact h.alone a k u hk hu x w hw
  · rw [size_addEnvironment]
    exact Nat.lt_succ_of_lt ha.made
  · rw [local?_addEnvironment, if_neg (ne_nextEnvironment ha.made)] at hv
    exact ha.free x v hv

/-- An environment made for names of the program. -/
theorem Reserved.enter (h : σ.Reserved)
    (free : ∀ x v, bindings.get? x = some v → ¬ Implicit x) :
    Retains σ (σ.addEnvironment enclosing bindings) ∧
      (σ.addEnvironment enclosing bindings).Open σ.nextEnvironment := by
  refine ⟨h.addEnvironment (fun x v hx => ?_) fun k v hk hv => absurd hk (free k v hv), ?_, ?_⟩
  · exact ⟨fun he => absurd (.inl he) (free x v hx), fun he => absurd (.inr he) (free x v hx)⟩
  · rw [size_addEnvironment]
    exact Nat.lt_succ_self _
  · intro x v hv
    rw [local?_addEnvironment, if_pos rfl] at hv
    exact free x v hv

end

/-- An environment made for one name alone. -/
theorem Reserved.implicit (h : σ.Reserved) {keyword : String} {v : Value} (fits : v.Fits keyword)
    (outer : EnvironmentId) :
    Retains σ (σ.addEnvironment (some outer) (Bindings.empty.insert keyword v)) := by
  have only : ∀ x w, (Bindings.empty.insert keyword v).get? x = some w → x = keyword ∧ w = v := by
    intro x w hw
    rw [Bindings.get?_insert] at hw
    split at hw
    · next he =>
      cases hw
      exact ⟨he, rfl⟩
    · cases hw
  refine h.addEnvironment (fun x w hw => ?_) fun k u _ hu x w hw => ?_
  · obtain ⟨rfl, rfl⟩ := only x w hw
    exact fits
  · rw [(only x w hw).1, (only k u hu).1]

end Store

/-! ## Configurations -/

/-- The environment in use and those that wait are for the names of the program. -/
structure Config.Reserved (c : Config) : Prop where
  store : c.state.store.Reserved
  current : c.state.store.Open c.state.current
  outer : ∀ p ∈ c.pending, ∀ e, p.outer? = some e → c.state.store.Open e

section
variable {control : Control} {pending : List Pending} {σ : State}

/-- Where only the store has changed. -/
theorem Config.Reserved.keep (h : Config.Reserved ⟨control, pending, σ⟩) {store : Store}
    (retains : σ.store.Retains store) {next : Control} :
    Config.Reserved ⟨next, pending, { σ with store }⟩ :=
  ⟨retains.reserved, retains.opened _ h.current, fun p hp e he =>
    retains.opened e (h.outer p hp e he)⟩

theorem Config.Reserved.going (h : Config.Reserved ⟨control, pending, σ⟩) {next : Control} :
    Config.Reserved ⟨next, pending, σ⟩ := ⟨h.store, h.current, h.outer⟩

theorem Config.Reserved.push (h : Config.Reserved ⟨control, pending, σ⟩) {next : Control}
    {first : Pending} (stays : first.outer? = none) :
    Config.Reserved ⟨next, first :: pending, σ⟩ := by
  refine ⟨h.store, h.current, List.forall_mem_cons.mpr ⟨fun e he => ?_, h.outer⟩⟩
  rw [stays] at he
  cases he

theorem Config.Reserved.pop {first : Pending}
    (h : Config.Reserved ⟨control, first :: pending, σ⟩) {next : Control} :
    Config.Reserved ⟨next, pending, σ⟩ :=
  ⟨h.store, h.current, (List.forall_mem_cons.mp h.outer).2⟩


/-! ## Steps -/

theorem Config.Reserved.inside (h : Config.Reserved ⟨control, pending, σ⟩)
    {outer : EnvironmentId} {bindings : Bindings Value}
    (free : ∀ x v, bindings.get? x = some v → ¬ Implicit x) {next : Control} {body : List Stmt}
    {back : Pending} (returns : back.outer? = some σ.current) :
    Config.Reserved ⟨next, .sequence body :: back :: pending, σ.enter outer bindings⟩ := by
  obtain ⟨retains, opened⟩ := h.store.enter free
  refine ⟨retains.reserved, opened, List.forall_mem_cons.mpr ⟨fun e he => (by cases he), ?_⟩⟩
  refine List.forall_mem_cons.mpr ⟨fun e he => ?_, fun p hp e he => ?_⟩
  · cases returns.symm.trans he
    exact retains.opened _ h.current
  · exact retains.opened e (h.outer p hp e he)

theorem reserved_enterBody (h : Config.Reserved ⟨control, pending, σ⟩) {closure : Closure}
    (plain : ∀ param ∈ closure.decl.params, param.Plain) (arguments : List Value) :
    (enterBody closure arguments pending σ).Reserved := by
  have called : Config.Reserved ⟨control, pending, { σ with depth := σ.depth + 1 }⟩ :=
    ⟨h.store, h.current, h.outer⟩
  refine called.inside (fun x v hx => ?_) rfl
  have bound : ((parameterBindings closure.decl.params arguments).get? x).isSome = true := by
    rw [hx]
    rfl
  rw [parameterBindings, Store.get?_foldl_insert] at bound
  rcases bound with none_bound | ⟨⟨param, v⟩, hp, rfl⟩
  · cases none_bound
  · exact (plain param (List.of_mem_zip hp).1).not_implicit

theorem Store.Reserved.boundMethod {σ : Store} (h : σ.Reserved) (method : Closure)
    (receiver : InstanceId) : σ.Retains (σ.boundMethod method receiver).2 := by
  have bound := h.implicit (Store.fits_this receiver) method.environment
  exact bound.trans (bound.reserved.of_environments rfl)

theorem reserved_property (h : Config.Reserved ⟨control, pending, σ⟩) (object : Value)
    (name : Token) : (property object name pending σ).Reserved := by
  unfold property
  split
  · split
    · exact h.going
    · split
      · exact h.keep (h.store.boundMethod _ _)
      · exact h.going
  · exact h.going

theorem reserved_superMethod (h : Config.Reserved ⟨control, pending, σ⟩) (id : Nat)
    (keyword method : Token) : (superMethod id keyword method pending σ).Reserved := by
  unfold superMethod
  split
  · exact h.going
  · split
    · exact h.keep (h.store.boundMethod _ _)
    · exact h.going

theorem reserved_finishClass (h : Config.Reserved ⟨control, pending, σ⟩) {name : Token}
    (plain : name.Plain) (parent : Option ClassId) (methods : List FunctionDecl)
    (environment : EnvironmentId) :
    (finishClass name parent methods environment pending σ).Reserved := by
  have added : σ.store.Retains
      (σ.store.addClass ⟨name.lexeme, parent, methodTable environment methods⟩) :=
    h.store.of_environments rfl
  unfold finishClass
  simp only
  split
  · next assigned => exact h.keep (added.trans (added.reserved.assign plain assigned))
  · exact h.keep added

theorem reserved_declareClass (h : Config.Reserved ⟨control, pending, σ⟩) {name : Token}
    (plain : name.Plain) (parent : Option ClassId) (methods : List FunctionDecl) :
    (declareClass name parent methods pending σ).Reserved := by
  cases parent with
  | none => exact reserved_finishClass h plain _ _ _
  | some k =>
    have opened := h.store.implicit (Store.fits_super k) σ.current
    have within : Config.Reserved ⟨control, pending, { σ with store := _ }⟩ := h.keep opened
    exact reserved_finishClass within plain _ _ _

theorem reserved_assign (h : Config.Reserved ⟨control, pending, σ⟩) {name : Token}
    (plain : name.Plain) (id : Nat) (v : Value) : (assign id name v pending σ).Reserved := by
  unfold assign
  split
  · split
    · next assigned => exact h.keep (h.store.assignAt plain assigned)
    · exact h.going
  · split
    · next assigned => exact h.keep (h.store.assign plain assigned)
    · exact h.going

section
variable {programs : List (List Stmt)} {table : Distances} {n : Nat}

/-- The parameters of a function in the store are no keywords. -/
theorem Store.Scoped.params_plain {σ : Store} (h : σ.Scoped programs)
    (recorded : Recorded programs table n) {id : FunctionId} {closure : Closure}
    (stored : σ.functions[id]? = some closure) : ∀ param ∈ closure.decl.params, param.Plain := by
  obtain ⟨ctx, kind, visited, _⟩ := h.functions id closure stored
  exact (recorded.proper visited).proper

theorem Store.Scoped.method_params_plain {σ : Store} (h : σ.Scoped programs)
    (recorded : Recorded programs table n) {k : ClassId} {name : String} {closure : Closure}
    (found : σ.findMethod k name = some closure) :
    ∀ param ∈ closure.decl.params, param.Plain := by
  obtain ⟨ctx, kind, scopes, visited, _⟩ := h.findMethod found
  exact (recorded.proper visited).proper

theorem reserved_construct (h : Config.Reserved ⟨control, pending, σ⟩)
    (installed : σ.store.Scoped programs) (recorded : Recorded programs table n) (k : ClassId)
    (arguments : List Value) : (construct k arguments pending σ).Reserved := by
  have instanced : σ.store.Retains (σ.store.addInstance k) := h.store.of_environments rfl
  unfold construct
  split
  · exact h.keep instanced
  · next initializer found =>
    have bound := instanced.trans (instanced.reserved.implicit
      (Store.fits_this σ.store.nextInstance) initializer.environment)
    have within : Config.Reserved ⟨control, pending, { σ with store := _ }⟩ := h.keep bound
    have waiting : Config.Reserved ⟨control, .construction σ.store.nextInstance :: pending,
        { σ with store := _ }⟩ := within.push rfl
    have plain := installed.method_params_plain recorded found
    refine reserved_enterBody waiting ?_ arguments
    exact plain

theorem reserved_call (h : Config.Reserved ⟨control, pending, σ⟩)
    (installed : σ.store.Scoped programs) (recorded : Recorded programs table n)
    (callee : Value) (paren : Token) (arguments : List Value) :
    (call callee paren arguments pending σ).Reserved := by
  unfold call
  split
  · exact h.going
  · split
    · exact h.going
    · split
      · exact h.going
      · unfold apply
        split
        · exact ⟨h.store, h.current, h.outer⟩
        · split
          · next stored => exact reserved_enterBody h (installed.params_plain recorded stored) _
          · exact h.going
        · exact reserved_construct h installed recorded _ _
        · exact h.going

theorem reserved_nextArgument (h : Config.Reserved ⟨control, pending, σ⟩)
    (installed : σ.store.Scoped programs) (recorded : Recorded programs table n) (callee : Value)
    (paren : Token) (before : List Value) (after : List Expr) :
    (nextArgument callee paren before after pending σ).Reserved := by
  cases after with
  | nil => exact reserved_call h installed recorded _ _ _
  | cons e rest => exact h.push rfl

theorem reserved_evaluate (e : Expr) (h : Config.Reserved ⟨.evaluate e, pending, σ⟩) :
    (evaluate e pending σ).Reserved := by
  cases e with
  | superRef id keyword method => exact reserved_superMethod h _ _ _
  | grouping | literal | thisRef | var => exact h.going
  | _ => exact h.push rfl

theorem reserved_execute {s : Stmt} (h : Config.Reserved ⟨.execute s, pending, σ⟩)
    (plain : ∀ name, Config.binding? ⟨.execute s, pending, σ⟩ = some name → name.Plain) :
    (execute s pending σ).Reserved := by
  have defined {name : Token} (binds : name.Plain) (v : Value) :
      σ.store.Retains (σ.store.define σ.current name.lexeme v) :=
    h.store.define binds h.current v
  cases s with
  | block body =>
    exact h.inside (fun x v hx => by cases hx) rfl
  | classDecl name parent methods =>
    have declared : Config.Reserved ⟨.completed .normal, pending, σ.define name.lexeme .nil⟩ :=
      h.keep (defined (plain name rfl) .nil)
    cases parent with
    | none => exact reserved_declareClass declared (plain name rfl) none methods
    | some e => exact declared.push rfl
  | functionDecl decl =>
    have added : σ.store.Retains (σ.store.addFunction ⟨decl, σ.current, false⟩) :=
      h.store.of_environments rfl
    have binds := added.reserved.define (plain decl.name rfl) (added.opened _ h.current)
      (.functionRef σ.store.nextFunction)
    exact h.keep (added.trans binds)
  | returnWith keyword value =>
    cases value with
    | none => exact h.going
    | some e => exact h.push rfl
  | varDecl name value =>
    cases value with
    | none => exact h.keep (defined (plain name rfl) .nil)
    | some e => exact h.push rfl
  | _ => exact h.push rfl

theorem reserved_resume {v : Value} {first : Pending}
    (h : Config.Reserved ⟨.value v, first :: pending, σ⟩)
    (plain : ∀ name, Config.binding? ⟨.value v, first :: pending, σ⟩ = some name → name.Plain)
    (installed : σ.store.Scoped programs) (recorded : Recorded programs table n) :
    (resume v first pending σ).Reserved := by
  have rest : Config.Reserved ⟨.value v, pending, σ⟩ := h.pop
  cases first with
  | assignment id name => exact reserved_assign rest (plain name rfl) _ _
  | callee paren arguments => exact reserved_nextArgument rest installed recorded _ _ _ _
  | argument callee paren before after =>
    exact reserved_nextArgument rest installed recorded _ _ _ _
  | property name => exact reserved_property rest _ _
  | superclass name expression methods =>
    cases v with
    | classRef k => exact reserved_declareClass rest (plain name rfl) (some k) methods
    | _ => exact rest.going
  | target name value =>
    cases v with
    | instanceRef i => exact rest.push rfl
    | _ => exact rest.going
  | definition name => exact rest.keep (rest.store.define (plain name rfl) rest.current v)
  | field i name =>
    have same := (Store.setField_rest σ.store i name.lexeme v).1
    exact rest.keep (rest.store.of_environments same)
  | printing =>
    exact ⟨rest.store, rest.current, rest.outer⟩
  | decision operator right =>
    simp only [resume]
    split <;> exact rest.going
  | branch thenBranch elseBranch =>
    simp only [resume]
    (repeat' split) <;> exact rest.going
  | loopTest condition body =>
    simp only [resume]
    split
    · exact rest.push rfl
    · exact rest.going
  | rightOperand | operation | negation | discard | returning | construction =>
    first
      | exact rest.going
      | exact rest.push rfl
  | loopBody | sequence | program | restoration | body => exact h.going

theorem reserved_proceed {c : Completion} {first : Pending}
    (h : Config.Reserved ⟨.completed c, first :: pending, σ⟩) :
    (proceed c first pending σ).Reserved := by
  have rest : Config.Reserved ⟨.completed c, pending, σ⟩ := h.pop
  have returned : ∀ e, first.outer? = some e → σ.store.Open e :=
    (List.forall_mem_cons.mp h.outer).1
  cases first with
  | restoration environment => exact ⟨rest.store, returned _ rfl, rest.outer⟩
  | body caller closure => exact ⟨rest.store, returned _ rfl, rest.outer⟩
  | loopBody condition body =>
    cases c with
    | normal => exact rest.push rfl
    | returned v => exact rest.going
  | sequence statements =>
    cases c with
    | returned v => exact rest.going
    | normal =>
      cases statements with
      | nil => exact rest.going
      | cons s ss => exact rest.push rfl
  | program statements =>
    cases statements with
    | nil => exact rest.going
    | cons s ss => exact rest.push rfl
  | _ => exact h.going

theorem reserved_unwind {f : Fault} {first : Pending}
    (h : Config.Reserved ⟨.failed f, first :: pending, σ⟩) :
    (unwind f first pending σ).Reserved := by
  have rest : Config.Reserved ⟨.failed f, pending, σ⟩ := h.pop
  have returned : ∀ e, first.outer? = some e → σ.store.Open e :=
    (List.forall_mem_cons.mp h.outer).1
  cases first with
  | restoration environment => exact ⟨rest.store, returned _ rfl, rest.outer⟩
  | body caller closure => exact ⟨rest.store, returned _ rfl, rest.outer⟩
  | _ => exact rest.going

/-- No step binds a name beside `this` or `super`, or one of these to something else. -/
theorem Config.Reserved.step {c : Config} (h : c.Reserved) (placed : c.Scoped programs)
    (recorded : Recorded programs table n) : c.step.Reserved := by
  have plain : ∀ name, c.binding? = some name → name.Plain :=
    fun name => placed.binding_plain recorded
  have stored := placed.store
  obtain ⟨control, pending, σ⟩ := c
  cases control with
  | evaluate e => exact reserved_evaluate e h
  | execute s => exact reserved_execute h plain
  | value v =>
    cases pending with
    | nil => exact h
    | cons first pending => exact reserved_resume h plain stored recorded
  | completed c =>
    cases pending with
    | nil => exact h
    | cons first pending => exact reserved_proceed h
  | failed f =>
    cases pending with
    | nil => exact h
    | cons first pending => exact reserved_unwind h

end

end

end Lox
