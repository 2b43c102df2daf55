import Lox.Proofs.Machine.References

/-!
# Where environments come from

An environment was made at one moment: when a block was entered, when the body of a function was
started, when a method was bound to a receiver, or when a class was declared with a superclass.
`Opened past σ e openers` says so for the environments outwards from `e`, each with its moment among
those of `past`. Every part that is done or waits finds an environment that was opened by what
opened the scopes around the part, and every closure was made in one.
-/
namespace Lox

open Scope (Part Context Opener thisName superName)

/-! ## Growth -/

namespace Store

variable {σ σ' σ'' : Store}

theorem Grows.trans (h : Grows σ σ') (h' : Grows σ' σ'') : Grows σ σ'' := by
  refine ⟨Nat.le_trans h.size h'.size, fun a ha => ?_, fun a name v hv => ?_⟩
  · rw [h'.enclosing a (Nat.lt_of_lt_of_le ha h.size), h.enclosing a ha]
  · obtain ⟨w, hw, same⟩ := h.kept a name v hv
    obtain ⟨u, hu, same'⟩ := h'.kept a name w hw
    exact ⟨u, hu, fun keyword => (same' keyword).trans (same keyword)⟩

/-- Growth in which every class stays as it is. -/
structure Extends (σ σ' : Store) : Prop extends Grows σ σ' where
  classes : ∀ (k : ClassId) made, σ.classes[k]? = some made → σ'.classes[k]? = some made

theorem Extends.trans (h : Extends σ σ') (h' : Extends σ' σ'') : Extends σ σ'' :=
  ⟨h.toGrows.trans h'.toGrows, fun k made hk => h'.classes k made (h.classes k made hk)⟩

theorem Grows.extends (h : Grows σ σ') (same : σ'.classes = σ.classes) : Extends σ σ' :=
  ⟨h, fun k made hk => by rw [same]; exact hk⟩

theorem extends_of_environments (he : σ'.environments = σ.environments)
    (same : σ'.classes = σ.classes) : Extends σ σ' :=
  (Grows.of_environments he).extends same

theorem extends_define {name : Token} (plain : name.Plain) (σ : Store) (e : EnvironmentId)
    (v : Value) : Extends σ (σ.define e name.lexeme v) :=
  (GrowsAt.define plain σ e v).toGrows.extends (by simp)

theorem extends_addEnvironment (σ : Store) (enclosing : Option EnvironmentId)
    (bindings : Bindings Value) : Extends σ (σ.addEnvironment enclosing bindings) :=
  (GrowsAt.addEnvironment σ enclosing bindings 0).toGrows.extends rfl

theorem extends_addClass (σ : Store) (made : ClassObject) : Extends σ (σ.addClass made) := by
  refine ⟨.of_environments rfl, fun k other hk => ?_⟩
  have old : k ≠ σ.classes.size := Nat.ne_of_lt (Array.getElem?_eq_some_iff.mp hk).1
  rw [Store.addClass, Array.getElem?_push, if_neg old]
  exact hk

end Store

theorem extends_finishClass {name : Token} (plain : name.Plain) (parent : Option ClassId)
    (methods : List FunctionDecl) (environment : EnvironmentId) (pending : List Pending)
    (σ : State) :
    σ.store.Extends (finishClass name parent methods environment pending σ).state.store := by
  obtain ⟨control, store, same, _, _, added⟩ :=
    finishClass_adds name parent methods environment pending σ
  rw [same]
  have made := Store.extends_addClass σ.store (declaredClass name parent methods environment)
  rcases added with rfl | ⟨owner, rfl⟩
  · exact made
  · exact made.trans (Store.extends_define plain _ _ _)

/-- Names that are bound in old environments are no keywords, so the store only grows. -/
theorem Config.step_extends {c : Config} (plain : ∀ name, c.binding? = some name → name.Plain) :
    c.state.store.Extends c.step.state.store := by
  cases c.turns with
  | going follows store => exact Store.extends_of_environments (by rw [store]) (by rw [store])
  | binding follows named offered store =>
    rw [store]
    exact Store.extends_define (plain _ named) _ _ _
  | setting follows offered store =>
    rw [store]
    obtain ⟨environments, _, classes⟩ := Store.setField_rest c.state.store _ _ _
    exact Store.extends_of_environments environments classes
  | block part leaves step =>
    rw [step]
    exact Store.extends_addEnvironment _ _ _
  | creation offered leaves step =>
    rw [step]
    exact Store.extends_of_environments rfl rfl
  | body stored offered leaves step =>
    rw [step]
    exact Store.extends_addEnvironment _ _ _
  | @construction k initializer arguments pending made found offered leaves step =>
    rw [step]
    have instanced : c.state.store.Extends (c.state.store.addInstance k) :=
      Store.extends_of_environments rfl rfl
    have bound := instanced.trans (Store.extends_addEnvironment _ (some initializer.environment)
      (Bindings.empty.insert thisName (.instanceRef c.state.store.nextInstance)))
    exact bound.trans (Store.extends_addEnvironment _ _ _)
  | @method k name method i pending found offered leaves step =>
    rw [step]
    have bound := Store.extends_addEnvironment c.state.store (some method.environment)
      (Bindings.empty.insert thisName (.instanceRef i))
    exact bound.trans (Store.extends_of_environments rfl rfl)
  | @function decl pending part named leaves step =>
    rw [step]
    have added : c.state.store.Extends
        (c.state.store.addFunction ⟨decl, c.state.current, false⟩) :=
      Store.extends_of_environments rfl rfl
    exact added.trans (Store.extends_define (plain _ named) _ _ _)
  | @baseClass name methods pending part named leaves step =>
    rw [step]
    have defined := Store.extends_define (plain _ named) c.state.store c.state.current .nil
    exact defined.trans (extends_finishClass (plain _ named) none methods c.state.current pending
      (c.state.define name.lexeme .nil))
  | @derivedClass name parent methods k pending σ now step =>
    rw [step]
    subst now
    have opened := Store.extends_addEnvironment σ.store (some σ.current)
      (Bindings.empty.insert superName (.classRef k))
    exact opened.trans (extends_finishClass (σ := { σ with store := _ }) (plain _ rfl) (some k)
      methods σ.store.nextEnvironment pending)

section
variable {programs : List (List Stmt)} {table : Distances} {n : Nat}

/-- A name that a step of a scoped configuration binds is no keyword. -/
theorem Config.Scoped.binding_plain {c : Config} (h : c.Scoped programs)
    (recorded : Recorded programs table n) {name : Token} (named : c.binding? = some name) :
    name.Plain := by
  unfold binding? at named
  split at named
  · cases named
    cases h with
    | execute visited => exact (recorded.proper visited).proper.1
  · cases named
    cases h with
    | execute visited => exact (recorded.proper visited).proper
  · cases named
    cases h with
    | execute visited => exact (recorded.proper visited).proper
  · cases named
    cases h with
    | value ready =>
      cases ready.waits with
      | assignment visited => exact (recorded.proper visited).proper
  · cases named
    cases h with
    | value ready =>
      cases ready.waits with
      | definition visited => exact (recorded.proper visited).proper
  · cases named
    cases h with
    | value ready =>
      cases ready.waits with
      | superclass visited => exact (recorded.proper visited).proper.1
  · cases named

end

/-! ## Moments -/

/-- The clause that names the superclass of a declaration has its value, a class. -/
def Config.Derives (c : Config) (name : Token) (parent : Expr) (methods : List FunctionDecl)
    (k : ClassId) : Prop :=
  ∃ pending σ, c = ⟨.value (.classRef k), .superclass name parent methods :: pending, σ⟩

/-- The next step binds a method to a receiver: it gives a bound method, or starts an
initializer. -/
inductive Config.Binds (c : Config) (method : Closure) (i : InstanceId) : Prop where
  | access {pending : List Pending}
      (step : c.step = ⟨.value (c.state.store.boundMethod method i).1, pending,
        { c.state with store := (c.state.store.boundMethod method i).2 }⟩)
  | construction {k : ClassId} {arguments : List Value} {pending : List Pending}
      (step : c.step =
        let bound := (c.state.store.addInstance k).bind method i
        enterBody bound.1 arguments (.construction i :: pending)
          { c.state with store := bound.2 })

/-- The next step starts the body of a function. -/
def Config.Enters (c : Config) (closure : Closure) : Prop :=
  ∃ arguments pending σ, c.step = enterBody closure arguments pending σ

/-- The environments outwards from one were opened by what is listed, each at a moment that was. -/
inductive Store.Opened (past : Config → Prop) (σ : Store) : EnvironmentId → List Opener → Prop where
  | globals : Opened past σ State.globals []
  | block {e outer : EnvironmentId} {openers : List Opener} (inside : σ.enclosing? e = some outer)
      (rest : Opened past σ outer openers) : Opened past σ e (.block :: openers)
  | body {called : Config} {closure : Closure} {openers : List Opener} (before : past called)
      (enters : called.Enters closure)
      (inside : σ.enclosing? called.step.state.current = some closure.environment)
      (rest : Opened past σ closure.environment openers) :
      Opened past σ called.step.state.current (.body closure.decl :: openers)
  | receiver {bound : Config} {method : Closure} {i : InstanceId} {openers : List Opener}
      (before : past bound) (binds : bound.Binds method i)
      (inside : σ.enclosing? bound.state.store.nextEnvironment = some method.environment)
      (this : σ.local? bound.state.store.nextEnvironment thisName = some (.instanceRef i))
      (rest : Opened past σ method.environment openers) :
      Opened past σ bound.state.store.nextEnvironment (.receiver method.decl :: openers)
  | superclass {declared : Config} {name : Token} {parent : Expr} {methods : List FunctionDecl}
      {k : ClassId} {outer : EnvironmentId} {openers : List Opener} (before : past declared)
      (derives : declared.Derives name parent methods k)
      (inside : σ.enclosing? declared.state.store.nextEnvironment = some outer)
      (super : σ.local? declared.state.store.nextEnvironment superName = some (.classRef k))
      (kept : ∀ (j : ClassId) made, declared.state.store.classes[j]? = some made →
        σ.classes[j]? = some made)
      (rest : Opened past σ outer openers) :
      Opened past σ declared.state.store.nextEnvironment
        (.superclass name parent methods :: openers)

section
variable {past past' : Config → Prop} {σ σ' : Store} {e : EnvironmentId} {openers : List Opener}

theorem Store.Extends.enclosing_kept (h : σ.Extends σ') {outer : EnvironmentId}
    (inside : σ.enclosing? e = some outer) : σ'.enclosing? e = some outer :=
  (h.enclosing e (Store.lt_of_enclosing? inside)).trans inside

theorem Store.Extends.keyword_kept (h : σ.Extends σ') {name : String} {v : Value}
    (keyword : name = thisName ∨ name = superName) (bound : σ.local? e name = some v) :
    σ'.local? e name = some v := by
  obtain ⟨w, hw, same⟩ := h.kept e name v bound
  rw [hw, same keyword]

theorem Store.Opened.later (h : σ.Opened past e openers) (grows : σ.Extends σ')
    (more : ∀ c, past c → past' c) : σ'.Opened past' e openers := by
  induction h with
  | globals => exact .globals
  | block inside _ ih => exact .block (grows.enclosing_kept inside) ih
  | body before enters inside _ ih =>
    exact .body (more _ before) enters (grows.enclosing_kept inside) ih
  | receiver before binds inside this _ ih =>
    exact .receiver (more _ before) binds (grows.enclosing_kept inside)
      (grows.keyword_kept (.inl rfl) this) ih
  | superclass before derives inside super kept _ ih =>
    exact .superclass (more _ before) derives (grows.enclosing_kept inside)
      (grows.keyword_kept (.inr rfl) super)
      (fun j made hj => grows.classes j made (kept j made hj)) ih

end

/-! ## Parts and closures with their environments -/

section
variable (programs : List (List Stmt)) (past : Config → Prop)

/-- A part stands in scopes that were opened as the environments outwards from one were. -/
def Store.Houses (σ : Store) (e : EnvironmentId) (part : Part) : Prop :=
  ∃ openers ctx, Nested programs openers ctx part ∧ σ.Opened past e openers

/-- A method stands within one more scope, for its receiver. -/
def Store.HousesMethod (σ : Store) (c : Closure) : Prop :=
  ∃ openers ctx kind, Nested programs (.receiver c.decl :: openers) ctx (.function kind c.decl) ∧
    σ.Opened past c.environment openers

/-- Every closure in the store has an environment for its declaration. -/
structure Store.Traced (σ : Store) : Prop where
  functions : ∀ (i : FunctionId) c, σ.functions[i]? = some c →
    ∃ kind, σ.Houses programs past c.environment (.function kind c.decl)
  methods : ∀ (k : ClassId) made, σ.classes[k]? = some made →
    ∀ name c, made.methods.get? name = some c → σ.HousesMethod programs past c

structure Config.Traced (c : Config) : Prop where
  store : c.state.store.Traced programs past
  parts : ∀ x ∈ c.parts, c.state.store.Houses programs past x.1 x.2

end

section
variable {programs : List (List Stmt)} {past past' : Config → Prop} {σ σ' : Store}
  {e : EnvironmentId} {part part' : Part}

/-- Which parts are right below another does not depend on the scopes. -/
theorem Scope.Part.children_snd (part : Part) (ctx ctx' : Context) :
    (part.children ctx).map Prod.snd = (part.children ctx').map Prod.snd := by
  cases part with
  | expr e => cases e <;> rfl
  | exprs es => cases es <;> rfl
  | stmt s =>
    cases s with
    | classDecl name parent methods => cases parent <;> rfl
    | ifElse condition branch other => cases other <;> rfl
    | varDecl name value | returnWith keyword value => cases value <;> rfl
    | _ => rfl
  | stmts ss => cases ss <;> rfl
  | function kind decl => rfl
  | functions decls => cases decls <;> rfl

theorem Store.Houses.near (h : σ.Houses programs past e part) (hp : part' ∈ part.near) :
    σ.Houses programs past e part' := by
  obtain ⟨openers, ctx, nested, opened⟩ := h
  rcases List.mem_cons.mp hp with rfl | hp
  · exact ⟨openers, ctx, nested, opened⟩
  · obtain ⟨below, same⟩ := List.mem_filter.mp hp
    rw [part.children_snd .top ctx] at below
    obtain ⟨⟨ctx', _⟩, hc, rfl⟩ := List.mem_map.mp below
    exact ⟨openers, ctx', nested.within hc (List.isEmpty_iff.mp same), opened⟩

theorem Store.Houses.later (h : σ.Houses programs past e part) (grows : σ.Extends σ')
    (more : ∀ c, past c → past' c) : σ'.Houses programs past' e part := by
  obtain ⟨openers, ctx, nested, opened⟩ := h
  exact ⟨openers, ctx, nested, opened.later grows more⟩

theorem Store.HousesMethod.later {c : Closure} (h : σ.HousesMethod programs past c)
    (grows : σ.Extends σ') (more : ∀ c, past c → past' c) :
    σ'.HousesMethod programs past' c := by
  obtain ⟨openers, ctx, kind, nested, opened⟩ := h
  exact ⟨openers, ctx, kind, nested, opened.later grows more⟩

/-- A store that grew, with closures that were there or have their environments. -/
theorem Store.Traced.later (h : σ.Traced programs past) (grows : σ.Extends σ')
    (more : ∀ c, past c → past' c)
    (functions : ∀ (i : FunctionId) c, σ'.functions[i]? = some c → σ.functions[i]? = some c ∨
      ∃ kind, σ'.Houses programs past' c.environment (.function kind c.decl))
    (methods : ∀ (k : ClassId) made, σ'.classes[k]? = some made → σ.classes[k]? = some made ∨
      ∀ name c, made.methods.get? name = some c → σ'.HousesMethod programs past' c) :
    σ'.Traced programs past' := by
  refine ⟨fun i c hi => ?_, fun k made hk => ?_⟩
  · rcases functions i c hi with old | new
    · obtain ⟨kind, housed⟩ := h.functions i c old
      exact ⟨kind, housed.later grows more⟩
    · exact new
  · rcases methods k made hk with old | new
    · exact fun name c hm => (h.methods k made old name c hm).later grows more
    · exact new

theorem Store.Traced.same (h : σ.Traced programs past) (grows : σ.Extends σ')
    (more : ∀ c, past c → past' c) (functions : σ'.functions = σ.functions)
    (classes : σ'.classes = σ.classes) : σ'.Traced programs past' :=
  h.later grows more (fun _ _ hi => .inl (functions ▸ hi)) fun _ _ hk => .inl (classes ▸ hk)

theorem old_or_new {α : Type} {xs : Array α} {x y : α} {i : Nat} (h : (xs.push x)[i]? = some y) :
    xs[i]? = some y ∨ y = x := by
  rw [Array.getElem?_push] at h
  split at h
  · exact .inr (Option.some.inj h).symm
  · exact .inl h

/-- A closure that has its environment is added. -/
theorem Store.Traced.push (h : σ.Traced programs past) (grows : σ.Extends σ')
    (more : ∀ c, past c → past' c) {closure : Closure} {kind : Scope.FunctionKind}
    (functions : σ'.functions = σ.functions.push closure) (classes : σ'.classes = σ.classes)
    (housed : σ'.Houses programs past' closure.environment (.function kind closure.decl)) :
    σ'.Traced programs past' := by
  refine h.later grows more (fun i other hi => ?_) fun _ _ hk => .inl (classes ▸ hk)
  rw [functions] at hi
  refine (old_or_new hi).imp_right ?_
  rintro rfl
  exact ⟨kind, housed⟩

/-- A method found in a class or above it has its environment. -/
theorem Store.Traced.findMethod (h : σ.Traced programs past) {k : ClassId} {name : String}
    {method : Closure} (found : σ.findMethod k name = some method) :
    σ.HousesMethod programs past method := by
  obtain ⟨owner, own⟩ := Store.ownMethod_of_findMethod found
  obtain ⟨made, hk, hm⟩ := Option.bind_eq_some_iff.mp own
  exact h.methods owner made hk name method hm

/-- Each of the methods of a class stands within a scope for its receiver. -/
theorem Nested.method {openers : List Opener} {ctx : Context} {decls : List FunctionDecl}
    (h : Nested programs openers ctx (.functions decls)) {decl : FunctionDecl} (hd : decl ∈ decls) :
    ∃ ctx' kind, Nested programs (.receiver decl :: openers) ctx' (.function kind decl) := by
  induction decls with
  | nil => cases hd
  | cons first decls ih =>
    rcases List.mem_cons.mp hd with rfl | hd
    · exact ⟨_, _, h.child List.mem_cons_self⟩
    · exact ih (h.within (List.mem_cons_of_mem _ List.mem_cons_self) rfl) hd

/-! ## What is made in a step -/

variable {c : Config} {pending : List Pending}

theorem Config.Binds.made {method : Closure} {i : InstanceId} (h : c.Binds method i) :
    c.step.state.store.enclosing? c.state.store.nextEnvironment = some method.environment ∧
      c.step.state.store.local? c.state.store.nextEnvironment thisName =
        some (.instanceRef i) := by
  cases h with
  | access step =>
    rw [step]
    constructor
    · exact (Store.enclosing?_addEnvironment _ _ _ _).trans (if_pos rfl)
    · refine (Store.local?_addEnvironment _ _ _ _ _).trans ((if_pos rfl).trans ?_)
      rw [Bindings.get?_insert, if_pos rfl]
  | @construction k arguments pending step =>
    -- The environment of the body comes after that of the receiver.
    have older : c.state.store.nextEnvironment ≠
        ((c.state.store.addInstance k).bind method i).2.nextEnvironment := by
      refine Store.ne_nextEnvironment ?_
      simp [Store.bind, Store.nextEnvironment, Store.addInstance]
    rw [step]
    constructor
    · refine (Store.enclosing?_addEnvironment _ _ _ _).trans ((if_neg older).trans ?_)
      exact (Store.enclosing?_addEnvironment _ _ _ _).trans (if_pos rfl)
    · refine (Store.local?_addEnvironment _ _ _ _ _).trans ((if_neg older).trans ?_)
      refine (Store.local?_addEnvironment _ _ _ _ _).trans ((if_pos rfl).trans ?_)
      rw [Bindings.get?_insert, if_pos rfl]

/-- The statements of a block find the environment that the block enters. -/
theorem Store.Houses.block {body : List Stmt}
    (step : c.step = ⟨.completed .normal,
      .sequence body :: .restoration c.state.current :: pending,
      c.state.enter c.state.current .empty⟩)
    (housed : c.step.state.store.Houses programs past c.state.current (.stmt (.block body))) :
    c.step.state.store.Houses programs past c.state.store.nextEnvironment (.stmts body) := by
  obtain ⟨openers, ctx, nested, opened⟩ := housed
  refine ⟨_, _, nested.child (List.mem_singleton_self _), .block ?_ opened⟩
  rw [step]
  exact (Store.enclosing?_addEnvironment _ _ _ _).trans (if_pos rfl)

theorem Store.Houses.body {closure : Closure} {arguments : List Value} {σ : State}
    {kind : Scope.FunctionKind} (step : c.step = enterBody closure arguments pending σ)
    (now : past c)
    (housed : c.step.state.store.Houses programs past closure.environment
      (.function kind closure.decl)) :
    c.step.state.store.Houses programs past c.step.state.current (.stmts closure.decl.body) := by
  obtain ⟨openers, ctx, nested, opened⟩ := housed
  refine ⟨_, _, nested.child (List.mem_singleton_self _), .body now ⟨_, _, _, step⟩ ?_ opened⟩
  rw [step]
  exact (Store.enclosing?_addEnvironment _ _ _ _).trans (if_pos rfl)

theorem Store.HousesMethod.bound {method : Closure} {i : InstanceId} (binds : c.Binds method i)
    (now : past c) (housed : c.step.state.store.HousesMethod programs past method) :
    ∃ kind, c.step.state.store.Houses programs past c.state.store.nextEnvironment
      (.function kind method.decl) := by
  obtain ⟨openers, ctx, kind, nested, opened⟩ := housed
  obtain ⟨inside, this⟩ := binds.made
  exact ⟨kind, _, ctx, nested, .receiver now binds inside this opened⟩

/-- The methods of a derived class find the environment that binds `super`. -/
theorem Store.Houses.methods {name : Token} {parent : Expr} {methods : List FunctionDecl}
    {k : ClassId} {σ : State}
    (was : c = ⟨.value (.classRef k), .superclass name parent methods :: pending, σ⟩)
    (step : c.step = finishClass name (some k) methods σ.store.nextEnvironment pending
      { σ with
        store := σ.store.addEnvironment (some σ.current)
          (Bindings.empty.insert superName (.classRef k)) })
    (plain : name.Plain) (now : past c) (grows : c.state.store.Extends c.step.state.store)
    (housed : c.step.state.store.Houses programs past σ.current
      (.stmt (.classDecl name (some parent) methods))) :
    c.step.state.store.Houses programs past σ.store.nextEnvironment (.functions methods) := by
  subst was
  obtain ⟨openers, ctx, nested, opened⟩ := housed
  have added := extends_finishClass
    (σ := { σ with
      store := σ.store.addEnvironment (some σ.current)
        (Bindings.empty.insert superName (.classRef k)) })
    plain (some k) methods σ.store.nextEnvironment pending
  rw [← step] at added
  have inside : (σ.store.addEnvironment (some σ.current) (Bindings.empty.insert superName
      (.classRef k))).enclosing? σ.store.nextEnvironment = some σ.current := by
    rw [Store.enclosing?_addEnvironment, if_pos rfl]
  have super : (σ.store.addEnvironment (some σ.current) (Bindings.empty.insert superName
      (.classRef k))).local? σ.store.nextEnvironment superName = some (.classRef k) := by
    rw [Store.local?_addEnvironment, if_pos rfl, Bindings.get?_insert, if_pos rfl]
  have below : (Scope.classBody (ctx.introducing name) true, Part.functions methods) ∈
      (Part.stmt (.classDecl name (some parent) methods)).children ctx := by
    simp [Part.children]
  exact ⟨_, _, nested.child below, .superclass now ⟨_, _, rfl⟩ (added.enclosing_kept inside)
    (added.keyword_kept (.inr rfl) super) grows.classes opened⟩

/-! ## Steps -/

theorem Config.Traced.next (h : c.Traced programs past) :
    ∀ x ∈ c.nextParts, c.state.store.Houses programs past x.1 x.2 := by
  intro x hx
  obtain ⟨⟨e, part⟩, hp, hx⟩ := List.mem_flatMap.mp hx
  obtain ⟨part', near, rfl⟩ := List.mem_map.mp hx
  exact (h.parts _ hp).near near

/-- A class whose methods have their environment is made. -/
theorem Config.Traced.finishClass (h : c.Traced programs past) (more : ∀ c, past c → past' c)
    (grows : c.state.store.Extends c.step.state.store) {name : Token} {parent : Option ClassId}
    {methods : List FunctionDecl} {environment : EnvironmentId} {σ : State}
    (step : c.step = finishClass name parent methods environment pending σ)
    (current : σ.current = c.state.current)
    (functions : σ.store.functions = c.state.store.functions)
    (classes : σ.store.classes = c.state.store.classes)
    (housed : c.step.state.store.Houses programs past' environment (.functions methods))
    (rest : ∀ x ∈ waitingParts c.state.current pending,
      c.step.state.store.Houses programs past' x.1 x.2) : c.step.Traced programs past' := by
  obtain ⟨control, store, same, quiet, _, added⟩ :=
    finishClass_adds name parent methods environment pending σ
  rw [same] at step
  have kept : store.functions = c.state.store.functions := by
    rcases added with rfl | ⟨owner, rfl⟩ <;> simp [Store.addClass, functions]
  have pushed : store.classes =
      c.state.store.classes.push (declaredClass name parent methods environment) := by
    rcases added with rfl | ⟨owner, rfl⟩ <;> simp [Store.addClass, classes]
  refine ⟨h.store.later grows more (fun i other hi => ?_) fun k made hk => ?_, ?_⟩
  · rw [step] at hi
    exact .inl (kept ▸ hi)
  · have hk : store.classes[k]? = some made := by
      rw [step] at hk
      exact hk
    rw [pushed] at hk
    refine (old_or_new hk).imp_right ?_
    rintro rfl name closure hm
    obtain ⟨decl, hd, rfl⟩ := methodTable_mem hm
    obtain ⟨openers, ctx, nested, opened⟩ := housed
    obtain ⟨ctx', kind, nested⟩ := nested.method hd
    exact ⟨openers, ctx', kind, nested, opened⟩
  · have parts : c.step.parts = waitingParts c.state.current pending := by
      rw [step, Config.parts, quiet]
      exact congrArg (waitingParts · pending) current
    rw [parts]
    exact rest

/-- A step keeps track of the environments, with the moment before it as one more that was. -/
theorem Config.Traced.step (h : c.Traced programs past) (more : ∀ c, past c → past' c)
    (now : past' c) (plain : ∀ name, c.binding? = some name → name.Plain) :
    c.step.Traced programs past' := by
  have grows := Config.step_extends plain
  have following (follows : c.Follows) :
      ∀ x ∈ c.step.parts, c.step.state.store.Houses programs past' x.1 x.2 :=
    fun x hx => (h.next x (follows.parts x hx)).later grows more
  have waiting {pending : List Pending} (leaves : c.Leaves pending) :
      ∀ x ∈ waitingParts c.state.current pending,
        c.step.state.store.Houses programs past' x.1 x.2 :=
    fun x hx => (h.next x (leaves.parts x hx)).later grows more
  cases c.turns with
  | going follows store =>
    exact ⟨h.store.same grows more (by rw [store]) (by rw [store]), following follows⟩
  | binding follows named offered store =>
    exact ⟨h.store.same grows more (by simp [store]) (by simp [store]), following follows⟩
  | setting follows offered store =>
    obtain ⟨_, functions, classes⟩ := Store.setField_rest c.state.store _ _ _
    exact ⟨h.store.same grows more (by rw [store, functions]) (by rw [store, classes]),
      following follows⟩
  | @block body pending part leaves step =>
    have outer := waiting leaves
    have inner := ((h.parts _ part).later grows more).block step
    refine ⟨h.store.same grows more (by rw [step]; rfl) (by rw [step]; rfl), ?_⟩
    rw [step] at outer inner ⊢
    exact List.forall_mem_cons.mpr ⟨inner, outer⟩
  | @creation k pending offered leaves step =>
    have rest := waiting leaves
    refine ⟨h.store.same grows more (by rw [step]; rfl) (by rw [step]; rfl), ?_⟩
    rw [step] at rest ⊢
    exact rest
  | @body id closure arguments pending stored offered leaves step =>
    have rest := waiting leaves
    obtain ⟨kind, housed⟩ := h.store.functions id closure stored
    have body := (housed.later grows more).body step now
    refine ⟨h.store.same grows more (by rw [step]; rfl) (by rw [step]; rfl), ?_⟩
    rw [step] at rest body ⊢
    exact List.forall_mem_cons.mpr ⟨body, rest⟩
  | @construction k initializer arguments pending made found offered leaves step =>
    have rest := waiting leaves
    obtain ⟨kind, housed⟩ := ((h.store.findMethod found).later grows more).bound
      (.construction step) now
    have body := Store.Houses.body step now housed
    refine ⟨h.store.same grows more (by rw [step]; rfl) (by rw [step]; rfl), ?_⟩
    rw [step] at rest body ⊢
    exact List.forall_mem_cons.mpr ⟨body, rest⟩
  | @method k name method i pending found offered leaves step =>
    have rest := waiting leaves
    obtain ⟨kind, housed⟩ := ((h.store.findMethod found).later grows more).bound (.access step) now
    have functions : c.step.state.store.functions =
        c.state.store.functions.push (c.state.store.bind method i).1 := by
      rw [step]
      rfl
    refine ⟨h.store.push grows more functions (by rw [step]; rfl) housed, ?_⟩
    rw [step] at rest ⊢
    exact rest
  | @function decl pending part named leaves step =>
    have rest := waiting leaves
    have below : Part.function .function decl ∈ (Part.stmt (.functionDecl decl)).near := by
      simp [Part.children, Part.opens]
    have housed := ((h.parts _ part).later grows more).near below
    have functions : c.step.state.store.functions =
        c.state.store.functions.push ⟨decl, c.state.current, false⟩ := by
      simp [step, State.define, Store.addFunction]
    refine ⟨h.store.push grows more functions
      (by simp [step, State.define, Store.addFunction]) housed, ?_⟩
    rw [step] at rest ⊢
    exact rest
  | @baseClass name methods pending part named leaves step =>
    have below : Part.functions methods ∈ (Part.stmt (.classDecl name none methods)).near := by
      simp [Part.children, Part.opens]
    have housed := ((h.parts _ part).later grows more).near below
    exact h.finishClass more grows step rfl (by simp [State.define]) (by simp [State.define]) housed
      (waiting leaves)
  | @derivedClass name parent methods k pending σ was step =>
    subst was
    have declared : (σ.current, Part.stmt (.classDecl name (some parent) methods)) ∈
        (Config.mk (.value (.classRef k)) (.superclass name parent methods :: pending) σ).parts :=
      Config.mem_parts_first List.mem_cons_self
    have housed := ((h.parts _ declared).later grows more).methods rfl step (plain name rfl) now grows
    exact h.finishClass more grows step rfl rfl rfl housed (waiting (.rest (by rfl)))

/-! ## Runs -/

theorem Config.Traced.later (h : c.Traced programs past) (more : ∀ c, past c → past' c) :
    c.Traced programs past' := by
  have grows : c.state.store.Extends c.state.store := Store.extends_of_environments rfl rfl
  exact ⟨h.store.same grows more rfl rfl, fun x hx => (h.parts x hx).later grows more⟩

/-- The moments before the one that a run has come to, with those that were before the run. -/
def Config.Before (past : Config → Prop) (start : Config) (n : Nat) (c : Config) : Prop :=
  past c ∨ ∃ k < n, c = start.run k

theorem Config.Traced.run {table : Distances} {m : Nat} (h : c.Traced programs past)
    (scopes : c.Scoped programs) (recorded : Recorded programs table m) (n : Nat) :
    (c.run n).Traced programs (Config.Before past c n) := by
  induction n with
  | zero => exact h.later fun _ => .inl
  | succ n ih =>
    rw [Config.run_succ]
    refine ih.step (fun _ before => before.imp_right ?_) (.inr ⟨n, Nat.lt_succ_self n, rfl⟩)
      fun _ named => (scopes.run recorded n).binding_plain recorded named
    rintro ⟨k, hk, rfl⟩
    exact ⟨k, Nat.lt_succ_of_lt hk, rfl⟩

/-- A program may start where closures have their environments. -/
theorem Store.Traced.interpreting {σ : State} (h : σ.store.Traced programs past)
    (current : σ.current = State.globals) {program : List Stmt} (hp : program ∈ programs) :
    (σ.interpreting program).Traced programs past := by
  refine ⟨h, fun x hx => ?_⟩
  obtain rfl : x = (σ.current, .stmts program) := List.mem_singleton.mp hx
  refine ⟨[], .top, .program hp, ?_⟩
  show σ.store.Opened past σ.current []
  rw [current]
  exact .globals

theorem Store.Traced.more (h : σ.Traced programs past) (program : List Stmt) :
    σ.Traced (program :: programs) past := by
  refine ⟨fun i closure hi => ?_, fun k made hk name closure hm => ?_⟩
  · obtain ⟨kind, openers, ctx, nested, opened⟩ := h.functions i closure hi
    exact ⟨kind, openers, ctx, nested.more program, opened⟩
  · obtain ⟨openers, ctx, kind, nested, opened⟩ := h.methods k made hk name closure hm
    exact ⟨openers, ctx, kind, nested.more program, opened⟩

end

end Lox
