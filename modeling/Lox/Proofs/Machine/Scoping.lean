import Lox.Proofs.Machine.Chains
import Lox.Proofs.Machine.Mirror
import Lox.Proofs.Session.Load

/-!
# Static scopes along a run

A configuration is scoped if the environment in use mirrors the scopes of what is being done, each
thing that waits was met by the walk in the scopes it will find, and every closure in the store
has its body and its environment from one context of the walk. A step keeps a configuration
scoped, and so does a run. Environments that wait for a block or a call to end are older than
those inside, so nothing is bound in them meanwhile.
-/
namespace Lox

open Scope (Context Part Scopes thisName superName)

section
variable (programs : List (List Stmt))

/-- A function was met in scopes that its environment mirrors. -/
def Installed (σ : Store) (c : Closure) : Prop :=
  ∃ ctx kind, Visited programs ctx (.function kind c.decl) ∧ σ.Mirrors c.environment ctx.scopes

/-- A method was met within a scope for `this`, which it has no environment for until it is
bound to a receiver. -/
def InstalledMethod (σ : Store) (c : Closure) : Prop :=
  ∃ ctx kind scopes, Visited programs ctx (.function kind c.decl) ∧
    ctx.scopes = Scope.implicit thisName :: scopes ∧ σ.Mirrors c.environment scopes

/-- Every closure in the store was met in scopes that its environment mirrors. -/
structure Store.Scoped (σ : Store) : Prop where
  made : State.globals < σ.environments.size
  functions : ∀ (i : FunctionId) c, σ.functions[i]? = some c → Installed programs σ c
  methods : ∀ (i : ClassId) made, σ.classes[i]? = some made → ∀ name c, made.methods.get? name = some c →
    InstalledMethod programs σ c

/-- What waits finds the scopes it needs: in environment `e`, with these scopes, each goes on with
a part of a program. The end of a block or of a body goes back to an older environment, whatever
the scopes have become; the end of a program is global. -/
inductive Waits (σ : Store) : EnvironmentId → Scopes → List Pending → Prop where
  | nothing {e : EnvironmentId} {scopes : Scopes} (global : e = State.globals)
      (outermost : scopes = []) : Waits σ e scopes []
  | assignment {ctx : Context} {id : Nat} {name : Token} {value : Expr} {e : EnvironmentId}
      {rest : List Pending} (visited : Visited programs ctx (.expr (.assign id name value)))
      (next : Waits σ e ctx.scopes rest) : Waits σ e ctx.scopes (.assignment id name :: rest)
  | rightOperand {ctx : Context} {operator : Token} {right : Expr} {e : EnvironmentId}
      {rest : List Pending} (visited : Visited programs ctx (.expr right))
      (next : Waits σ e ctx.scopes rest) : Waits σ e ctx.scopes (.rightOperand operator right :: rest)
  | operation {left : Value} {operator : Token} {e : EnvironmentId} {scopes : Scopes}
      {rest : List Pending} (next : Waits σ e scopes rest) :
      Waits σ e scopes (.operation left operator :: rest)
  | callee {ctx : Context} {paren : Token} {arguments : List Expr} {e : EnvironmentId}
      {rest : List Pending} (visited : Visited programs ctx (.exprs arguments))
      (next : Waits σ e ctx.scopes rest) : Waits σ e ctx.scopes (.callee paren arguments :: rest)
  | argument {ctx : Context} {callee : Value} {paren : Token} {before : List Value}
      {after : List Expr} {e : EnvironmentId} {rest : List Pending}
      (visited : Visited programs ctx (.exprs after)) (next : Waits σ e ctx.scopes rest) :
      Waits σ e ctx.scopes (.argument callee paren before after :: rest)
  | property {name : Token} {e : EnvironmentId} {scopes : Scopes} {rest : List Pending}
      (next : Waits σ e scopes rest) : Waits σ e scopes (.property name :: rest)
  | decision {ctx : Context} {operator : Token} {right : Expr} {e : EnvironmentId}
      {rest : List Pending} (visited : Visited programs ctx (.expr right))
      (next : Waits σ e ctx.scopes rest) : Waits σ e ctx.scopes (.decision operator right :: rest)
  | target {ctx : Context} {name : Token} {value : Expr} {e : EnvironmentId}
      {rest : List Pending} (visited : Visited programs ctx (.expr value))
      (next : Waits σ e ctx.scopes rest) : Waits σ e ctx.scopes (.target name value :: rest)
  | field {object : InstanceId} {name : Token} {e : EnvironmentId} {scopes : Scopes}
      {rest : List Pending} (next : Waits σ e scopes rest) :
      Waits σ e scopes (.field object name :: rest)
  | negation {operator : Token} {e : EnvironmentId} {scopes : Scopes} {rest : List Pending}
      (next : Waits σ e scopes rest) : Waits σ e scopes (.negation operator :: rest)
  | discard {e : EnvironmentId} {scopes : Scopes} {rest : List Pending}
      (next : Waits σ e scopes rest) : Waits σ e scopes (.discard :: rest)
  | branch {ctx : Context} {condition : Expr} {thenBranch : Stmt} {elseBranch : Option Stmt}
      {e : EnvironmentId} {rest : List Pending}
      (visited : Visited programs ctx (.stmt (.ifElse condition thenBranch elseBranch)))
      (next : Waits σ e ctx.scopes rest) :
      Waits σ e ctx.scopes (.branch thenBranch elseBranch :: rest)
  | printing {e : EnvironmentId} {scopes : Scopes} {rest : List Pending}
      (next : Waits σ e scopes rest) : Waits σ e scopes (.printing :: rest)
  | returning {e : EnvironmentId} {scopes : Scopes} {rest : List Pending}
      (next : Waits σ e scopes rest) : Waits σ e scopes (.returning :: rest)
  | definition {ctx : Context} {name : Token} {value : Expr} {e : EnvironmentId}
      {rest : List Pending} (visited : Visited programs ctx (.stmt (.varDecl name (some value))))
      (next : Waits σ e (ctx.introducing name).scopes rest) :
      Waits σ e (ctx.declaring name).scopes (.definition name :: rest)
  | superclass {ctx : Context} {name : Token} {parent : Expr} {methods : List FunctionDecl}
      {e : EnvironmentId} {rest : List Pending}
      (visited : Visited programs ctx (.stmt (.classDecl name (some parent) methods)))
      (next : Waits σ e (ctx.introducing name).scopes rest) :
      Waits σ e (ctx.introducing name).scopes (.superclass name parent methods :: rest)
  | construction {object : InstanceId} {e : EnvironmentId} {scopes : Scopes}
      {rest : List Pending} (next : Waits σ e scopes rest) :
      Waits σ e scopes (.construction object :: rest)
  | loopTest {ctx : Context} {condition : Expr} {body : Stmt} {e : EnvironmentId}
      {rest : List Pending} (visited : Visited programs ctx (.stmt (.whileLoop condition body)))
      (next : Waits σ e ctx.scopes rest) : Waits σ e ctx.scopes (.loopTest condition body :: rest)
  | loopBody {ctx : Context} {condition : Expr} {body : Stmt} {e : EnvironmentId}
      {rest : List Pending} (visited : Visited programs ctx (.stmt (.whileLoop condition body)))
      (next : Waits σ e ctx.scopes rest) : Waits σ e ctx.scopes (.loopBody condition body :: rest)
  | sequence {ctx : Context} {body : List Stmt} {e : EnvironmentId} {rest : List Pending}
      (visited : Visited programs ctx (.stmts body)) (next : ∀ scopes, Waits σ e scopes rest) :
      Waits σ e ctx.scopes (.sequence body :: rest)
  | program {ctx : Context} {statements : List Stmt} {e : EnvironmentId} {scopes : Scopes}
      (visited : Visited programs ctx (.stmts statements)) (top : ctx.scopes = [])
      (global : e = State.globals) (outermost : scopes = []) :
      Waits σ e scopes [.program statements]
  | restoration {e outer : EnvironmentId} {scopes around : Scopes} {rest : List Pending}
      (older : outer < e) (active : σ.Active outer around) (next : Waits σ outer around rest) :
      Waits σ e scopes (.restoration outer :: rest)
  | body {e caller : EnvironmentId} {closure : Closure} {scopes around : Scopes}
      {rest : List Pending} (older : caller < e) (active : σ.Active caller around)
      (next : Waits σ caller around rest) : Waits σ e scopes (.body caller closure :: rest)

/-- A result may be given to what waits: the environment in use has these scopes. -/
structure Ready (σ : State) (scopes : Scopes) (pending : List Pending) : Prop where
  store : σ.store.Scoped programs
  active : σ.store.Active σ.current scopes
  waits : Waits programs σ.store σ.current scopes pending

/-- The environment in use mirrors the scopes of what is done now. -/
inductive Config.Scoped : Config → Prop where
  | evaluate {ctx : Context} {e : Expr} {rest : List Pending} {σ : State}
      (visited : Visited programs ctx (.expr e)) (ready : Ready programs σ ctx.scopes rest) :
      Scoped ⟨.evaluate e, rest, σ⟩
  | execute {ctx : Context} {s : Stmt} {rest : List Pending} {σ : State}
      (visited : Visited programs ctx (.stmt s)) (store : σ.store.Scoped programs)
      (active : σ.store.Active σ.current ctx.scopes)
      (waits : Waits programs σ.store σ.current (ctx.after s).scopes rest) :
      Scoped ⟨.execute s, rest, σ⟩
  | value {scopes : Scopes} {rest : List Pending} {v : Value} {σ : State}
      (ready : Ready programs σ scopes rest) : Scoped ⟨.value v, rest, σ⟩
  | completed {scopes : Scopes} {rest : List Pending} {c : Completion} {σ : State}
      (ready : Ready programs σ scopes rest) : Scoped ⟨.completed c, rest, σ⟩
  | failed {scopes : Scopes} {rest : List Pending} {f : Fault} {σ : State}
      (store : σ.store.Scoped programs) (waits : Waits programs σ.store σ.current scopes rest) :
      Scoped ⟨.failed f, rest, σ⟩

end

section
variable {programs : List (List Stmt)} {σ σ' : Store} {e : EnvironmentId} {scopes : Scopes} {pending : List Pending}

/-- What waits is not disturbed by growth at the environment in use or a newer one. -/
theorem Waits.grow (h : Waits programs σ e scopes pending) {a : EnvironmentId}
    (grows : Store.GrowsAt σ σ' a) (newer : e ≤ a) : Waits programs σ' e scopes pending := by
  induction h with
  | nothing global outermost => exact .nothing global outermost
  | assignment visited _ ih => exact .assignment visited (ih newer)
  | rightOperand visited _ ih => exact .rightOperand visited (ih newer)
  | operation _ ih => exact .operation (ih newer)
  | callee visited _ ih => exact .callee visited (ih newer)
  | argument visited _ ih => exact .argument visited (ih newer)
  | property _ ih => exact .property (ih newer)
  | decision visited _ ih => exact .decision visited (ih newer)
  | target visited _ ih => exact .target visited (ih newer)
  | field _ ih => exact .field (ih newer)
  | negation _ ih => exact .negation (ih newer)
  | discard _ ih => exact .discard (ih newer)
  | branch visited _ ih => exact .branch visited (ih newer)
  | printing _ ih => exact .printing (ih newer)
  | returning _ ih => exact .returning (ih newer)
  | definition visited _ ih => exact .definition visited (ih newer)
  | superclass visited _ ih => exact .superclass visited (ih newer)
  | construction _ ih => exact .construction (ih newer)
  | loopTest visited _ ih => exact .loopTest visited (ih newer)
  | loopBody visited _ ih => exact .loopBody visited (ih newer)
  | sequence visited _ ih => exact .sequence visited fun scopes => ih scopes newer
  | program visited top global outermost => exact .program visited top global outermost
  | restoration older active _ ih =>
    have outside := Nat.lt_of_lt_of_le older newer
    exact .restoration older (grows.active active (Nat.ne_of_lt outside)) (ih (Nat.le_of_lt outside))
  | body older active _ ih =>
    have outside := Nat.lt_of_lt_of_le older newer
    exact .body older (grows.active active (Nat.ne_of_lt outside)) (ih (Nat.le_of_lt outside))

/-! ## The store -/

theorem Installed.grow {c : Closure} (h : Installed programs σ c) (grows : Store.Grows σ σ') :
    Installed programs σ' c := by
  obtain ⟨ctx, kind, visited, mirrors⟩ := h
  exact ⟨ctx, kind, visited, grows.mirrors mirrors⟩

theorem InstalledMethod.grow {c : Closure} (h : InstalledMethod programs σ c)
    (grows : Store.Grows σ σ') : InstalledMethod programs σ' c := by
  obtain ⟨ctx, kind, scopes, visited, hs, mirrors⟩ := h
  exact ⟨ctx, kind, scopes, visited, hs, grows.mirrors mirrors⟩

namespace Store.Scoped

/-- Growth of the environments, with the closures as they were. -/
theorem grow (h : σ.Scoped programs) (grows : Grows σ σ') (hf : σ'.functions = σ.functions)
    (hc : σ'.classes = σ.classes) : σ'.Scoped programs :=
  ⟨Nat.lt_of_lt_of_le h.made grows.size, fun i c hi => (h.functions i c (hf ▸ hi)).grow grows,
    fun i made hi name c hm => (h.methods i made (hc ▸ hi) name c hm).grow grows⟩

theorem addFunction (h : σ.Scoped programs) {c : Closure} (installed : Installed programs σ c) :
    (σ.addFunction c).Scoped programs := by
  have grows : Grows σ (σ.addFunction c) := .of_environments (by rfl)
  refine ⟨h.made, fun i c' hi => ?_, fun i made hi name c' hm => (h.methods i made hi name c' hm).grow grows⟩
  rw [Store.addFunction, Array.getElem?_push] at hi
  split at hi
  · cases hi
    exact installed.grow grows
  · exact (h.functions i c' hi).grow grows

theorem addClass (h : σ.Scoped programs) {made : ClassObject}
    (installed : ∀ name c, made.methods.get? name = some c → InstalledMethod programs σ c) :
    (σ.addClass made).Scoped programs := by
  have grows : Grows σ (σ.addClass made) := .of_environments (by rfl)
  refine ⟨h.made, fun i c hi => (h.functions i c hi).grow grows, fun i made' hi name c hm => ?_⟩
  rw [Store.addClass, Array.getElem?_push] at hi
  split at hi
  · cases hi
    exact (installed name c hm).grow grows
  · exact (h.methods i made' hi name c hm).grow grows

/-- A method found in a class or above it was installed. -/
theorem findMethod (h : σ.Scoped programs) {c : ClassId} {name : String} {found : Closure}
    (hf : σ.findMethod c name = some found) : InstalledMethod programs σ found := by
  obtain ⟨owner, own⟩ := Store.ownMethod_of_findMethod hf
  obtain ⟨made, hmade, hm⟩ := Option.bind_eq_some_iff.mp own
  exact h.methods owner made hmade name found hm

end Store.Scoped

/-- A method on its receiver closes over an environment that mirrors the scope of `this`. -/
theorem InstalledMethod.bind {c : Closure} (h : InstalledMethod programs σ c)
    (receiver : InstanceId) : Installed programs (σ.bind c receiver).2 (σ.bind c receiver).1 := by
  obtain ⟨ctx, kind, scopes, visited, hs, mirrors⟩ := h
  refine ⟨ctx, kind, visited, ?_⟩
  rw [hs]
  exact mirrors.implicit (Store.fits_this receiver)

end

/-! ## Configurations -/

section
variable {programs : List (List Stmt)} {table : Distances} {n : Nat} {σ : State} {ctx : Context}
  {scopes : Scopes} {pending : List Pending}

theorem Visited.enter {ctx' : Context} {part part' : Part} (h : Visited programs ctx part)
    (hc : (ctx', part') ∈ part.children ctx) : Visited programs ctx' part' := by
  obtain ⟨p, hp, hv⟩ := h
  exact ⟨p, hp, hv.enter hc⟩

theorem Ready.failed (h : Ready programs σ scopes pending) (f : Fault) :
    Config.Scoped programs ⟨.failed f, pending, σ⟩ :=
  .failed h.store h.waits

theorem Ready.ofExcept (h : Ready programs σ scopes pending) (r : Except Fault Value) :
    Config.Scoped programs ⟨.ofExcept r, pending, σ⟩ := by
  cases r with
  | ok v => exact .value h
  | error f => exact h.failed f

/-- A change of the store that binds no further names in old environments. -/
theorem Ready.keep (h : Ready programs σ scopes pending) {store : Store}
    (grows : ∀ e, Store.GrowsAt σ.store store e) (closures : store.Scoped programs) :
    Ready programs { σ with store } scopes pending :=
  ⟨closures, (grows (σ.current + 1)).active h.active (Nat.ne_of_lt (Nat.lt_succ_self _)),
    h.waits.grow (grows σ.current) (Nat.le_refl _)⟩

/-- Binding a name in the environment in use, which defines it in the innermost scope. -/
theorem Ready.define {name : Token} (store : σ.store.Scoped programs)
    (active : σ.store.Active σ.current scopes) (plain : name.Plain) (v : Value)
    (waits : Waits programs σ.store σ.current (Scope.define scopes name.lexeme) pending) :
    Ready programs (σ.define name.lexeme v) (Scope.define scopes name.lexeme) pending :=
  have grows := Store.GrowsAt.define plain σ.store σ.current v
  ⟨store.grow grows.toGrows (by simp [State.define]) (by simp [State.define]),
    active.define plain v, waits.grow grows (Nat.le_refl _)⟩

/-! ### Calls -/

theorem scoped_enterBody (recorded : Recorded programs table n)
    (h : Ready programs σ scopes pending) {closure : Closure}
    (installed : Installed programs σ.store closure) {arguments : List Value}
    (counted : arguments.length = closure.decl.params.length) :
    (enterBody closure arguments pending σ).Scoped programs := by
  obtain ⟨ctx, kind, visited, mirrors⟩ := installed
  have body : Visited programs (ctx.inside kind closure.decl.params) (.stmts closure.decl.body) :=
    visited.enter (by simp [Part.children])
  have plain := (recorded.proper visited).proper
  have grows := Store.GrowsAt.addEnvironment σ.store (some closure.environment)
    (parameterBindings closure.decl.params arguments)
  have inner := h.keep grows (h.store.grow (grows 0).toGrows rfl rfl)
  exact .completed ⟨inner.store, mirrors.call counted plain,
    .sequence body fun _ => .body h.active.mirrors.lt_size inner.active inner.waits⟩

theorem grows_boundMethod (store : Store) (method : Closure) (receiver : InstanceId)
    (e : EnvironmentId) : Store.GrowsAt store (store.boundMethod method receiver).2 e :=
  have grows := Store.GrowsAt.addEnvironment store (some method.environment)
    (Bindings.empty.insert thisName (.instanceRef receiver))
  ⟨⟨(grows e).size, (grows e).enclosing, (grows e).kept⟩, (grows e).others⟩

theorem scoped_boundMethod (h : Ready programs σ scopes pending) {method : Closure}
    (installed : InstalledMethod programs σ.store method) (receiver : InstanceId) :
    Ready programs { σ with store := (σ.store.boundMethod method receiver).2 } scopes pending := by
  have grows := Store.GrowsAt.addEnvironment σ.store (some method.environment)
    (Bindings.empty.insert thisName (.instanceRef receiver))
  have bound := h.keep grows (h.store.grow (grows 0).toGrows rfl rfl)
  exact h.keep (grows_boundMethod σ.store method receiver)
    (bound.store.addFunction (installed.bind receiver))

theorem scoped_property (h : Ready programs σ scopes pending) (object : Value) (name : Token) :
    (property object name pending σ).Scoped programs := by
  unfold property
  split
  · split
    · exact .value h
    · split
      · next method hm =>
        obtain ⟨_, _, hf⟩ := Option.bind_eq_some_iff.mp hm
        exact .value (scoped_boundMethod h (h.store.findMethod hf) _)
      · exact h.failed _
  · exact h.failed _

theorem scoped_superMethod (h : Ready programs σ scopes pending) (id : Nat)
    (keyword method : Token) : (superMethod id keyword method pending σ).Scoped programs := by
  unfold superMethod
  split
  · exact h.failed _
  · split
    · next hf => exact .value (scoped_boundMethod h (h.store.findMethod hf) _)
    · exact h.failed _

theorem scoped_construct (recorded : Recorded programs table n)
    (h : Ready programs σ scopes pending) {c : ClassId} {arguments : List Value}
    (counted : arguments.length =
      ((σ.store.findMethod c initializerName).map (·.decl.params.length)).getD 0) :
    (construct c arguments pending σ).Scoped programs := by
  have grows (e : EnvironmentId) : Store.GrowsAt σ.store (σ.store.addInstance c) e :=
    .of_environments (by rfl) e
  have made := h.keep grows (h.store.grow (grows 0).toGrows rfl rfl)
  unfold construct
  split
  · exact .value made
  · next initializer hf =>
    rw [hf] at counted
    have installed := (h.store.findMethod hf).grow (grows 0).toGrows
    have grows := Store.GrowsAt.addEnvironment (σ.store.addInstance c)
      (some initializer.environment)
      (Bindings.empty.insert thisName (.instanceRef σ.store.nextInstance))
    have bound := made.keep grows (made.store.grow (grows 0).toGrows rfl rfl)
    have ready : Ready programs _ scopes (.construction σ.store.nextInstance :: pending) :=
      ⟨bound.store, bound.active, .construction bound.waits⟩
    exact scoped_enterBody recorded ready (installed.bind _) counted

theorem scoped_apply (recorded : Recorded programs table n) (h : Ready programs σ scopes pending)
    {callee : Value} {paren : Token} {arguments : List Value}
    (counted : σ.store.arity? callee = some arguments.length) :
    (apply callee paren arguments pending σ).Scoped programs := by
  unfold apply
  split
  · exact .value ⟨h.store, h.active, h.waits⟩
  · split
    · next closure hc =>
      simp only [Store.arity?, hc, Option.map_some, Option.some.injEq] at counted
      exact scoped_enterBody recorded h (h.store.functions _ closure hc) counted.symm
    · exact h.failed _
  · simp only [Store.arity?, Option.some.injEq] at counted
    exact scoped_construct recorded h counted.symm
  · exact h.failed _

theorem scoped_call (recorded : Recorded programs table n) (h : Ready programs σ scopes pending)
    (callee : Value) (paren : Token) (arguments : List Value) :
    (call callee paren arguments pending σ).Scoped programs := by
  unfold call
  split
  · exact h.failed _
  · next arity ha =>
    split
    · exact h.failed _
    · next hn =>
      split
      · exact h.failed _
      · exact scoped_apply recorded h (ha.trans (congrArg some (not_not.mp hn).symm))

theorem scoped_nextArgument (recorded : Recorded programs table n)
    (h : Ready programs σ ctx.scopes pending) {callee : Value} {paren : Token}
    {before : List Value} {after : List Expr} (visited : Visited programs ctx (.exprs after)) :
    (nextArgument callee paren before after pending σ).Scoped programs := by
  unfold nextArgument
  split
  · exact scoped_call recorded h callee paren before.reverse
  · next e rest =>
    have first : Visited programs ctx (.expr e) := visited.enter (by simp [Part.children])
    have others : Visited programs ctx (.exprs rest) := visited.enter (by simp [Part.children])
    exact .evaluate first ⟨h.store, h.active, .argument others h.waits⟩

/-! ### Assignments and declarations -/

/-- Rebinding a name that is bound somewhere. -/
theorem Ready.rebind (h : Ready programs σ scopes pending) {name : Token} (plain : name.Plain)
    {owner : EnvironmentId} {v w : Value} (bound : σ.store.local? owner name.lexeme = some w) :
    Ready programs { σ with store := σ.store.define owner name.lexeme v } scopes pending :=
  have grows := Store.GrowsAt.rebind plain v bound
  h.keep grows (h.store.grow (grows 0).toGrows (by simp) (by simp))

end

theorem Store.bound_of_owner? {σ : Store} {e owner : EnvironmentId} {name : String}
    (h : σ.owner? e name = some owner) : ∃ v, σ.local? owner name = some v := by
  induction e using Nat.strongRecOn with
  | ind e ih =>
    rw [Store.owner?] at h
    split at h
    · cases h
    · next environment he =>
      split at h
      · next hc =>
        cases h
        obtain ⟨v, hv⟩ := Option.isSome_iff_exists.mp hc
        exact ⟨v, by rw [Store.local?, he]; exact hv⟩
      · split at h
        · cases h
        · next outer _ =>
          split at h
          · next hlt => exact ih outer hlt h
          · cases h

section
variable {programs : List (List Stmt)} {table : Distances} {n : Nat} {σ : State} {ctx : Context}
  {scopes : Scopes} {pending : List Pending}

theorem scoped_assign (h : Ready programs σ scopes pending) {id : Nat} {name : Token}
    (plain : name.Plain) (v : Value) : (assign id name v pending σ).Scoped programs := by
  unfold assign
  split
  · next distance _ =>
    unfold Store.assignAt
    split
    · next store hs =>
      split at hs
      · next owner ho =>
        cases hs
        obtain ⟨w, hw⟩ := Option.isSome_iff_exists.mp (Option.filter_eq_some_iff.mp ho).2
        exact .value (h.rebind plain hw)
      · cases hs
    · exact h.failed _
  · unfold Store.assign
    split
    · next store hs =>
      split at hs
      · next owner ho =>
        cases hs
        obtain ⟨w, hw⟩ := Store.bound_of_owner? ho
        exact .value (h.rebind plain hw)
      · cases hs
    · exact h.failed _

/-- The methods of a class close over one environment. -/
theorem methodTable_mem {environment : EnvironmentId} {methods : List FunctionDecl} {name : String}
    {c : Closure} (h : (methodTable environment methods).get? name = some c) :
    ∃ decl ∈ methods, c = ⟨decl, environment, decl.isInitializer⟩ := by
  have along (methods : List FunctionDecl) (b : Bindings Closure)
      (h : (methods.foldl (fun b decl =>
        b.insert decl.name.lexeme ⟨decl, environment, decl.isInitializer⟩) b).get? name = some c) :
      b.get? name = some c ∨ ∃ decl ∈ methods, c = ⟨decl, environment, decl.isInitializer⟩ := by
    induction methods generalizing b with
    | nil => exact .inl h
    | cons decl methods ih =>
      rcases ih _ h with h | ⟨other, ho, rfl⟩
      · rw [Bindings.get?_insert] at h
        split at h
        · cases h
          exact .inr ⟨decl, List.mem_cons_self, rfl⟩
        · exact .inl h
      · exact .inr ⟨other, List.mem_cons_of_mem _ ho, rfl⟩
  rcases along methods .empty h with h | h
  · cases h
  · exact h

theorem Visited.functions {decls : List FunctionDecl} (h : Visited programs ctx (.functions decls))
    {decl : FunctionDecl} (hd : decl ∈ decls) :
    Visited programs ctx (.function (Scope.methodKind decl) decl) := by
  induction decls with
  | nil => cases hd
  | cons first decls ih =>
    rcases List.mem_cons.mp hd with rfl | hd
    · exact h.enter (by simp [Part.children])
    · exact ih (h.enter (by simp [Part.children])) hd

theorem scoped_finishClass (h : Ready programs σ scopes pending) {name : Token}
    (plain : name.Plain) {parent : Option ClassId} {methods : List FunctionDecl}
    {environment : EnvironmentId} {inner : Scopes}
    (visited : Visited programs ctx (.functions methods))
    (hs : ctx.scopes = Scope.implicit thisName :: inner)
    (mirrors : σ.store.Mirrors environment inner) :
    (finishClass name parent methods environment pending σ).Scoped programs := by
  have grows (e : EnvironmentId) : Store.GrowsAt σ.store
      (σ.store.addClass ⟨name.lexeme, parent, methodTable environment methods⟩) e :=
    .of_environments (by rfl) e
  have made := h.keep grows (h.store.addClass fun other c hc => by
    obtain ⟨decl, hd, rfl⟩ := methodTable_mem hc
    exact ⟨ctx, _, inner, visited.functions hd, hs, mirrors⟩)
  unfold finishClass
  simp only [Store.assign]
  split
  · next store ha =>
    split at ha
    · next owner ho =>
      cases ha
      obtain ⟨w, hw⟩ := Store.bound_of_owner? ho
      exact .completed (made.rebind plain hw)
    · cases ha
  · exact made.failed _

theorem scoped_declareClass {name : Token} {superclass : Option Expr} {parent : Option ClassId}
    {methods : List FunctionDecl} (h : Ready programs σ (ctx.introducing name).scopes pending)
    (visited : Visited programs ctx (.stmt (.classDecl name superclass methods)))
    (plain : name.Plain) (same : parent.isSome = superclass.isSome) :
    (declareClass name parent methods pending σ).Scoped programs := by
  have inside : Visited programs (Scope.classBody (ctx.introducing name) superclass.isSome)
      (.functions methods) :=
    visited.enter (by simp [Part.children])
  cases parent with
  | none =>
    rw [← same] at inside
    exact scoped_finishClass h plain inside rfl h.active.mirrors
  | some c =>
    rw [← same] at inside
    have grows := Store.GrowsAt.addEnvironment σ.store (some σ.current)
      (Bindings.empty.insert superName (.classRef c))
    have ready := h.keep grows (h.store.grow (grows 0).toGrows rfl rfl)
    exact scoped_finishClass ready plain inside rfl (h.active.mirrors.implicit (Store.fits_super c))

/-! ## Steps -/

theorem scoped_print (h : Ready programs σ scopes pending) (v : Value) :
    (print v pending σ).Scoped programs := by
  unfold print
  simp only
  split
  · exact .completed ⟨h.store, h.active, h.waits⟩
  · exact .failed h.store h.waits

theorem scoped_evaluate {e : Expr} (visited : Visited programs ctx (.expr e))
    (h : Ready programs σ ctx.scopes pending) : (evaluate e pending σ).Scoped programs := by
  have child {e' : Expr} {frame : Pending} (hc : (ctx, Part.expr e') ∈ (Part.expr e).children ctx)
      (waits : Waits programs σ.store σ.current ctx.scopes (frame :: pending)) :
      Config.Scoped programs ⟨.evaluate e', frame :: pending, σ⟩ :=
    .evaluate (visited.enter hc) ⟨h.store, h.active, waits⟩
  have other {part : Part} (hc : (ctx, part) ∈ (Part.expr e).children ctx) :
      Visited programs ctx part :=
    visited.enter hc
  cases e with
  | assign id name value => exact child (by simp [Part.children]) (.assignment visited h.waits)
  | binary left operator right =>
    exact child (by simp [Part.children]) (.rightOperand (other (by simp [Part.children])) h.waits)
  | call callee paren arguments =>
    exact child (by simp [Part.children]) (.callee (other (by simp [Part.children])) h.waits)
  | get object name => exact child (by simp [Part.children]) (.property h.waits)
  | grouping inner => exact .evaluate (visited.enter (by simp [Part.children])) h
  | literal value => exact .value h
  | logical left operator right =>
    exact child (by simp [Part.children]) (.decision (other (by simp [Part.children])) h.waits)
  | set object name value =>
    exact child (by simp [Part.children]) (.target (other (by simp [Part.children])) h.waits)
  | superRef id keyword method => exact scoped_superMethod h id keyword method
  | thisRef id keyword => exact h.ofExcept _
  | unary operator right => exact child (by simp [Part.children]) (.negation h.waits)
  | var id name => exact h.ofExcept _

/-- Binding the name that a statement declares. -/
theorem ready_declared (recorded : Recorded programs table n) {s : Stmt} {name : Token}
    (visited : Visited programs ctx (.stmt s)) (declares : Scope.declared? s = some name)
    (plain : name.Plain) (store : σ.store.Scoped programs)
    (active : σ.store.Active σ.current ctx.scopes)
    (waits : Waits programs σ.store σ.current (ctx.after s).scopes pending) (v : Value) :
    Ready programs (σ.define name.lexeme v) (ctx.introducing name).scopes pending := by
  have clean := Scope.clean_of_declared? declares (recorded.faultless visited)
  rw [Scope.after_of_declared? declares] at waits
  exact .define store (active.declare clean) plain v waits

theorem scoped_execute (recorded : Recorded programs table n) {s : Stmt}
    (visited : Visited programs ctx (.stmt s)) (store : σ.store.Scoped programs)
    (active : σ.store.Active σ.current ctx.scopes)
    (waits : Waits programs σ.store σ.current (ctx.after s).scopes pending) :
    (execute s pending σ).Scoped programs := by
  have wf := recorded.proper visited
  have proper := wf.proper
  have ready (hd : s.declares = false) : Ready programs σ ctx.scopes pending := by
    rw [Scope.Context.after_eq wf hd] at waits
    exact ⟨store, active, waits⟩
  have child {e : Expr} {frame : Pending} (hc : (ctx, Part.expr e) ∈ (Part.stmt s).children ctx)
      (waits : Waits programs σ.store σ.current ctx.scopes (frame :: pending)) :
      Config.Scoped programs ⟨.evaluate e, frame :: pending, σ⟩ :=
    .evaluate (visited.enter hc) ⟨store, active, waits⟩
  cases s with
  | block body =>
    have h := ready rfl
    have inside : Visited programs { ctx with scopes := .empty :: ctx.scopes } (.stmts body) :=
      visited.enter (by simp [Part.children])
    have grows := Store.GrowsAt.addEnvironment σ.store (some σ.current) .empty
    have outer := h.keep grows (store.grow (grows 0).toGrows rfl rfl)
    exact .completed ⟨outer.store, active.block,
      .sequence inside fun _ => .restoration active.mirrors.lt_size outer.active outer.waits⟩
  | classDecl name parent methods =>
    have h := ready_declared recorded visited rfl proper.1 store active waits .nil
    cases parent with
    | none =>
      show (declareClass name none methods pending _).Scoped programs
      exact scoped_declareClass h visited proper.1 rfl
    | some e =>
      have clause : Visited programs
          { ctx.introducing name with enclosingClass := some .derived } (.expr e) :=
        visited.enter (by simp [Part.children])
      exact .evaluate clause ⟨h.store, h.active, .superclass visited h.waits⟩
  | expression value => exact child (by simp [Part.children]) (.discard (ready rfl).waits)
  | functionDecl decl =>
    have inside : Visited programs (ctx.introducing decl.name) (.function .function decl) :=
      visited.enter (by simp [Part.children])
    have h := ready_declared recorded visited rfl proper store active waits
      (.functionRef σ.store.nextFunction)
    have installed : Installed programs _ ⟨decl, σ.current, false⟩ :=
      ⟨_, _, inside, h.active.mirrors⟩
    have closures := h.store.addFunction installed
    have made := h.keep (fun e => Store.GrowsAt.of_environments (by rfl) e) closures
    have same := Store.define_addFunction σ.store ⟨decl, σ.current, false⟩ σ.current
      decl.name.lexeme (.functionRef σ.store.nextFunction)
    unfold execute
    simp only [State.define, same]
    exact .completed made
  | ifElse condition thenBranch elseBranch =>
    exact child (by simp [Part.children]) (.branch visited (ready rfl).waits)
  | print value => exact child (by simp [Part.children]) (.printing (ready rfl).waits)
  | returnWith keyword value =>
    cases value with
    | none => exact .completed (ready rfl)
    | some e => exact child (by simp [Part.children]) (.returning (ready rfl).waits)
  | varDecl name value =>
    cases value with
    | none => exact .completed (ready_declared recorded visited rfl proper store active waits .nil)
    | some e =>
      have clean := Scope.clean_of_declared? rfl (recorded.faultless visited)
      have inside : Visited programs (ctx.declaring name) (.expr e) :=
        visited.enter (by simp [Part.children])
      rw [Scope.after_of_declared? rfl] at waits
      exact .evaluate inside ⟨store, active.declare clean, .definition visited waits⟩
  | whileLoop condition body =>
    exact child (by simp [Part.children]) (.loopTest visited (ready rfl).waits)

/-- The body of a loop declares nothing. -/
theorem Recorded.loopBody (recorded : Recorded programs table n) {condition : Expr} {body : Stmt}
    (visited : Visited programs ctx (.stmt (.whileLoop condition body))) :
    Visited programs ctx (.stmt body) ∧ ctx.after body = ctx := by
  have inside : Visited programs ctx (.stmt body) := visited.enter (by simp [Part.children])
  exact ⟨inside, Scope.Context.after_eq (recorded.proper inside) (recorded.proper visited).proper⟩

theorem scoped_branch (recorded : Recorded programs table n) (v : Value) {condition : Expr}
    {thenBranch : Stmt} {elseBranch : Option Stmt}
    (visited : Visited programs ctx (.stmt (.ifElse condition thenBranch elseBranch)))
    (h : Ready programs σ ctx.scopes pending) :
    (resume v (.branch thenBranch elseBranch) pending σ).Scoped programs := by
  have proper := (recorded.proper visited).proper
  have first : Visited programs ctx (.stmt thenBranch) :=
    visited.enter (by simp [Part.children])
  have same : ctx.after thenBranch = ctx :=
    Scope.Context.after_eq (recorded.proper first) proper.1
  unfold resume
  simp only
  split
  · refine .execute first h.store h.active ?_
    rw [same]
    exact h.waits
  · split
    · next other =>
      have second : Visited programs ctx (.stmt other) :=
        visited.enter (by simp [Part.children, same])
      refine .execute second h.store h.active ?_
      rw [Scope.Context.after_eq (recorded.proper second) (proper.2 other rfl)]
      exact h.waits
    · exact .completed h

theorem binary_result (operator : Token) (left right : Value) :
    (∃ v, binary operator left right = .value v) ∨ ∃ f, binary operator left right = .failed f := by
  unfold binary Control.fault
  (repeat' split) <;> simp

theorem unary_result (operator : Token) (right : Value) :
    (∃ v, unary operator right = .value v) ∨ ∃ f, unary operator right = .failed f := by
  unfold unary Control.fault
  (repeat' split) <;> simp

theorem Ready.result (h : Ready programs σ scopes pending) {control : Control}
    (result : (∃ v, control = .value v) ∨ ∃ f, control = .failed f) :
    Config.Scoped programs ⟨control, pending, σ⟩ := by
  rcases result with ⟨v, rfl⟩ | ⟨f, rfl⟩
  · exact .value h
  · exact h.failed f

theorem scoped_resume (recorded : Recorded programs table n) (v : Value) {first : Pending}
    (h : Ready programs σ scopes (first :: pending)) :
    (resume v first pending σ).Scoped programs := by
  obtain ⟨store, active, waits⟩ := h
  cases waits with
  | assignment visited next =>
    exact scoped_assign ⟨store, active, next⟩ (recorded.proper visited).proper v
  | rightOperand visited next => exact .evaluate visited ⟨store, active, .operation next⟩
  | operation next => exact Ready.result ⟨store, active, next⟩ (binary_result _ _ _)
  | callee visited next => exact scoped_nextArgument recorded ⟨store, active, next⟩ visited
  | argument visited next => exact scoped_nextArgument recorded ⟨store, active, next⟩ visited
  | property next => exact scoped_property ⟨store, active, next⟩ v _
  | decision visited next =>
    unfold resume
    simp only
    split
    · exact .value ⟨store, active, next⟩
    · exact .evaluate visited ⟨store, active, next⟩
  | target visited next =>
    unfold resume
    simp only
    split
    · exact .evaluate visited ⟨store, active, .field next⟩
    · exact .failed store next
  | @field object name _ _ _ next =>
    have ready : Ready programs σ scopes pending := ⟨store, active, next⟩
    have same := σ.store.setField_rest object name.lexeme v
    have grows := Store.GrowsAt.of_environments same.1
    exact .value (ready.keep grows (store.grow (grows 0).toGrows same.2.1 same.2.2))
  | negation next => exact Ready.result ⟨store, active, next⟩ (unary_result _ _)
  | discard next => exact .completed ⟨store, active, next⟩
  | branch visited next => exact scoped_branch recorded v visited ⟨store, active, next⟩
  | printing next => exact scoped_print ⟨store, active, next⟩ v
  | returning next => exact .completed ⟨store, active, next⟩
  | definition visited next =>
    exact .completed (Ready.define store active (recorded.proper visited).proper v next)
  | superclass visited next =>
    have plain := (recorded.proper visited).proper.1
    unfold resume
    simp only
    split
    · exact scoped_declareClass ⟨store, active, next⟩ visited plain rfl
    · exact .failed store next
  | construction next => exact .value ⟨store, active, next⟩
  | loopTest visited next =>
    obtain ⟨inside, same⟩ := recorded.loopBody visited
    unfold resume
    simp only
    split
    · refine .execute inside store active ?_
      rw [same]
      exact .loopBody visited next
    · exact .completed ⟨store, active, next⟩
  | loopBody visited next => exact .value ⟨store, active, .loopBody visited next⟩
  | sequence visited next => exact .value ⟨store, active, .sequence visited next⟩
  | program visited top global outermost =>
    exact .value ⟨store, active, .program visited top global outermost⟩
  | restoration older outer next => exact .value ⟨store, active, .restoration older outer next⟩
  | body older outer next => exact .value ⟨store, active, .body older outer next⟩

/-- A list of statements goes on after its first. -/
theorem Visited.statements {s : Stmt} {ss : List Stmt}
    (h : Visited programs ctx (.stmts (s :: ss))) :
    Visited programs ctx (.stmt s) ∧ Visited programs (ctx.after s) (.stmts ss) :=
  ⟨h.enter (by simp [Part.children]), h.enter (by simp [Part.children])⟩

theorem scoped_proceed (recorded : Recorded programs table n) (c : Completion) {first : Pending}
    (h : Ready programs σ scopes (first :: pending)) :
    (proceed c first pending σ).Scoped programs := by
  obtain ⟨store, active, waits⟩ := h
  cases waits with
  | @loopBody ctx condition _ _ _ visited next =>
    cases c with
    | normal =>
      have test : Visited programs ctx (.expr condition) := visited.enter (List.mem_cons_self ..)
      exact .evaluate test ⟨store, active, .loopTest visited next⟩
    | returned v => exact .completed ⟨store, active, next⟩
  | @sequence _ body _ _ visited next =>
    cases body with
    | nil => cases c <;> exact .completed ⟨store, active, next _⟩
    | cons s ss =>
      cases c with
      | normal =>
        obtain ⟨now, later⟩ := visited.statements
        exact .execute now store active (.sequence later next)
      | returned v => exact .completed ⟨store, active, next _⟩
  | @program ctx statements _ _ visited top global outermost =>
    cases statements with
    | nil => exact .completed ⟨store, active, .nothing global outermost⟩
    | cons s ss =>
      obtain ⟨now, later⟩ := visited.statements
      have after : (ctx.after s).scopes = [] := by
        rw [Scope.Context.after_top (recorded.proper now) top, top]
      refine .execute now store ?_ (.program later after global after)
      rw [top, ← outermost]
      exact active
  | restoration older outer next => exact .completed ⟨store, outer, next⟩
  | body older outer next => exact .value ⟨store, outer, next⟩
  | assignment visited next => exact .completed ⟨store, active, .assignment visited next⟩
  | rightOperand visited next => exact .completed ⟨store, active, .rightOperand visited next⟩
  | operation next => exact .completed ⟨store, active, .operation next⟩
  | callee visited next => exact .completed ⟨store, active, .callee visited next⟩
  | argument visited next => exact .completed ⟨store, active, .argument visited next⟩
  | property next => exact .completed ⟨store, active, .property next⟩
  | decision visited next => exact .completed ⟨store, active, .decision visited next⟩
  | target visited next => exact .completed ⟨store, active, .target visited next⟩
  | field next => exact .completed ⟨store, active, .field next⟩
  | negation next => exact .completed ⟨store, active, .negation next⟩
  | discard next => exact .completed ⟨store, active, .discard next⟩
  | branch visited next => exact .completed ⟨store, active, .branch visited next⟩
  | printing next => exact .completed ⟨store, active, .printing next⟩
  | returning next => exact .completed ⟨store, active, .returning next⟩
  | definition visited next => exact .completed ⟨store, active, .definition visited next⟩
  | superclass visited next => exact .completed ⟨store, active, .superclass visited next⟩
  | construction next => exact .completed ⟨store, active, .construction next⟩
  | loopTest visited next => exact .completed ⟨store, active, .loopTest visited next⟩

/-- A fault gives back the environments of the blocks and bodies that it leaves. -/
theorem scoped_unwind (f : Fault) {first : Pending} (store : σ.store.Scoped programs)
    (waits : Waits programs σ.store σ.current scopes (first :: pending)) :
    (unwind f first pending σ).Scoped programs := by
  cases waits with
  | restoration older outer next => exact .failed store next
  | body older outer next => exact .failed store next
  | sequence visited next => exact .failed store (next [])
  | program visited top global outermost => exact .failed store (.nothing global outermost)
  | assignment _ next | rightOperand _ next | operation next | callee _ next | argument _ next
  | property next | decision _ next | target _ next | field next | negation next | discard next
  | branch _ next | printing next | returning next | definition _ next | superclass _ next
  | construction next | loopTest _ next | loopBody _ next => exact .failed store next

end

theorem Config.Scoped.store {programs : List (List Stmt)} {c : Config} (h : c.Scoped programs) :
    c.state.store.Scoped programs := by
  cases h with
  | evaluate _ ready | value ready | completed ready => exact ready.store
  | execute _ store | failed store => exact store

/-- A step keeps a configuration scoped. -/
theorem Config.Scoped.step {programs : List (List Stmt)} {table : Distances} {n : Nat} {c : Config}
    (h : c.Scoped programs) (recorded : Recorded programs table n) : c.step.Scoped programs := by
  cases h with
  | evaluate visited ready => exact scoped_evaluate visited ready
  | execute visited store active waits => exact scoped_execute recorded visited store active waits
  | @value _ pending v σ ready =>
    cases pending with
    | nil => exact .value ready
    | cons first pending => exact scoped_resume recorded v ready
  | @completed _ pending c σ ready =>
    cases pending with
    | nil => exact .completed ready
    | cons first pending => exact scoped_proceed recorded c ready
  | @failed _ pending f σ store waits =>
    cases pending with
    | nil => exact .failed store waits
    | cons first pending => exact scoped_unwind f store waits

theorem Config.Scoped.run {programs : List (List Stmt)} {table : Distances} {n : Nat} {c : Config}
    (h : c.Scoped programs) (recorded : Recorded programs table n) (fuel : Nat) :
    (c.run fuel).Scoped programs := by
  induction fuel generalizing c with
  | zero => exact h
  | succ fuel ih =>
    rw [Config.run]
    split
    · exact h
    · exact ih (h.step recorded)

end Lox
