import Mathlib
import Lox.Proofs.Machine.Origins

/-!
# What `this` and `super` are

A `super` is looked up from the class that the superclass clause around it had as its value when the
class was declared, and what is found is bound to the receiver for which the method around it was
called, whatever the class of that receiver is. A property of an instance is looked up from the
instance's own class.
-/
namespace Lox

open Scope (Part Context Opener thisName superName)

/-! ## The method around a `super` -/

/-- A method of a derived class as it was called: the moments when the class was declared, when the
method was bound to a receiver and when the bound method was called. No class that there was at the
first of them has changed since. -/
structure Activation (past : Config → Prop) (σ : Store) (name : Token) (parent : Expr)
    (methods : List FunctionDecl) (decl : FunctionDecl) where
  declared : Config
  bound : Config
  called : Config
  superclass : ClassId
  receiver : InstanceId
  method : Closure
  closure : Closure
  before : past declared ∧ past bound ∧ past called
  derives : declared.Derives name parent methods superclass
  binds : bound.Binds method receiver
  enters : called.Enters closure
  same : method.decl = decl ∧ closure.decl = decl
  inside : method.environment = declared.state.store.nextEnvironment
  around : closure.environment = bound.state.store.nextEnvironment
  kept : ∀ (k : ClassId) made, declared.state.store.classes[k]? = some made →
    σ.classes[k]? = some made

/-- The environment of the parameters, which was made for this call alone. -/
def Activation.environment {past : Config → Prop} {σ : Store} {name : Token} {parent : Expr}
    {methods : List FunctionDecl} {decl : FunctionDecl}
    (a : Activation past σ name parent methods decl) : EnvironmentId :=
  a.called.step.state.current

namespace Store

variable {past : Config → Prop} {σ : Store} {e : EnvironmentId} {openers : List Opener}

/-- Going outwards in two parts. -/
theorem ancestor?_add (σ : Store) (e : EnvironmentId) (m n : Nat) :
    σ.ancestor? e (m + n) = (σ.ancestor? e m).bind (σ.ancestor? · n) := by
  induction m generalizing e with
  | zero =>
    rw [Nat.zero_add]
    by_cases made : e < σ.environments.size
    · rw [ancestor?, if_pos made]
      rfl
    · have missing : σ.enclosing? e = none := by
        rw [enclosing?, Array.getElem?_eq_none (Nat.not_lt.mp made)]
        rfl
      cases n with
      | zero => simp [ancestor?, made]
      | succ n => simp [ancestor?, made, missing]
  | succ m ih =>
    rw [Nat.succ_add, ancestor?, ancestor?]
    cases σ.enclosing? e with
    | none => rfl
    | some outer => exact ih outer

namespace Opened

theorem outwards {o : Opener} (h : σ.Opened past e (o :: openers)) :
    ∃ outer, σ.enclosing? e = some outer ∧ σ.Opened past outer openers := by
  cases h with
  | block inside rest => exact ⟨_, inside, rest⟩
  | body _ _ inside rest => exact ⟨_, inside, rest⟩
  | receiver _ _ inside _ rest => exact ⟨_, inside, rest⟩
  | superclass _ _ inside _ _ rest => exact ⟨_, inside, rest⟩

theorem ancestor {inner : List Opener} {o : Opener} (h : σ.Opened past e (inner ++ o :: openers)) :
    ∃ a, σ.ancestor? e inner.length = some a ∧ σ.Opened past a (o :: openers) := by
  induction inner generalizing e with
  | nil =>
    obtain ⟨outer, inside, _⟩ := h.outwards
    exact ⟨e, if_pos (lt_of_enclosing? inside), h⟩
  | cons first inner ih =>
    obtain ⟨outer, inside, rest⟩ := h.outwards
    obtain ⟨a, ha, opened⟩ := ih rest
    exact ⟨a, by rw [List.length_cons, ancestor?, inside]; exact ha, opened⟩

theorem of_body {decl : FunctionDecl} (h : σ.Opened past e (.body decl :: openers)) :
    ∃ called closure, past called ∧ called.Enters closure ∧ e = called.step.state.current ∧
      closure.decl = decl ∧ σ.enclosing? e = some closure.environment ∧
        σ.Opened past closure.environment openers := by
  cases h with
  | body before enters inside rest => exact ⟨_, _, before, enters, rfl, rfl, inside, rest⟩

theorem of_receiver {decl : FunctionDecl} (h : σ.Opened past e (.receiver decl :: openers)) :
    ∃ bound method i, past bound ∧ bound.Binds method i ∧ e = bound.state.store.nextEnvironment ∧
      method.decl = decl ∧ σ.enclosing? e = some method.environment ∧
        σ.local? e thisName = some (.instanceRef i) ∧ σ.Opened past method.environment openers := by
  cases h with
  | receiver before binds inside this rest =>
    exact ⟨_, _, _, before, binds, rfl, rfl, inside, this, rest⟩

theorem of_superclass {name : Token} {parent : Expr} {methods : List FunctionDecl}
    (h : σ.Opened past e (.superclass name parent methods :: openers)) :
    ∃ declared k, past declared ∧ declared.Derives name parent methods k ∧
      e = declared.state.store.nextEnvironment ∧ σ.local? e superName = some (.classRef k) ∧
        ∀ (j : ClassId) made, declared.state.store.classes[j]? = some made →
          σ.classes[j]? = some made := by
  cases h with
  | superclass before derives _ super kept _ => exact ⟨_, _, before, derives, rfl, super, kept⟩

/-- The method around a part that stands in the body of one, and what `this` and `super` are
there. -/
theorem activation {inner outer : List Opener} {name : Token} {parent : Expr}
    {methods : List FunctionDecl} {decl : FunctionDecl}
    (h : σ.Opened past e
      (inner ++ .body decl :: .receiver decl :: .superclass name parent methods :: outer)) :
    ∃ a : Activation past σ name parent methods decl,
      σ.ancestor? e inner.length = some a.environment ∧
        σ.lookupAt? e (inner.length + 1) thisName = some (.instanceRef a.receiver) ∧
          σ.lookupAt? e (inner.length + 2) superName = some (.classRef a.superclass) := by
  obtain ⟨body, hb, opened⟩ := h.ancestor
  obtain ⟨called, closure, was, enters, rfl, hc, inside, opened⟩ := opened.of_body
  obtain ⟨bound, method, i, was', binds, around, hm, inside', this, opened⟩ := opened.of_receiver
  obtain ⟨declared, k, was'', derives, within, super, kept⟩ := opened.of_superclass
  have received : σ.ancestor? e (inner.length + 1) = some closure.environment := by
    rw [ancestor?_add, hb]
    simp [ancestor?, inside, lt_of_enclosing? inside']
  have inherited : σ.ancestor? e (inner.length + 2) = some method.environment := by
    rw [ancestor?_add, hb]
    simp [ancestor?, inside, inside', lt_of_local? super]
  exact ⟨⟨declared, bound, called, k, i, method, closure, ⟨was'', was', was⟩, derives, binds, enters,
    ⟨hm, hc⟩, within, around, kept⟩, hb, by rw [lookupAt?, received]; exact this,
    by rw [lookupAt?, inherited]; exact super⟩

end Opened

end Store

/-! ## Looking up -/

/-- The next step gives the nearest method from a class upwards, bound to a receiver, and is a fault
exactly if no class has the method. -/
def Config.Dispatches (c : Config) (k : ClassId) (name : Token) (i : InstanceId)
    (pending : List Pending) : Prop :=
  (∀ method, c.state.store.NearestMethod k name.lexeme method →
    c.step = ⟨.value (c.state.store.boundMethod method i).1, pending,
      { c.state with store := (c.state.store.boundMethod method i).2 }⟩) ∧
  (c.step.control = .fault (.undefinedProperty name.lexeme) name ↔
    c.state.store.LacksMethod k name.lexeme)

section
variable {σ : State} {pending : List Pending}

theorem Config.dispatches_of_step {c : Config} {k : ClassId} {name : Token} {i : InstanceId}
    (ordered : c.state.store.Ordered)
    (found : ∀ method, c.state.store.findMethod k name.lexeme = some method →
      c.step = ⟨.value (c.state.store.boundMethod method i).1, pending,
        { c.state with store := (c.state.store.boundMethod method i).2 }⟩)
    (missing : c.state.store.findMethod k name.lexeme = none →
      c.step.control = .fault (.undefinedProperty name.lexeme) name) :
    c.Dispatches k name i pending := by
  rcases Store.findMethod_spec ordered k name.lexeme with ⟨first, hf, nearest⟩ | ⟨none, lacks⟩
  · refine ⟨fun method hm => found method (hm.unique nearest ▸ hf), ?_⟩
    rw [found first hf]
    exact ⟨nofun, fun h => absurd nearest h.not_nearest⟩
  · exact ⟨fun method hm => absurd hm lacks.not_nearest, fun _ => lacks, fun _ => missing none⟩

theorem dispatches_super {id : Nat} {keyword method : Token} {k : ClassId} {i : InstanceId}
    (ordered : σ.store.Ordered) (parts : superParts σ id keyword = .ok (k, i)) :
    Config.Dispatches ⟨.evaluate (.superRef id keyword method), pending, σ⟩ k method i pending := by
  refine Config.dispatches_of_step ordered (fun found hf => ?_) fun hf => ?_
  · show superMethod id keyword method pending σ = _
    have hf : σ.store.findMethod k method.lexeme = some found := hf
    simp only [superMethod, parts, hf]
  · show (superMethod id keyword method pending σ).control = _
    have hf : σ.store.findMethod k method.lexeme = none := hf
    simp only [superMethod, parts, hf]

theorem dispatches_property {i : InstanceId} {name : Token} {object : InstanceObject}
    (ordered : σ.store.Ordered) (made : σ.store.instances[i]? = some object)
    (noField : object.fields.get? name.lexeme = none) :
    Config.Dispatches ⟨.value (.instanceRef i), .property name :: pending, σ⟩ object.classId name i
      pending := by
  have absent : σ.store.field? i name.lexeme = none := by
    rw [Store.field?, made]
    exact noField
  refine Config.dispatches_of_step ordered (fun found hf => ?_) fun hf => ?_
  · show property (.instanceRef i) name pending σ = _
    have hf : σ.store.findMethod object.classId name.lexeme = some found := hf
    simp only [property, absent, made, Option.bind_some, hf]
  · show (property (.instanceRef i) name pending σ).control = _
    have hf : σ.store.findMethod object.classId name.lexeme = none := hf
    simp only [property, absent, made, Option.bind_some, hf]

end

/-- A `super` that is evaluated stands in the body of a method that a derived class declares, maybe
within blocks and functions there, and the environment in use lies as many environments within that
of an activation of the method. It is looked up from the superclass for which the class was declared
and bound to the receiver for which the method was called. -/
def Config.SuperStatic (programs : List (List Stmt)) (past : Config → Prop) (c : Config) : Prop :=
  ∀ id keyword method pending σ, c = ⟨.evaluate (.superRef id keyword method), pending, σ⟩ →
    ∃ inner outer decl name parent methods ctx,
      Nested programs
        (inner ++ .body decl :: .receiver decl :: .superclass name parent methods :: outer) ctx
        (.expr (.superRef id keyword method)) ∧
      (∀ o ∈ inner, o.Inner) ∧ decl ∈ methods ∧
      ∃ a : Activation past σ.store name parent methods decl,
        σ.store.ancestor? σ.current inner.length = some a.environment ∧
          c.Dispatches a.superclass method a.receiver pending

/-- A property of an instance is its field of that name if it has one, and else looked up from its
own class and bound to it. -/
def Config.PropertyDynamic (c : Config) : Prop :=
  ∀ i name pending σ, c = ⟨.value (.instanceRef i), .property name :: pending, σ⟩ →
    ∃ object, σ.store.instances[i]? = some object ∧
      (∀ v, object.fields.get? name.lexeme = some v → c.step = ⟨.value v, pending, σ⟩) ∧
      (object.fields.get? name.lexeme = none → c.Dispatches object.classId name i pending)

/-! ## Sessions and their moments -/

namespace Session

/-- The sessions that come about by running sources one after another, with the programs that were
accepted and all moments of their runs. -/
inductive Lived : List (List Stmt) → Session → (Config → Prop) → Prop where
  | initial (sink : Sink) (readings : Nat → Float) :
      Lived [] (initial sink readings) fun _ => False
  | rejected {programs : List (List Stmt)} {s s' : Session} {past : Config → Prop}
      {source : String} {faults : List Fault} (before : Lived programs s past)
      (load : s.load source = (s', .error faults)) : Lived programs s' past
  | ended {programs : List (List Stmt)} {s s' s'' : Session} {past : Config → Prop}
      {source : String} {program : List Stmt} {fuel : Nat} {outcome : Outcome}
      (before : Lived programs s past) (load : s.load source = (s', .ok program))
      (finish : finish? s'.nextId ((s'.state.interpreting program).run fuel) =
        some (s'', outcome)) :
      Lived (program :: programs) s'' (Config.Before past (s'.state.interpreting program) fuel)
  | between {programs : List (List Stmt)} {s : Session} {past : Config → Prop}
      (before : Lived programs s past) (sink : Sink) (clock : Clock) :
      Lived programs { s with state := { s.state with sink, clock } } past

variable {programs : List (List Stmt)} {s s' : Session} {past : Config → Prop} {source : String}
  {program : List Stmt}

theorem Lived.reached (h : Lived programs s past) : Reached programs s := by
  induction h with
  | initial sink readings => exact .initial sink readings
  | rejected _ load ih => exact ih.rejected load
  | ended _ load finish ih => exact ih.ended load finish
  | between _ sink clock ih => exact ih.between sink clock

/-- Closures have their environments, and objects that are spoken of are in the store. -/
structure Tracked (programs : List (List Stmt)) (s : Session) (past : Config → Prop) : Prop where
  scopes : Scoped programs s
  traced : s.state.store.Traced programs past
  sound : s.state.store.Sound

theorem Tracked.accept (h : Tracked programs s past) (load : s.load source = (s', .ok program)) :
    Tracked (program :: programs) s' past := by
  have scopes := h.scopes.accept load
  obtain ⟨_, _, _, _, rfl⟩ := load_ok load
  exact ⟨scopes, h.traced.more program, h.sound⟩

/-- Every moment of the run of an accepted program. -/
theorem Tracked.running (h : Tracked (program :: programs) s past) (n : Nat) :
    let start := s.state.interpreting program
    (start.run n).Traced (program :: programs) (Config.Before past start n) ∧
      (start.run n).Sound :=
  ⟨(h.traced.interpreting h.scopes.current List.mem_cons_self).run
      (h.scopes.running 0) h.scopes.recorded n,
    (h.sound.interpreting program).run n⟩

theorem Lived.tracked (h : Lived programs s past) : Tracked programs s past := by
  induction h with
  | initial sink readings =>
    exact ⟨scoped_initial sink readings, ⟨nofun, nofun⟩, Store.sound_initial sink readings⟩
  | rejected _ load ih =>
    have scopes := ih.scopes.reject load
    obtain ⟨_, same | ⟨program, _, same⟩⟩ := load_error load
    · exact ⟨scopes, same ▸ ih.traced, same ▸ ih.sound⟩
    · exact ⟨scopes, by rw [same]; exact ih.traced, by rw [same]; exact ih.sound⟩
  | @ended _ _ _ _ _ _ _ fuel _ _ load finish ih =>
    have accepted := ih.accept load
    obtain ⟨traced, sound⟩ := accepted.running fuel
    have scopes := accepted.scopes.finish rfl finish
    obtain ⟨⟨own, σ⟩, he, hs⟩ := Option.map_eq_some_iff.mp finish
    cases hs
    obtain ⟨_, rfl⟩ := Config.finished_of_ending? he
    exact ⟨scopes, traced.store, sound.store⟩
  | between _ sink clock ih => exact ⟨⟨ih.scopes.recorded, ih.scopes.store, ih.scopes.current⟩,
      ih.traced, ih.sound⟩

theorem Tracked.superStatic (h : Tracked (program :: programs) s past) (n : Nat) :
    let start := s.state.interpreting program
    (start.run n).SuperStatic (program :: programs) (Config.Before past start n) := by
  intro start id keyword method pending σ now
  obtain ⟨traced, sound⟩ := h.running n
  have distances := Config.distances_run n start
  rw [now] at traced sound distances
  have distances : σ.distances = s.state.distances := distances
  obtain ⟨openers, ctx, nested, opened⟩ :=
    traced.parts _ (Config.mem_parts_control (List.mem_singleton_self _))
  obtain ⟨inner, outer, decl, name, parent, methods, rfl, between, among, distance⟩ :=
    h.scopes.recorded.superPlace nested
  obtain ⟨a, around, this, super⟩ := opened.activation
  have spelled := (h.scopes.recorded.proper nested.visited).proper
  have parts := superParts_of_lookup (distances ▸ distance) spelled this super
  rw [now]
  exact ⟨inner, outer, decl, name, parent, methods, ctx, nested, between, among, a, around,
    dispatches_super sound.store.ordered parts⟩

theorem Tracked.propertyDynamic (h : Tracked (program :: programs) s past) (n : Nat) :
    ((s.state.interpreting program).run n).PropertyDynamic := by
  intro i name pending σ now
  obtain ⟨_, sound⟩ := h.running n
  rw [now] at sound ⊢
  have made : i < σ.store.instances.size := sound.values _ List.mem_cons_self
  refine ⟨σ.store.instances[i], Array.getElem?_eq_getElem made, fun v hv => ?_, fun absent => ?_⟩
  · have field : σ.store.field? i name.lexeme = some v := by
      rw [Store.field?, Array.getElem?_eq_getElem made]
      exact hv
    show property (.instanceRef i) name pending σ = _
    simp only [property, field]
  · exact dispatches_property sound.store.ordered (Array.getElem?_eq_getElem made) absent

/-- At every moment of a run `super` is static and a property is dynamic. The classes that count are
told by moments that were before, in this run or in one before it. -/
theorem super_static_property_dynamic (lived : Lived programs s past)
    (load : s.load source = (s', .ok program)) (n : Nat) :
    let start := s'.state.interpreting program
    (start.run n).SuperStatic (program :: programs) (Config.Before past start n) ∧
      (start.run n).PropertyDynamic :=
  have tracked := lived.tracked.accept load
  ⟨tracked.superStatic n, tracked.propertyDynamic n⟩

/-- A method calls the one that it overrides. -/
theorem overridden_super_static :
    let source := "class A \x7b m() \x7b\x7d \x7d class B < A \x7b m() \x7b super.m(); \x7d \x7d B().m();"
    ∃ s program, (initial .unlimited fun _ => 0).load source = (s, .ok program) ∧
      let start := s.state.interpreting program
      let c := start.run 18
      c.control = .evaluate (.superRef 1 ⟨.keyword .superWord, "super", 1⟩ ⟨.identifier, "m", 1⟩) ∧
        ∃ name parent methods decl,
          ∃ a : Activation (Config.Before (fun _ => False) start 18) c.state.store name parent
              methods decl,
            c.Dispatches a.superclass ⟨.identifier, "m", 1⟩ a.receiver c.pending := by
  intro source
  have passes : Passes source := by cbv
  have control : ((((initial .unlimited fun _ => 0).state.record
      (resolve (parse (okOnly (scan source)) 0).statements).occurrences).interpreting
        (parse (okOnly (scan source)) 0).statements).run 18).control =
      .evaluate (.superRef 1 ⟨.keyword .superWord, "super", 1⟩ ⟨.identifier, "m", 1⟩) := by
    cbv
  obtain ⟨lexed, parsed, resolved⟩ := passes
  have load := load_of_clean (s := initial .unlimited fun _ => 0) lexed
    (congrArg (Parsed.mk _ · _) parsed) resolved
  have static := (super_static_property_dynamic (.initial _ _) load 18).1
  have parts (c : Config) {control : Control} (h : c.control = control) :
      c = ⟨control, c.pending, c.state⟩ := by rw [← h]
  obtain ⟨_, _, decl, name, parent, methods, _, _, _, _, a, _, dispatches⟩ :=
    static 1 _ _ _ _ (parts _ control)
  exact ⟨_, _, load, control, name, parent, methods, decl, a, dispatches⟩

end Session

end Lox
