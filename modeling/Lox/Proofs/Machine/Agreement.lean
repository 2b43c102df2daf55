import Mathlib
import Lox.Proofs.Session.Reached

/-!
# Static and dynamic scope agree

At every moment of a run the environments outwards from the one in use mirror the scopes of the
occurrence that is evaluated. So a name with a distance is bound exactly so many links outwards,
with one exception: an assignment to a local variable from within its own initializer comes
before the variable is bound. No other occurrence is ever reported as unresolved.
-/
namespace Lox

open Scope (Context Part Scopes Visits InInitializer Placed distance? thisName superName)

/-! ## Names in scope -/

namespace Scope

/-- Everything within the initializer of a variable has the scopes of that initializer. -/
theorem context_of_initializer {ctx : Context} {value : Expr} {c : Context × Part}
    (h : Relation.ReflTransGen Enters (ctx, .expr value) c) :
    c.1 = ctx ∧ c.2.isExpression = true := by
  induction h with
  | refl => exact ⟨rfl, rfl⟩
  | tail _ hc ih =>
    obtain ⟨same, expression⟩ := ih
    obtain ⟨kept, below⟩ := children_of_isExpression expression _ hc
    exact ⟨kept.trans same, below⟩

theorem contains_of_distance? {scopes : Scopes} {name : String} {d : Nat}
    (h : distance? scopes name = some d) :
    ∃ scope b, scopes[d]? = some scope ∧ scope.get? name = some b := by
  obtain ⟨hlt, hc, _⟩ := List.findIdx?_eq_some_iff_getElem.mp h
  obtain ⟨b, hb⟩ := Option.isSome_iff_exists.mp hc
  exact ⟨scopes[d], b, List.getElem?_eq_getElem hlt, hb⟩

theorem Defined.getElem? {scopes : Scopes} (h : Defined scopes) {d : Nat} {scope : Bindings Bool}
    (hd : scopes[d]? = some scope) {name : String} {b : Bool} (hb : scope.get? name = some b) :
    b = true :=
  h scope (List.mem_of_getElem? hd) name b hb

/-- A name with a distance is defined in the scope there, unless it is that of the variable whose
initializer this is. -/
theorem Placed.found {program : List Stmt} {ctx : Context} {part : Part}
    (h : Placed program ctx part) {name : String} {d : Nat}
    (hd : distance? ctx.scopes name = some d) :
    (∃ scope, ctx.scopes[d]? = some scope ∧ scope.get? name = some true) ∨
      inOwnInitializer ctx.scopes name = true ∧
        ∃ declared : Token, declared.lexeme = name ∧ InInitializer program declared ctx part := by
  obtain ⟨scope, b, hs, hb⟩ := contains_of_distance? hd
  cases h with
  | regular regular =>
    obtain rfl := regular.defined.getElem? hs hb
    exact .inl ⟨scope, hs, hb⟩
  | superclass named defined =>
    obtain rfl := defined.getElem? hs hb
    exact .inl ⟨scope, hs, hb⟩
  | @initializer declared expression within =>
    obtain ⟨ctx₀, value, hv, regular, below⟩ := id within
    obtain ⟨rfl, _⟩ := context_of_initializer below
    have defined := regular.defined
    cases hscopes : ctx₀.scopes with
    | nil => simp [Context.declaring, declare, hscopes] at hs
    | cons inner outer =>
      rw [hscopes] at defined
      simp only [Context.declaring, declare, hscopes] at hs
      cases d with
      | succ d =>
        obtain rfl := defined.getElem? (d := d + 1) hs hb
        exact .inl ⟨scope, by simpa [Context.declaring, declare, hscopes] using hs, hb⟩
      | zero =>
        cases hs
        by_cases he : name = declared.lexeme
        · refine .inr ⟨?_, declared, he.symm, within⟩
          simp [Context.declaring, declare, hscopes, inOwnInitializer, he]
        · rw [Bindings.get?_insert, if_neg he] at hb
          obtain rfl := defined.getElem? (d := 0) rfl hb
          refine .inl ⟨_, by simp [Context.declaring, declare, hscopes]; rfl, ?_⟩
          rw [Bindings.get?_insert, if_neg he]
          exact hb

end Scope

/-- The occurrence that a configuration is about: it is looked up in the next step, or else an
assignment to it is starting or has its value. -/
inductive Config.Uses : Config → Nat → Token → Prop where
  | var {id : Nat} {name : Token} {pending : List Pending} {σ : State} :
      Uses ⟨.evaluate (.var id name), pending, σ⟩ id name
  | thisRef {id : Nat} {keyword : Token} {pending : List Pending} {σ : State} :
      Uses ⟨.evaluate (.thisRef id keyword), pending, σ⟩ id keyword
  | superRef {id : Nat} {keyword method : Token} {pending : List Pending} {σ : State} :
      Uses ⟨.evaluate (.superRef id keyword method), pending, σ⟩ id keyword
  | assigning {id : Nat} {name : Token} {value : Expr} {pending : List Pending} {σ : State} :
      Uses ⟨.evaluate (.assign id name value), pending, σ⟩ id name
  | assigned {v : Value} {id : Nat} {name : Token} {pending : List Pending} {σ : State} :
      Uses ⟨.value v, .assignment id name :: pending, σ⟩ id name

/-- A step ends in a fault that was not there before. -/
def Config.Raises (c : Config) (f : Fault) : Prop :=
  c.step.control = .failed f ∧ ∀ f', c.control ≠ .failed f'

/-- An assignment stands within the initializer of a local variable that is named as what it
assigns to. The variable is declared in the innermost scope there, so it is what the assignment is
resolved to. -/
def AssignsToOwn (programs : List (List Stmt)) (id : Nat) (name : Token) : Prop :=
  ∃ program ∈ programs, ∃ ctx declared value assigned,
    Visits program ctx (.stmt (.varDecl declared (some value))) ∧ ctx.scopes ≠ [] ∧
      declared.lexeme = name.lexeme ∧
      Relation.ReflTransGen Scope.Enters (ctx.declaring declared, .expr value)
        (ctx.declaring declared, .expr (.assign id name assigned))

section
variable {programs : List (List Stmt)} {table : Distances} {n : Nat} {ctx : Context} {part : Part}
  {id : Nat} {name keyword : Token}

/-- A name with a distance is defined in the scope there, unless it is that of the variable whose
initializer this is. -/
theorem Recorded.found (recorded : Recorded programs table n) (visited : Visited programs ctx part)
    {name : String} {d : Nat} (hd : distance? ctx.scopes name = some d) :
    (∃ scope, ctx.scopes[d]? = some scope ∧ scope.get? name = some true) ∨
      Scope.inOwnInitializer ctx.scopes name = true ∧ ∃ program ∈ programs,
        ∃ declared : Token, declared.lexeme = name ∧ InInitializer program declared ctx part := by
  obtain ⟨program, hp, hv⟩ := visited
  rcases (hv.placed (recorded.wellFormed program hp)).found hd with h | ⟨own, declared, hn, within⟩
  · exact .inl h
  · exact .inr ⟨own, program, hp, declared, hn, within⟩

/-- `this` and `super` are defined wherever they have a distance. -/
theorem Recorded.found_keyword (recorded : Recorded programs table n)
    (visited : Visited programs ctx part) {name : String} (hn : name = thisName ∨ name = superName)
    {d : Nat} (hd : distance? ctx.scopes name = some d) :
    ∃ scope, ctx.scopes[d]? = some scope ∧ scope.get? name = some true := by
  rcases recorded.found visited hd with h | ⟨_, program, hp, declared, he, within⟩
  · exact h
  · obtain ⟨ctx₀, value, hv, _⟩ := within
    have plain := (recorded.proper ⟨program, hp, hv⟩).proper
    exact absurd he.symm (Scope.Token.Plain.ne plain hn)

/-- The name of a variable that is read is defined wherever it has a distance. -/
theorem Recorded.found_variable (recorded : Recorded programs table n)
    (visited : Visited programs ctx (.expr (.var id name))) {d : Nat}
    (hd : distance? ctx.scopes name.lexeme = some d) :
    ∃ scope, ctx.scopes[d]? = some scope ∧ scope.get? name.lexeme = some true := by
  rcases recorded.found visited hd with h | ⟨own, _⟩
  · exact h
  · have clean := recorded.faultless visited
    simp [Part.report, Scope.expr, own] at clean

/-- The name that is assigned to is defined wherever it has a distance, unless the assignment
stands within the variable's own initializer. -/
theorem Recorded.found_assigned (recorded : Recorded programs table n) {assigned : Expr}
    (visited : Visited programs ctx (.expr (.assign id name assigned))) {d : Nat}
    (hd : distance? ctx.scopes name.lexeme = some d) :
    (∃ scope, ctx.scopes[d]? = some scope ∧ scope.get? name.lexeme = some true) ∨
      AssignsToOwn programs id name := by
  rcases recorded.found visited hd with h | ⟨own, program, hp, declared, hn, within⟩
  · exact .inl h
  · obtain ⟨ctx₀, value, hv, regular, below⟩ := within
    obtain ⟨rfl, _⟩ := Scope.context_of_initializer below
    refine .inr ⟨program, hp, ctx₀, declared, value, assigned, hv, fun hs => ?_, hn, below⟩
    simp [Context.declaring, Scope.declare, hs, Scope.inOwnInitializer] at own

/-- Where `super` is written it has a distance, and `this` stands in the scope just within. -/
theorem Recorded.receives (recorded : Recorded programs table n) {method : Token}
    (visited : Visited programs ctx (.expr (.superRef id keyword method))) :
    ctx.enclosingClass = some .derived ∧ ∃ d, distance? ctx.scopes thisName = some d ∧
      distance? ctx.scopes superName = some (d + 1) := by
  have derived : ctx.enclosingClass = some .derived := by
    have clean := recorded.faultless visited
    simp only [Part.report, Scope.expr] at clean
    split at clean
    · cases clean
    · cases clean
    · next h => exact h
  have receives : ctx.Receives := by
    obtain ⟨program, hp, hv⟩ := visited
    cases hv.placed (recorded.wellFormed program hp) with
    | regular regular => exact regular.receives
    | superclass named => cases named
    | @initializer declared expression within =>
      obtain ⟨ctx₀, value, declaration, regular, below⟩ := within
      obtain ⟨rfl, _⟩ := Scope.context_of_initializer below
      have plain := (recorded.proper ⟨program, hp, declaration⟩).proper
      exact regular.receives.of_same rfl fun _ hn =>
        Scope.distance?_declare _ _ (Scope.Token.Plain.ne plain hn)
  unfold Context.Receives at receives
  rw [derived] at receives
  exact ⟨derived, receives⟩

theorem Recorded.own_this (recorded : Recorded programs table n)
    (visited : Visited programs ctx (.expr (.thisRef id keyword))) :
    (Part.expr (.thisRef id keyword)).own ctx =
      [⟨id, keyword.lexeme, distance? ctx.scopes keyword.lexeme⟩] := by
  have clean := recorded.faultless visited
  simp only [Part.report, Scope.expr] at clean
  split at clean
  · cases clean
  · next hc => simp [Part.own, hc, Scope.occurrence]

theorem Recorded.own_super (recorded : Recorded programs table n) {method : Token}
    (visited : Visited programs ctx (.expr (.superRef id keyword method))) :
    (Part.expr (.superRef id keyword method)).own ctx =
      [⟨id, keyword.lexeme, distance? ctx.scopes keyword.lexeme⟩] := by
  simp [Part.own, (recorded.receives visited).1, Scope.occurrence]

/-- The table has the distance of an occurrence. -/
theorem Recorded.distance_own (recorded : Recorded programs table n)
    (visited : Visited programs ctx part)
    (own : part.own ctx = [⟨id, name.lexeme, distance? ctx.scopes name.lexeme⟩]) :
    table[id]? = distance? ctx.scopes name.lexeme :=
  recorded.distance visited (by rw [own]; exact List.mem_singleton_self _)

end

/-! ## Occurrences of a run -/

/-- An occurrence was met by the walk over a program, in scopes that the environment in use
mirrors; the table has its distance, and there the name is bound. -/
def Config.Agrees (programs : List (List Stmt)) (c : Config) (id : Nat) (name : Token) : Prop :=
  ∃ ctx part, Visited programs ctx part ∧
    part.own ctx = [⟨id, name.lexeme, distance? ctx.scopes name.lexeme⟩] ∧
    c.state.store.Mirrors c.state.current ctx.scopes ∧
    c.state.distances[id]? = distance? ctx.scopes name.lexeme ∧
    ∀ d, c.state.distances[id]? = some d →
      (∃ v, c.state.store.lookupAt? c.state.current d name.lexeme = some v) ∨
        AssignsToOwn programs id name

section
variable {programs : List (List Stmt)} {n : Nat}

theorem agrees_intro {c : Config} {ctx : Context} {part : Part} {id : Nat} {name : Token}
    (recorded : Recorded programs c.state.distances n) (visited : Visited programs ctx part)
    (own : part.own ctx = [⟨id, name.lexeme, distance? ctx.scopes name.lexeme⟩])
    (mirrors : c.state.store.Mirrors c.state.current ctx.scopes)
    (found : ∀ d, distance? ctx.scopes name.lexeme = some d →
      (∃ scope, ctx.scopes[d]? = some scope ∧ scope.get? name.lexeme = some true) ∨
        AssignsToOwn programs id name) : c.Agrees programs id name := by
  have distance := recorded.distance_own visited own
  refine ⟨ctx, part, visited, own, mirrors, distance, fun d hd => ?_⟩
  rw [distance] at hd
  rcases found d hd with ⟨scope, hs, hn⟩ | h
  · obtain ⟨v, hv, _⟩ := mirrors.lookup hs hn
    exact .inl ⟨v, hv⟩
  · exact .inr h

/-- Every occurrence that a scoped configuration is about. -/
theorem Config.Scoped.agrees {c : Config} (h : c.Scoped programs)
    (recorded : Recorded programs c.state.distances n) {id : Nat} {name : Token}
    (uses : c.Uses id name) : c.Agrees programs id name := by
  cases uses with
  | var =>
    cases h with
    | evaluate visited ready =>
      exact agrees_intro recorded visited rfl ready.active.mirrors fun d hd =>
        .inl (recorded.found_variable visited hd)
  | thisRef =>
    cases h with
    | evaluate visited ready =>
      have spelled := (recorded.proper visited).proper
      exact agrees_intro recorded visited (recorded.own_this visited) ready.active.mirrors
        fun d hd => .inl (recorded.found_keyword visited (.inl spelled) hd)
  | superRef =>
    cases h with
    | evaluate visited ready =>
      have spelled := (recorded.proper visited).proper
      exact agrees_intro recorded visited (recorded.own_super visited) ready.active.mirrors
        fun d hd => .inl (recorded.found_keyword visited (.inr spelled) hd)
  | assigning =>
    cases h with
    | evaluate visited ready =>
      exact agrees_intro recorded visited rfl ready.active.mirrors fun d hd =>
        recorded.found_assigned visited hd
  | assigned =>
    cases h with
    | value ready =>
      obtain ⟨_, active, waits⟩ := ready
      cases waits with
      | assignment visited _ =>
        exact agrees_intro recorded visited rfl active.mirrors fun d hd =>
          recorded.found_assigned visited hd

end

/-! ## What is reported as unresolved -/

section
variable {x : String} {line : Nat} {σ : State} {pending : List Pending}

theorem lookup_unresolved {id : Nat} {name : Token}
    (h : σ.lookup id name = .error (.runtime (.unresolvedVariable x) line)) :
    ∃ d, σ.distances[id]? = some d ∧ σ.store.lookupAt? σ.current d name.lexeme = none := by
  unfold State.lookup at h
  split at h
  · next d hd =>
    unfold Store.getAt at h
    split at h
    · cases h
    · next hl => exact ⟨d, hd, hl⟩
  · unfold Store.get at h
    split at h <;> cases h

theorem assign_unresolved {id : Nat} {name : Token} {v : Value}
    (h : (assign id name v pending σ).control = .failed (.runtime (.unresolvedVariable x) line)) :
    ∃ d, σ.distances[id]? = some d ∧ σ.store.lookupAt? σ.current d name.lexeme = none ∧
      name.lexeme = x ∧ name.line = line := by
  unfold assign at h
  split at h
  · next d hd =>
    unfold Store.assignAt at h
    split at h
    · cases h
    · next f hf =>
      split at hf
      · cases hf
      · next hn =>
        cases hf
        cases h
        refine ⟨d, hd, ?_, rfl, rfl⟩
        rw [Store.lookupAt?]
        cases ha : σ.store.ancestor? σ.current d with
        | none => rfl
        | some a =>
          rw [ha, Option.filter_some] at hn
          split at hn
          · cases hn
          · next hb => exact Option.not_isSome_iff_eq_none.mp hb
  · unfold Store.assign at h
    split at h
    · cases h
    · next f hf =>
      split at hf
      · cases hf
      · cases hf
        cases h

/-- An assignment to a name that is not bound at its distance is reported. -/
theorem assign_of_unbound {id d : Nat} {name : Token} (v : Value)
    (hd : σ.distances[id]? = some d) (hn : σ.store.lookupAt? σ.current d name.lexeme = none) :
    assign id name v pending σ = ⟨.failed (Store.unresolved name), pending, σ⟩ := by
  have none_bound : ((σ.store.ancestor? σ.current d).filter fun a =>
      (σ.store.local? a name.lexeme).isSome) = none := by
    rw [Store.lookupAt?] at hn
    cases ha : σ.store.ancestor? σ.current d with
    | none => rfl
    | some a =>
      rw [ha] at hn
      rw [Option.filter_some, if_neg]
      exact Option.not_isSome_iff_eq_none.mpr hn
  simp only [assign, hd, Store.assignAt, none_bound]

theorem finishClass_resolved (name : Token) (parent : Option ClassId)
    (methods : List FunctionDecl) (environment : EnvironmentId) :
    (finishClass name parent methods environment pending σ).control ≠
      .failed (.runtime (.unresolvedVariable x) line) := by
  unfold finishClass Store.assign
  simp only
  split
  · nofun
  · next f hf =>
    split at hf
    · cases hf
    · cases hf
      nofun

theorem declareClass_resolved (name : Token) (parent : Option ClassId)
    (methods : List FunctionDecl) :
    (declareClass name parent methods pending σ).control ≠
      .failed (.runtime (.unresolvedVariable x) line) := by
  cases parent <;> exact finishClass_resolved _ _ _ _

theorem call_resolved (callee : Value) (paren : Token) (arguments : List Value) :
    (call callee paren arguments pending σ).control ≠
      .failed (.runtime (.unresolvedVariable x) line) := by
  unfold call apply construct enterBody Control.fault
  (repeat' split) <;> rintro ⟨⟩

theorem nextArgument_resolved (callee : Value) (paren : Token) (before : List Value)
    (after : List Expr) :
    (nextArgument callee paren before after pending σ).control ≠
      .failed (.runtime (.unresolvedVariable x) line) := by
  cases after with
  | nil => exact call_resolved _ _ _
  | cons e rest => nofun

theorem property_resolved (object : Value) (name : Token) :
    (property object name pending σ).control ≠
      .failed (.runtime (.unresolvedVariable x) line) := by
  unfold property Control.fault
  (repeat' split) <;> rintro ⟨⟩

theorem binary_resolved (operator : Token) (left right : Value) :
    binary operator left right ≠ .failed (.runtime (.unresolvedVariable x) line) := by
  unfold binary Control.fault
  (repeat' split) <;> nofun

theorem unary_resolved (operator : Token) (right : Value) :
    unary operator right ≠ .failed (.runtime (.unresolvedVariable x) line) := by
  unfold unary Control.fault
  (repeat' split) <;> nofun

/-- A value is given back with this fault by nothing but an assignment. -/
theorem resume_unresolved {v : Value} {first : Pending}
    (h : (resume v first pending σ).control = .failed (.runtime (.unresolvedVariable x) line)) :
    ∃ id name, first = .assignment id name := by
  cases first with
  | assignment id name => exact ⟨id, name, rfl⟩
  | callee paren arguments => exact absurd h (nextArgument_resolved _ _ _ _)
  | argument callee paren before after => exact absurd h (nextArgument_resolved _ _ _ _)
  | property name => exact absurd h (property_resolved _ _)
  | operation left operator => exact absurd h (binary_resolved _ _ _)
  | negation operator => exact absurd h (unary_resolved _ _)
  | superclass name expression methods =>
    cases v with
    | classRef c => exact absurd h (declareClass_resolved _ _ _)
    | _ => cases h
  | target name value => cases v <;> cases h
  | printing =>
    simp only [resume, print] at h
    split at h <;> cases h
  | decision | branch | loopTest =>
    simp only [resume] at h
    (repeat' split at h) <;> cases h
  | _ => cases h

theorem execute_resolved (s : Stmt) :
    (execute s pending σ).control ≠ .failed (.runtime (.unresolvedVariable x) line) := by
  cases s with
  | classDecl name parent methods =>
    cases parent with
    | none => exact declareClass_resolved _ _ _
    | some e => nofun
  | returnWith keyword value => cases value <;> nofun
  | varDecl name value => cases value <;> nofun
  | _ => nofun

theorem proceed_resolved (c : Completion) (first : Pending) (f : Fault) :
    (proceed c first pending σ).control ≠ .failed f := by
  unfold proceed
  (repeat' split) <;> nofun

end

section
variable {programs : List (List Stmt)} {n : Nat} {σ : State} {pending : List Pending}
  {ctx : Context} {id : Nat} {keyword : Token}

/-- A name that is defined in the scope at its distance is looked up there. -/
theorem lookup_resolved {part : Part} {name : Token} {x : String} {line : Nat}
    (recorded : Recorded programs σ.distances n) (visited : Visited programs ctx part)
    (own : part.own ctx = [⟨id, name.lexeme, distance? ctx.scopes name.lexeme⟩])
    (mirrors : σ.store.Mirrors σ.current ctx.scopes)
    (found : ∀ d, distance? ctx.scopes name.lexeme = some d →
      ∃ scope, ctx.scopes[d]? = some scope ∧ scope.get? name.lexeme = some true) :
    σ.lookup id name ≠ .error (.runtime (.unresolvedVariable x) line) := by
  intro h
  obtain ⟨d, hd, hl⟩ := lookup_unresolved h
  have distance := recorded.distance_own visited own
  rw [hd] at distance
  obtain ⟨scope, hs, hn⟩ := found d distance.symm
  obtain ⟨v, hv, _⟩ := mirrors.lookup hs hn
  rw [hl] at hv
  cases hv

theorem superParts_of_lookup {d : Nat} {k : ClassId} {i : InstanceId}
    (distance : σ.distances[id]? = some (d + 1)) (spelled : keyword.lexeme = superName)
    (this : σ.store.lookupAt? σ.current d thisName = some (.instanceRef i))
    (super : σ.store.lookupAt? σ.current (d + 1) superName = some (.classRef k)) :
    superParts σ id keyword = .ok (k, i) := by
  simp [superParts, distance, Store.getAt, spelled, this, super]

/-- A `super` finds its class and its receiver. -/
theorem superParts_resolved {method : Token} (recorded : Recorded programs σ.distances n)
    (visited : Visited programs ctx (.expr (.superRef id keyword method)))
    (mirrors : σ.store.Mirrors σ.current ctx.scopes) :
    ∃ parts, superParts σ id keyword = .ok parts := by
  obtain ⟨_, d, hthis, hsuper⟩ := recorded.receives visited
  have spelled : keyword.lexeme = superName := (recorded.proper visited).proper
  have distance := recorded.distance_own visited (recorded.own_super visited)
  obtain ⟨scope, hs, hn⟩ := recorded.found_keyword visited (.inr rfl) hsuper
  obtain ⟨scope', hs', hn'⟩ := recorded.found_keyword visited (.inl rfl) hthis
  obtain ⟨v, hv, fits⟩ := mirrors.lookup hs hn
  obtain ⟨w, hw, fits'⟩ := mirrors.lookup hs' hn'
  obtain ⟨c, rfl⟩ := fits.2 rfl
  obtain ⟨i, rfl⟩ := fits'.1 rfl
  rw [spelled, hsuper] at distance
  exact ⟨(c, i), superParts_of_lookup distance spelled hw hv⟩

theorem evaluate_resolved {e : Expr} {x : String} {line : Nat}
    (recorded : Recorded programs σ.distances n) (visited : Visited programs ctx (.expr e))
    (mirrors : σ.store.Mirrors σ.current ctx.scopes) :
    (evaluate e pending σ).control ≠ .failed (.runtime (.unresolvedVariable x) line) := by
  intro h
  have failing {r : Except Fault Value}
      (h : Control.ofExcept r = .failed (.runtime (.unresolvedVariable x) line)) :
      r = .error (.runtime (.unresolvedVariable x) line) := by
    cases r <;> cases h
    rfl
  cases e with
  | var id name =>
    exact lookup_resolved recorded visited rfl mirrors
      (fun d hd => recorded.found_variable visited hd) (failing h)
  | thisRef id keyword =>
    have spelled := (recorded.proper visited).proper
    exact lookup_resolved recorded visited (recorded.own_this visited) mirrors
      (fun d hd => recorded.found_keyword visited (.inl spelled) hd) (failing h)
  | superRef id keyword method =>
    obtain ⟨parts, hp⟩ := superParts_resolved recorded visited mirrors
    simp only [evaluate, superMethod, hp] at h
    split at h <;> cases h
  | _ => cases h

/-- An assignment within its variable's own initializer finds the name not yet bound. -/
theorem AssignsToOwn.unbound {scopes : Scopes} {name : Token} (own : AssignsToOwn programs id name)
    (recorded : Recorded programs σ.distances n)
    (h : Ready programs σ scopes (.assignment id name :: pending)) :
    σ.distances[id]? = some 0 ∧ σ.store.lookupAt? σ.current 0 name.lexeme = none := by
  obtain ⟨program, hp, ctx, declared, value, assigned, hv, hne, hn, below⟩ := own
  have visited : Visited programs (ctx.declaring declared) (.expr (.assign id name assigned)) :=
    ⟨program, hp, (hv.enter (by simp [Part.children])).trans below⟩
  obtain ⟨_, active, waits⟩ := h
  cases waits with
  | assignment visited' _ =>
    -- Numbers are used once, so the assignment that waits stands in the same scopes.
    obtain ⟨rfl, _⟩ := recorded.unique visited' visited (List.mem_singleton_self _)
      (List.mem_singleton_self _) rfl
    have distance := recorded.distance_own visited rfl
    obtain ⟨scope, outer, hs⟩ := List.exists_cons_of_ne_nil hne
    have inner : (ctx.declaring declared).scopes = scope.insert declared.lexeme false :: outer := by
      simp only [Context.declaring, Scope.declare, hs]
    rw [inner] at active
    refine ⟨?_, ?_⟩
    · rw [distance, inner, Scope.distance?_cons, hn]
      simp [Scope.contains_insert]
    · obtain ⟨mirrors, exact⟩ := active
      have here : σ.store.ancestor? σ.current 0 = some σ.current := if_pos mirrors.lt_size
      rw [Store.lookupAt?, here]
      cases hl : σ.store.local? σ.current name.lexeme with
      | none => exact hl
      | some v =>
        have defined := exact name.lexeme v hl
        rw [Bindings.get?_insert, if_pos hn.symm] at defined
        cases defined

/-- What is reported as unresolved, and when. -/
theorem Config.Scoped.raises_unresolved {c : Config} (h : c.Scoped programs)
    (recorded : Recorded programs c.state.distances n) {x : String} {line : Nat} :
    c.Raises (.runtime (.unresolvedVariable x) line) ↔
      ∃ id name v pending, c.control = .value v ∧ c.pending = .assignment id name :: pending ∧
        name.lexeme = x ∧ name.line = line ∧ AssignsToOwn programs id name := by
  constructor
  · rintro ⟨hstep, hnew⟩
    cases h with
    | evaluate visited ready =>
      exact absurd hstep (evaluate_resolved recorded visited ready.active.mirrors)
    | execute => exact absurd hstep (execute_resolved _)
    | @value _ pending v σ ready =>
      cases pending with
      | nil => cases hstep
      | cons first pending =>
        obtain ⟨id, name, rfl⟩ := resume_unresolved hstep
        obtain ⟨d, hd, hl, hx, hline⟩ := assign_unresolved hstep
        refine ⟨id, name, v, pending, rfl, rfl, hx, hline, ?_⟩
        obtain ⟨_, active, waits⟩ := ready
        cases waits with
        | assignment visited _ =>
          have distance := recorded.distance_own visited rfl
          rcases recorded.found_assigned visited (distance.symm.trans hd) with ⟨scope, hs, hn⟩ | own
          · obtain ⟨w, hw, _⟩ := active.mirrors.lookup hs hn
            rw [hl] at hw
            cases hw
          · exact own
    | @completed _ pending completion σ ready =>
      cases pending with
      | nil => cases hstep
      | cons first pending => exact absurd hstep (proceed_resolved _ _ _)
    | failed => exact absurd rfl (hnew _)
  · rintro ⟨id, name, v, pending, hv, hp, rfl, rfl, own⟩
    obtain ⟨control, waiting, σ⟩ := c
    obtain rfl : control = .value v := hv
    obtain rfl : waiting = .assignment id name :: pending := hp
    cases h with
    | value ready =>
      obtain ⟨hd, hl⟩ := own.unbound recorded ready
      have hstep : Config.step ⟨.value v, .assignment id name :: pending, σ⟩ = _ :=
        assign_of_unbound v hd hl
      exact ⟨congrArg Config.control hstep, fun f hf => by cases hf⟩

end

/-- At every moment of a run of a program that a session accepts, each occurrence finds
environments that mirror its scopes, and unresolved names come from assignments to a variable
within its own initializer and from nothing else. -/
theorem scopes_agree {programs : List (List Stmt)} {s s' : Session} {source : String}
    {program : List Stmt} (reached : Session.Reached programs s)
    (load : s.load source = (s', .ok program)) (k : Nat) {c : Config}
    (moment : (s'.state.interpreting program).run k = c) :
    (∀ id name, c.Uses id name → c.Agrees (program :: programs) id name) ∧
      ∀ x line, c.Raises (.runtime (.unresolvedVariable x) line) ↔
        ∃ id name v pending, c.control = .value v ∧
          c.pending = .assignment id name :: pending ∧ name.lexeme = x ∧ name.line = line ∧
            AssignsToOwn (program :: programs) id name := by
  have accepted := reached.scoped.accept load
  have running := accepted.running k
  have recorded : Recorded (program :: programs) c.state.distances s'.nextId := by
    rw [← moment, Config.distances_run]
    exact accepted.recorded
  rw [moment] at running
  exact ⟨fun id name uses => running.agrees recorded uses,
    fun x line => running.raises_unresolved recorded⟩

/-- A local variable that its own initializer assigns to. -/
def assignedEarly : List Stmt :=
  [.block [.varDecl ⟨.identifier, "a", 1⟩
    (some (.assign 1 ⟨.identifier, "a", 1⟩ (.literal .nil)))]]

theorem assignedEarly_unresolved :
    ∃ s', (Session.initial .unlimited fun _ => 0).load "\x7b var a = a = nil; \x7d" =
        (s', .ok assignedEarly) ∧
      ((s'.state.interpreting assignedEarly).run 6).Raises
        (.runtime (.unresolvedVariable "a") 1) := by
  let σ := (State.initial .unlimited fun _ => 0).record (resolve assignedEarly).occurrences
  have load : (Session.initial .unlimited fun _ => 0).load "\x7b var a = a = nil; \x7d" =
      (⟨σ, 2⟩, .ok assignedEarly) := by
    cbv
  have control : ((σ.interpreting assignedEarly).run 6).control = .value .nil := by cbv
  have waiting : ((σ.interpreting assignedEarly).run 6).pending =
      [.assignment 1 ⟨.identifier, "a", 1⟩, .definition ⟨.identifier, "a", 1⟩, .sequence [],
        .restoration State.globals, .program []] := by
    cbv
  have own : AssignsToOwn [assignedEarly] 1 ⟨.identifier, "a", 1⟩ := by
    have block : Visits assignedEarly ⟨[.empty], none, none⟩ (.stmts [.varDecl _ _]) :=
      ((Visits.program assignedEarly).enter (List.mem_cons_self ..)).enter (List.mem_cons_self ..)
    exact ⟨assignedEarly, List.mem_cons_self, _, _, _, _, block.enter (List.mem_cons_self ..),
      List.cons_ne_nil _ _, rfl, .refl⟩
  exact ⟨_, load, ((scopes_agree (.initial _ _) load 6 rfl).2 "a" 1).mpr
    ⟨1, ⟨.identifier, "a", 1⟩, .nil, _, control, waiting, rfl, rfl, own⟩⟩

end Lox
