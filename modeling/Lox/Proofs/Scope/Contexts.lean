import Lox.Proofs.Scope.WellFormed

/-!
# The scopes at a visited part

At a statement every name in scope is defined. At an expression all names are as well, but for
one: within the initializer of a local variable the innermost scope has the variable's name as
not yet defined. Wherever `this` may stand a scope has it, and where `super` may stand the next
one outwards has `super`.
-/
namespace Lox.Scope

/-! ## Operations on scopes -/

/-- No name is waiting for the end of its initializer. -/
def Defined (scopes : Scopes) : Prop :=
  ∀ scope ∈ scopes, ∀ name b, scope.get? name = some b → b = true

theorem defined_nil : Defined [] := nofun

theorem Defined.cons {scope : Bindings Bool} {scopes : Scopes} (h : Defined scopes)
    (hs : ∀ name b, scope.get? name = some b → b = true) : Defined (scope :: scopes) :=
  List.forall_mem_cons.mpr ⟨hs, h⟩

theorem Defined.empty_cons {scopes : Scopes} (h : Defined scopes) : Defined (.empty :: scopes) :=
  h.cons nofun

theorem get?_implicit (name other : String) :
    (implicit name).get? other = if other = name then some true else none := by
  rw [implicit, Bindings.get?_insert, Bindings.get?_empty]

theorem Defined.implicit_cons {scopes : Scopes} (h : Defined scopes) (name : String) :
    Defined (implicit name :: scopes) := by
  refine h.cons fun other b hb => ?_
  rw [get?_implicit] at hb
  split at hb
  · exact (Option.some.inj hb).symm
  · cases hb

section
variable {scope : Bindings Bool} {scopes : Scopes} {name : Token}

@[simp] theorem introduce_nil (name : Token) : (introduce [] name).1 = [] := rfl

@[simp] theorem introduce_cons (scope : Bindings Bool) (scopes : Scopes) (name : Token) :
    (introduce (scope :: scopes) name).1 =
      (scope.insert name.lexeme false).insert name.lexeme true :: scopes := rfl

theorem get?_introduced (scope : Bindings Bool) (name other : String) :
    ((scope.insert name false).insert name true).get? other =
      if other = name then some true else scope.get? other := by
  rw [Bindings.get?_insert, Bindings.get?_insert]
  split <;> rfl

theorem Defined.introduce (h : Defined scopes) (name : Token) :
    Defined (introduce scopes name).1 := by
  cases scopes with
  | nil => exact defined_nil
  | cons scope scopes =>
    have hs := List.forall_mem_cons.mp h
    refine Defined.cons hs.2 fun other b hb => ?_
    rw [get?_introduced] at hb
    split at hb
    · exact (Option.some.inj hb).symm
    · exact hs.1 other b hb

theorem Defined.introduceAll (h : Defined scopes) (names : List Token) :
    Defined (introduceAll scopes names).1 := by
  induction names generalizing scopes with
  | nil => exact h
  | cons name names ih => exact ih (h.introduce name)

end

/-- The scope of a function's body has its parameters as defined, and no other name. -/
theorem introduceAll_cons (scope : Bindings Bool) (scopes : Scopes) (params : List Token) :
    ∃ scope', (introduceAll (scope :: scopes) params).1 = scope' :: scopes ∧
      ∀ name, scope'.get? name = some true ↔
        scope.get? name = some true ∨ ∃ param ∈ params, param.lexeme = name := by
  induction params generalizing scope with
  | nil => exact ⟨scope, rfl, by simp⟩
  | cons param params ih =>
    obtain ⟨scope', hs, hn⟩ := ih ((scope.insert param.lexeme false).insert param.lexeme true)
    refine ⟨scope', hs, fun name => ?_⟩
    rw [hn, get?_introduced]
    by_cases h : name = param.lexeme
    · simp [h]
    · simp [h, Ne.symm h]

/-- What a statement enters into the innermost scope, if anything. -/
theorem scopes_after {s : Stmt} (h : (Part.stmt s).WellFormed Plain) (ctx : Context) :
    (stmt ctx s).1 = ctx.scopes ∨
      ∃ name : Token, name.Plain ∧ (stmt ctx s).1 = (introduce ctx.scopes name).1 := by
  cases hd : s.declares with
  | false => exact .inl (scopes_of_not_declares h hd ctx)
  | true =>
    have proper := h.proper
    cases s with
    | classDecl name parent methods => exact .inr ⟨name, proper.1, by rw [stmt]⟩
    | functionDecl decl => exact .inr ⟨decl.name, proper, by rw [stmt]⟩
    | varDecl name value => exact .inr ⟨name, proper, by rw [stmt]; rfl⟩
    | _ => cases hd

/-- A statement outside of all scopes declares a global name, which no scope has. -/
theorem Context.after_top {ctx : Context} {s : Stmt} (h : (Part.stmt s).WellFormed Plain)
    (top : ctx.scopes = []) : ctx.after s = ctx := by
  have kept : (stmt ctx s).1 = ctx.scopes := by
    rcases scopes_after h ctx with same | ⟨name, _, introduced⟩
    · exact same
    · rw [introduced, top, introduce_nil]
  rw [Context.after, kept]

/-- The name that a statement declares, if it declares one. -/
def declared? : Stmt → Option Token
  | .classDecl name _ _ => some name
  | .functionDecl decl => some decl.name
  | .varDecl name _ => some name
  | _ => none

theorem after_of_declared? {ctx : Context} {s : Stmt} {name : Token} (h : declared? s = some name) :
    ctx.after s = ctx.introducing name := by
  cases s with
  | classDecl | functionDecl =>
    cases h
    rw [Context.after, Context.introducing, stmt]
  | varDecl =>
    cases h
    rw [Context.after, Context.introducing, stmt]
    rfl
  | _ => cases h

/-- A declaration without a fault declares a name that is new to its scope. -/
theorem clean_of_declared? {ctx : Context} {s : Stmt} {name : Token} (h : declared? s = some name)
    (clean : ((Part.stmt s).report ctx).faults = []) : (declare ctx.scopes name).2.faults = [] := by
  cases s with
  | classDecl | functionDecl | varDecl =>
    cases h
    simp only [Part.report, stmt, Report.faults_append, List.append_eq_nil_iff] at clean
    first | exact clean.1.1 | exact clean.1
  | _ => cases h

/-! ## Distances -/

section
variable {scope : Bindings Bool} {scopes : Scopes} {name : String}

theorem distance?_cons (scope : Bindings Bool) (scopes : Scopes) (name : String) :
    distance? (scope :: scopes) name =
      if scope.contains name then some 0 else (distance? scopes name).map (· + 1) :=
  List.findIdx?_cons

theorem contains_insert (scope : Bindings Bool) (name other : String) (b : Bool) :
    (scope.insert name b).contains other = (other = name || scope.contains other) := by
  rw [Bindings.contains, Bindings.get?_insert]
  by_cases h : other = name <;> simp [h, Bindings.contains]

/-- Declaring a name leaves the distances of others as they are. -/
theorem distance?_declare (scopes : Scopes) (name : Token) {other : String}
    (h : other ≠ name.lexeme) : distance? (declare scopes name).1 other = distance? scopes other := by
  cases scopes with
  | nil => rfl
  | cons scope scopes => simp [declare, distance?_cons, contains_insert, h]

theorem distance?_introduce (scopes : Scopes) (name : Token) {other : String}
    (h : other ≠ name.lexeme) :
    distance? (introduce scopes name).1 other = distance? scopes other := by
  cases scopes with
  | nil => rfl
  | cons scope scopes => simp [distance?_cons, contains_insert, h]

theorem distance?_introduceAll (scopes : Scopes) (names : List Token) {other : String}
    (h : ∀ name ∈ names, other ≠ name.lexeme) :
    distance? (introduceAll scopes names).1 other = distance? scopes other := by
  induction names generalizing scopes with
  | nil => rfl
  | cons name names ih =>
    rw [List.forall_mem_cons] at h
    exact (ih _ h.2).trans (distance?_introduce scopes name h.1)

end

/-- Where `this` may stand it has a distance, and so has `super`, one link further out. -/
def Context.Receives (ctx : Context) : Prop :=
  match ctx.enclosingClass with
  | none => True
  | some .base => ∃ d, distance? ctx.scopes thisName = some d
  | some .derived =>
    ∃ d, distance? ctx.scopes thisName = some d ∧ distance? ctx.scopes superName = some (d + 1)

/-- Names in scope are defined, and `this` and `super` have the distances they need. -/
structure Context.Regular (ctx : Context) : Prop where
  defined : Defined ctx.scopes
  receives : ctx.Receives

theorem Context.Receives.of_same {ctx ctx' : Context} (h : ctx.Receives)
    (hc : ctx'.enclosingClass = ctx.enclosingClass)
    (hd : ∀ name, name = thisName ∨ name = superName →
      distance? ctx'.scopes name = distance? ctx.scopes name) : ctx'.Receives := by
  unfold Receives at h ⊢
  rw [hc, hd _ (.inl rfl), hd _ (.inr rfl)]
  exact h

theorem Context.Receives.of_deeper {ctx ctx' : Context} (h : ctx.Receives)
    (hc : ctx'.enclosingClass = ctx.enclosingClass)
    (hd : ∀ name, name = thisName ∨ name = superName →
      distance? ctx'.scopes name = (distance? ctx.scopes name).map (· + 1)) : ctx'.Receives := by
  unfold Receives at h ⊢
  rw [hc, hd _ (.inl rfl), hd _ (.inr rfl)]
  split
  · trivial
  · next he =>
    rw [he] at h
    obtain ⟨d, h⟩ := h
    exact ⟨d + 1, by rw [h]; rfl⟩
  · next he =>
    rw [he] at h
    obtain ⟨d, h, h'⟩ := h
    exact ⟨d + 1, by rw [h]; rfl, by rw [h']; rfl⟩

theorem Token.Plain.ne {name : Token} (h : name.Plain) {other : String}
    (ho : other = thisName ∨ other = superName) : other ≠ name.lexeme := by
  rcases ho with rfl | rfl
  · exact (h .thisWord).symm
  · exact (h .superWord).symm

namespace Context.Receives

variable {ctx : Context}

theorem introducing (h : ctx.Receives) {name : Token} (plain : name.Plain) :
    (ctx.introducing name).Receives :=
  h.of_same rfl fun _ ho => distance?_introduce _ _ (Token.Plain.ne plain ho)

theorem after (h : ctx.Receives) {s : Stmt} (hs : (Part.stmt s).WellFormed Plain) :
    (ctx.after s).Receives := by
  rcases scopes_after hs ctx with he | ⟨name, plain, he⟩
  · rw [Context.after, he]
    exact h
  · rw [Context.after, he]
    exact h.introducing plain

theorem declaring (h : ctx.Receives) {name : Token} (plain : name.Plain) :
    (ctx.declaring name).Receives :=
  h.of_same rfl fun _ ho => distance?_declare _ _ (Token.Plain.ne plain ho)

theorem block (h : ctx.Receives) : Receives { ctx with scopes := .empty :: ctx.scopes } :=
  h.of_deeper rfl fun _ _ => distance?_cons _ _ _

theorem inside (h : ctx.Receives) (kind : FunctionKind) {params : List Token}
    (plain : ∀ name ∈ params, name.Plain) : (ctx.inside kind params).Receives :=
  h.of_deeper rfl fun _ hn =>
    (distance?_introduceAll _ _ fun param hp => Token.Plain.ne (plain param hp) hn).trans
      (distance?_cons _ _ _)

theorem classBody (ctx : Context) (derived : Bool) : (classBody ctx derived).Receives := by
  cases derived with
  | false => exact ⟨0, rfl⟩
  | true => exact ⟨0, rfl, rfl⟩

end Context.Receives

namespace Context.Regular

variable {ctx : Context}

theorem top : Context.top.Regular := ⟨defined_nil, trivial⟩

theorem introducing (h : ctx.Regular) {name : Token} (plain : name.Plain) :
    (ctx.introducing name).Regular :=
  ⟨h.defined.introduce name, h.receives.introducing plain⟩

theorem after (h : ctx.Regular) {s : Stmt} (hs : (Part.stmt s).WellFormed Plain) :
    (ctx.after s).Regular := by
  rcases scopes_after hs ctx with he | ⟨name, plain, he⟩
  · rw [Context.after, he]
    exact h
  · rw [Context.after, he]
    exact h.introducing plain

theorem block (h : ctx.Regular) : Regular { ctx with scopes := .empty :: ctx.scopes } :=
  ⟨h.defined.empty_cons, h.receives.block⟩

theorem inside (h : ctx.Regular) (kind : FunctionKind) {params : List Token}
    (plain : ∀ name ∈ params, name.Plain) : (ctx.inside kind params).Regular :=
  ⟨h.defined.empty_cons.introduceAll params, h.receives.inside kind plain⟩

theorem classBody (h : ctx.Regular) (derived : Bool) : (classBody ctx derived).Regular := by
  refine ⟨?_, .classBody ctx derived⟩
  cases derived with
  | false => exact h.defined.implicit_cons _
  | true => exact (h.defined.implicit_cons _).implicit_cons _

end Context.Regular

/-! ## Contexts along the walk -/

def Part.isExpression : Part → Bool
  | .expr _ => true
  | .exprs _ => true
  | _ => false

/-- Below an expression there are expressions in the same context. -/
theorem children_of_isExpression {ctx : Context} {part : Part} (h : part.isExpression = true) :
    ∀ c ∈ part.children ctx, c.1 = ctx ∧ c.2.isExpression = true := by
  cases part with
  | expr e => cases e <;> simp [Part.children, Part.isExpression]
  | exprs es => cases es <;> simp [Part.children, Part.isExpression]
  | _ => cases h

/-- A part of the initializer of a variable, in the context of that initializer. -/
def InInitializer (program : List Stmt) (name : Token) (ctx : Context) (part : Part) : Prop :=
  ∃ ctx₀ value, Visits program ctx₀ (.stmt (.varDecl name (some value))) ∧ ctx₀.Regular ∧
    Relation.ReflTransGen Enters (ctx₀.declaring name, .expr value) (ctx, part)

/-- Where in a program a part may stand. -/
inductive Placed (program : List Stmt) (ctx : Context) (part : Part) : Prop where
  | regular (regular : ctx.Regular)
  | initializer {name : Token} (expression : part.isExpression = true)
      (within : InInitializer program name ctx part)
  | superclass {id : Nat} {name : Token} (named : part = .expr (.var id name))
      (defined : Defined ctx.scopes)

/-- The parts right below one that stands in a regular context. -/
theorem placed_child {program : List Stmt} {ctx : Context} {part : Part} {c : Context × Part}
    (h : ctx.Regular) (wf : part.WellFormed Plain) (hv : Visits program ctx part)
    (hc : c ∈ part.children ctx) : Placed program c.1 c.2 := by
  have proper := wf.proper
  cases part with
  | expr | exprs =>
    have he := (children_of_isExpression rfl c hc).1
    exact .regular (he ▸ h)
  | stmt s =>
    cases s with
    | block body =>
      obtain rfl := List.mem_singleton.mp hc
      exact .regular h.block
    | classDecl name parent methods =>
      have regular := h.introducing proper.1
      cases parent with
      | none =>
        obtain rfl := List.mem_singleton.mp hc
        exact .regular (regular.classBody false)
      | some e =>
        rcases List.mem_pair.mp hc with rfl | rfl
        · obtain ⟨id, parent, rfl⟩ := proper.2 e rfl
          exact .superclass rfl regular.defined
        · exact .regular (regular.classBody true)
    | functionDecl decl =>
      obtain rfl := List.mem_singleton.mp hc
      exact .regular (h.introducing proper)
    | ifElse condition branch other =>
      cases other with
      | none => rcases List.mem_pair.mp hc with rfl | rfl <;> exact .regular h
      | some other =>
        rcases List.mem_cons.mp hc with rfl | hc
        · exact .regular h
        · rcases List.mem_pair.mp hc with rfl | rfl
          · exact .regular h
          · have wf := wf.child ctx (c := (ctx, .stmt branch)) (by simp [Part.children])
            exact .regular (h.after wf)
    | varDecl name value =>
      cases value with
      | none => cases hc
      | some e =>
        obtain rfl := List.mem_singleton.mp hc
        exact .initializer rfl ⟨ctx, e, hv, h, .refl⟩
    | returnWith keyword value =>
      cases value with
      | none => cases hc
      | some e =>
        obtain rfl := List.mem_singleton.mp hc
        exact .regular h
    | expression | print =>
      obtain rfl := List.mem_singleton.mp hc
      exact .regular h
    | whileLoop => rcases List.mem_pair.mp hc with rfl | rfl <;> exact .regular h
  | stmts ss =>
    cases ss with
    | nil => cases hc
    | cons s ss =>
      rcases List.mem_pair.mp hc with rfl | rfl
      · exact .regular h
      · have wf := wf.child ctx (c := (ctx, .stmt s)) (by simp [Part.children])
        exact .regular (h.after wf)
  | function kind decl =>
    obtain rfl := List.mem_singleton.mp hc
    exact .regular (h.inside kind proper)
  | functions decls =>
    cases decls with
    | nil => cases hc
    | cons decl decls => rcases List.mem_pair.mp hc with rfl | rfl <;> exact .regular h

theorem Visits.placed {program : List Stmt} {ctx : Context} {part : Part}
    (wf : (Part.stmts program).WellFormed Plain) (h : Visits program ctx part) :
    Placed program ctx part := by
  have along : ∀ c, Relation.ReflTransGen Enters (.top, .stmts program) c →
      Placed program c.1 c.2 := by
    intro c hc
    induction hc with
    | refl => exact .regular .top
    | @tail b c hb hbc ih =>
      cases ih with
      | regular regular => exact placed_child regular (Visits.wellFormed hb wf) hb hbc
      | initializer expression within =>
        obtain ⟨ctx₀, value, hv, regular, below⟩ := within
        exact .initializer (children_of_isExpression expression c hbc).2
          ⟨ctx₀, value, hv, regular, below.tail hbc⟩
      | superclass named =>
        rw [Enters, named] at hbc
        cases hbc
  exact along _ h

end Lox.Scope
