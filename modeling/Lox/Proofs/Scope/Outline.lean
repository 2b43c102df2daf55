import Lox.Proofs.Grammar.Building
import Lox.Proofs.Scope.Contexts

/-!
# Programs as text with scopes opened and closed

The outline of a program is what matters of it for scoping, in the order of the walk: where a
scope is opened and closed, which names are declared, and which are used. A place in an outline is
known by the scopes that are open there, each with its names. The walk over a program that was
read reports what one finds along its outline from place to place.
-/
namespace Lox

namespace Scope

/-- What opens a scope: a block, the body of a function or method, or a class, for `this` and,
around that, for `super`. -/
inductive ScopeKind where
  | block
  | body (kind : FunctionKind)
  | receiver (kind : ClassKind)
  | superclass
  deriving DecidableEq

inductive Mark where
  | opens (kind : ScopeKind)
  | closes
  | declares (name : Token)
  | provides (name : String)
  | initializes (name : Token)
  | initialized
  | reads (id : Nat) (name : Token)
  | assigns (id : Nat) (name : Token)
  | this (id : Nat) (keyword : Token)
  | super (id : Nat) (keyword : Token)
  | returns (keyword : Token) (valued : Bool)
  | inherits (name parent : Token)

end Scope

open Scope (Mark Part FunctionKind ClassKind)

mutual

def Expr.outline : Expr → List Mark
  | .assign id name value => value.outline ++ [.assigns id name]
  | .binary left _ right => left.outline ++ right.outline
  | .call callee _ arguments => callee.outline ++ Expr.outlineOf arguments
  | .get object _ => object.outline
  | .grouping inner => inner.outline
  | .literal _ => []
  | .logical left _ right => left.outline ++ right.outline
  | .set object _ value => value.outline ++ object.outline
  | .superRef id keyword _ => [.super id keyword]
  | .thisRef id keyword => [.this id keyword]
  | .unary _ right => right.outline
  | .var id name => [.reads id name]

def Expr.outlineOf : List Expr → List Mark
  | [] => []
  | e :: es => e.outline ++ Expr.outlineOf es

end

/-- The clause that names the superclass of `name`. -/
def Expr.superclassOutline (name : Token) : Expr → List Mark
  | .var id parent => [.inherits name parent, .reads id parent]
  | other => other.outline

mutual

def Stmt.outline : Stmt → List Mark
  | .block body => .opens .block :: (Stmt.outlineOf body ++ [.closes])
  | .classDecl name none methods =>
    .declares name :: .opens (.receiver .base) :: .provides Scope.thisName ::
      (FunctionDecl.outlineOf methods ++ [.closes])
  | .classDecl name (some parent) methods =>
    .declares name :: (parent.superclassOutline name ++
      .opens .superclass :: .provides Scope.superName ::
        (.opens (.receiver .derived) :: .provides Scope.thisName ::
          (FunctionDecl.outlineOf methods ++ [.closes]) ++ [.closes]))
  | .expression value => value.outline
  | .functionDecl decl => .declares decl.name :: decl.outline .function
  | .ifElse condition thenBranch none => condition.outline ++ thenBranch.outline
  | .ifElse condition thenBranch (some other) =>
    condition.outline ++ thenBranch.outline ++ other.outline
  | .print value => value.outline
  | .returnWith keyword none => [.returns keyword false]
  | .returnWith keyword (some value) => .returns keyword true :: value.outline
  | .varDecl name none => [.declares name]
  | .varDecl name (some value) =>
    .declares name :: .initializes name :: (value.outline ++ [.initialized])
  | .whileLoop condition body => condition.outline ++ body.outline

def Stmt.outlineOf : List Stmt → List Mark
  | [] => []
  | s :: ss => s.outline ++ Stmt.outlineOf ss

/-- Parameters are declared in the scope of the body. -/
def FunctionDecl.outline (kind : FunctionKind) : FunctionDecl → List Mark
  | ⟨_, params, body⟩ =>
    .opens (.body kind) :: (params.map .declares ++ Stmt.outlineOf body ++ [.closes])

def FunctionDecl.outlineOf : List FunctionDecl → List Mark
  | [] => []
  | decl :: decls => decl.outline (Scope.methodKind decl) ++ FunctionDecl.outlineOf decls

end

namespace Scope

def Part.outline : Part → List Mark
  | .expr e => e.outline
  | .exprs es => Expr.outlineOf es
  | .stmt s => s.outline
  | .stmts ss => Stmt.outlineOf ss
  | .function kind decl => decl.outline kind
  | .functions decls => FunctionDecl.outlineOf decls

/-! ## Places -/

def ScopeKind.function? : ScopeKind → Option FunctionKind
  | body kind => some kind
  | _ => none

def ScopeKind.class? : ScopeKind → Option ClassKind
  | receiver kind => some kind
  | _ => none

/-- A scope that is open, with the names declared in it so far. -/
structure Frame where
  kind : ScopeKind
  names : List String

/-- Declares a name in the innermost scope. Outside of all scopes nothing is declared. -/
def enter (frames : List Frame) (name : String) : List Frame :=
  match frames with
  | [] => []
  | frame :: outer => { frame with names := name :: frame.names } :: outer

/-- The scopes that are open, from the innermost outwards, and the local variables whose initializer
has not ended. -/
structure Place where
  frames : List Frame
  initializing : List String

namespace Place

def top : Place := ⟨[], []⟩

def declare (p : Place) (name : String) : Place := { p with frames := enter p.frames name }

def next (p : Place) : Mark → Place
  | .opens kind => { p with frames := ⟨kind, []⟩ :: p.frames }
  | .closes => { p with frames := p.frames.tail }
  | .declares name => p.declare name.lexeme
  | .provides name => p.declare name
  | .initializes name =>
    if p.frames.isEmpty then p else { p with initializing := name.lexeme :: p.initializing }
  | .initialized => { p with initializing := [] }
  | _ => p

/-- The place after some text. -/
def after (p : Place) (text : List Mark) : Place := text.foldl next p

def has (p : Place) (name : String) : Bool :=
  match p.frames with
  | [] => false
  | frame :: _ => name ∈ frame.names

def distance? (p : Place) (name : String) : Option Nat := p.frames.findIdx? (name ∈ ·.names)

def function? (p : Place) : Option FunctionKind := p.frames.findSome? (·.kind.function?)

def class? (p : Place) : Option ClassKind := p.frames.findSome? (·.kind.class?)

def occurrence (p : Place) (id : Nat) (name : Token) : Report :=
  ⟨[⟨id, name.lexeme, p.distance? name.lexeme⟩], []⟩

/-- What is found at a mark. -/
def report (p : Place) : Mark → Report
  | .declares name => if p.has name.lexeme then .fault .alreadyDeclared name else .nothing
  | .reads id name =>
    (if name.lexeme ∈ p.initializing then .fault .readInOwnInitializer name else .nothing) ++
      p.occurrence id name
  | .assigns id name => p.occurrence id name
  | .this id keyword =>
    match p.class? with
    | none => .fault .thisOutsideClass keyword
    | some _ => p.occurrence id keyword
  | .super id keyword =>
    match p.class? with
    | none => .fault .superOutsideClass keyword
    | some .base => .fault .superWithoutSuperclass keyword
    | some .derived => p.occurrence id keyword
  | .returns keyword valued =>
    (if p.function? = none then .fault .returnOutsideFunction keyword else .nothing) ++
      (if valued = true ∧ p.function? = some .initializer then .fault .valueFromInitializer keyword
        else .nothing)
  | .inherits name parent =>
    if parent.lexeme = name.lexeme then .fault .inheritsFromItself parent else .nothing
  | _ => .nothing

/-- What is found along a text. -/
def reports (p : Place) : List Mark → Report
  | [] => .nothing
  | mark :: text => p.report mark ++ (p.next mark).reports text

end Place

namespace Place

variable {p : Place}

@[simp] theorem after_nil (p : Place) : p.after [] = p := rfl

@[simp] theorem after_cons (p : Place) (mark : Mark) (text : List Mark) :
    p.after (mark :: text) = (p.next mark).after text := rfl

@[simp] theorem after_append (p : Place) (text text' : List Mark) :
    p.after (text ++ text') = (p.after text).after text' := List.foldl_append

@[simp] theorem reports_nil (p : Place) : p.reports [] = .nothing := rfl

@[simp] theorem reports_cons (p : Place) (mark : Mark) (text : List Mark) :
    p.reports (mark :: text) = p.report mark ++ (p.next mark).reports text := rfl

@[simp] theorem reports_append (p : Place) (text text' : List Mark) :
    p.reports (text ++ text') = p.reports text ++ (p.after text).reports text' := by
  induction text generalizing p with
  | nil => rfl
  | cons mark text ih =>
    rw [List.cons_append, reports_cons, ih, reports_cons, Report.append_assoc]
    rfl

/-! ## Places and contexts -/

/-- The scopes of a context have the names of the frames. -/
def Names (frames : List Frame) (scopes : Scopes) : Prop :=
  List.Forall₂ (fun frame scope => ∀ name, scope.contains name = decide (name ∈ frame.names))
    frames scopes

/-- A context says of what surrounds a node what the place says. -/
structure Agrees (p : Place) (ctx : Context) : Prop where
  names : Names p.frames ctx.scopes
  initializing : ∀ name, inOwnInitializer ctx.scopes name = decide (name ∈ p.initializing)
  function : ctx.function = p.function?
  enclosingClass : ctx.enclosingClass = p.class?

/-- A place outside of initializers. -/
structure Settled (p : Place) (ctx : Context) : Prop extends Agrees p ctx where
  defined : Defined ctx.scopes
  outside : p.initializing = []

variable {ctx : Context} {scopes : Scopes} {frames : List Frame}

theorem Names.distance? (h : Names frames scopes) (name : String) :
    Scope.distance? scopes name = frames.findIdx? (name ∈ ·.names) := by
  induction h with
  | nil => rfl
  | @cons frame scope frames scopes first _ ih =>
    rw [distance?_cons, ih, List.findIdx?_cons, first name]

theorem Agrees.occurrence (h : p.Agrees ctx) (id : Nat) (name : Token) :
    Scope.occurrence ctx id name = p.occurrence id name := by
  rw [Scope.occurrence, h.names.distance?]
  rfl

theorem inOwnInitializer_of_defined (h : Defined scopes) (name : String) :
    inOwnInitializer scopes name = false := by
  cases scopes with
  | nil => rfl
  | cons scope outer =>
    refine decide_eq_false fun he => ?_
    cases List.forall_mem_cons.mp h |>.1 name false he

theorem settled_of (names : Names p.frames ctx.scopes) (function : ctx.function = p.function?)
    (enclosingClass : ctx.enclosingClass = p.class?) (defined : Defined ctx.scopes)
    (outside : p.initializing = []) : p.Settled ctx where
  names := names
  initializing name := by simp [inOwnInitializer_of_defined defined, outside]
  function := function
  enclosingClass := enclosingClass
  defined := defined
  outside := outside

theorem settled_top : top.Settled .top := settled_of .nil rfl rfl defined_nil rfl

/-- Declaring a name changes no kind of scope. -/
theorem findSome?_enter {α : Type} (frames : List Frame) (name : String)
    (f : ScopeKind → Option α) :
    (enter frames name).findSome? (f ·.kind) = frames.findSome? (f ·.kind) := by
  cases frames <;> rfl

@[simp] theorem tail_enter (frames : List Frame) (name : String) :
    (enter frames name).tail = frames.tail := by
  cases frames <;> rfl

theorem Names.declare (h : Names frames scopes) (name : Token) :
    Names (enter frames name.lexeme) (Scope.declare scopes name).1 := by
  cases h with
  | nil => exact .nil
  | cons first rest =>
    refine .cons (fun other => ?_) rest
    rw [contains_insert, first]
    simp

theorem Names.introduce (h : Names frames scopes) (name : Token) :
    Names (enter frames name.lexeme) (Scope.introduce scopes name).1 := by
  cases h with
  | nil => exact .nil
  | cons first rest =>
    refine .cons (fun other => ?_) rest
    rw [contains_insert, contains_insert, first]
    simp

/-- A name is found to be declared already where the walk finds it. -/
theorem Names.report_declare (h : Names p.frames scopes) (name : Token) :
    (Scope.declare scopes name).2 = p.report (.declares name) := by
  unfold Scope.declare Place.report has
  generalize p.frames = frames at h
  cases h with
  | nil => rfl
  | cons first _ => simp only [first name.lexeme]

namespace Settled

theorem introduce (h : p.Settled ctx) (name : Token) :
    (p.next (.declares name)).Settled (ctx.introducing name) :=
  settled_of (h.names.introduce name)
    (h.function.trans (findSome?_enter p.frames name.lexeme ScopeKind.function?).symm)
    (h.enclosingClass.trans (findSome?_enter p.frames name.lexeme ScopeKind.class?).symm)
    (h.defined.introduce name) h.outside

theorem «open» (h : p.Settled ctx) (kind : ScopeKind) :
    (p.next (.opens kind)).Settled
      { scopes := .empty :: ctx.scopes
        function := kind.function?.or ctx.function
        enclosingClass := kind.class?.or ctx.enclosingClass } := by
  refine settled_of (.cons (fun name => rfl) h.names) ?_ ?_ h.defined.empty_cons h.outside
  · rw [h.function]
    cases kind <;> rfl
  · rw [h.enclosingClass]
    cases kind <;> rfl

/-- A name that a scope holds from the start. -/
theorem provide {function : Option FunctionKind} {enclosingClass : Option ClassKind}
    (h : p.Settled ⟨.empty :: scopes, function, enclosingClass⟩) (name : String) :
    (p.next (.provides name)).Settled ⟨implicit name :: scopes, function, enclosingClass⟩ := by
  refine settled_of ?_
    (h.function.trans (findSome?_enter p.frames name ScopeKind.function?).symm)
    (h.enclosingClass.trans (findSome?_enter p.frames name ScopeKind.class?).symm)
    (Defined.implicit_cons (List.forall_mem_cons.mp h.defined).2 name) h.outside
  have names := h.names
  show Names (enter p.frames name) _
  generalize p.frames = frames at names
  cases names with
  | cons first rest =>
    refine .cons (fun other => ?_) rest
    rw [implicit, contains_insert, first]
    simp

/-- The initializer of a variable is walked over once the variable is declared. -/
theorem initializer (h : p.Settled ctx) (name : Token) :
    ((p.next (.declares name)).next (.initializes name)).Agrees (ctx.declaring name) := by
  obtain ⟨frames, initializing⟩ := p
  obtain ⟨⟨names, _, function, enclosingClass⟩, defined, outside⟩ := h
  obtain ⟨scopes, current, around⟩ := ctx
  simp only at names defined outside function enclosingClass
  subst outside
  cases names with
  | nil => exact ⟨.nil, fun _ => rfl, function, enclosingClass⟩
  | @cons frame scope frames scopes first rest =>
    refine ⟨.cons (fun other => ?_) rest, fun other => ?_, function, enclosingClass⟩
    · rw [contains_insert, first]
      simp
    · -- Only the variable itself is waiting for its initializer to end.
      have hn : scope.get? other ≠ some false := fun hb =>
        Bool.noConfusion ((List.forall_mem_cons.mp defined).1 other false hb)
      show decide ((scope.insert name.lexeme false).get? other = some false) =
        decide (other ∈ [name.lexeme])
      rw [Bindings.get?_insert]
      by_cases he : other = name.lexeme
      · simp [he]
      · simp [he, hn]

end Settled

/-! ## Expressions -/

mutual

/-- Along an expression nothing is declared. -/
theorem after_expr (p : Place) (e : Expr) : p.after e.outline = p := by
  cases e with
  | literal | superRef | thisRef | var => rfl
  | get object name => exact after_expr p object
  | grouping inner => exact after_expr p inner
  | unary operator right => exact after_expr p right
  | assign id name value => rw [Expr.outline, after_append, after_expr p value]; rfl
  | binary left operator right | logical left operator right =>
    rw [Expr.outline, after_append, after_expr p left, after_expr p right]
  | set object name value =>
    rw [Expr.outline, after_append, after_expr p value, after_expr p object]
  | call callee paren arguments =>
    rw [Expr.outline, after_append, after_expr p callee, after_exprs p arguments]

theorem after_exprs (p : Place) (es : List Expr) : p.after (Expr.outlineOf es) = p := by
  cases es with
  | nil => rfl
  | cons e es => rw [Expr.outlineOf, after_append, after_expr p e, after_exprs p es]

end

mutual

theorem Agrees.expr (h : p.Agrees ctx) (e : Expr) : p.reports e.outline = Scope.expr ctx e := by
  cases e with
  | literal => rfl
  | get object name => exact h.expr object
  | grouping inner => exact h.expr inner
  | unary operator right => exact h.expr right
  | assign id name value =>
    rw [Expr.outline, reports_append, h.expr value, after_expr, Scope.expr, h.occurrence]
    simp [Place.report]
  | binary left operator right | logical left operator right =>
    rw [Expr.outline, reports_append, h.expr left, after_expr, h.expr right, Scope.expr]
  | set object name value =>
    rw [Expr.outline, reports_append, h.expr value, after_expr, h.expr object, Scope.expr]
  | call callee paren arguments =>
    rw [Expr.outline, reports_append, h.expr callee, after_expr, h.exprs arguments, Scope.expr]
  | superRef id keyword method =>
    cases hk : p.class? with
    | none => simp [Expr.outline, Place.report, Scope.expr, h.enclosingClass, hk]
    | some kind =>
      cases kind <;>
        simp [Expr.outline, Place.report, Scope.expr, h.enclosingClass, hk, h.occurrence]
  | thisRef id keyword =>
    cases hk : p.class? <;>
      simp [Expr.outline, Place.report, Scope.expr, h.enclosingClass, hk, h.occurrence]
  | var id name =>
    simp only [Expr.outline, reports_cons, reports_nil, Report.append_nothing, Place.report,
      Scope.expr, h.initializing, h.occurrence, decide_eq_true_eq]

theorem Agrees.exprs (h : p.Agrees ctx) (es : List Expr) :
    p.reports (Expr.outlineOf es) = Scope.exprs ctx es := by
  cases es with
  | nil => rfl
  | cons e es =>
    rw [Expr.outlineOf, reports_append, h.expr e, after_expr, h.exprs es, Scope.exprs]

end

/-! ## Statements -/

/-- Along a text the report is found that the walk gives, the context after it agrees, and the
scopes around the innermost one are as before. -/
structure Tells (p : Place) (text : List Mark) (r : Report) (ctx : Context) : Prop where
  reports : p.reports text = r
  settled : (p.after text).Settled ctx
  around : (p.after text).frames.tail = p.frames.tail

namespace Tells

variable {text text' : List Mark} {r r' : Report} {ctx' : Context}

theorem nil (h : p.Settled ctx) : Tells p [] .nothing ctx := ⟨rfl, h, rfl⟩

theorem append (h : Tells p text r ctx) (h' : Tells (p.after text) text' r' ctx') :
    Tells p (text ++ text') (r ++ r') ctx' where
  reports := by rw [reports_append, h.reports, h'.reports]
  settled := after_append p text text' ▸ h'.settled
  around := by rw [after_append, h'.around, h.around]

theorem expr (h : p.Settled ctx) (e : Expr) : Tells p e.outline (Scope.expr ctx e) ctx :=
  ⟨h.toAgrees.expr e, (after_expr p e).symm ▸ h, by rw [after_expr]⟩

/-- A mark that changes nothing of the place. -/
theorem mark {m : Mark} (h : p.Settled ctx) (same : p.next m = p) (hr : p.report m = r) :
    Tells p [m] r ctx := by
  refine ⟨?_, ?_, ?_⟩
  · simp [hr]
  · simpa [same] using h
  · simp [same]

theorem declares (h : p.Settled ctx) (name : Token) :
    Tells p [.declares name] (introduce ctx.scopes name).2 (ctx.introducing name) where
  reports := by
    rw [reports_cons, reports_nil, Report.append_nothing, ← h.names.report_declare]
    rfl
  settled := h.introduce name
  around := tail_enter p.frames name.lexeme

/-- What stands in a scope that is opened and closed. -/
theorem enclosed {kind : ScopeKind} (h : p.Settled ctx)
    (inner : Tells (p.next (.opens kind)) text r ctx') :
    Tells p (.opens kind :: (text ++ [.closes])) r ctx := by
  have back : ((p.next (.opens kind)).after text).next .closes = p := by
    show (⟨((p.next (.opens kind)).after text).frames.tail,
      ((p.next (.opens kind)).after text).initializing⟩ : Place) = p
    rw [inner.around, inner.settled.outside, ← h.outside]
    rfl
  refine ⟨?_, ?_, ?_⟩
  · simp [inner.reports, Place.report]
  · simpa [back] using h
  · simp [back]

/-- What stands in a scope that holds a name from the start. -/
theorem enclosed_providing {kind : ScopeKind} {name : String} (h : p.Settled ctx)
    (inner : Tells ((p.next (.opens kind)).next (.provides name)) text r ctx') :
    Tells p (.opens kind :: .provides name :: (text ++ [.closes])) r ctx := by
  have provided : Tells (p.next (.opens kind)) (.provides name :: text) r ctx' := by
    refine ⟨?_, inner.settled, ?_⟩
    · simp [inner.reports, Place.report]
    · exact inner.around.trans (tail_enter (p.next (.opens kind)).frames name)
  exact enclosed h provided

/-- Parameters are declared one after another. -/
theorem params (h : p.Settled ctx) (names : List Token) :
    Tells p (names.map .declares) (introduceAll ctx.scopes names).2
      { ctx with scopes := (introduceAll ctx.scopes names).1 } := by
  induction names generalizing p ctx with
  | nil => exact nil h
  | cons name names ih =>
    have first := declares h name
    exact first.append (ih first.settled)

/-- The initializer of a variable, once the variable is declared. -/
theorem initializer (h : p.Settled ctx) (name : Token) (value : Expr) :
    Tells (p.next (.declares name)) (.initializes name :: (value.outline ++ [.initialized]))
      (Scope.expr (ctx.declaring name) value) (ctx.introducing name) := by
  have settled := h.introduce name
  have back : ((p.next (.declares name)).next (.initializes name)).next .initialized =
      p.next (.declares name) := by
    have outside := settled.outside
    generalize p.next (.declares name) = q at outside
    obtain ⟨frames, initializing⟩ := q
    cases outside
    cases frames <;> rfl
  refine ⟨?_, ?_, ?_⟩
  · simp [(h.initializer name).expr value, Place.report]
  · simpa [after_expr, back] using settled
  · simp [after_expr, back]

end Tells

end Place

/-- What surrounds what comes after a part. -/
def Context.afterAll (ctx : Context) (ss : List Stmt) : Context := ss.foldl Context.after ctx

def Part.leave (ctx : Context) : Part → Context
  | .stmt s => ctx.after s
  | .stmts ss => ctx.afterAll ss
  | _ => ctx

theorem report_baseClass (ctx : Context) (name : Token) (methods : List FunctionDecl) :
    (Part.stmt (.classDecl name none methods)).report ctx =
      (introduce ctx.scopes name).2 ++
        functions (classBody (ctx.introducing name) false) methods := by
  simp [Part.report, Scope.stmt, Context.introducing]

theorem report_derivedClass (ctx : Context) (name : Token) (parent : Expr)
    (methods : List FunctionDecl) :
    (Part.stmt (.classDecl name (some parent) methods)).report ctx =
      (introduce ctx.scopes name).2 ++
        (superclass { ctx.introducing name with enclosingClass := some .derived } name parent ++
          functions (classBody (ctx.introducing name) true) methods) := by
  simp [Part.report, Scope.stmt, Context.introducing, Report.append_assoc]

/-- The outline of a part tells what the walk over it reports, wherever the part stands. -/
def Part.Told (part : Part) : Prop :=
  ∀ p ctx, Place.Settled p ctx → Place.Tells p part.outline (part.report ctx) (part.leave ctx)

namespace Part.Told

open Place (Tells)

theorem expr (e : Expr) : (Part.expr e).Told := fun _ _ h => .expr h e

theorem exprs (es : List Expr) : (Part.exprs es).Told := fun p _ h =>
  ⟨h.toAgrees.exprs es, (Place.after_exprs p es).symm ▸ h, by
    rw [Part.outline, Place.after_exprs]⟩

theorem stmts_nil : (Part.stmts []).Told := fun _ _ h => .nil h

theorem stmts_cons {s : Stmt} {ss : List Stmt} (h : (Part.stmt s).Told) (h' : (Part.stmts ss).Told) :
    (Part.stmts (s :: ss)).Told := by
  intro p ctx hp
  have first := h p ctx hp
  rw [Part.report, Scope.stmts_cons]
  exact first.append (h' _ _ first.settled)

theorem block {body : List Stmt} (h : (Part.stmts body).Told) : (Part.stmt (.block body)).Told := by
  intro p ctx hp
  exact .enclosed hp (h _ _ (hp.open .block))

theorem function {kind : FunctionKind} {decl : FunctionDecl} (h : (Part.stmts decl.body).Told) :
    (Part.function kind decl).Told := by
  intro p ctx hp
  obtain ⟨name, params, body⟩ := decl
  have bound := Tells.params (hp.open (.body kind)) params
  exact .enclosed hp (bound.append (h _ _ bound.settled))

theorem functions_nil : (Part.functions []).Told := fun _ _ h => .nil h

theorem functions_cons {decl : FunctionDecl} {decls : List FunctionDecl}
    (h : (Part.function (methodKind decl) decl).Told) (h' : (Part.functions decls).Told) :
    (Part.functions (decl :: decls)).Told := by
  intro p ctx hp
  have first := h p ctx hp
  exact first.append (h' _ _ first.settled)

theorem functionDecl {decl : FunctionDecl} (h : (Part.function .function decl).Told) :
    (Part.stmt (.functionDecl decl)).Told := by
  intro p ctx hp
  have named := Tells.declares hp decl.name
  exact named.append (h _ _ named.settled)

theorem baseClass {name : Token} {methods : List FunctionDecl} (h : (Part.functions methods).Told) :
    (Part.stmt (.classDecl name none methods)).Told := by
  intro p ctx hp
  have named := Tells.declares hp name
  have inner := (named.settled.open (.receiver .base)).provide thisName
  have body := Tells.enclosed_providing named.settled (h _ _ inner)
  rw [report_baseClass]
  exact named.append body

theorem derivedClass {id : Nat} {name parent : Token} {methods : List FunctionDecl}
    (h : (Part.functions methods).Told) :
    (Part.stmt (.classDecl name (some (.var id parent)) methods)).Told := by
  intro p ctx hp
  have named := Tells.declares hp name
  have inherits := Tells.mark (m := .inherits name parent) named.settled rfl rfl
  have superclass := Tells.expr inherits.settled (.var id parent)
  have outer := (named.settled.open .superclass).provide superName
  have inner := (outer.open (.receiver .derived)).provide thisName
  have body := Tells.enclosed_providing named.settled
    (.enclosed_providing outer (h _ _ inner))
  rw [report_derivedClass]
  exact named.append ((inherits.append superclass).append body)

theorem ifThen {test : Expr} {branch : Stmt} (h : (Part.stmt branch).Told) :
    (Part.stmt (.ifElse test branch none)).Told := by
  intro p ctx hp
  have tested := Tells.expr hp test
  exact tested.append (h _ _ tested.settled)

theorem ifElse {test : Expr} {branch other : Stmt} (h : (Part.stmt branch).Told)
    (h' : (Part.stmt other).Told) : (Part.stmt (.ifElse test branch (some other))).Told := by
  intro p ctx hp
  have tested := Tells.expr hp test
  have first := tested.append (h _ _ tested.settled)
  exact first.append (h' _ _ first.settled)

theorem whileLoop {test : Expr} {body : Stmt} (h : (Part.stmt body).Told) :
    (Part.stmt (.whileLoop test body)).Told := by
  intro p ctx hp
  have tested := Tells.expr hp test
  exact tested.append (h _ _ tested.settled)

theorem «return» (keyword : Token) (value : Option Expr) :
    (Part.stmt (.returnWith keyword value)).Told := by
  intro p ctx hp
  have first : Tells p [.returns keyword value.isSome]
      (p.report (.returns keyword value.isSome)) ctx := .mark hp rfl rfl
  rw [Part.report, Scope.stmt, returned, hp.function]
  cases value with
  | none =>
    show Tells p _ (p.report (.returns keyword false) ++ .nothing) ctx
    rw [Report.append_nothing]
    exact first
  | some e => exact first.append (.expr hp e)

theorem varDecl (name : Token) (value : Option Expr) : (Part.stmt (.varDecl name value)).Told := by
  intro p ctx hp
  have declared := Tells.declares hp name
  cases value with
  | none =>
    show Tells p _ ((introduce ctx.scopes name).2 ++ .nothing) _
    rw [Report.append_nothing]
    exact declared
  | some e => exact declared.append (.initializer hp name e)

end Part.Told

/-- Every part that was read is told by its outline. -/
theorem told_of_built {n m : Nat} {part : Part} (h : Grammar.Built n m part) : part.Told := by
  induction h with
  | literal | this | «variable» | super | grouping | call | property | unary | binary | logical
  | assignment | propertyAssignment => exact .expr _
  | noExprs | moreExprs => exact .exprs _
  | expression | print => exact .expr _
  | «return» => exact .return _ _
  | varDecl => exact .varDecl _ _
  | functionDecl _ _ ih => exact .functionDecl ih
  | baseClass _ _ ih => exact .baseClass ih
  | derivedClass _ _ _ _ ih => exact .derivedClass ih
  | block _ ih => exact .block ih
  | increment _ _ _ _ ih => exact .block (.stmts_cons ih (.stmts_cons (.expr _) .stmts_nil))
  | whileLoop _ _ _ _ ih => exact .whileLoop ih
  | ifThen _ _ _ _ ih => exact .ifThen ih
  | ifElse _ _ _ _ _ _ ih ih' => exact .ifElse ih ih'
  | noStmts => exact .stmts_nil
  | moreStmts _ _ ih ih' => exact .stmts_cons ih ih'
  | function _ _ ih => exact .function ih
  | noFunctions => exact .functions_nil
  | moreFunctions _ _ _ ih ih' => exact .functions_cons ih ih'

end Scope

/-- The report on a program that was read, as what is found along its outline. -/
theorem resolve_outline (tokens : List Token) (n : Nat) :
    resolve (parse tokens n).statements =
      Scope.Place.top.reports (Stmt.outlineOf (parse tokens n).statements) :=
  (Scope.told_of_built (Grammar.built_parse tokens n) _ _ Scope.Place.settled_top).reports.symm

end Lox
