import Lox.Proofs.Scope.WellFormed
import Lox.Proofs.Grammar.Relabelling
import Lox.Machine

/-!
# Programs with more scopes

Two programs are framed alike if they differ only in blocks that one of them has around statements
which declare nothing. A block is a scope and, when it is executed, an environment, so on the way
from a name to its declaration one program passes scopes that the other one lacks. A shape says
which scopes these are, as seen from a part of both programs outwards.
-/
namespace Lox

open Scope (Part)

/-- A scope that both programs have, or only the first, or only the second. -/
inductive Layer where
  | both
  | left
  | right
  deriving DecidableEq

/-- The scopes around a part of both programs, the innermost one first. Those further out are the
same in both. -/
abbrev Shape := List Layer

namespace Shape

/-- A distance in the first program and the one in the second that lead to the same scope. -/
inductive Spans : Shape → Nat → Nat → Prop where
  | beyond (d : Nat) : Spans [] d d
  | here {w : Shape} : Spans (.both :: w) 0 0
  | both {w : Shape} {d d' : Nat} (further : Spans w d d') :
      Spans (.both :: w) (d + 1) (d' + 1)
  | left {w : Shape} {d d' : Nat} (further : Spans w d d') : Spans (.left :: w) (d + 1) d'
  | right {w : Shape} {d d' : Nat} (further : Spans w d d') : Spans (.right :: w) d (d' + 1)

/-- Both programs declare in the same scope. -/
def Open : Shape → Prop
  | [] => True
  | first :: _ => first = .both

theorem not_open_right {w : Shape} : ¬Open (.right :: w) := fun opens => by cases opens

end Shape

open Shape (Open Spans)

/-- How numbers of occurrences correspond in scopes of a shape, and those of occurrences of
`super`. -/
structure Numbering where
  occurs : Shape → Nat → Nat → Prop
  superior : Shape → Nat → Nat → Prop

namespace Numbering

/-- Numbers that correspond wherever they stand. -/
def pairs (related : Nat → Nat → Prop) : Numbering where
  occurs _ := related
  superior _ := related

/-- The tables have distances to the same scope for numbers that correspond. For `super` the scopes
just within correspond as well. -/
structure Resolves (K : Numbering) (table table' : Distances) : Prop where
  occurs : ∀ w id id', K.occurs w id id' → Option.Rel (Spans w) table[id]? table'[id']?
  superior : ∀ w id id', K.superior w id id' → ∃ inner inner', table[id]? = some (inner + 1) ∧
    table'[id']? = some (inner' + 1) ∧ Spans w inner inner' ∧ Spans w (inner + 1) (inner' + 1)

variable (K : Numbering)

/-- Parts of two programs that are the same but for blocks around some of their statements. -/
inductive Framed : Shape → Part → Part → Prop where
  | assign {w : Shape} {id id' : Nat} {name : Token} {value value' : Expr}
      (occurs : K.occurs w id id') (assigned : Framed w (.expr value) (.expr value')) :
      Framed w (.expr (.assign id name value)) (.expr (.assign id' name value'))
  | binary {w : Shape} {left left' right right' : Expr} {operator : Token}
      (before : Framed w (.expr left) (.expr left'))
      (after : Framed w (.expr right) (.expr right')) :
      Framed w (.expr (.binary left operator right)) (.expr (.binary left' operator right'))
  | call {w : Shape} {callee callee' : Expr} {paren : Token} {arguments arguments' : List Expr}
      (called : Framed w (.expr callee) (.expr callee'))
      (listed : Framed w (.exprs arguments) (.exprs arguments')) :
      Framed w (.expr (.call callee paren arguments)) (.expr (.call callee' paren arguments'))
  | get {w : Shape} {object object' : Expr} {name : Token}
      (owner : Framed w (.expr object) (.expr object')) :
      Framed w (.expr (.get object name)) (.expr (.get object' name))
  | grouping {w : Shape} {inner inner' : Expr} (content : Framed w (.expr inner) (.expr inner')) :
      Framed w (.expr (.grouping inner)) (.expr (.grouping inner'))
  | literal {w : Shape} (value : Literal) :
      Framed w (.expr (.literal value)) (.expr (.literal value))
  | logical {w : Shape} {left left' right right' : Expr} {operator : Token}
      (before : Framed w (.expr left) (.expr left'))
      (after : Framed w (.expr right) (.expr right')) :
      Framed w (.expr (.logical left operator right)) (.expr (.logical left' operator right'))
  | set {w : Shape} {object object' value value' : Expr} {name : Token}
      (owner : Framed w (.expr object) (.expr object'))
      (assigned : Framed w (.expr value) (.expr value')) :
      Framed w (.expr (.set object name value)) (.expr (.set object' name value'))
  | superRef {w : Shape} {id id' : Nat} {keyword method : Token}
      (superior : K.superior w id id') :
      Framed w (.expr (.superRef id keyword method)) (.expr (.superRef id' keyword method))
  | thisRef {w : Shape} {id id' : Nat} {keyword : Token} (occurs : K.occurs w id id') :
      Framed w (.expr (.thisRef id keyword)) (.expr (.thisRef id' keyword))
  | unary {w : Shape} {operator : Token} {right right' : Expr}
      (operand : Framed w (.expr right) (.expr right')) :
      Framed w (.expr (.unary operator right)) (.expr (.unary operator right'))
  | var {w : Shape} {id id' : Nat} {name : Token} (occurs : K.occurs w id id') :
      Framed w (.expr (.var id name)) (.expr (.var id' name))
  | noExprs {w : Shape} : Framed w (.exprs []) (.exprs [])
  | moreExprs {w : Shape} {e e' : Expr} {es es' : List Expr} (first : Framed w (.expr e) (.expr e'))
      (rest : Framed w (.exprs es) (.exprs es')) :
      Framed w (.exprs (e :: es)) (.exprs (e' :: es'))
  | block {w : Shape} {body body' : List Stmt}
      (content : Framed (.both :: w) (.stmts body) (.stmts body')) :
      Framed w (.stmt (.block body)) (.stmt (.block body'))
  | baseClass {w : Shape} {name : Token} {methods methods' : List FunctionDecl} (opens : Open w)
      (listed : Framed (.both :: w) (.functions methods) (.functions methods')) :
      Framed w (.stmt (.classDecl name none methods)) (.stmt (.classDecl name none methods'))
  | derivedClass {w : Shape} {name parent : Token} {number number' : Nat}
      {methods methods' : List FunctionDecl} (opens : Open w)
      (inherits : K.occurs w number number')
      (listed : Framed (.both :: .both :: w) (.functions methods) (.functions methods')) :
      Framed w (.stmt (.classDecl name (some (.var number parent)) methods))
        (.stmt (.classDecl name (some (.var number' parent)) methods'))
  | expression {w : Shape} {value value' : Expr}
      (evaluated : Framed w (.expr value) (.expr value')) :
      Framed w (.stmt (.expression value)) (.stmt (.expression value'))
  | functionDecl {w : Shape} {name : Token} {params : List Token} {body body' : List Stmt}
      (opens : Open w) (declared : Framed w (.function .function ⟨name, params, body⟩)
        (.function .function ⟨name, params, body'⟩)) :
      Framed w (.stmt (.functionDecl ⟨name, params, body⟩))
        (.stmt (.functionDecl ⟨name, params, body'⟩))
  | ifThen {w : Shape} {condition condition' : Expr} {branch branch' : Stmt}
      (tested : Framed w (.expr condition) (.expr condition'))
      (chosen : Framed w (.stmt branch) (.stmt branch')) :
      Framed w (.stmt (.ifElse condition branch none)) (.stmt (.ifElse condition' branch' none))
  | ifElse {w : Shape} {condition condition' : Expr} {branch branch' other other' : Stmt}
      (tested : Framed w (.expr condition) (.expr condition'))
      (chosen : Framed w (.stmt branch) (.stmt branch'))
      (alternated : Framed w (.stmt other) (.stmt other')) :
      Framed w (.stmt (.ifElse condition branch (some other)))
        (.stmt (.ifElse condition' branch' (some other')))
  | print {w : Shape} {value value' : Expr} (evaluated : Framed w (.expr value) (.expr value')) :
      Framed w (.stmt (.print value)) (.stmt (.print value'))
  | bareReturn {w : Shape} (keyword : Token) :
      Framed w (.stmt (.returnWith keyword none)) (.stmt (.returnWith keyword none))
  | returnWith {w : Shape} {keyword : Token} {value value' : Expr}
      (evaluated : Framed w (.expr value) (.expr value')) :
      Framed w (.stmt (.returnWith keyword (some value)))
        (.stmt (.returnWith keyword (some value')))
  | bareVariable {w : Shape} (opens : Open w) (name : Token) :
      Framed w (.stmt (.varDecl name none)) (.stmt (.varDecl name none))
  | initializedVariable {w : Shape} {name : Token} {value value' : Expr} (opens : Open w)
      (initialized : Framed w (.expr value) (.expr value')) :
      Framed w (.stmt (.varDecl name (some value))) (.stmt (.varDecl name (some value')))
  | whileLoop {w : Shape} {condition condition' : Expr} {body body' : Stmt}
      (tested : Framed w (.expr condition) (.expr condition'))
      (repeated : Framed w (.stmt body) (.stmt body')) :
      Framed w (.stmt (.whileLoop condition body)) (.stmt (.whileLoop condition' body'))
  | wrapped {w : Shape} {s s' : Stmt} (content : Framed (.right :: w) (.stmt s) (.stmt s')) :
      Framed w (.stmt s) (.stmt (.block [s']))
  | noStmts {w : Shape} : Framed w (.stmts []) (.stmts [])
  | moreStmts {w : Shape} {s s' : Stmt} {ss ss' : List Stmt}
      (first : Framed w (.stmt s) (.stmt s')) (rest : Framed w (.stmts ss) (.stmts ss')) :
      Framed w (.stmts (s :: ss)) (.stmts (s' :: ss'))
  | function {w : Shape} {kind : Scope.FunctionKind} {name : Token} {params : List Token}
      {body body' : List Stmt} (content : Framed (.both :: w) (.stmts body) (.stmts body')) :
      Framed w (.function kind ⟨name, params, body⟩) (.function kind ⟨name, params, body'⟩)
  | noFunctions {w : Shape} : Framed w (.functions []) (.functions [])
  | moreFunctions {w : Shape} {decl decl' : FunctionDecl} {decls decls' : List FunctionDecl}
      (first : Framed w (.function (Scope.methodKind decl) decl)
        (.function (Scope.methodKind decl) decl'))
      (rest : Framed w (.functions decls) (.functions decls')) :
      Framed w (.functions (decl :: decls)) (.functions (decl' :: decls'))

variable {K} {w : Shape}

/-- Functions that are framed alike have one name and one list of parameters. -/
theorem Framed.function_same {kind : Scope.FunctionKind} {decl decl' : FunctionDecl}
    (h : K.Framed w (.function kind decl) (.function kind decl')) :
    decl'.name = decl.name ∧ decl'.params = decl.params := by
  cases h with
  | function => exact ⟨rfl, rfl⟩

/-! ## Copies with other numbers -/

section
variable (number : Nat → Nat)

/-- The numbers of a copy belong to those that were copied. -/
def copies : Numbering := pairs fun id id' => id = number id'

mutual

theorem expr_copied (w : Shape) (e : Expr) :
    (copies number).Framed w (.expr (e.relabel number id)) (.expr e) := by
  cases e with
  | assign number name value => exact .assign rfl (expr_copied w value)
  | binary left operator right => exact .binary (expr_copied w left) (expr_copied w right)
  | call callee paren arguments => exact .call (expr_copied w callee) (exprs_copied w arguments)
  | get object name => exact .get (expr_copied w object)
  | grouping inner => exact .grouping (expr_copied w inner)
  | literal value => exact .literal value
  | logical left operator right => exact .logical (expr_copied w left) (expr_copied w right)
  | set object name value => exact .set (expr_copied w object) (expr_copied w value)
  | superRef number keyword method => exact .superRef rfl
  | thisRef number keyword => exact .thisRef rfl
  | unary operator right => exact .unary (expr_copied w right)
  | var number name => exact .var rfl

theorem exprs_copied (w : Shape) (es : List Expr) :
    (copies number).Framed w (.exprs (Expr.relabelAll number id es)) (.exprs es) := by
  cases es with
  | nil => exact .noExprs
  | cons e es => exact .moreExprs (expr_copied w e) (exprs_copied w es)

end

variable {names : String → Prop}

mutual

theorem stmt_copied {w : Shape} {s : Stmt} (wf : (Part.stmt s).WellFormed names)
    (opens : s.declares = true → Open w) :
    (copies number).Framed w (.stmt (s.relabel number id)) (.stmt s) := by
  cases s with
  | block body =>
    exact .block (stmts_copied (wf.child .top List.mem_cons_self) rfl)
  | classDecl name parent methods =>
    cases parent with
    | none =>
      exact .baseClass (opens rfl) (functions_copied (wf.child .top List.mem_cons_self))
    | some e =>
      obtain ⟨id, parent, rfl⟩ := wf.proper.2 e rfl
      have below := wf.child .top (List.mem_cons_of_mem _ List.mem_cons_self)
      exact .derivedClass (opens rfl) rfl (functions_copied below)
  | expression value => exact .expression (expr_copied number w value)
  | functionDecl decl =>
    obtain ⟨name, params, body⟩ := decl
    have below : (copies number).Framed w _ _ :=
      function_copied (wf.child .top List.mem_cons_self)
    have same : params.map (Token.moved id) = params := List.map_id params
    rw [FunctionDecl.relabel, same] at below
    rw [Stmt.relabel, FunctionDecl.relabel, same]
    exact .functionDecl (opens rfl) below
  | ifElse condition branch other =>
    have chosen := wf.child .top (List.mem_cons_of_mem _ List.mem_cons_self)
    have plain : branch.declares ≠ true := ne_true_of_eq_false wf.proper.1
    cases other with
    | none =>
      exact .ifThen (expr_copied number w condition) (stmt_copied chosen (absurd · plain))
    | some other =>
      have alternated :=
        wf.child .top (List.mem_cons_of_mem _ (List.mem_cons_of_mem _ List.mem_cons_self))
      have plain' : other.declares ≠ true := ne_true_of_eq_false (wf.proper.2 other rfl)
      exact .ifElse (expr_copied number w condition) (stmt_copied chosen (absurd · plain))
        (stmt_copied alternated (absurd · plain'))
  | print value => exact .print (expr_copied number w value)
  | returnWith keyword value =>
    cases value with
    | none => exact .bareReturn keyword
    | some value => exact .returnWith (expr_copied number w value)
  | varDecl name value =>
    cases value with
    | none => exact .bareVariable (opens rfl) name
    | some value => exact .initializedVariable (opens rfl) (expr_copied number w value)
  | whileLoop condition body =>
    have repeated := wf.child .top (List.mem_cons_of_mem _ List.mem_cons_self)
    have plain : body.declares ≠ true := ne_true_of_eq_false wf.proper
    exact .whileLoop (expr_copied number w condition) (stmt_copied repeated (absurd · plain))

theorem stmts_copied {w : Shape} {ss : List Stmt} (wf : (Part.stmts ss).WellFormed names)
    (opens : Open w) :
    (copies number).Framed w (.stmts (Stmt.relabelAll number id ss)) (.stmts ss) := by
  cases ss with
  | nil => exact .noStmts
  | cons s ss =>
    exact .moreStmts (stmt_copied (wf.child .top List.mem_cons_self) fun _ => opens)
      (stmts_copied (wf.child .top (List.mem_cons_of_mem _ List.mem_cons_self)) opens)

theorem function_copied {w : Shape} {kind : Scope.FunctionKind} {decl : FunctionDecl}
    (wf : (Part.function kind decl).WellFormed names) :
    (copies number).Framed w (.function kind (decl.relabel number id)) (.function kind decl) := by
  obtain ⟨name, params, body⟩ := decl
  have same : params.map (Token.moved id) = params := List.map_id params
  rw [FunctionDecl.relabel, same]
  exact .function (stmts_copied (wf.child .top List.mem_cons_self) rfl)

theorem functions_copied {w : Shape} {decls : List FunctionDecl}
    (wf : (Part.functions decls).WellFormed names) :
    (copies number).Framed w (.functions (FunctionDecl.relabelAll number id decls))
      (.functions decls) := by
  cases decls with
  | nil => exact .noFunctions
  | cons decl decls =>
    have kind : Scope.methodKind (decl.relabel number id) = Scope.methodKind decl := by
      cases decl
      rfl
    refine .moreFunctions ?_
      (functions_copied (wf.child .top (List.mem_cons_of_mem _ List.mem_cons_self)))
    rw [kind]
    exact function_copied (wf.child .top List.mem_cons_self)

end

end

/-! ## The same program twice -/

section
variable {names : String → Prop} {w : Shape}

theorem expr_framed (w : Shape) (e : Expr) : (copies id).Framed w (.expr e) (.expr e) := by
  have copied := expr_copied id w e
  rwa [Expr.relabel_same] at copied

theorem stmt_framed {s : Stmt} (wf : (Part.stmt s).WellFormed names)
    (opens : s.declares = true → Open w) : (copies id).Framed w (.stmt s) (.stmt s) := by
  have copied := stmt_copied id wf opens
  rwa [Stmt.relabel_same] at copied

theorem stmts_framed {ss : List Stmt} (wf : (Part.stmts ss).WellFormed names) (opens : Open w) :
    (copies id).Framed w (.stmts ss) (.stmts ss) := by
  have copied := stmts_copied id wf opens
  rwa [Stmt.relabelAll_same] at copied

theorem function_framed {kind : Scope.FunctionKind} {decl : FunctionDecl}
    (wf : (Part.function kind decl).WellFormed names) :
    (copies id).Framed w (.function kind decl) (.function kind decl) := by
  have copied : (copies id).Framed w _ _ := function_copied id wf
  rwa [FunctionDecl.relabel_same] at copied

theorem functions_framed {decls : List FunctionDecl}
    (wf : (Part.functions decls).WellFormed names) :
    (copies id).Framed w (.functions decls) (.functions decls) := by
  have copied : (copies id).Framed w _ _ := functions_copied id wf
  rwa [FunctionDecl.relabelAll_same] at copied

end

end Numbering

end Lox
