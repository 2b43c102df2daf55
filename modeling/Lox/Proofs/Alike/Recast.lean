import Lox.Proofs.Alike.Code
import Lox.Proofs.Scope.WellFormed

/-!
# Programs written anew

A program can be written anew with other numbers, lines and names. What a name becomes depends on
the scope in which it is declared, and an occurrence is written as in the scope to which it is
resolved. Scopes are told apart by their places.
-/
namespace Lox

open Scope (Part Context thisName superName)

/-- The way to a part from the whole program, by the positions among the children of a part, the
last one first. -/
abbrev Place := List Nat

/-- A place in a program, with the part there and what surrounds it. -/
inductive Reaches (program : List Stmt) : Place → Context → Part → Prop where
  | program : Reaches program [] .top (.stmts program)
  | child {place : Place} {ctx : Context} {part : Part} {c : Context × Part}
      (above : Reaches program place ctx part) (i : Nat) (hc : (part.children ctx)[i]? = some c) :
      Reaches program (i :: place) c.1 c.2

theorem Reaches.visits {program : List Stmt} {place : Place} {ctx : Context} {part : Part}
    (h : Reaches program place ctx part) : Scope.Visits program ctx part := by
  induction h with
  | program => exact .program program
  | child _ _ hc ih => exact ih.enter (List.mem_of_getElem? hc)

structure Recast where
  number : Nat → Nat
  line : Nat → Nat
  distance : Nat → Option Nat
  spelling : Place → Spelling

namespace Recast

def name (r : Recast) (f : Spelling) (t : Token) : Token := ⟨t.kind, f t.lexeme, r.line t.line⟩

def token (r : Recast) (t : Token) : Token := r.name id t

/-- An occurrence is written as in the scope at its distance. -/
def occurrence (r : Recast) (fs : List Spelling) (number : Nat) (t : Token) : Token :=
  r.name (spellingAt fs (r.distance number)) t

mutual

def expr (r : Recast) (fs : List Spelling) : Expr → Expr
  | .assign id name value =>
    .assign (r.number id) (r.occurrence fs id name) (r.expr fs value)
  | .binary left operator right => .binary (r.expr fs left) (r.token operator) (r.expr fs right)
  | .call callee paren arguments =>
    .call (r.expr fs callee) (r.token paren) (r.exprs fs arguments)
  | .get object name => .get (r.expr fs object) (r.token name)
  | .grouping inner => .grouping (r.expr fs inner)
  | .literal value => .literal value
  | .logical left operator right => .logical (r.expr fs left) (r.token operator) (r.expr fs right)
  | .set object name value => .set (r.expr fs object) (r.token name) (r.expr fs value)
  | .superRef id keyword method =>
    .superRef (r.number id) (r.occurrence fs id keyword) (r.token method)
  | .thisRef id keyword => .thisRef (r.number id) (r.occurrence fs id keyword)
  | .unary operator right => .unary (r.token operator) (r.expr fs right)
  | .var id name => .var (r.number id) (r.occurrence fs id name)

def exprs (r : Recast) (fs : List Spelling) : List Expr → List Expr
  | [] => []
  | e :: es => r.expr fs e :: r.exprs fs es

end

mutual

/-- The statement at a place. -/
def stmt (r : Recast) (place : Place) (fs : List Spelling) : Stmt → Stmt
  | .block body => .block (r.stmts (0 :: place) (r.spelling place :: fs) body)
  | .classDecl name none methods =>
    .classDecl (r.token name) none (r.functions (0 :: place) (id :: fs) methods)
  | .classDecl name (some parent) methods =>
    .classDecl (r.token name) (some (r.expr fs parent))
      (r.functions (1 :: place) (id :: id :: fs) methods)
  | .expression value => .expression (r.expr fs value)
  | .functionDecl decl => .functionDecl (r.function (0 :: place) fs decl)
  | .ifElse condition branch none =>
    .ifElse (r.expr fs condition) (r.stmt (1 :: place) fs branch) none
  | .ifElse condition branch (some other) =>
    .ifElse (r.expr fs condition) (r.stmt (1 :: place) fs branch)
      (some (r.stmt (2 :: place) fs other))
  | .print value => .print (r.expr fs value)
  | .returnWith keyword value => .returnWith (r.token keyword) (value.map (r.expr fs))
  | .varDecl name value => .varDecl (r.name (spellingHere fs) name) (value.map (r.expr fs))
  | .whileLoop condition body => .whileLoop (r.expr fs condition) (r.stmt (1 :: place) fs body)

def stmts (r : Recast) (place : Place) (fs : List Spelling) : List Stmt → List Stmt
  | [] => []
  | s :: ss => r.stmt (0 :: place) fs s :: r.stmts (1 :: place) fs ss

/-- A function keeps its name; its parameters are names of its own scope. -/
def function (r : Recast) (place : Place) (fs : List Spelling) : FunctionDecl → FunctionDecl
  | ⟨name, params, body⟩ =>
    ⟨r.token name, params.map (r.name (r.spelling place)),
      r.stmts (0 :: place) (r.spelling place :: fs) body⟩

def functions (r : Recast) (place : Place) (fs : List Spelling) :
    List FunctionDecl → List FunctionDecl
  | [] => []
  | decl :: decls => r.function (0 :: place) fs decl :: r.functions (1 :: place) fs decls

end

def program (r : Recast) (statements : List Stmt) : List Stmt := r.stmts [] [] statements

def part (r : Recast) (place : Place) (fs : List Spelling) : Part → Part
  | .expr e => .expr (r.expr fs e)
  | .exprs es => .exprs (r.exprs fs es)
  | .stmt s => .stmt (r.stmt place fs s)
  | .stmts ss => .stmts (r.stmts place fs ss)
  | .function kind decl => .function kind (r.function place fs decl)
  | .functions decls => .functions (r.functions place fs decls)

end Recast

/-! ## The new program is alike -/

/-- The name of a function or of a class that a statement declares. -/
def Stmt.shown? : Stmt → Option Token
  | .classDecl name _ _ => some name
  | .functionDecl decl => some decl.name
  | _ => none

theorem Stmt.shown?_of_not_declares {s : Stmt} (h : s.declares = false) : s.shown? = none := by
  cases s with
  | classDecl | functionDecl => cases h
  | _ => rfl

/-- The functions and classes that a part declares have their own names in a scope. -/
def Spelling.Fixes (f : Spelling) : Part → Prop
  | .stmt s => ∀ name ∈ s.shown?, f name.lexeme = name.lexeme
  | .stmts ss => ∀ s ∈ ss, ∀ name ∈ s.shown?, f name.lexeme = name.lexeme
  | _ => True

theorem Spelling.fixes_id (part : Part) : Fixes id part := by
  cases part with
  | stmt => exact fun _ _ => rfl
  | stmts => exact fun _ _ _ _ => rfl
  | _ => trivial

/-- Where nothing is declared nothing has a name to keep. -/
theorem Spelling.fixes_of_not_declares {s : Stmt} (h : s.declares = false) (f : Spelling) :
    f.Fixes (.stmt s) := by
  intro name hn
  rw [Stmt.shown?_of_not_declares h] at hn
  cases hn

/-- A way to write a program anew that a link allows. -/
structure Recast.Suits (r : Recast) (L : Link) (program : List Stmt) : Prop where
  spelling : ∀ place, L.spellings (r.spelling place)
  lines : ∀ line, L.lines line (r.line line)
  occurrences : ∀ o ∈ (resolve program).occurrences,
    L.occurrences o.id (r.number o.id) (r.distance o.id)
  blocks : ∀ place ctx body, Reaches program place ctx (.stmt (.block body)) →
    (r.spelling place).Fixes (.stmts body)
  bodies : ∀ place ctx kind decl, Reaches program place ctx (.function kind decl) →
    (r.spelling place).Fixes (.stmts decl.body)

namespace Recast

variable {r : Recast} {L : Link} {program : List Stmt} {fs : List Spelling}

theorem Suits.same (suits : r.Suits L program) (t : Token) : L.Same t (r.token t) :=
  ⟨rfl, rfl, suits.lines t.line⟩

theorem Suits.spelled (suits : r.Suits L program) {t : Token} (ht : L.names t.lexeme)
    (f : Spelling) : L.Spelled f t (r.name f t) :=
  ⟨rfl, ht, rfl, suits.lines t.line⟩

theorem Suits.kept (suits : r.Suits L program) {t : Token} (ht : L.names t.lexeme)
    {f : Spelling} (fixed : f t.lexeme = t.lexeme) : L.Kept f t (r.token t) :=
  ⟨suits.same t, ht, fixed⟩

theorem Suits.occurs (suits : r.Suits L program) {ctx : Context} {part : Part}
    (hv : Scope.Visits program ctx part) {id : Nat} {t : Token}
    (own : (Scope.occurrence ctx id t).occurrences ⊆ part.own ctx) (ht : L.names t.lexeme) :
    L.Occurs fs id t (r.number id) (r.occurrence fs id t) := by
  have visited := hv.occurrences (part.own_subset ctx (own (List.mem_singleton_self _)))
  exact ⟨r.distance id, suits.occurrences _ visited, suits.spelled ht _⟩

/-- A `super` without a fault is an occurrence. -/
theorem own_superRef {ctx : Context} {id : Nat} {keyword method : Token}
    (faultless : ((Part.expr (.superRef id keyword method)).report ctx).faults = []) :
    (Scope.occurrence ctx id keyword).occurrences ⊆
      (Part.expr (.superRef id keyword method)).own ctx := by
  simp only [Part.report, Scope.expr] at faultless
  simp only [Part.own]
  split at faultless
  · cases faultless
  · cases faultless
  · next derived =>
    rw [if_pos derived]
    exact List.Subset.refl _

theorem own_thisRef {ctx : Context} {id : Nat} {keyword : Token}
    (faultless : ((Part.expr (.thisRef id keyword)).report ctx).faults = []) :
    (Scope.occurrence ctx id keyword).occurrences ⊆ (Part.expr (.thisRef id keyword)).own ctx := by
  simp only [Part.report, Scope.expr] at faultless
  simp only [Part.own]
  split at faultless
  · cases faultless
  · next enclosed =>
    rw [enclosed, if_neg (by simp)]
    exact List.Subset.refl _

/-- Wherever the walk comes to, the part is alike to what it becomes. -/
theorem Suits.alike (suits : r.Suits L program) (clean : (resolve program).faults = [])
    {part : Part} (wf : part.WellFormed L.names) {place : Place} {ctx : Context}
    (h : Reaches program place ctx part) (fixed : (spellingHere fs).Fixes part) :
    L.Alike fs part (r.part place fs part) := by
  induction wf generalizing place ctx fs with
  | @intro part proper _ ih =>
    have hv := h.visits
    have faultless := hv.faults clean
    -- The part at a position below this one, with the spellings of its scopes.
    have below {c : Context × Part} (i : Nat) (hc : (part.children ctx)[i]? = some c)
        (gs : List Spelling) (fixed : (spellingHere gs).Fixes c.2) :
        L.Alike gs c.2 (r.part (i :: place) gs c.2) :=
      ih ctx c (List.mem_of_getElem? hc) (h.child i hc) fixed
    cases part with
    | expr e =>
      cases e with
      | assign id name value =>
        exact .assign (suits.occurs hv (List.Subset.refl _) proper) (below 0 rfl fs trivial)
      | binary left operator right =>
        exact .binary (below 0 rfl fs trivial) (suits.same _) (below 1 rfl fs trivial)
      | call callee paren arguments =>
        exact .call (below 0 rfl fs trivial) (suits.same _) (below 1 rfl fs trivial)
      | get object name => exact .get (below 0 rfl fs trivial) (suits.same _)
      | grouping inner => exact .grouping (below 0 rfl fs trivial)
      | literal value => exact .literal value
      | logical left operator right =>
        exact .logical (below 0 rfl fs trivial) (suits.same _) (below 1 rfl fs trivial)
      | set object name value =>
        exact .set (below 1 rfl fs trivial) (suits.same _) (below 0 rfl fs trivial)
      | superRef id keyword method =>
        have spelled : keyword.lexeme = superName := proper
        have named := (L.keywords superName (.inr rfl)).1
        exact .superRef spelled (suits.occurs hv (own_superRef faultless) (spelled ▸ named))
          (suits.same _)
      | thisRef id keyword =>
        have spelled : keyword.lexeme = thisName := proper
        have named := (L.keywords thisName (.inl rfl)).1
        exact .thisRef spelled (suits.occurs hv (own_thisRef faultless) (spelled ▸ named))
      | unary operator right => exact .unary (suits.same _) (below 0 rfl fs trivial)
      | var id name => exact .var (suits.occurs hv (List.Subset.refl _) proper)
    | exprs es =>
      cases es with
      | nil => exact .noExprs
      | cons e es => exact .moreExprs (below 0 rfl fs trivial) (below 1 rfl fs trivial)
    | stmt s =>
      cases s with
      | block body =>
        exact .block (suits.spelling place)
          (below 0 rfl (r.spelling place :: fs) (suits.blocks place ctx body h))
      | classDecl name parent methods =>
        have named := suits.kept proper.1 (fixed name rfl)
        cases parent with
        | none => exact .baseClass named (below 0 rfl (id :: fs) trivial)
        | some e =>
          obtain ⟨number, parent, rfl⟩ := proper.2 e rfl
          have inherits : L.Alike fs (.expr (.var number parent))
              (.expr (r.expr fs (.var number parent))) := below 0 rfl fs trivial
          cases inherits with
          | var occurs => exact .derivedClass named occurs (below 1 rfl (id :: id :: fs) trivial)
      | expression value => exact .expression (below 0 rfl fs trivial)
      | functionDecl decl =>
        obtain ⟨name, params, body⟩ := decl
        exact .functionDecl (suits.kept proper (fixed name rfl)) (below 0 rfl fs trivial)
      | ifElse condition branch other =>
        have tested := below 0 rfl fs trivial
        have chosen := below 1 rfl fs (Spelling.fixes_of_not_declares proper.1 _)
        cases other with
        | none => exact .ifThen tested chosen
        | some other =>
          exact .ifElse tested chosen
            (below 2 rfl fs (Spelling.fixes_of_not_declares (proper.2 other rfl) _))
      | print value => exact .print (below 0 rfl fs trivial)
      | returnWith keyword value =>
        cases value with
        | none => exact .bareReturn (suits.same keyword)
        | some e => exact .returnWith (suits.same keyword) (below 0 rfl fs trivial)
      | varDecl name value =>
        cases value with
        | none => exact .bareVariable (suits.spelled proper _)
        | some e => exact .initializedVariable (suits.spelled proper _) (below 0 rfl fs trivial)
      | whileLoop condition body =>
        exact .whileLoop (below 0 rfl fs trivial)
          (below 1 rfl fs (Spelling.fixes_of_not_declares proper _))
    | stmts ss =>
      cases ss with
      | nil => exact .noStmts
      | cons s ss =>
        have fixed := List.forall_mem_cons.mp fixed
        exact .moreStmts (below 0 rfl fs fixed.1) (below 1 rfl fs fixed.2)
    | function kind decl =>
      obtain ⟨name, params, body⟩ := decl
      have listed : List.Forall₂ (L.Spelled (r.spelling place)) params
          (params.map (r.name (r.spelling place))) :=
        List.forall₂_map_right_iff.mpr
          (List.forall₂_same.mpr fun param hp => suits.spelled (proper param hp) _)
      exact .function (suits.spelling place) (suits.same name) listed
        (below 0 rfl (r.spelling place :: fs) (suits.bodies place ctx kind _ h))
    | functions decls =>
      cases decls with
      | nil => exact .noFunctions
      | cons decl decls => exact .moreFunctions (below 0 rfl fs trivial) (below 1 rfl fs trivial)

end Recast

end Lox
