import Lox.Proofs.Alike.Recast
import Lox.Proofs.Grammar.Relabelling

/-!
# Numbers and lines do not matter for scoping

The walk over a program with other numbers and other lines finds the same faults at the other
lines, and the same distances under the other numbers. Such a program is written anew in no other
way.
-/
namespace Lox

@[simp] theorem Token.lexeme_moved (line : Nat → Nat) (t : Token) :
    (t.moved line).lexeme = t.lexeme := rfl

variable {number line : Nat → Nat}

@[simp] theorem FunctionDecl.name_relabel (decl : FunctionDecl) :
    (decl.relabel number line).name = decl.name.moved line := by
  cases decl
  rfl

namespace Scope

def Occurrence.renumber (number : Nat → Nat) (o : Occurrence) : Occurrence :=
  { o with id := number o.id }

def Report.relabel (number line : Nat → Nat) (r : Report) : Report :=
  ⟨r.occurrences.map (Occurrence.renumber number), r.faults.map (Fault.moved line)⟩

theorem Report.faults_relabel_id (number : Nat → Nat) (r : Report) :
    (r.relabel number id).faults = r.faults := by
  rw [relabel, funext Fault.moved_id]
  exact List.map_id r.faults

@[simp] theorem Report.relabel_append (a b : Report) :
    (a ++ b).relabel number line = a.relabel number line ++ b.relabel number line := by
  simp only [relabel, occurrences_append, faults_append, List.map_append]
  rfl

@[simp] theorem Report.relabel_nothing : Report.nothing.relabel number line = .nothing := rfl

@[simp] theorem Report.relabel_fault (cause : ScopeCause) (token : Token) :
    (Report.fault cause token).relabel number line = .fault cause (token.moved line) := rfl

@[simp] theorem Report.relabel_ite (c : Prop) [Decidable c] (a b : Report) :
    (if c then a else b).relabel number line =
      if c then a.relabel number line else b.relabel number line := by
  split <;> rfl

@[simp] theorem relabel_occurrence (ctx : Context) (id : Nat) (name : Token) :
    (occurrence ctx id name).relabel number line =
      occurrence ctx (number id) (name.moved line) := rfl

theorem declare_moved (number : Nat → Nat) (scopes : Scopes) (name : Token) :
    declare scopes (name.moved line) =
      ((declare scopes name).1, (declare scopes name).2.relabel number line) := by
  cases scopes with
  | nil => rfl
  | cons scope outer =>
    simp only [declare, Token.lexeme_moved, Report.relabel_ite, Report.relabel_fault,
      Report.relabel_nothing]
    rfl

theorem introduce_moved (number : Nat → Nat) (scopes : Scopes) (name : Token) :
    introduce scopes (name.moved line) =
      ((introduce scopes name).1, (introduce scopes name).2.relabel number line) := by
  simp only [introduce, declare_moved number, Token.lexeme_moved]

theorem introduceAll_moved (number : Nat → Nat) (scopes : Scopes) (names : List Token) :
    introduceAll scopes (names.map (Token.moved line)) =
      ((introduceAll scopes names).1, (introduceAll scopes names).2.relabel number line) := by
  induction names generalizing scopes with
  | nil => rfl
  | cons name names ih =>
    simp only [List.map_cons, introduceAll, introduce_moved number, ih,
      Report.relabel_append]

mutual

theorem expr_relabel (ctx : Context) (e : Expr) :
    expr ctx (e.relabel number line) = (expr ctx e).relabel number line := by
  cases e with
  | assign id name value => simp [Expr.relabel, expr, expr_relabel ctx value]
  | binary left operator right =>
    simp [Expr.relabel, expr, expr_relabel ctx left, expr_relabel ctx right]
  | call callee paren arguments =>
    simp [Expr.relabel, expr, expr_relabel ctx callee, exprs_relabel ctx arguments]
  | get object name => simp [Expr.relabel, expr, expr_relabel ctx object]
  | grouping inner => simp [Expr.relabel, expr, expr_relabel ctx inner]
  | literal value => rfl
  | logical left operator right =>
    simp [Expr.relabel, expr, expr_relabel ctx left, expr_relabel ctx right]
  | set object name value =>
    simp [Expr.relabel, expr, expr_relabel ctx object, expr_relabel ctx value]
  | superRef id keyword method =>
    simp only [Expr.relabel, expr]
    split <;> rfl
  | thisRef id keyword =>
    simp only [Expr.relabel, expr]
    split <;> rfl
  | unary operator right => simp [Expr.relabel, expr, expr_relabel ctx right]
  | var id name =>
    simp only [Expr.relabel, expr, Report.relabel_append, Report.relabel_ite, Report.relabel_fault,
      Report.relabel_nothing]
    rfl

theorem exprs_relabel (ctx : Context) (es : List Expr) :
    exprs ctx (Expr.relabelAll number line es) = (exprs ctx es).relabel number line := by
  cases es with
  | nil => rfl
  | cons e es =>
    simp [Expr.relabelAll, exprs, expr_relabel ctx e, exprs_relabel ctx es]

end

theorem optional_relabel (ctx : Context) (value : Option Expr) :
    optional ctx (value.map (Expr.relabel number line)) =
      (optional ctx value).relabel number line := by
  cases value with
  | none => rfl
  | some e => exact expr_relabel ctx e

theorem returned_relabel (ctx : Context) (keyword : Token) (value : Option Expr) :
    returned ctx (keyword.moved line) (value.map (Expr.relabel number line)) =
      (returned ctx keyword value).relabel number line := by
  simp [returned, optional_relabel]

theorem superclass_relabel (ctx : Context) (name : Token) (e : Expr) :
    superclass ctx (name.moved line) (e.relabel number line) =
      (superclass ctx name e).relabel number line := by
  cases e with
  | var id parent =>
    simp only [Expr.relabel, superclass, expr, Report.relabel_append, Report.relabel_ite,
      Report.relabel_fault, Report.relabel_nothing]
    rfl
  | _ => exact expr_relabel ctx _

mutual

theorem stmt_relabel (ctx : Context) (s : Stmt) :
    stmt ctx (s.relabel number line) = ((stmt ctx s).1, (stmt ctx s).2.relabel number line) := by
  cases s with
  | block body => simp only [Stmt.relabel, stmt, stmts_relabel _ body]
  | classDecl name parent methods =>
    cases parent with
    | none =>
      simp [Stmt.relabel, stmt, introduce_moved number, functions_relabel _ methods]
    | some e =>
      simp [Stmt.relabel, stmt, introduce_moved number, functions_relabel _ methods,
        superclass_relabel]
  | expression value => simp only [Stmt.relabel, stmt, expr_relabel]
  | functionDecl decl =>
    simp [Stmt.relabel, stmt, introduce_moved number, function_relabel _ _ decl]
  | ifElse condition branch other =>
    cases other with
    | none => simp [Stmt.relabel, stmt, expr_relabel, stmt_relabel ctx branch]
    | some other =>
      simp [Stmt.relabel, stmt, expr_relabel, stmt_relabel _ branch, stmt_relabel _ other]
  | print value => simp only [Stmt.relabel, stmt, expr_relabel]
  | returnWith keyword value => simp only [Stmt.relabel, stmt, returned_relabel]
  | varDecl name value =>
    simp [Stmt.relabel, stmt, declare_moved number, optional_relabel]
  | whileLoop condition body =>
    simp [Stmt.relabel, stmt, expr_relabel, stmt_relabel ctx body]

theorem stmts_relabel (ctx : Context) (ss : List Stmt) :
    stmts ctx (Stmt.relabelAll number line ss) = (stmts ctx ss).relabel number line := by
  cases ss with
  | nil => rfl
  | cons s ss =>
    simp [Stmt.relabelAll, stmts, stmt_relabel ctx s, stmts_relabel _ ss]

theorem function_relabel (ctx : Context) (kind : FunctionKind) (decl : FunctionDecl) :
    function ctx kind (decl.relabel number line) =
      (function ctx kind decl).relabel number line := by
  obtain ⟨name, params, body⟩ := decl
  simp [FunctionDecl.relabel, function, introduceAll_moved number,
    stmts_relabel _ body]

theorem functions_relabel (ctx : Context) (decls : List FunctionDecl) :
    functions ctx (FunctionDecl.relabelAll number line decls) =
      (functions ctx decls).relabel number line := by
  cases decls with
  | nil => rfl
  | cons decl decls =>
    have same : methodKind (decl.relabel number line) = methodKind decl := by
      simp [methodKind, FunctionDecl.isInitializer]
    simp [FunctionDecl.relabelAll, functions, same, function_relabel ctx _ decl,
      functions_relabel ctx decls]

end

end Scope

theorem Scope.Report.Numbered.forward {r : Scope.Report} {n m : Nat} (h : r.Numbered n m)
    (k : Nat) (line : Nat → Nat) : (r.relabel (k + ·) line).Numbered (k + n) (k + m) := by
  obtain ⟨range, once⟩ := h
  constructor
  · intro o ho
    obtain ⟨made, hm, rfl⟩ := List.mem_map.mp ho
    have := range made hm
    exact ⟨Nat.add_le_add_left this.1 k, Nat.add_lt_add_left this.2 k⟩
  · have ids : (r.relabel (k + ·) line).occurrences.map Scope.Occurrence.id =
        (r.occurrences.map Scope.Occurrence.id).map (k + ·) := by
      simp only [Scope.Report.relabel, List.map_map]
      rfl
    rw [ids]
    exact once.map fun _ _ => Nat.add_left_cancel

/-- The report on a program with other numbers and lines. -/
theorem resolve_relabel (number line : Nat → Nat) (program : List Stmt) :
    resolve (Stmt.relabelAll number line program) = (resolve program).relabel number line :=
  Scope.stmts_relabel _ program

/-! ## Other numbers and lines as a recast -/

/-- Only numbers and lines change. -/
def Recast.labels (number line : Nat → Nat) (distance : Nat → Option Nat) : Recast where
  number := number
  line := line
  distance := distance
  spelling _ := id

namespace Recast

variable {distance : Nat → Option Nat} {fs : List Spelling}

theorem occurrence_labels (plain : ∀ g ∈ fs, g = id) (id : Nat) (t : Token) :
    (labels number line distance).occurrence fs id t = t.moved line := by
  have same := Link.spellings_spellingAt (L := .faithful (fun _ _ _ => True) (· = ·)) plain
    (distance id)
  rw [occurrence, labels, same]
  rfl

theorem here_labels (plain : ∀ g ∈ fs, g = id) (t : Token) :
    (labels number line distance).name (spellingHere fs) t = t.moved line := by
  cases fs with
  | nil => rfl
  | cons g gs =>
    rw [spellingHere, List.headD_cons, plain g List.mem_cons_self]
    rfl

mutual

theorem expr_labels (plain : ∀ g ∈ fs, g = id) (e : Expr) :
    (labels number line distance).expr fs e = e.relabel number line := by
  cases e with
  | assign id name value =>
    rw [expr, occurrence_labels plain, expr_labels plain value]
    rfl
  | binary left operator right =>
    rw [expr, expr_labels plain left, expr_labels plain right]
    rfl
  | call callee paren arguments =>
    rw [expr, expr_labels plain callee, exprs_labels plain arguments]
    rfl
  | get object name =>
    rw [expr, expr_labels plain object]
    rfl
  | grouping inner =>
    rw [expr, expr_labels plain inner]
    rfl
  | literal value => rfl
  | logical left operator right =>
    rw [expr, expr_labels plain left, expr_labels plain right]
    rfl
  | set object name value =>
    rw [expr, expr_labels plain object, expr_labels plain value]
    rfl
  | superRef id keyword method =>
    rw [expr, occurrence_labels plain]
    rfl
  | thisRef id keyword =>
    rw [expr, occurrence_labels plain]
    rfl
  | unary operator right =>
    rw [expr, expr_labels plain right]
    rfl
  | var id name =>
    rw [expr, occurrence_labels plain]
    rfl

theorem exprs_labels (plain : ∀ g ∈ fs, g = id) (es : List Expr) :
    (labels number line distance).exprs fs es = Expr.relabelAll number line es := by
  cases es with
  | nil => rfl
  | cons e es =>
    rw [exprs, expr_labels plain e, exprs_labels plain es]
    rfl

end

theorem forall_id_cons (plain : ∀ g ∈ fs, g = id) : ∀ g ∈ id :: fs, g = id :=
  List.forall_mem_cons.mpr ⟨rfl, plain⟩

mutual

theorem stmt_labels {fs : List Spelling} (plain : ∀ g ∈ fs, g = id) (place : Place) (s : Stmt) :
    (labels number line distance).stmt place fs s = s.relabel number line := by
  cases s with
  | block body =>
    have content := stmts_labels (forall_id_cons plain) (0 :: place) body
    exact congrArg Stmt.block content
  | classDecl name parent methods =>
    cases parent with
    | none =>
      rw [stmt, functions_labels (forall_id_cons plain) _ methods]
      rfl
    | some e =>
      rw [stmt, expr_labels plain,
        functions_labels (forall_id_cons (forall_id_cons plain)) _ methods]
      rfl
  | expression value =>
    rw [stmt, expr_labels plain]
    rfl
  | functionDecl decl =>
    rw [stmt, function_labels plain _ decl]
    rfl
  | ifElse condition branch other =>
    cases other with
    | none =>
      rw [stmt, expr_labels plain, stmt_labels plain _ branch]
      rfl
    | some other =>
      rw [stmt, expr_labels plain, stmt_labels plain _ branch, stmt_labels plain _ other]
      rfl
  | print value =>
    rw [stmt, expr_labels plain]
    rfl
  | returnWith keyword value =>
    rw [stmt, funext (expr_labels plain)]
    rfl
  | varDecl name value =>
    rw [stmt, here_labels plain, funext (expr_labels plain)]
    rfl
  | whileLoop condition body =>
    rw [stmt, expr_labels plain, stmt_labels plain _ body]
    rfl

theorem stmts_labels {fs : List Spelling} (plain : ∀ g ∈ fs, g = id) (place : Place)
    (ss : List Stmt) :
    (labels number line distance).stmts place fs ss = Stmt.relabelAll number line ss := by
  cases ss with
  | nil => rfl
  | cons s ss =>
    rw [stmts, stmt_labels plain _ s, stmts_labels plain _ ss]
    rfl

theorem function_labels {fs : List Spelling} (plain : ∀ g ∈ fs, g = id) (place : Place)
    (decl : FunctionDecl) :
    (labels number line distance).function place fs decl = decl.relabel number line := by
  obtain ⟨name, params, body⟩ := decl
  have content := stmts_labels (forall_id_cons plain) (0 :: place) body
  exact congrArg (FunctionDecl.mk (name.moved line) (params.map (Token.moved line))) content

theorem functions_labels {fs : List Spelling} (plain : ∀ g ∈ fs, g = id) (place : Place)
    (decls : List FunctionDecl) :
    (labels number line distance).functions place fs decls =
      FunctionDecl.relabelAll number line decls := by
  cases decls with
  | nil => rfl
  | cons decl decls =>
    rw [functions, function_labels plain _ decl, functions_labels plain _ decls]
    rfl

end

end Recast

/-- A clean program is alike to the one with other numbers and lines. -/
theorem Link.alike_relabel {occurrences : Nat → Nat → Option Nat → Prop}
    {lines : Nat → Nat → Prop} {program : List Stmt} (distance : Nat → Option Nat)
    (clean : (resolve program).faults = [])
    (wf : (Scope.Part.stmts program).WellFormed fun _ => True) (moved : ∀ l, lines l (line l))
    (numbered : ∀ o ∈ (resolve program).occurrences,
      occurrences o.id (number o.id) (distance o.id)) :
    (Link.faithful occurrences lines).Alike [] (.stmts program)
      (.stmts (Stmt.relabelAll number line program)) := by
  have suits : (Recast.labels number line distance).Suits (.faithful occurrences lines) program :=
    ⟨fun _ => rfl, moved, numbered, fun _ _ _ _ => Spelling.fixes_id _,
      fun _ _ _ _ _ => Spelling.fixes_id _⟩
  have outside : ∀ g ∈ ([] : List Spelling), g = id := fun _ hg => nomatch hg
  have anew : (Recast.labels number line distance).stmts [] [] program =
      Stmt.relabelAll number line program :=
    Recast.stmts_labels outside [] program
  rw [← anew]
  exact suits.alike clean wf .program (Spelling.fixes_id _)

end Lox
