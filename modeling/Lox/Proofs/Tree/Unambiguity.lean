import Lox.Proofs.Tree.Matching

/-!
# The text of a tree decides the tree

The text of a legible tree decides the tree, but for the numbers of occurrences and the lines of
tokens. So two sources without strings, whose numbers are finite, are read as the same tree if their
trees are written alike.
-/
namespace Lox

open Scope (Part)

/-- One number for all. -/
def forget (_ : Nat) : Nat := 0

namespace Token

variable {t t' : Token}

/-- The lexeme of a token that was cut decides the token but for its line. -/
theorem Cut.moved_eq (h : t.Cut) (h' : t'.Cut) (same : t.lexeme = t'.lexeme) :
    t.moved forget = t'.moved forget := by
  rw [moved, moved, h.kind_eq h' same, same, forget, forget]

theorem Cut.moved_symbol {s : Symbol} (h : t.Cut) (h' : t'.Cut) (kind : t.kind = .symbol s)
    (kind' : t'.kind = .symbol s) : t.moved forget = t'.moved forget :=
  h.moved_eq h' (String.toList_inj.mp ((h.symbol kind).trans (h'.symbol kind').symm))

theorem Cut.moved_keyword {k : Keyword} (h : t.Cut) (h' : t'.Cut) (kind : t.kind = .keyword k)
    (kind' : t'.kind = .keyword k) : t.moved forget = t'.moved forget :=
  h.moved_eq h' ((h.keyword kind).trans (h'.keyword kind').symm)

end Token

/-! ## Expressions -/

mutual

/-- The form of a legible expression decides it. -/
theorem Expr.eq_of_form (e e' : Expr) (h : (Part.expr e).Throughout Part.Legible)
    (h' : (Part.expr e').Throughout Part.Legible) (same : e.form = e'.form) :
    e.relabel forget forget = e'.relabel forget forget := by
  have regular := h.here.regular
  have regular' := h'.here.regular
  have legible := h.here.tokens
  have legible' := h'.here.tokens
  cases Expr.matches_of_form h.here h'.here same with
  | @assign _ _ _ _ value value' names values =>
    have token := (legible _ (.head _)).cut.moved_eq (legible' _ (.head _)).cut names
    have valued := value.eq_of_form value' (h.part (.head _)) (h'.part (.head _)) values
    simp only [Expr.relabel, token, valued, forget]
  | @binary left right left' right' _ _ operators before after
  | @logical left right left' right' _ _ operators before after =>
    have token := (legible _ (.head _)).cut.moved_eq (legible' _ (.head _)).cut operators
    have before := left.eq_of_form left' (h.part (.head _)) (h'.part (.head _)) before
    have after := right.eq_of_form right' (h.part (.tail _ (.head _)))
      (h'.part (.tail _ (.head _))) after
    simp only [Expr.relabel, token, before, after]
  | @call callee callee' _ _ arguments arguments' callees lists =>
    have called := callee.eq_of_form callee' (h.part (.head _)) (h'.part (.head _)) callees
    have listed := Expr.eq_of_forms arguments arguments' (h.part (.tail _ (.head _)))
      (h'.part (.tail _ (.head _))) lists
    have closed := (legible _ (.head _)).cut.moved_symbol (legible' _ (.head _)).cut
      regular regular'
    simp only [Expr.relabel, called, closed, listed]
  | @get object object' _ _ objects names =>
    have owner := object.eq_of_form object' (h.part (.head _)) (h'.part (.head _)) objects
    have token := (legible _ (.head _)).cut.moved_eq (legible' _ (.head _)).cut names
    simp only [Expr.relabel, owner, token]
  | @grouping inner inner' contents =>
    have content := inner.eq_of_form inner' (h.part (.head _)) (h'.part (.head _)) contents
    simp only [Expr.relabel, content]
  | literal => rfl
  | @set object value object' value' _ _ objects names values =>
    have valued := value.eq_of_form value' (h.part (.head _)) (h'.part (.head _)) values
    have owner := object.eq_of_form object' (h.part (.tail _ (.head _)))
      (h'.part (.tail _ (.head _))) objects
    have token := (legible _ (.head _)).cut.moved_eq (legible' _ (.head _)).cut names
    simp only [Expr.relabel, owner, token, valued]
  | superRef names =>
    have keywords := (legible _ (.head _)).cut.moved_keyword (legible' _ (.head _)).cut
      regular.1 regular'.1
    have token := (legible _ (.tail _ (.head _))).cut.moved_eq
      (legible' _ (.tail _ (.head _))).cut names
    simp only [Expr.relabel, keywords, token, forget]
  | thisRef =>
    have keywords := (legible _ (.head _)).cut.moved_keyword (legible' _ (.head _)).cut
      regular regular'
    simp only [Expr.relabel, keywords, forget]
  | @unary right right' _ _ operators operands =>
    have token := (legible _ (.head _)).cut.moved_eq (legible' _ (.head _)).cut operators
    have operand := right.eq_of_form right' (h.part (.head _)) (h'.part (.head _)) operands
    simp only [Expr.relabel, token, operand]
  | var names =>
    have token := (legible _ (.head _)).cut.moved_eq (legible' _ (.head _)).cut names
    simp only [Expr.relabel, token, forget]

theorem Expr.eq_of_forms (es es' : List Expr) (h : (Part.exprs es).Throughout Part.Legible)
    (h' : (Part.exprs es').Throughout Part.Legible) (same : Expr.forms es = Expr.forms es') :
    Expr.relabelAll forget forget es = Expr.relabelAll forget forget es' := by
  cases es with
  | nil =>
    cases es' with
    | nil => rfl
    | cons => cases same
  | cons e es =>
    cases es' with
    | nil => cases same
    | cons e' es' =>
      simp only [Expr.forms, List.cons.injEq] at same
      have first := e.eq_of_form e' (h.part (.head _)) (h'.part (.head _)) same.1
      have others := Expr.eq_of_forms es es' (h.part (.tail _ (.head _)))
        (h'.part (.tail _ (.head _))) same.2
      simp only [Expr.relabelAll, first, others]

end

/-! ## Statements -/

theorem params_eq_of_words {params params' : List Token} (h : ∀ t ∈ params, t.Legible)
    (h' : ∀ t ∈ params', t.Legible)
    (same : params.map (fun t => SExpr.word t.lexeme) = params'.map fun t => SExpr.word t.lexeme) :
    params.map (Token.moved forget) = params'.map (Token.moved forget) := by
  induction params generalizing params' with
  | nil =>
    cases params' with
    | nil => rfl
    | cons => cases same
  | cons t params ih =>
    cases params' with
    | nil => cases same
    | cons t' params' =>
      simp only [List.map_cons, List.cons.injEq, SExpr.word.injEq] at same
      obtain ⟨first, others⟩ := List.forall_mem_cons.mp h
      obtain ⟨first', others'⟩ := List.forall_mem_cons.mp h'
      simp only [List.map_cons, first.cut.moved_eq first'.cut same.1, ih others others' same.2]

mutual

/-- The form of a legible statement decides it. -/
theorem Stmt.eq_of_form (s s' : Stmt) (h : (Part.stmt s).Throughout Part.Legible)
    (h' : (Part.stmt s').Throughout Part.Legible) (same : s.form = s'.form) :
    s.relabel forget forget = s'.relabel forget forget := by
  have regular := h.here.regular
  have regular' := h'.here.regular
  have legible := h.here.tokens
  have legible' := h'.here.tokens
  have alike := Stmt.matches_of_form same
  cases s with
  | block body =>
    cases alike with
    | @block _ body' contents =>
      have content := Stmt.eq_of_forms body body' (h.part (.head _)) (h'.part (.head _)) contents
      simp only [Stmt.relabel, content]
  | classDecl name parent methods =>
    cases alike with
    | @baseClass _ name' _ methods' names lists =>
      have token := (legible name (.head _)).cut.moved_eq (legible' name' (.head _)).cut names
      have listed := FunctionDecl.eq_of_forms methods methods' (h.part (.head _))
        (h'.part (.head _)) lists
      simp only [Stmt.relabel, token, listed]
    | @derivedClass _ name' parent parent' _ methods' names parents lists =>
      have token := (legible name (.head _)).cut.moved_eq (legible' name' (.head _)).cut names
      have parented := parent.eq_of_form parent' (h.part (.head _)) (h'.part (.head _)) parents
      have listed := FunctionDecl.eq_of_forms methods methods' (h.part (.tail _ (.head _)))
        (h'.part (.tail _ (.head _))) lists
      simp only [Stmt.relabel, token, parented, listed]
  | expression value =>
    cases alike with
    | @expression _ value' values =>
      have valued := value.eq_of_form value' (h.part (.head _)) (h'.part (.head _)) values
      simp only [Stmt.relabel, valued]
  | functionDecl decl =>
    cases alike with
    | @functionDecl _ decl' declared =>
      have declaration := decl.eq_of_form decl' (legible _ (.head _)) (legible' _ (.head _))
        (h.part (.head _)) (h'.part (.head _)) declared
      simp only [Stmt.relabel, declaration]
  | ifElse condition branch other =>
    -- The recursion goes into a branch that is there, so the cases are those of the option first.
    cases other with
    | none =>
      cases alike with
      | @ifThen _ condition' _ branch' conditions branches =>
        have tested := condition.eq_of_form condition' (h.part (.head _)) (h'.part (.head _))
          conditions
        have chosen := branch.eq_of_form branch' (h.part (.tail _ (.head _)))
          (h'.part (.tail _ (.head _))) branches
        simp only [Stmt.relabel, tested, chosen]
    | some other =>
      cases alike with
      | @ifElse _ condition' _ branch' _ other' conditions branches others =>
        have tested := condition.eq_of_form condition' (h.part (.head _)) (h'.part (.head _))
          conditions
        have chosen := branch.eq_of_form branch' (h.part (.tail _ (.head _)))
          (h'.part (.tail _ (.head _))) branches
        have rejected := other.eq_of_form other' (h.part (.tail _ (.tail _ (.head _))))
          (h'.part (.tail _ (.tail _ (.head _)))) others
        simp only [Stmt.relabel, tested, chosen, rejected]
  | print value =>
    cases alike with
    | @print _ value' values =>
      have valued := value.eq_of_form value' (h.part (.head _)) (h'.part (.head _)) values
      simp only [Stmt.relabel, valued]
  | returnWith keyword value =>
    cases alike with
    | @bareReturn _ keyword' =>
      have keywords := (legible keyword (.head _)).cut.moved_keyword
        (legible' keyword' (.head _)).cut regular regular'
      simp only [Stmt.relabel, keywords, Option.map_none]
    | @returnWith _ keyword' value value' values =>
      have keywords := (legible keyword (.head _)).cut.moved_keyword
        (legible' keyword' (.head _)).cut regular regular'
      have valued := value.eq_of_form value' (h.part (.head _)) (h'.part (.head _)) values
      simp only [Stmt.relabel, keywords, Option.map_some, valued]
  | varDecl name value =>
    cases alike with
    | @bareVariable _ name' names =>
      have token := (legible name (.head _)).cut.moved_eq (legible' name' (.head _)).cut names
      simp only [Stmt.relabel, token, Option.map_none]
    | @varDecl _ name' value value' names values =>
      have token := (legible name (.head _)).cut.moved_eq (legible' name' (.head _)).cut names
      have valued := value.eq_of_form value' (h.part (.head _)) (h'.part (.head _)) values
      simp only [Stmt.relabel, token, Option.map_some, valued]
  | whileLoop condition body =>
    cases alike with
    | @whileLoop _ condition' _ body' conditions bodies =>
      have tested := condition.eq_of_form condition' (h.part (.head _)) (h'.part (.head _))
        conditions
      have repeated := body.eq_of_form body' (h.part (.tail _ (.head _)))
        (h'.part (.tail _ (.head _))) bodies
      simp only [Stmt.relabel, tested, repeated]
termination_by structural s

theorem Stmt.eq_of_forms (ss ss' : List Stmt) (h : (Part.stmts ss).Throughout Part.Legible)
    (h' : (Part.stmts ss').Throughout Part.Legible) (same : Stmt.forms ss = Stmt.forms ss') :
    Stmt.relabelAll forget forget ss = Stmt.relabelAll forget forget ss' := by
  cases ss with
  | nil =>
    cases ss' with
    | nil => rfl
    | cons => cases same
  | cons s ss =>
    cases ss' with
    | nil => cases same
    | cons s' ss' =>
      simp only [Stmt.forms, List.cons.injEq] at same
      have first := s.eq_of_form s' (h.part (.head _)) (h'.part (.head _)) same.1
      have others := Stmt.eq_of_forms ss ss' (h.part (.tail _ (.head _)))
        (h'.part (.tail _ (.head _))) same.2
      simp only [Stmt.relabelAll, first, others]
termination_by structural ss

theorem FunctionDecl.eq_of_form (decl decl' : FunctionDecl) {kind kind' : Scope.FunctionKind}
    (named : decl.name.Legible) (named' : decl'.name.Legible)
    (h : (Part.function kind decl).Throughout Part.Legible)
    (h' : (Part.function kind' decl').Throughout Part.Legible) (same : decl.form = decl'.form) :
    decl.relabel forget forget = decl'.relabel forget forget := by
  have legible := h.here.tokens
  have legible' := h'.here.tokens
  obtain ⟨name, params, body⟩ := decl
  obtain ⟨name', params', body'⟩ := decl'
  have parts := (SExpr.head_eq same).2
  simp only [List.cons.injEq, SExpr.word.injEq, SExpr.list.injEq] at parts
  have listed : params.map (Token.moved forget) = params'.map (Token.moved forget) :=
    params_eq_of_words legible legible' parts.2.1
  have content := Stmt.eq_of_forms body body' (h.part (.head _)) (h'.part (.head _)) parts.2.2
  simp only [FunctionDecl.relabel, named.cut.moved_eq named'.cut parts.1, listed, content]
termination_by structural decl

theorem FunctionDecl.eq_of_forms (decls decls' : List FunctionDecl)
    (h : (Part.functions decls).Throughout Part.Legible)
    (h' : (Part.functions decls').Throughout Part.Legible)
    (same : FunctionDecl.forms decls = FunctionDecl.forms decls') :
    FunctionDecl.relabelAll forget forget decls = FunctionDecl.relabelAll forget forget decls' := by
  have legible := h.here.tokens
  have legible' := h'.here.tokens
  cases decls with
  | nil =>
    cases decls' with
    | nil => rfl
    | cons => cases same
  | cons decl decls =>
    cases decls' with
    | nil => cases same
    | cons decl' decls' =>
      simp only [FunctionDecl.forms, List.cons.injEq] at same
      have first := decl.eq_of_form decl' (legible _ (.head _)) (legible' _ (.head _))
        (h.part (.head _)) (h'.part (.head _)) same.1
      have others := FunctionDecl.eq_of_forms decls decls' (h.part (.tail _ (.head _)))
        (h'.part (.tail _ (.head _))) same.2
      simp only [FunctionDecl.relabelAll, first, others]
termination_by structural decls

end

/-! ## Texts -/

theorem Stmt.form_of_text {s s' : Stmt} (h : (Part.stmt s).Throughout Part.Legible)
    (h' : (Part.stmt s').Throughout Part.Legible) (same : s.text = s'.text) : s.form = s'.form := by
  have ends : Scan.Stops Glyph.isLetter [] := fun _ hc => absurd hc (Option.not_mem_none _)
  have glyphs := (s.shown h).split ends
  rw [same, (s'.shown h').split ends] at glyphs
  exact (SExpr.glyphs_unambiguous _ _ glyphs.symm).1

theorem Stmt.forms_of_texts {ss ss' : List Stmt} (h : (Part.stmts ss).Throughout Part.Legible)
    (h' : (Part.stmts ss').Throughout Part.Legible) (same : ss.map Stmt.text = ss'.map Stmt.text) :
    Stmt.forms ss = Stmt.forms ss' := by
  induction ss generalizing ss' with
  | nil =>
    cases ss' with
    | nil => rfl
    | cons => cases same
  | cons s ss ih =>
    cases ss' with
    | nil => cases same
    | cons s' ss' =>
      simp only [List.map_cons, List.cons.injEq] at same
      have first := Stmt.form_of_text (h.part (.head _)) (h'.part (.head _)) same.1
      have others := ih (h.part (.tail _ (.head _))) (h'.part (.tail _ (.head _))) same.2
      rw [Stmt.forms, Stmt.forms, first, others]

/-- A source that is scanned and parsed without a fault, has no strings and only finite numbers. -/
structure Printable (source : String) (n : Nat) : Prop where
  scanned : errorsOnly (scan source) = []
  parsed : (parse (okOnly (scan source)) n).faults = []
  printable : (okOnly (scan source)).all (·.kind.printable) = true

instance (source : String) (n : Nat) : Decidable (Printable source n) :=
  decidable_of_iff
    (errorsOnly (scan source) = [] ∧ (parse (okOnly (scan source)) n).faults = [] ∧
      (okOnly (scan source)).all (·.kind.printable) = true)
    ⟨fun h => ⟨h.1, h.2.1, h.2.2⟩, fun h => ⟨h.1, h.2, h.3⟩⟩

theorem Printable.legible {source : String} {n : Nat} (h : Printable source n) :
    (Part.stmts (parse (okOnly (scan source)) n).statements).Throughout Part.Legible := by
  refine .combine (fun _ => .mk) (Grammar.regular_parse _ n)
    (Grammar.from_parse h.parsed fun t ht => ?_)
  have scanned := List.takeWhile_subset _ ht
  have inner : decide (t.kind ≠ .endOfInput) = true :=
    List.mem_takeWhile_imp (p := fun t : Token => decide (t.kind ≠ .endOfInput)) ht
  exact ⟨cut_of_scan scanned (of_decide_eq_true inner), List.all_eq_true.mp h.printable t scanned⟩

/-- The texts of its statements decide the tree of a source, but for the numbers of occurrences and
the lines of tokens. -/
theorem tree_of_texts {source source' : String} {n n' : Nat} (h : Printable source n)
    (h' : Printable source' n')
    (same : (parse (okOnly (scan source)) n).statements.map Stmt.text =
      (parse (okOnly (scan source')) n').statements.map Stmt.text) :
    Stmt.relabelAll forget forget (parse (okOnly (scan source)) n).statements =
      Stmt.relabelAll forget forget (parse (okOnly (scan source')) n').statements :=
  Stmt.eq_of_forms _ _ h.legible h'.legible (Stmt.forms_of_texts h.legible h'.legible same)

def spacedSource : String :=
  "class A < B \x7b m(x, y) \x7b return; \x7d \x7d\nif (a) b = -1.5;\nelse b.c = (a - 1);"

def denseSource : String :=
  "class A<B\x7bm(x,y)\x7breturn;\x7d\x7dif(a)b=-1.50;else b.c=(a-1.0);"

/-- One program in two layouts, with other numerals and read from another count of occurrences. -/
theorem layouts_same_tree :
    Stmt.relabelAll forget forget (parse (okOnly (scan spacedSource)) 0).statements =
      Stmt.relabelAll forget forget (parse (okOnly (scan denseSource)) 7).statements := by
  have spaced : Printable spacedSource 0 := by decide +kernel
  have dense : Printable denseSource 7 := by decide +kernel
  exact tree_of_texts spaced dense (by decide +kernel)

/-- A string is written without its quotes, like a number here. -/
example :
    (parse (okOnly (scan "print \"1.0\";")) 0).statements.map Stmt.text =
      (parse (okOnly (scan "print 1;")) 0).statements.map Stmt.text := by
  decide +kernel

end Lox
