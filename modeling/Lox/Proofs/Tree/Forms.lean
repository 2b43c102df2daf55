import Lox.Proofs.Grammar.Provenance
import Lox.Proofs.Numeral.Pointed
import Lox.Proofs.Tree.Glyphs

/-!
# Trees as symbolic expressions

The text of a tree is that of a symbolic expression, if the names in the tree are words and the
numbers are finite and there are no strings: read as glyphs, the text gives those of the expression.
-/
namespace Lox

open Scope (Part)
open Scan (Stops)

/-! ## Legible trees -/

/-- No string, and no number without a finite value. -/
def TokenKind.printable : TokenKind → Bool
  | .string _ => false
  | .number v =>
    match Numeral.classify v with
    | .finite _ => true
    | _ => false
  | _ => true

structure Token.Legible (t : Token) : Prop where
  cut : t.Cut
  printable : t.kind.printable = true

/-- A node of which all tokens are legible and have the kinds that the grammar has there. -/
structure Scope.Part.Legible (p : Part) : Prop where
  regular : p.Regular
  tokens : p.From Token.Legible

/-- A literal that is written as one word. -/
def Literal.Legible : Literal → Prop
  | .number v => ∃ p, Numeral.classify v = .finite p
  | .string _ => False
  | _ => True

theorem TokenKind.finite_of_printable {v : Float} (h : (number v).printable = true) :
    ∃ p, Numeral.classify v = .finite p := by
  cases kind : Numeral.classify v with
  | finite p => exact ⟨p, rfl⟩
  | notANumber | infinite => simp [printable, kind] at h

theorem Literal.legible {value : Literal} (h : (Part.expr (.literal value)).Legible) :
    value.Legible := by
  rcases h.tokens with rfl | ⟨t, legible, denotes⟩
  · trivial
  have printable := legible.printable
  unfold Grammar.literal? at denotes
  split at denotes
  case h_4 v kind =>
    cases denotes
    rw [kind] at printable
    exact TokenKind.finite_of_printable printable
  case h_5 text kind =>
    rw [kind] at printable
    cases printable
  all_goals
    cases denotes
    try trivial

/-! ## Words -/

namespace Glyph

theorem isWord_of_shaped {text : String} (h : Scan.Shaped .word text.toList) : IsWord text := by
  have letter {c : Char} (hc : Scan.Letter c ∨ Scan.Digit c) : isLetter c = true :=
    isLetter_of (by decide) ((Scan.wordPart_iff c).mp hc)
  generalize hl : text.toList = letters at h
  cases h with
  | word first inside =>
    refine ⟨by simp [hl], ?_⟩
    rw [hl]
    exact List.forall_mem_cons.mpr ⟨letter (.inl first), fun d hd => letter (inside d hd)⟩

theorem isWord_pointed {v : Float} {p : Nat} (finite : Numeral.classify v = .finite p) :
    IsWord (Numeral.pointed v) := by
  obtain ⟨c, cs, starts, _⟩ := Numeral.pointed_cons finite
  refine ⟨by simp [starts], fun c hc => ?_⟩
  rcases Numeral.mem_pointed finite c hc with digit | rfl | rfl
  · exact isLetter_of (by decide) digit
  · decide
  · decide

theorem isWord_literal {value : Literal} (h : value.Legible) : IsWord value.text := by
  cases value with
  | nil => decide
  | bool value => cases value <;> decide
  | number v =>
    obtain ⟨p, finite⟩ := h
    exact isWord_pointed finite
  | string text => exact absurd h not_false

end Glyph

/-- The operators as they are written. -/
def operatorWords : List String :=
  ["!", "-", "+", "*", "/", ">", ">=", "<", "<=", "==", "!=", "or", "and"]

theorem isWord_operator : ∀ text ∈ operatorWords, Glyph.IsWord text := by decide

namespace Token

variable {t : Token}

def IsOperator (t : Token) : Prop :=
  t.kind ∈ unaryKinds ∨ t.kind ∈ binaryKinds ∨ t.kind ∈ logicalKinds

theorem Cut.operator (h : t.Cut) (operates : t.IsOperator) : t.lexeme ∈ operatorWords := by
  have symbol (s : Symbol) (hs : t.kind = .symbol s) : t.lexeme = String.ofList s.spelling := by
    rw [← h.symbol hs, String.ofList_toList]
  simp only [IsOperator, unaryKinds, binaryKinds, logicalKinds, List.mem_cons, List.not_mem_nil,
    or_false] at operates
  rcases operates with (kind | kind) | (kind | kind | kind | kind | kind | kind | kind | kind |
    kind | kind) | (kind | kind)
  all_goals
    first
      | rw [h.keyword kind]
        decide
      | rw [symbol _ kind]
        decide

theorem Legible.isWord (h : t.Legible) (kind : t.kind = .identifier) : Glyph.IsWord t.lexeme :=
  Glyph.isWord_of_shaped (h.cut.identifier kind).1

theorem Legible.isWord_operator (h : t.Legible) (operates : t.IsOperator) : Glyph.IsWord t.lexeme :=
  Lox.isWord_operator _ (h.cut.operator operates)

end Token

/-! ## Forms -/

mutual

/-- A tree as a symbolic expression. -/
def Expr.form : Expr → SExpr
  | .assign _ name value => .list [.word "=", .word name.lexeme, value.form]
  | .binary left operator right => .list [.word operator.lexeme, left.form, right.form]
  | .call callee _ arguments => .list (.word "call" :: callee.form :: Expr.forms arguments)
  | .get object name => .list [.word ".", object.form, .word name.lexeme]
  | .grouping inner => .list [.word "group", inner.form]
  | .literal value => .word value.text
  | .logical left operator right => .list [.word operator.lexeme, left.form, right.form]
  | .set object name value =>
    .list [.word "=", .list [.word ".", object.form, .word name.lexeme], value.form]
  | .superRef _ _ method => .list [.word "super", .word method.lexeme]
  | .thisRef _ _ => .word "this"
  | .unary operator right => .list [.word operator.lexeme, right.form]
  | .var _ name => .word name.lexeme

def Expr.forms : List Expr → List SExpr
  | [] => []
  | e :: es => e.form :: Expr.forms es

end

mutual

def Stmt.form : Stmt → SExpr
  | .block body => .list (.word "block" :: Stmt.forms body)
  | .classDecl name none methods =>
    .list (.word "class" :: .word name.lexeme :: FunctionDecl.forms methods)
  | .classDecl name (some parent) methods =>
    .list (.word "class" :: .word name.lexeme :: .word "<" :: parent.form ::
      FunctionDecl.forms methods)
  | .expression value => .list [.word ";", value.form]
  | .functionDecl decl => decl.form
  | .ifElse condition branch none => .list [.word "if", condition.form, branch.form]
  | .ifElse condition branch (some other) =>
    .list [.word "if-else", condition.form, branch.form, other.form]
  | .print value => .list [.word "print", value.form]
  | .returnWith _ none => .list [.word "return"]
  | .returnWith _ (some value) => .list [.word "return", value.form]
  | .varDecl name none => .list [.word "var", .word name.lexeme]
  | .varDecl name (some value) => .list [.word "var", .word name.lexeme, .word "=", value.form]
  | .whileLoop condition body => .list [.word "while", condition.form, body.form]

def Stmt.forms : List Stmt → List SExpr
  | [] => []
  | s :: ss => s.form :: Stmt.forms ss

def FunctionDecl.form : FunctionDecl → SExpr
  | ⟨name, params, body⟩ =>
    .list (.word "fun" :: .word name.lexeme :: .list (params.map fun t => .word t.lexeme) ::
      Stmt.forms body)

def FunctionDecl.forms : List FunctionDecl → List SExpr
  | [] => []
  | decl :: decls => decl.form :: FunctionDecl.forms decls

end

/-! ## The glyphs of a text -/

/-- What stands after a space or not at all is parted from what stands before it. -/
theorem Expr.parted_texts (es : List Expr) {rest : List Char} (stops : Stops Glyph.isLetter rest) :
    Stops Glyph.isLetter ((Expr.texts es).toList ++ rest) := by
  cases es with
  | nil => simpa [Expr.texts] using stops
  | cons e es => simp [Expr.texts]

theorem Stmt.parted_texts (ss : List Stmt) {rest : List Char} (stops : Stops Glyph.isLetter rest) :
    Stops Glyph.isLetter ((Stmt.texts ss).toList ++ rest) := by
  cases ss with
  | nil => simpa [Stmt.texts] using stops
  | cons s ss => simp [Stmt.texts]

theorem FunctionDecl.parted_texts (decls : List FunctionDecl) {rest : List Char}
    (stops : Stops Glyph.isLetter rest) :
    Stops Glyph.isLetter ((FunctionDecl.texts decls).toList ++ rest) := by
  cases decls with
  | nil => simpa [FunctionDecl.texts] using stops
  | cons decl decls => simp [FunctionDecl.texts]

theorem Token.Legible.shown {t : Token} (h : t.Legible) (kind : t.kind = .identifier) :
    Glyph.Shown t.lexeme [.word t.lexeme] :=
  Glyph.shown_word (h.isWord kind)

theorem Token.Legible.shown_operator {t : Token} (h : t.Legible) (operates : t.IsOperator) :
    Glyph.Shown t.lexeme [.word t.lexeme] :=
  Glyph.shown_word (h.isWord_operator operates)

theorem shown_params (params : List Token) (h : ∀ t ∈ params, Glyph.IsWord t.lexeme) :
    Glyph.Shown (", ".intercalate (params.map Token.lexeme))
      (params.map fun t => .word t.lexeme) := by
  intro rest stops
  induction params with
  | nil => simp
  | cons t params ih =>
    obtain ⟨first, others⟩ := List.forall_mem_cons.mp h
    cases params with
    | nil => simp [(Glyph.shown_word first).split, stops]
    | cons t' params => simpa [(Glyph.shown_word first).split] using ih others

/-- The glyphs of words in a list. -/
theorem SExpr.glyphsAll_words (words : List String) :
    glyphsAll (words.map .word) = words.map .word := by
  induction words with
  | nil => rfl
  | cons text words ih => exact congrArg (.word text :: ·) ih

open Glyph in
mutual

theorem Expr.shown (e : Expr) (h : (Part.expr e).Throughout Part.Legible) :
    Shown e.text e.form.glyphs := by
  intro rest stops
  have regular := h.here.regular
  have legible := h.here.tokens
  cases e with
  | assign id name value =>
    have named := (legible name (.head _)).shown regular
    have valued := value.shown (h.part (.head _))
    simp [Expr.text, Expr.form, named.split, valued.split]
  | binary left operator right =>
    have operates := (legible operator (.head _)).shown_operator (.inr (.inl regular))
    have before := left.shown (h.part (.head _))
    have after := right.shown (h.part (.tail _ (.head _)))
    simp [Expr.text, Expr.form, operates.split, before.split, after.split]
  | call callee paren arguments =>
    have called := callee.shown (h.part (.head _))
    have listed := Expr.shownAll arguments (h.part (.tail _ (.head _)))
    simp [Expr.text, Expr.form, called.split, listed.split, Expr.parted_texts]
  | get object name =>
    have owner := object.shown (h.part (.head _))
    have named := (legible name (.head _)).shown regular
    simp [Expr.text, Expr.form, owner.split, named.split]
  | grouping inner =>
    have content := inner.shown (h.part (.head _))
    simp [Expr.text, Expr.form, content.split]
  | literal value =>
    have valued := shown_word (isWord_literal (Literal.legible h.here))
    simp [Expr.text, Expr.form, valued.split, stops]
  | logical left operator right =>
    have operates := (legible operator (.head _)).shown_operator (.inr (.inr regular))
    have before := left.shown (h.part (.head _))
    have after := right.shown (h.part (.tail _ (.head _)))
    simp [Expr.text, Expr.form, operates.split, before.split, after.split]
  | set object name value =>
    have valued := value.shown (h.part (.head _))
    have owner := object.shown (h.part (.tail _ (.head _)))
    have named := (legible name (.head _)).shown regular
    simp [Expr.text, Expr.form, owner.split, named.split, valued.split]
  | superRef id keyword method =>
    have named := (legible method (.tail _ (.head _))).shown regular.2
    simp [Expr.text, Expr.form, named.split]
  | thisRef id keyword =>
    rw [Expr.text, Expr.form, SExpr.glyphs]
    exact shown_word (by decide) rest stops
  | unary operator right =>
    have operates := (legible operator (.head _)).shown_operator (.inl regular)
    have operand := right.shown (h.part (.head _))
    simp [Expr.text, Expr.form, operates.split, operand.split]
  | var id name =>
    have named := (legible name (.head _)).shown regular
    simp [Expr.text, Expr.form, named.split, stops]

theorem Expr.shownAll (es : List Expr) (h : (Part.exprs es).Throughout Part.Legible) :
    Shown (Expr.texts es) (SExpr.glyphsAll (Expr.forms es)) := by
  intro rest stops
  cases es with
  | nil => simp [Expr.texts, Expr.forms]
  | cons e es =>
    have first := e.shown (h.part (.head _))
    have others := Expr.shownAll es (h.part (.tail _ (.head _)))
    simp [Expr.texts, Expr.forms, first.split, others.split, Expr.parted_texts, stops]

end

open Glyph in
mutual

theorem Stmt.shown (s : Stmt) (h : (Part.stmt s).Throughout Part.Legible) :
    Shown s.text s.form.glyphs := by
  intro rest stops
  have regular := h.here.regular
  have legible := h.here.tokens
  cases s with
  | block body =>
    have content := Stmt.shownAll body (h.part (.head _))
    -- Behind this first word there may be no blank.
    have headed {more : List Char} (parted : Stops isLetter more) :
        split [] ("(block".toList ++ more) = .opening :: .word "block" :: split [] more := by
      show .opening :: split [] ("block".toList ++ more) = _
      rw [split_word (by decide) parted]
    simp only [Stmt.text, String.toList_append, List.append_assoc]
    rw [headed (Stmt.parted_texts body (by simp))]
    simp [Stmt.form, content.split]
  | classDecl name parent methods =>
    have named := (legible name (.head _)).shown regular.1
    cases parent with
    | none =>
      have listed := FunctionDecl.shownAll methods (h.part (.head _))
      simp [Stmt.text, Stmt.form, named.split, listed.split, FunctionDecl.parted_texts]
    | some parent =>
      have parented := parent.shown (h.part (.head _))
      have listed := FunctionDecl.shownAll methods (h.part (.tail _ (.head _)))
      simp [Stmt.text, Stmt.form, named.split, parented.split, listed.split,
        FunctionDecl.parted_texts]
  | expression value | print value =>
    have valued := value.shown (h.part (.head _))
    simp [Stmt.text, Stmt.form, valued.split]
  | functionDecl decl =>
    have named := (legible decl.name (.head _)).shown regular
    have declared := decl.shown .function named (h.part (.head _))
    simpa [Stmt.text, Stmt.form] using declared.split stops
  | ifElse condition branch other =>
    have tested := condition.shown (h.part (.head _))
    have chosen := branch.shown (h.part (.tail _ (.head _)))
    cases other with
    | none => simp [Stmt.text, Stmt.form, tested.split, chosen.split]
    | some other =>
      have rejected := other.shown (h.part (.tail _ (.tail _ (.head _))))
      simp [Stmt.text, Stmt.form, tested.split, chosen.split, rejected.split]
  | returnWith keyword value =>
    cases value with
    | none => simp [Stmt.text, Stmt.form]
    | some value =>
      have valued := value.shown (h.part (.head _))
      simp [Stmt.text, Stmt.form, valued.split]
  | varDecl name value =>
    have named := (legible name (.head _)).shown regular
    cases value with
    | none => simp [Stmt.text, Stmt.form, named.split]
    | some value =>
      have valued := value.shown (h.part (.head _))
      simp [Stmt.text, Stmt.form, named.split, valued.split]
  | whileLoop condition body =>
    have tested := condition.shown (h.part (.head _))
    have repeated := body.shown (h.part (.tail _ (.head _)))
    simp [Stmt.text, Stmt.form, tested.split, repeated.split]

theorem Stmt.shownAll (ss : List Stmt) (h : (Part.stmts ss).Throughout Part.Legible) :
    Shown (Stmt.texts ss) (SExpr.glyphsAll (Stmt.forms ss)) := by
  intro rest stops
  cases ss with
  | nil => simp [Stmt.texts, Stmt.forms]
  | cons s ss =>
    have first := s.shown (h.part (.head _))
    have others := Stmt.shownAll ss (h.part (.tail _ (.head _)))
    simp [Stmt.texts, Stmt.forms, first.split, others.split, Stmt.parted_texts, stops]

theorem FunctionDecl.shown (decl : FunctionDecl) (kind : Scope.FunctionKind)
    (named : Shown decl.name.lexeme [.word decl.name.lexeme])
    (h : (Part.function kind decl).Throughout Part.Legible) : Shown decl.text decl.form.glyphs := by
  intro rest stops
  have regular := h.here.regular
  have legible := h.here.tokens
  obtain ⟨name, params, body⟩ := decl
  have listed := shown_params params fun t ht => (legible t ht).isWord (regular t ht)
  have content := Stmt.shownAll body (h.part (.head _))
  have words := SExpr.glyphsAll_words (params.map Token.lexeme)
  simp only [List.map_map, Function.comp_def] at words
  simp [FunctionDecl.text, FunctionDecl.form, named.split, listed.split, content.split, words,
    -String.toList_intercalate]

theorem FunctionDecl.shownAll (decls : List FunctionDecl)
    (h : (Part.functions decls).Throughout Part.Legible) :
    Shown (FunctionDecl.texts decls) (SExpr.glyphsAll (FunctionDecl.forms decls)) := by
  intro rest stops
  have regular := h.here.regular
  have legible := h.here.tokens
  cases decls with
  | nil => simp [FunctionDecl.texts, FunctionDecl.forms]
  | cons decl decls =>
    have named := (legible decl.name (.head _)).shown (regular decl (.head _))
    have first := decl.shown _ named (h.part (.head _))
    have others := FunctionDecl.shownAll decls (h.part (.tail _ (.head _)))
    simp [FunctionDecl.texts, FunctionDecl.forms, first.split, others.split,
      FunctionDecl.parted_texts, stops]

end

end Lox
