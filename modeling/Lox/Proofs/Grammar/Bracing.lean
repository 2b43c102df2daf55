import Lox.Proofs.Framed.Code

/-!
# Braces around a statement

Wherever the grammar has a statement it also has a block, so a statement may be put in braces, and
the source still has a derivation. The numbers of occurrences are the same, for braces are not
numbered. The tree differs in one block.
-/
namespace Lox.Grammar

open Lox.Numbering (copies expr_framed stmt_framed stmts_framed function_framed functions_framed)
open Scope (Part)
open Shape (Open)

/-- One of the statements in the tokens `w` of a phrase has braces around it in the tokens `w'`.
Only a statement can have them, not the declaration of a variable, a function or a class. -/
inductive Braced (style : DanglingElse) :
    Nat → List Token → List Token → Phrase → Phrase → Nat → Prop where
  | here {endsOpen : Bool} {tree : Stmt} (opened : opening.kind = .symbol .leftBrace)
      (statement : Derives style n w (.statement endsOpen tree) m)
      (closed : closing.kind = .symbol .rightBrace) :
      Braced style n w (opening :: (w ++ [closing])) (.statement endsOpen tree)
        (.statement false (.block [tree])) m
  | block {body body' : List Stmt} (opened : opening.kind = .symbol .leftBrace)
      (content : Braced style n w w' (.declarations body) (.declarations body') m)
      (closed : closing.kind = .symbol .rightBrace) :
      Braced style n (opening :: (w ++ [closing])) (opening :: (w' ++ [closing]))
        (.statement false (.block body)) (.statement false (.block body')) m
  | whileLoop {test : Expr} {endsOpen endsOpen' : Bool} {body body' : Stmt}
      (keyed : keyword.kind = .keyword .whileWord) (opened : opening.kind = .symbol .leftParen)
      (tested : Derives style n w (.expression test) m)
      (closed : closing.kind = .symbol .rightParen)
      (repeated : Braced style m w₁ w₁' (.statement endsOpen body) (.statement endsOpen' body') k) :
      Braced style n (keyword :: opening :: (w ++ closing :: w₁))
        (keyword :: opening :: (w ++ closing :: w₁')) (.statement endsOpen (.whileLoop test body))
        (.statement endsOpen' (.whileLoop test body')) k
  | forLoop {first : Option Stmt} {test after : Option Expr} {endsOpen endsOpen' : Bool}
      {body body' : Stmt} {semicolon : Token}
      (keyed : keyword.kind = .keyword .forWord) (opened : opening.kind = .symbol .leftParen)
      (initialized : Derives style n w (.initializer first) m)
      (tested : Derives style m w₁ (.optional test) k)
      (separated : semicolon.kind = .symbol .semicolon)
      (increased : Derives style k w₂ (.optional after) l)
      (closed : closing.kind = .symbol .rightParen)
      (repeated : Braced style l w₃ w₃' (.statement endsOpen body) (.statement endsOpen' body') i) :
      Braced style n (keyword :: opening :: (w ++ (w₁ ++ semicolon :: (w₂ ++ closing :: w₃))))
        (keyword :: opening :: (w ++ (w₁ ++ semicolon :: (w₂ ++ closing :: w₃'))))
        (.statement endsOpen (ForClauses.loop ⟨first, test, after⟩ body))
        (.statement endsOpen' (ForClauses.loop ⟨first, test, after⟩ body')) i
  | ifThen {test : Expr} {endsOpen endsOpen' : Bool} {branch branch' : Stmt}
      (keyed : keyword.kind = .keyword .ifWord) (opened : opening.kind = .symbol .leftParen)
      (tested : Derives style n w (.expression test) m)
      (closed : closing.kind = .symbol .rightParen)
      (chosen : Braced style m w₁ w₁' (.statement endsOpen branch)
        (.statement endsOpen' branch') k) :
      Braced style n (keyword :: opening :: (w ++ closing :: w₁))
        (keyword :: opening :: (w ++ closing :: w₁')) (.statement true (.ifElse test branch none))
        (.statement true (.ifElse test branch' none)) k
  | thenBranch {test : Expr} {thenOpen thenOpen' elseOpen : Bool} {branch branch' other : Stmt}
      {elseToken : Token} (keyed : keyword.kind = .keyword .ifWord)
      (opened : opening.kind = .symbol .leftParen) (tested : Derives style n w (.expression test) m)
      (closed : closing.kind = .symbol .rightParen)
      (chosen : Braced style m w₁ w₁' (.statement thenOpen branch) (.statement thenOpen' branch') k)
      (attached : style = .nearest → thenOpen = false)
      (alternated : elseToken.kind = .keyword .elseWord)
      (rejected : Derives style k w₂ (.statement elseOpen other) l) :
      Braced style n (keyword :: opening :: (w ++ closing :: (w₁ ++ elseToken :: w₂)))
        (keyword :: opening :: (w ++ closing :: (w₁' ++ elseToken :: w₂)))
        (.statement elseOpen (.ifElse test branch (some other)))
        (.statement elseOpen (.ifElse test branch' (some other))) l
  | elseBranch {test : Expr} {thenOpen elseOpen elseOpen' : Bool} {branch other other' : Stmt}
      {elseToken : Token} (keyed : keyword.kind = .keyword .ifWord)
      (opened : opening.kind = .symbol .leftParen) (tested : Derives style n w (.expression test) m)
      (closed : closing.kind = .symbol .rightParen)
      (chosen : Derives style m w₁ (.statement thenOpen branch) k)
      (attached : style = .nearest → thenOpen = false)
      (alternated : elseToken.kind = .keyword .elseWord)
      (rejected : Braced style k w₂ w₂' (.statement elseOpen other)
        (.statement elseOpen' other') l) :
      Braced style n (keyword :: opening :: (w ++ closing :: (w₁ ++ elseToken :: w₂)))
        (keyword :: opening :: (w ++ closing :: (w₁ ++ elseToken :: w₂')))
        (.statement elseOpen (.ifElse test branch (some other)))
        (.statement elseOpen' (.ifElse test branch (some other'))) l
  | ordinary {endsOpen endsOpen' : Bool} {tree tree' : Stmt}
      (executed : Braced style n w w' (.statement endsOpen tree) (.statement endsOpen' tree') m) :
      Braced style n w w' (.declaration tree) (.declaration tree') m
  | functionDeclaration {decl decl' : FunctionDecl} (keyed : keyword.kind = .keyword .funWord)
      (declared : Braced style n w w' (.function decl) (.function decl') m) :
      Braced style n (keyword :: w) (keyword :: w') (.declaration (.functionDecl decl))
        (.declaration (.functionDecl decl')) m
  | baseClass {methods methods' : List FunctionDecl} (keyed : keyword.kind = .keyword .classWord)
      (named : name.kind = .identifier) (opened : opening.kind = .symbol .leftBrace)
      (listed : Braced style n w w' (.functions methods) (.functions methods') m)
      (closed : closing.kind = .symbol .rightBrace) :
      Braced style n (keyword :: name :: opening :: (w ++ [closing]))
        (keyword :: name :: opening :: (w' ++ [closing]))
        (.declaration (.classDecl name none methods))
        (.declaration (.classDecl name none methods')) m
  | derivedClass {less parent : Token} {methods methods' : List FunctionDecl}
      (keyed : keyword.kind = .keyword .classWord) (named : name.kind = .identifier)
      (inherits : less.kind = .symbol .less) (parented : parent.kind = .identifier)
      (opened : opening.kind = .symbol .leftBrace)
      (listed : Braced style (n + 1) w w' (.functions methods) (.functions methods') m)
      (closed : closing.kind = .symbol .rightBrace) :
      Braced style n (keyword :: name :: less :: parent :: opening :: (w ++ [closing]))
        (keyword :: name :: less :: parent :: opening :: (w' ++ [closing]))
        (.declaration (.classDecl name (some (.var n parent)) methods))
        (.declaration (.classDecl name (some (.var n parent)) methods')) m
  | firstDeclaration {tree tree' : Stmt} {trees : List Stmt}
      (first : Braced style n w w' (.declaration tree) (.declaration tree') m)
      (rest : Derives style m w₁ (.declarations trees) k) :
      Braced style n (w ++ w₁) (w' ++ w₁) (.declarations (tree :: trees))
        (.declarations (tree' :: trees)) k
  | laterDeclaration {tree : Stmt} {trees trees' : List Stmt}
      (first : Derives style n w (.declaration tree) m)
      (rest : Braced style m w₁ w₁' (.declarations trees) (.declarations trees') k) :
      Braced style n (w ++ w₁) (w ++ w₁') (.declarations (tree :: trees))
        (.declarations (tree :: trees')) k
  | function {params : List Token} {body body' : List Stmt} {brace endBrace : Token}
      (named : name.kind = .identifier)
      (opened : opening.kind = .symbol .leftParen) (listed : OptionalParameters w params)
      (closed : closing.kind = .symbol .rightParen) (entered : brace.kind = .symbol .leftBrace)
      (content : Braced style n w₁ w₁' (.declarations body) (.declarations body') m)
      (left : endBrace.kind = .symbol .rightBrace) :
      Braced style n (name :: opening :: (w ++ closing :: brace :: (w₁ ++ [endBrace])))
        (name :: opening :: (w ++ closing :: brace :: (w₁' ++ [endBrace])))
        (.function ⟨name, params, body⟩) (.function ⟨name, params, body'⟩) m
  | firstFunction {decl decl' : FunctionDecl} {decls : List FunctionDecl}
      (first : Braced style n w w' (.function decl) (.function decl') m)
      (rest : Derives style m w₁ (.functions decls) k) :
      Braced style n (w ++ w₁) (w' ++ w₁) (.functions (decl :: decls))
        (.functions (decl' :: decls)) k
  | laterFunction {decl : FunctionDecl} {decls decls' : List FunctionDecl}
      (first : Derives style n w (.function decl) m)
      (rest : Braced style m w₁ w₁' (.functions decls) (.functions decls') k) :
      Braced style n (w ++ w₁) (w ++ w₁') (.functions (decl :: decls))
        (.functions (decl :: decls')) k

variable {style : DanglingElse} {n m : Nat} {w w' : List Token} {phrase phrase' : Phrase}

/-- Whether a phrase may be followed by an `else` that belongs to it. -/
def Phrase.endsOpen : Phrase → Bool
  | .statement endsOpen _ => endsOpen
  | _ => false

/-- Braces close what was open, and open nothing. -/
theorem Braced.endsOpen (h : Braced style n w w' phrase phrase' m)
    (closed : phrase.endsOpen = false) : phrase'.endsOpen = false := by
  induction h with
  | here | block | ordinary | functionDeclaration | baseClass | derivedClass | firstDeclaration
  | laterDeclaration | function | firstFunction | laterFunction => rfl
  | whileLoop _ _ _ _ _ ih | forLoop _ _ _ _ _ _ _ _ ih => exact ih closed
  | ifThen => cases closed
  | thenBranch => exact closed
  | elseBranch _ _ _ _ _ _ _ _ ih => exact ih closed

/-- The tokens without the braces have a derivation. -/
theorem Braced.derives (h : Braced style n w w' phrase phrase' m) : Derives style n w phrase m := by
  induction h with
  | here _ statement => exact statement
  | block opened _ closed ih => exact .block opened ih closed
  | whileLoop keyed opened tested closed _ ih => exact .whileLoop keyed opened tested closed ih
  | forLoop keyed opened initialized tested separated increased closed _ ih =>
    exact .forLoop keyed opened initialized tested separated increased closed ih
  | ifThen keyed opened tested closed _ ih => exact .ifThen keyed opened tested closed ih
  | thenBranch keyed opened tested closed _ attached alternated rejected ih =>
    exact .ifElse keyed opened tested closed ih attached alternated rejected
  | elseBranch keyed opened tested closed chosen attached alternated _ ih =>
    exact .ifElse keyed opened tested closed chosen attached alternated ih
  | ordinary _ ih => exact .ordinary ih
  | functionDeclaration keyed _ ih => exact .functionDeclaration keyed ih
  | baseClass keyed named opened _ closed ih => exact .baseClass keyed named opened ih closed
  | derivedClass keyed named inherits parented opened _ closed ih =>
    exact .derivedClass keyed named inherits parented opened ih closed
  | firstDeclaration _ rest ih => exact .moreDeclarations ih rest
  | laterDeclaration first _ ih => exact .moreDeclarations first ih
  | function named opened listed closed entered _ left ih =>
    exact .function named opened listed closed entered ih left
  | firstFunction _ rest ih => exact .moreFunctions ih rest
  | laterFunction first _ ih => exact .moreFunctions first ih

/-- The tokens with the braces have a derivation with the same numbers. -/
theorem Braced.derives_braced (h : Braced style n w w' phrase phrase' m) :
    Derives style n w' phrase' m := by
  induction h with
  | @here _ _ w _ _ _ _ opened statement closed =>
    have content := Derives.moreDeclarations (.ordinary statement) .noDeclarations
    rw [List.append_nil] at content
    exact .block opened content closed
  | block opened _ closed ih => exact .block opened ih closed
  | whileLoop keyed opened tested closed _ ih => exact .whileLoop keyed opened tested closed ih
  | forLoop keyed opened initialized tested separated increased closed _ ih =>
    exact .forLoop keyed opened initialized tested separated increased closed ih
  | ifThen keyed opened tested closed _ ih => exact .ifThen keyed opened tested closed ih
  | thenBranch keyed opened tested closed chosen attached alternated rejected ih =>
    exact .ifElse keyed opened tested closed ih (fun nearest => chosen.endsOpen (attached nearest))
      alternated rejected
  | elseBranch keyed opened tested closed chosen attached alternated _ ih =>
    exact .ifElse keyed opened tested closed chosen attached alternated ih
  | ordinary _ ih => exact .ordinary ih
  | functionDeclaration keyed _ ih => exact .functionDeclaration keyed ih
  | baseClass keyed named opened _ closed ih => exact .baseClass keyed named opened ih closed
  | derivedClass keyed named inherits parented opened _ closed ih =>
    exact .derivedClass keyed named inherits parented opened ih closed
  | firstDeclaration _ rest ih => exact .moreDeclarations ih rest
  | laterDeclaration first _ ih => exact .moreDeclarations first ih
  | function named opened listed closed entered _ left ih =>
    exact .function named opened listed closed entered ih left
  | firstFunction _ rest ih => exact .moreFunctions ih rest
  | laterFunction first _ ih => exact .moreFunctions first ih

/-! ## The trees -/

/-- Trees that are the same but for blocks, in whatever scopes: declarations stand where both
programs declare, statements anywhere. -/
def Phrase.Framed : Phrase → Phrase → Prop
  | .statement _ s, .statement _ s' => ∀ w, (copies id).Framed w (.stmt s) (.stmt s')
  | .declaration s, .declaration s' => ∀ w, Open w → (copies id).Framed w (.stmt s) (.stmt s')
  | .declarations ss, .declarations ss' =>
    ∀ w, Open w → (copies id).Framed w (.stmts ss) (.stmts ss')
  | .function decl, .function decl' => decl'.name = decl.name ∧ decl'.params = decl.params ∧
    ∀ w kind, (copies id).Framed w (.function kind decl) (.function kind decl')
  | .functions decls, .functions decls' =>
    ∀ w, (copies id).Framed w (.functions decls) (.functions decls')
  | _, _ => False

/-- A loop with another body. Only a clause that is present brings a block. -/
theorem loop_framed {names : String → Prop} {first : Option Stmt} {test after : Option Expr}
    {body body' : Stmt}
    (initializer : ∀ s ∈ first, (Part.stmt s).WellFormed names)
    (repeated : ∀ w, (copies id).Framed w (.stmt body) (.stmt body')) (w : Shape) :
    (copies id).Framed w (.stmt (ForClauses.loop ⟨first, test, after⟩ body))
      (.stmt (ForClauses.loop ⟨first, test, after⟩ body')) := by
  have inner (w : Shape) : (copies id).Framed w
      (.stmt (ForClauses.loop ⟨none, test, after⟩ body))
      (.stmt (ForClauses.loop ⟨none, test, after⟩ body')) := by
    refine .whileLoop (expr_framed w _) ?_
    cases after with
    | none => exact repeated w
    | some e =>
      exact .block (.moreStmts (repeated _) (.moreStmts (.expression (expr_framed _ e)) .noStmts))
  cases first with
  | none => exact inner w
  | some s =>
    exact .block (.moreStmts (stmt_framed (initializer s rfl) fun _ => rfl)
      (.moreStmts (inner _) .noStmts))

/-- Braces make one block more in the tree. -/
theorem Braced.framed {names : String → Prop} (h : Braced style n w w' phrase phrase' m)
    (hw : ∀ t ∈ w, t.Spelled names) : phrase.Framed phrase' := by
  induction h with
  | here _ statement =>
    intro w
    have wf := statement.wellFormed hw
    exact .wrapped (stmt_framed (wf.1 _ rfl) fun declares => by simp [wf.2] at declares)
  | block _ _ _ ih =>
    simp only [List.forall_mem_cons, List.forall_mem_append] at hw
    exact fun w => .block (ih hw.2.1 _ rfl)
  | whileLoop _ _ _ _ _ ih =>
    simp only [List.forall_mem_cons, List.forall_mem_append] at hw
    exact fun w => .whileLoop (expr_framed w _) (ih hw.2.2.2.2 w)
  | forLoop _ _ initialized _ _ _ _ _ ih =>
    simp only [List.forall_mem_cons, List.forall_mem_append] at hw
    obtain ⟨_, _, hf, _, _, _, _, hb⟩ := hw
    have initializer := (initialized.wellFormed hf).1
    exact loop_framed (fun s hs => initializer _ ⟨s, hs, rfl⟩) (ih hb)
  | ifThen _ _ _ _ _ ih =>
    simp only [List.forall_mem_cons, List.forall_mem_append] at hw
    exact fun w => .ifThen (expr_framed w _) (ih hw.2.2.2.2 w)
  | thenBranch _ _ _ _ _ _ _ rejected ih =>
    simp only [List.forall_mem_cons, List.forall_mem_append] at hw
    obtain ⟨_, _, _, _, hb, _, ho⟩ := hw
    have wf := rejected.wellFormed ho
    exact fun w => .ifElse (expr_framed w _) (ih hb w)
      (stmt_framed (wf.1 _ rfl) fun declares => by simp [wf.2] at declares)
  | elseBranch _ _ _ _ chosen _ _ _ ih =>
    simp only [List.forall_mem_cons, List.forall_mem_append] at hw
    obtain ⟨_, _, _, _, hb, _, ho⟩ := hw
    have wf := chosen.wellFormed hb
    exact fun w => .ifElse (expr_framed w _)
      (stmt_framed (wf.1 _ rfl) fun declares => by simp [wf.2] at declares) (ih ho w)
  | ordinary _ ih => exact fun w _ => ih hw w
  | @functionDeclaration _ _ _ _ _ decl decl' _ _ ih =>
    simp only [List.forall_mem_cons] at hw
    obtain ⟨named, listed, framed⟩ := ih hw.2
    obtain ⟨name, params, body⟩ := decl
    obtain ⟨name', params', body'⟩ := decl'
    cases named
    cases listed
    exact fun w opens => .functionDecl opens (framed w .function)
  | baseClass _ _ _ _ _ ih =>
    simp only [List.forall_mem_cons, List.forall_mem_append] at hw
    exact fun w opens => .baseClass opens (ih hw.2.2.2.1 _)
  | derivedClass _ _ _ _ _ _ _ ih =>
    simp only [List.forall_mem_cons, List.forall_mem_append] at hw
    exact fun w opens => .derivedClass opens rfl (ih hw.2.2.2.2.2.1 _)
  | firstDeclaration _ rest ih =>
    simp only [List.forall_mem_append] at hw
    exact fun w opens => .moreStmts (ih hw.1 w opens)
      (stmts_framed ((rest.wellFormed hw.2).1 _ rfl) opens)
  | laterDeclaration first _ ih =>
    simp only [List.forall_mem_append] at hw
    exact fun w opens => .moreStmts (stmt_framed ((first.wellFormed hw.1).1 _ rfl) fun _ => opens)
      (ih hw.2 w opens)
  | function _ _ _ _ _ _ _ ih =>
    simp only [List.forall_mem_cons, List.forall_mem_append] at hw
    exact ⟨rfl, rfl, fun w kind => .function (ih hw.2.2.2.2.2.1 _ rfl)⟩
  | @firstFunction _ _ _ _ _ _ decl decl' _ _ rest ih =>
    simp only [List.forall_mem_append] at hw
    obtain ⟨_, _, framed⟩ := ih hw.1
    exact fun w => .moreFunctions (framed w _) (functions_framed ((rest.wellFormed hw.2).1 _ rfl))
  | laterFunction first _ ih =>
    simp only [List.forall_mem_append] at hw
    exact fun w => .moreFunctions (function_framed ((first.wellFormed hw.1).1 _ ⟨_, rfl⟩))
      (ih hw.2 w)

end Lox.Grammar
