import Lox.Proofs.Scope.Walk

/-!
# Programs that are alike

Two programs are alike if they have the same shape and their tokens correspond. A variable may be
spelled differently in the second program, in one way for each scope of the first: what it is
declared as and every occurrence that is resolved to this scope. A link says which spellings are
allowed, for which names, which numbers of occurrences and which lines correspond.
-/
namespace Lox

open Scope (Part thisName superName)

/-- How the names of a scope are spelled in the second program. -/
abbrev Spelling := String → String

/-- Names that are spelled differently in the first program are so in the second one, whatever
their scopes. -/
structure Link where
  spellings : Spelling → Prop
  names : String → Prop
  occurrences : Nat → Nat → Option Nat → Prop
  lines : Nat → Nat → Prop
  plain : spellings id
  keywords : ∀ name, name = thisName ∨ name = superName →
    names name ∧ ∀ f, spellings f → f name = name
  apart : ∀ f g a b, spellings f → spellings g → names a → names b → f a = g b → a = b

/-- The second program has the same names. -/
def Link.faithful (occurrences : Nat → Nat → Option Nat → Prop) (lines : Nat → Nat → Prop) :
    Link where
  spellings f := f = id
  names _ := True
  occurrences := occurrences
  lines := lines
  plain := rfl
  keywords _ _ := ⟨trivial, fun _ hf => congrFun hf _⟩
  apart _ _ _ _ hf hg _ _ h := by
    subst hf hg
    exact h

/-- The spelling of the scope at a distance. Further out there are only global names. -/
def spellingAt (fs : List Spelling) : Option Nat → Spelling
  | none => id
  | some d => fs.getD d id

/-- The spelling of the innermost scope. -/
def spellingHere (fs : List Spelling) : Spelling := fs.headD id

namespace Link

variable (L : Link)

/-- A token that is spelled the same. -/
structure Same (t t' : Token) : Prop where
  kind : t'.kind = t.kind
  lexeme : t'.lexeme = t.lexeme
  line : L.lines t.line t'.line

structure Spelled (f : Spelling) (t t' : Token) : Prop where
  kind : t'.kind = t.kind
  name : L.names t.lexeme
  lexeme : t'.lexeme = f t.lexeme
  line : L.lines t.line t'.line

/-- A name that is declared with its own spelling, such as that of a function. -/
structure Kept (f : Spelling) (t t' : Token) : Prop extends Same L t t' where
  name : L.names t.lexeme
  fixed : f t.lexeme = t.lexeme

/-- An occurrence is spelled as in the scope it is resolved to. -/
def Occurs (fs : List Spelling) (id : Nat) (name : Token) (id' : Nat) (name' : Token) : Prop :=
  ∃ d, L.occurrences id id' d ∧ L.Spelled (spellingAt fs d) name name'

/-- Parts of two programs that are alike in scopes with these spellings. -/
inductive Alike : List Spelling → Part → Part → Prop where
  | assign {fs : List Spelling} {id id' : Nat} {name name' : Token} {value value' : Expr}
      (occurs : L.Occurs fs id name id' name') (assigned : Alike fs (.expr value) (.expr value')) :
      Alike fs (.expr (.assign id name value)) (.expr (.assign id' name' value'))
  | binary {fs : List Spelling} {left left' right right' : Expr} {operator operator' : Token}
      (before : Alike fs (.expr left) (.expr left')) (operates : L.Same operator operator')
      (after : Alike fs (.expr right) (.expr right')) :
      Alike fs (.expr (.binary left operator right)) (.expr (.binary left' operator' right'))
  | call {fs : List Spelling} {callee callee' : Expr} {paren paren' : Token}
      {arguments arguments' : List Expr} (called : Alike fs (.expr callee) (.expr callee'))
      (closed : L.Same paren paren') (listed : Alike fs (.exprs arguments) (.exprs arguments')) :
      Alike fs (.expr (.call callee paren arguments)) (.expr (.call callee' paren' arguments'))
  | get {fs : List Spelling} {object object' : Expr} {name name' : Token}
      (owner : Alike fs (.expr object) (.expr object')) (named : L.Same name name') :
      Alike fs (.expr (.get object name)) (.expr (.get object' name'))
  | grouping {fs : List Spelling} {inner inner' : Expr}
      (content : Alike fs (.expr inner) (.expr inner')) :
      Alike fs (.expr (.grouping inner)) (.expr (.grouping inner'))
  | literal {fs : List Spelling} (value : Literal) :
      Alike fs (.expr (.literal value)) (.expr (.literal value))
  | logical {fs : List Spelling} {left left' right right' : Expr} {operator operator' : Token}
      (before : Alike fs (.expr left) (.expr left')) (operates : L.Same operator operator')
      (after : Alike fs (.expr right) (.expr right')) :
      Alike fs (.expr (.logical left operator right)) (.expr (.logical left' operator' right'))
  | set {fs : List Spelling} {object object' value value' : Expr} {name name' : Token}
      (owner : Alike fs (.expr object) (.expr object')) (named : L.Same name name')
      (assigned : Alike fs (.expr value) (.expr value')) :
      Alike fs (.expr (.set object name value)) (.expr (.set object' name' value'))
  | superRef {fs : List Spelling} {id id' : Nat} {keyword keyword' method method' : Token}
      (spelled : keyword.lexeme = superName) (occurs : L.Occurs fs id keyword id' keyword')
      (named : L.Same method method') :
      Alike fs (.expr (.superRef id keyword method)) (.expr (.superRef id' keyword' method'))
  | thisRef {fs : List Spelling} {id id' : Nat} {keyword keyword' : Token}
      (spelled : keyword.lexeme = thisName) (occurs : L.Occurs fs id keyword id' keyword') :
      Alike fs (.expr (.thisRef id keyword)) (.expr (.thisRef id' keyword'))
  | unary {fs : List Spelling} {operator operator' : Token} {right right' : Expr}
      (operates : L.Same operator operator') (operand : Alike fs (.expr right) (.expr right')) :
      Alike fs (.expr (.unary operator right)) (.expr (.unary operator' right'))
  | var {fs : List Spelling} {id id' : Nat} {name name' : Token}
      (occurs : L.Occurs fs id name id' name') :
      Alike fs (.expr (.var id name)) (.expr (.var id' name'))
  | noExprs {fs : List Spelling} : Alike fs (.exprs []) (.exprs [])
  | moreExprs {fs : List Spelling} {e e' : Expr} {es es' : List Expr}
      (first : Alike fs (.expr e) (.expr e')) (rest : Alike fs (.exprs es) (.exprs es')) :
      Alike fs (.exprs (e :: es)) (.exprs (e' :: es'))
  | block {f : Spelling} {fs : List Spelling} {body body' : List Stmt} (spelling : L.spellings f)
      (content : Alike (f :: fs) (.stmts body) (.stmts body')) :
      Alike fs (.stmt (.block body)) (.stmt (.block body'))
  | baseClass {fs : List Spelling} {name name' : Token} {methods methods' : List FunctionDecl}
      (named : L.Kept (spellingHere fs) name name')
      (listed : Alike (id :: fs) (.functions methods) (.functions methods')) :
      Alike fs (.stmt (.classDecl name none methods)) (.stmt (.classDecl name' none methods'))
  | derivedClass {fs : List Spelling} {name name' parent parent' : Token} {number number' : Nat}
      {methods methods' : List FunctionDecl} (named : L.Kept (spellingHere fs) name name')
      (inherits : L.Occurs fs number parent number' parent')
      (listed : Alike (id :: id :: fs) (.functions methods) (.functions methods')) :
      Alike fs (.stmt (.classDecl name (some (.var number parent)) methods))
        (.stmt (.classDecl name' (some (.var number' parent')) methods'))
  | expression {fs : List Spelling} {value value' : Expr}
      (evaluated : Alike fs (.expr value) (.expr value')) :
      Alike fs (.stmt (.expression value)) (.stmt (.expression value'))
  | functionDecl {fs : List Spelling} {decl decl' : FunctionDecl}
      (named : L.Kept (spellingHere fs) decl.name decl'.name)
      (declared : Alike fs (.function .function decl) (.function .function decl')) :
      Alike fs (.stmt (.functionDecl decl)) (.stmt (.functionDecl decl'))
  | ifThen {fs : List Spelling} {condition condition' : Expr} {branch branch' : Stmt}
      (tested : Alike fs (.expr condition) (.expr condition'))
      (chosen : Alike fs (.stmt branch) (.stmt branch')) :
      Alike fs (.stmt (.ifElse condition branch none)) (.stmt (.ifElse condition' branch' none))
  | ifElse {fs : List Spelling} {condition condition' : Expr} {branch branch' other other' : Stmt}
      (tested : Alike fs (.expr condition) (.expr condition'))
      (chosen : Alike fs (.stmt branch) (.stmt branch'))
      (alternated : Alike fs (.stmt other) (.stmt other')) :
      Alike fs (.stmt (.ifElse condition branch (some other)))
        (.stmt (.ifElse condition' branch' (some other')))
  | print {fs : List Spelling} {value value' : Expr}
      (evaluated : Alike fs (.expr value) (.expr value')) :
      Alike fs (.stmt (.print value)) (.stmt (.print value'))
  | bareReturn {fs : List Spelling} {keyword keyword' : Token} (keyed : L.Same keyword keyword') :
      Alike fs (.stmt (.returnWith keyword none)) (.stmt (.returnWith keyword' none))
  | returnWith {fs : List Spelling} {keyword keyword' : Token} {value value' : Expr}
      (keyed : L.Same keyword keyword') (evaluated : Alike fs (.expr value) (.expr value')) :
      Alike fs (.stmt (.returnWith keyword (some value)))
        (.stmt (.returnWith keyword' (some value')))
  | bareVariable {fs : List Spelling} {name name' : Token}
      (named : L.Spelled (spellingHere fs) name name') :
      Alike fs (.stmt (.varDecl name none)) (.stmt (.varDecl name' none))
  | initializedVariable {fs : List Spelling} {name name' : Token} {value value' : Expr}
      (named : L.Spelled (spellingHere fs) name name')
      (initialized : Alike fs (.expr value) (.expr value')) :
      Alike fs (.stmt (.varDecl name (some value))) (.stmt (.varDecl name' (some value')))
  | whileLoop {fs : List Spelling} {condition condition' : Expr} {body body' : Stmt}
      (tested : Alike fs (.expr condition) (.expr condition'))
      (repeated : Alike fs (.stmt body) (.stmt body')) :
      Alike fs (.stmt (.whileLoop condition body)) (.stmt (.whileLoop condition' body'))
  | noStmts {fs : List Spelling} : Alike fs (.stmts []) (.stmts [])
  | moreStmts {fs : List Spelling} {s s' : Stmt} {ss ss' : List Stmt}
      (first : Alike fs (.stmt s) (.stmt s')) (rest : Alike fs (.stmts ss) (.stmts ss')) :
      Alike fs (.stmts (s :: ss)) (.stmts (s' :: ss'))
  | function {f : Spelling} {fs : List Spelling} {kind : Scope.FunctionKind}
      {name name' : Token} {params params' : List Token} {body body' : List Stmt}
      (spelling : L.spellings f) (named : L.Same name name')
      (listed : List.Forall₂ (L.Spelled f) params params')
      (content : Alike (f :: fs) (.stmts body) (.stmts body')) :
      Alike fs (.function kind ⟨name, params, body⟩) (.function kind ⟨name', params', body'⟩)
  | noFunctions {fs : List Spelling} : Alike fs (.functions []) (.functions [])
  | moreFunctions {fs : List Spelling} {decl decl' : FunctionDecl}
      {decls decls' : List FunctionDecl}
      (first : Alike fs (.function (Scope.methodKind decl) decl)
        (.function (Scope.methodKind decl) decl'))
      (rest : Alike fs (.functions decls) (.functions decls')) :
      Alike fs (.functions (decl :: decls)) (.functions (decl' :: decls'))

variable {L}

theorem Kept.spelled {f : Spelling} {t t' : Token} (h : L.Kept f t t') : L.Spelled f t t' :=
  ⟨h.kind, h.name, h.lexeme.trans h.fixed.symm, h.line⟩

/-- Functions that are alike have one name and take as many arguments. -/
theorem Alike.function_same {fs : List Spelling} {kind : Scope.FunctionKind}
    {decl decl' : FunctionDecl} (h : L.Alike fs (.function kind decl) (.function kind decl')) :
    decl'.name.lexeme = decl.name.lexeme ∧ decl'.params.length = decl.params.length := by
  cases h with
  | function _ named listed _ => exact ⟨named.lexeme, listed.length_eq.symm⟩

/-- Whatever the distance, an occurrence has an allowed spelling if all scopes have. -/
theorem spellings_spellingAt {fs : List Spelling} (all : ∀ f ∈ fs, L.spellings f)
    (d : Option Nat) : L.spellings (spellingAt fs d) := by
  cases d with
  | none => exact L.plain
  | some d =>
    rw [spellingAt, List.getD_eq_getElem?_getD]
    cases hd : fs[d]? with
    | none => exact L.plain
    | some f => exact all f (List.mem_of_getElem? hd)

/-! ## Links that say less -/

/-- Whatever corresponds by the first link does by the second. -/
structure Below (L M : Link) : Prop where
  spellings : ∀ f, L.spellings f → M.spellings f
  names : ∀ name, L.names name → M.names name
  occurrences : ∀ id id' d, L.occurrences id id' d → M.occurrences id id' d
  lines : ∀ l l', L.lines l l' → M.lines l l'

theorem Below.refl (L : Link) : Below L L :=
  ⟨fun _ h => h, fun _ h => h, fun _ _ _ h => h, fun _ _ h => h⟩

section
variable {M : Link} {f : Spelling} {fs : List Spelling} {t t' : Token}

theorem Same.mono (h : L.Same t t') (below : Below L M) : M.Same t t' :=
  ⟨h.kind, h.lexeme, below.lines _ _ h.line⟩

theorem Spelled.mono (h : L.Spelled f t t') (below : Below L M) : M.Spelled f t t' :=
  ⟨h.kind, below.names _ h.name, h.lexeme, below.lines _ _ h.line⟩

theorem Kept.mono (h : L.Kept f t t') (below : Below L M) : M.Kept f t t' :=
  ⟨h.toSame.mono below, below.names _ h.name, h.fixed⟩

theorem Occurs.mono {id id' : Nat} (h : L.Occurs fs id t id' t') (below : Below L M) :
    M.Occurs fs id t id' t' := by
  obtain ⟨d, hd, spelled⟩ := h
  exact ⟨d, below.occurrences _ _ _ hd, spelled.mono below⟩

theorem Alike.mono {part part' : Part} (h : L.Alike fs part part') (below : Below L M) :
    M.Alike fs part part' := by
  induction h with
  | assign occurs _ ih => exact .assign (occurs.mono below) ih
  | binary _ operates _ ih ih' => exact .binary ih (operates.mono below) ih'
  | call _ closed _ ih ih' => exact .call ih (closed.mono below) ih'
  | get _ named ih => exact .get ih (named.mono below)
  | grouping _ ih => exact .grouping ih
  | literal value => exact .literal value
  | logical _ operates _ ih ih' => exact .logical ih (operates.mono below) ih'
  | set _ named _ ih ih' => exact .set ih (named.mono below) ih'
  | superRef spelled occurs named => exact .superRef spelled (occurs.mono below) (named.mono below)
  | thisRef spelled occurs => exact .thisRef spelled (occurs.mono below)
  | unary operates _ ih => exact .unary (operates.mono below) ih
  | var occurs => exact .var (occurs.mono below)
  | noExprs => exact .noExprs
  | moreExprs _ _ ih ih' => exact .moreExprs ih ih'
  | block spelling _ ih => exact .block (below.spellings _ spelling) ih
  | baseClass named _ ih => exact .baseClass (named.mono below) ih
  | derivedClass named inherits _ ih =>
    exact .derivedClass (named.mono below) (inherits.mono below) ih
  | expression _ ih => exact .expression ih
  | functionDecl named _ ih => exact .functionDecl (named.mono below) ih
  | ifThen _ _ ih ih' => exact .ifThen ih ih'
  | ifElse _ _ _ ih ih₁ ih₂ => exact .ifElse ih ih₁ ih₂
  | print _ ih => exact .print ih
  | bareReturn keyed => exact .bareReturn (keyed.mono below)
  | returnWith keyed _ ih => exact .returnWith (keyed.mono below) ih
  | bareVariable named => exact .bareVariable (named.mono below)
  | initializedVariable named _ ih => exact .initializedVariable (named.mono below) ih
  | whileLoop _ _ ih ih' => exact .whileLoop ih ih'
  | noStmts => exact .noStmts
  | moreStmts _ _ ih ih' => exact .moreStmts ih ih'
  | function spelling named listed _ ih =>
    exact .function (below.spellings _ spelling) (named.mono below)
      (listed.imp fun _ _ h => h.mono below) ih
  | noFunctions => exact .noFunctions
  | moreFunctions _ _ ih ih' => exact .moreFunctions ih ih'

end

end Link

end Lox
