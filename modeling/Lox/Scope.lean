import Lox.Bindings
import Lox.Fault
import Lox.Tree

/-!
# Static scopes

One walk over a program finds for every occurrence of a name how many scopes lie between it
and the scope that declares the name, and reports what breaks the rules of scoping. Scopes
are listed from the innermost outwards. Global names are declared in none of them, so an
occurrence without a distance is global.
-/
namespace Lox.Scope

inductive FunctionKind where
  | function
  | initializer
  | method
  deriving DecidableEq, Repr

inductive ClassKind where
  | base
  | derived
  deriving DecidableEq, Repr

/-- The names of a scope; one that is mapped to `false` is declared, but its initializer has
not ended yet. -/
abbrev Scopes := List (Bindings Bool)

/-- What surrounds a node. -/
structure Context where
  scopes : Scopes
  function : Option FunctionKind
  enclosingClass : Option ClassKind

/-- A use of a name and the distance to its declaration, if that is not global. -/
structure Occurrence where
  id : Nat
  name : String
  distance : Option Nat
  deriving DecidableEq, Repr

/-- Occurrences and faults in the order of the walk. -/
structure Report where
  occurrences : List Occurrence
  faults : List Fault
  deriving Repr

namespace Report

def nothing : Report := ⟨[], []⟩

def fault (cause : ScopeCause) (token : Token) : Report := ⟨[], [.scope cause token]⟩

instance : Append Report := ⟨fun a b => ⟨a.occurrences ++ b.occurrences, a.faults ++ b.faults⟩⟩

end Report

def distance? (scopes : Scopes) (name : String) : Option Nat :=
  scopes.findIdx? (·.contains name)

def occurrence (ctx : Context) (id : Nat) (name : Token) : Report :=
  ⟨[⟨id, name.lexeme, distance? ctx.scopes name.lexeme⟩], []⟩

/-- Whether the innermost scope has the name, but not its initializer's end. -/
def inOwnInitializer (scopes : Scopes) (name : String) : Bool :=
  match scopes with
  | [] => false
  | scope :: _ => scope.get? name = some false

/-- Enters a name into the innermost scope. A second declaration there is a fault, and
counts. -/
def declare (scopes : Scopes) (name : Token) : Scopes × Report :=
  match scopes with
  | [] => ([], .nothing)
  | scope :: outer =>
    (scope.insert name.lexeme false :: outer,
      if scope.contains name.lexeme then .fault .alreadyDeclared name else .nothing)

def define (scopes : Scopes) (name : String) : Scopes :=
  match scopes with
  | [] => []
  | scope :: outer => scope.insert name true :: outer

/-- Declares a name whose definition cannot mention it. -/
def introduce (scopes : Scopes) (name : Token) : Scopes × Report :=
  let (declared, report) := declare scopes name
  (define declared name.lexeme, report)

def introduceAll (scopes : Scopes) : List Token → Scopes × Report
  | [] => (scopes, .nothing)
  | name :: names =>
    let (scopes, first) := introduce scopes name
    let (scopes, rest) := introduceAll scopes names
    (scopes, first ++ rest)

/-- A scope that holds one name from the start. -/
def implicit (name : String) : Bindings Bool := Bindings.empty.insert name true

def thisName : String := "this"

def superName : String := "super"

mutual

/-- An assignment counts after its value, and a property's value before its object. -/
def expr (ctx : Context) : Expr → Report
  | .assign id name value => expr ctx value ++ occurrence ctx id name
  | .binary left _ right => expr ctx left ++ expr ctx right
  | .call callee _ arguments => expr ctx callee ++ exprs ctx arguments
  | .get object _ => expr ctx object
  | .grouping inner => expr ctx inner
  | .literal _ => .nothing
  | .logical left _ right => expr ctx left ++ expr ctx right
  | .set object _ value => expr ctx value ++ expr ctx object
  | .superRef id keyword _ =>
    match ctx.enclosingClass with
    | none => .fault .superOutsideClass keyword
    | some .base => .fault .superWithoutSuperclass keyword
    | some .derived => occurrence ctx id keyword
  | .thisRef id keyword =>
    match ctx.enclosingClass with
    | none => .fault .thisOutsideClass keyword
    | some _ => occurrence ctx id keyword
  | .unary _ right => expr ctx right
  | .var id name =>
    let early :=
      if inOwnInitializer ctx.scopes name.lexeme then .fault .readInOwnInitializer name
      else .nothing
    early ++ occurrence ctx id name

def exprs (ctx : Context) : List Expr → Report
  | [] => .nothing
  | e :: es => expr ctx e ++ exprs ctx es

end

def optional (ctx : Context) : Option Expr → Report
  | none => .nothing
  | some e => expr ctx e

def returned (ctx : Context) (keyword : Token) (value : Option Expr) : Report :=
  let outside :=
    if ctx.function = none then .fault .returnOutsideFunction keyword else .nothing
  let valued :=
    if value.isSome ∧ ctx.function = some .initializer then .fault .valueFromInitializer keyword
    else .nothing
  outside ++ valued ++ optional ctx value

/-- The clause that names the superclass of `name`. -/
def superclass (ctx : Context) (name : Token) : Expr → Report
  | .var id parent =>
    let itself :=
      if parent.lexeme = name.lexeme then .fault .inheritsFromItself parent else .nothing
    itself ++ expr ctx (.var id parent)
  | other => expr ctx other

/-- What surrounds the methods of a class: a scope for `this`, within one for `super` if
there is a superclass. -/
def classBody (ctx : Context) (derived : Bool) : Context :=
  if derived then
    { ctx with
      scopes := implicit thisName :: implicit superName :: ctx.scopes
      enclosingClass := some .derived }
  else { ctx with scopes := implicit thisName :: ctx.scopes, enclosingClass := some .base }

def methodKind (decl : FunctionDecl) : FunctionKind :=
  if decl.isInitializer then .initializer else .method

mutual

/-- The report on a statement, and the scopes with the names that it declares. -/
def stmt (ctx : Context) : Stmt → Scopes × Report
  | .block body => (ctx.scopes, stmts { ctx with scopes := .empty :: ctx.scopes } body)
  | .classDecl name parent methods =>
    let (scopes, named) := introduce ctx.scopes name
    let ctx := { ctx with scopes }
    let inherited := match parent with
      | none => .nothing
      | some e => superclass { ctx with enclosingClass := some .derived } name e
    (scopes, named ++ inherited ++ functions (classBody ctx parent.isSome) methods)
  | .expression value => (ctx.scopes, expr ctx value)
  | .functionDecl decl =>
    let (scopes, named) := introduce ctx.scopes decl.name
    (scopes, named ++ function { ctx with scopes } .function decl)
  | .ifElse condition thenBranch elseBranch =>
    let test := expr ctx condition
    let (scopes, first) := stmt ctx thenBranch
    match elseBranch with
    | none => (scopes, test ++ first)
    | some other =>
      let (scopes, second) := stmt { ctx with scopes } other
      (scopes, test ++ first ++ second)
  | .print value => (ctx.scopes, expr ctx value)
  | .returnWith keyword value => (ctx.scopes, returned ctx keyword value)
  | .varDecl name value =>
    let (scopes, declared) := declare ctx.scopes name
    (define scopes name.lexeme, declared ++ optional { ctx with scopes } value)
  | .whileLoop condition body =>
    let test := expr ctx condition
    let (scopes, rest) := stmt ctx body
    (scopes, test ++ rest)

/-- Each statement sees the names of those before it. -/
def stmts (ctx : Context) : List Stmt → Report
  | [] => .nothing
  | s :: ss =>
    let (scopes, first) := stmt ctx s
    first ++ stmts { ctx with scopes } ss

/-- A body shares its scope with the parameters. -/
def function (ctx : Context) (kind : FunctionKind) : FunctionDecl → Report
  | ⟨_, params, body⟩ =>
    let (scopes, named) := introduceAll (.empty :: ctx.scopes) params
    named ++ stmts { ctx with scopes, function := some kind } body

def functions (ctx : Context) : List FunctionDecl → Report
  | [] => .nothing
  | decl :: decls => function ctx (methodKind decl) decl ++ functions ctx decls

end

end Lox.Scope

namespace Lox

/-- The report on a program. -/
def resolve (program : List Stmt) : Scope.Report :=
  Scope.stmts ⟨[], none, none⟩ program

end Lox
