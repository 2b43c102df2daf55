import Lox.Proofs.Grammar.Rules

/-!
# The grammar with fewer demands

In the relaxed grammar any operand of the loosest tier may stand to the left of an equals sign, and
parameters and arguments may be any number.

```text
assignment   → logic_or "=" assignment | logic_or ;
```

`Relaxed style n w phrase faults m` says that the relaxed rules derive the tokens `w` from a phrase
and which faults they hold: one for each entry after the first `maxArguments` of its list, at the
first token of the entry, and one for each equals sign that follows neither a variable nor a
property, at that sign. The tree of such an assignment is that of its left operand. No other rule
has faults of its own.
-/
namespace Lox.Grammar

/-- What can be assigned to. -/
def assignable : Expr → Bool
  | .var _ _ => true
  | .get _ _ => true
  | _ => false

/-- The fault of an entry that starts with the token `t` and has `place` entries before it. -/
def crowding (cause : ParseCause) (place : Nat) (t : Token) : List Fault :=
  if maxArguments ≤ place then [.parse cause t] else []

inductive Relaxed (style : DanglingElse) :
    Nat → List Token → Phrase → List Fault → Nat → Prop where
  | literal {t : Token} {value : Literal} (denotes : literal? t.kind = some value) :
      Relaxed style n [t] (.primary (.literal value)) [] n
  | this (keyed : keyword.kind = .keyword .thisWord) :
      Relaxed style n [keyword] (.primary (.thisRef n keyword)) [] (n + 1)
  | variable (named : name.kind = .identifier) :
      Relaxed style n [name] (.primary (.var n name)) [] (n + 1)
  | super (keyed : keyword.kind = .keyword .superWord) (dotted : dot.kind = .symbol .dot)
      (named : name.kind = .identifier) :
      Relaxed style n [keyword, dot, name] (.primary (.superRef n keyword name)) [] (n + 1)
  | grouping {inner : Expr} (opened : opening.kind = .symbol .leftParen)
      (content : Relaxed style n w (.expression inner) faults m)
      (closed : closing.kind = .symbol .rightParen) :
      Relaxed style n (opening :: (w ++ [closing])) (.primary (.grouping inner)) faults m
  | simple {tree : Expr} (base : Relaxed style n w (.primary tree) faults m) :
      Relaxed style n w (.call tree) faults m
  | emptyCall {callee : Expr} (called : Relaxed style n w (.call callee) faults m)
      (opened : opening.kind = .symbol .leftParen) (closed : closing.kind = .symbol .rightParen) :
      Relaxed style n (w ++ [opening, closing]) (.call (.call callee closing [])) faults m
  | call {callee : Expr} {trees : List Expr} (called : Relaxed style n w (.call callee) faults m)
      (opened : opening.kind = .symbol .leftParen)
      (listed : Relaxed style m w₁ (.arguments trees) faults₁ k)
      (closed : closing.kind = .symbol .rightParen) :
      Relaxed style n (w ++ opening :: (w₁ ++ [closing])) (.call (.call callee closing trees))
        (faults ++ faults₁) k
  | property {object : Expr} (owner : Relaxed style n w (.call object) faults m)
      (dotted : dot.kind = .symbol .dot) (named : name.kind = .identifier) :
      Relaxed style n (w ++ [dot, name]) (.call (.get object name)) faults m
  | unaryOperation {right : Expr} (operates : isUnary operator.kind = true)
      (operand : Relaxed style n w (.unary right) faults m) :
      Relaxed style n (operator :: w) (.unary (.unary operator right)) faults m
  | access {tree : Expr} (base : Relaxed style n w (.call tree) faults m) :
      Relaxed style n w (.unary tree) faults m
  | tightest {tree : Expr} (base : Relaxed style n w (.unary tree) faults m) :
      Relaxed style n w (.tier [] tree) faults m
  | tighter {t : Tier} {ts : List Tier} {tree : Expr}
      (base : Relaxed style n w (.tier ts tree) faults m) :
      Relaxed style n w (.tier (t :: ts) tree) faults m
  | operation {t : Tier} {ts : List Tier} {left right : Expr}
      (before : Relaxed style n w (.tier (t :: ts) left) faults m)
      (operates : t.holds operator.kind = true)
      (after : Relaxed style m w₁ (.tier ts right) faults₁ k) :
      Relaxed style n (w ++ operator :: w₁) (.tier (t :: ts) (t.node left operator right))
        (faults ++ faults₁) k
  | plain {tree : Expr} (base : Relaxed style n w (.tier Tier.all tree) faults m) :
      Relaxed style n w (.expression tree) faults m
  | assignment {id : Nat} {value : Expr}
      (target : Relaxed style n w (.tier Tier.all (.var id name)) faults m)
      (assigned : equals.kind = .symbol .equal)
      (valued : Relaxed style m w₁ (.expression value) faults₁ k) :
      Relaxed style n (w ++ equals :: w₁) (.expression (.assign k name value))
        (faults ++ faults₁) (k + 1)
  | propertyAssignment {object value : Expr}
      (target : Relaxed style n w (.tier Tier.all (.get object name)) faults m)
      (assigned : equals.kind = .symbol .equal)
      (valued : Relaxed style m w₁ (.expression value) faults₁ k) :
      Relaxed style n (w ++ equals :: w₁) (.expression (.set object name value))
        (faults ++ faults₁) k
  | invalidAssignment {tree value : Expr}
      (target : Relaxed style n w (.tier Tier.all tree) faults m)
      (invalid : assignable tree = false) (assigned : equals.kind = .symbol .equal)
      (valued : Relaxed style m w₁ (.expression value) faults₁ k) :
      Relaxed style n (w ++ equals :: w₁) (.expression tree)
        (faults ++ (faults₁ ++ [.parse .assignmentTarget equals])) k
  | firstArgument {tree : Expr} (argument : Relaxed style n w (.expression tree) faults m) :
      Relaxed style n w (.arguments [tree]) faults m
  | nextArgument {comma t : Token} {tree : Expr} {trees : List Expr}
      (before : Relaxed style n w (.arguments trees) faults m)
      (separated : comma.kind = .symbol .comma)
      (argument : Relaxed style m (t :: w₁) (.expression tree) faults₁ k) :
      Relaxed style n (w ++ comma :: t :: w₁) (.arguments (trees ++ [tree]))
        (faults ++ (crowding .tooManyArguments trees.length t ++ faults₁)) k
  | omitted : Relaxed style n [] (.optional none) [] n
  | given {tree : Expr} (present : Relaxed style n w (.expression tree) faults m) :
      Relaxed style n w (.optional (some tree)) faults m
  | bareVariable (keyed : keyword.kind = .keyword .varWord) (named : name.kind = .identifier)
      (closed : closing.kind = .symbol .semicolon) :
      Relaxed style n [keyword, name, closing] (.varDeclaration (.varDecl name none)) [] n
  | initializedVariable {value : Expr} (keyed : keyword.kind = .keyword .varWord)
      (named : name.kind = .identifier) (assigned : equals.kind = .symbol .equal)
      (valued : Relaxed style n w (.expression value) faults m)
      (closed : closing.kind = .symbol .semicolon) :
      Relaxed style n (keyword :: name :: equals :: (w ++ [closing]))
        (.varDeclaration (.varDecl name (some value))) faults m
  | expressionEnd {value : Expr} (valued : Relaxed style n w (.expression value) faults m)
      (closed : closing.kind = .symbol .semicolon) :
      Relaxed style n (w ++ [closing]) (.expressionStatement (.expression value)) faults m
  | noInitializer (closed : closing.kind = .symbol .semicolon) :
      Relaxed style n [closing] (.initializer none) [] n
  | variableInitializer {tree : Stmt}
      (declared : Relaxed style n w (.varDeclaration tree) faults m) :
      Relaxed style n w (.initializer (some tree)) faults m
  | expressionInitializer {tree : Stmt}
      (evaluated : Relaxed style n w (.expressionStatement tree) faults m) :
      Relaxed style n w (.initializer (some tree)) faults m
  | evaluation {tree : Stmt} (evaluated : Relaxed style n w (.expressionStatement tree) faults m) :
      Relaxed style n w (.statement false tree) faults m
  | print {value : Expr} (keyed : keyword.kind = .keyword .printWord)
      (valued : Relaxed style n w (.expression value) faults m)
      (closed : closing.kind = .symbol .semicolon) :
      Relaxed style n (keyword :: (w ++ [closing])) (.statement false (.print value)) faults m
  | returnWith {value : Option Expr} (keyed : keyword.kind = .keyword .returnWord)
      (valued : Relaxed style n w (.optional value) faults m)
      (closed : closing.kind = .symbol .semicolon) :
      Relaxed style n (keyword :: (w ++ [closing]))
        (.statement false (.returnWith keyword value)) faults m
  | block {body : List Stmt} (opened : opening.kind = .symbol .leftBrace)
      (content : Relaxed style n w (.declarations body) faults m)
      (closed : closing.kind = .symbol .rightBrace) :
      Relaxed style n (opening :: (w ++ [closing])) (.statement false (.block body)) faults m
  | whileLoop {test : Expr} {endsOpen : Bool} {body : Stmt}
      (keyed : keyword.kind = .keyword .whileWord) (opened : opening.kind = .symbol .leftParen)
      (tested : Relaxed style n w (.expression test) faults m)
      (closed : closing.kind = .symbol .rightParen)
      (repeated : Relaxed style m w₁ (.statement endsOpen body) faults₁ k) :
      Relaxed style n (keyword :: opening :: (w ++ closing :: w₁))
        (.statement endsOpen (.whileLoop test body)) (faults ++ faults₁) k
  | forLoop {first : Option Stmt} {test after : Option Expr} {endsOpen : Bool} {body : Stmt}
      {semicolon : Token}
      (keyed : keyword.kind = .keyword .forWord) (opened : opening.kind = .symbol .leftParen)
      (initialized : Relaxed style n w (.initializer first) faults m)
      (tested : Relaxed style m w₁ (.optional test) faults₁ k)
      (separated : semicolon.kind = .symbol .semicolon)
      (increased : Relaxed style k w₂ (.optional after) faults₂ l)
      (closed : closing.kind = .symbol .rightParen)
      (repeated : Relaxed style l w₃ (.statement endsOpen body) faults₃ i) :
      Relaxed style n (keyword :: opening :: (w ++ (w₁ ++ semicolon :: (w₂ ++ closing :: w₃))))
        (.statement endsOpen (ForClauses.loop ⟨first, test, after⟩ body))
        (faults ++ (faults₁ ++ (faults₂ ++ faults₃))) i
  | ifThen {test : Expr} {endsOpen : Bool} {branch : Stmt}
      (keyed : keyword.kind = .keyword .ifWord) (opened : opening.kind = .symbol .leftParen)
      (tested : Relaxed style n w (.expression test) faults m)
      (closed : closing.kind = .symbol .rightParen)
      (chosen : Relaxed style m w₁ (.statement endsOpen branch) faults₁ k) :
      Relaxed style n (keyword :: opening :: (w ++ closing :: w₁))
        (.statement true (.ifElse test branch none)) (faults ++ faults₁) k
  | ifElse {test : Expr} {thenOpen elseOpen : Bool} {branch other : Stmt} {elseToken : Token}
      (keyed : keyword.kind = .keyword .ifWord) (opened : opening.kind = .symbol .leftParen)
      (tested : Relaxed style n w (.expression test) faults m)
      (closed : closing.kind = .symbol .rightParen)
      (chosen : Relaxed style m w₁ (.statement thenOpen branch) faults₁ k)
      (attached : style = .nearest → thenOpen = false)
      (alternated : elseToken.kind = .keyword .elseWord)
      (rejected : Relaxed style k w₂ (.statement elseOpen other) faults₂ l) :
      Relaxed style n (keyword :: opening :: (w ++ closing :: (w₁ ++ elseToken :: w₂)))
        (.statement elseOpen (.ifElse test branch (some other))) (faults ++ (faults₁ ++ faults₂)) l
  | ordinary {endsOpen : Bool} {tree : Stmt}
      (executed : Relaxed style n w (.statement endsOpen tree) faults m) :
      Relaxed style n w (.declaration tree) faults m
  | variableDeclaration {tree : Stmt}
      (declared : Relaxed style n w (.varDeclaration tree) faults m) :
      Relaxed style n w (.declaration tree) faults m
  | functionDeclaration {decl : FunctionDecl} (keyed : keyword.kind = .keyword .funWord)
      (declared : Relaxed style n w (.function decl) faults m) :
      Relaxed style n (keyword :: w) (.declaration (.functionDecl decl)) faults m
  | baseClass {methods : List FunctionDecl} (keyed : keyword.kind = .keyword .classWord)
      (named : name.kind = .identifier) (opened : opening.kind = .symbol .leftBrace)
      (listed : Relaxed style n w (.functions methods) faults m)
      (closed : closing.kind = .symbol .rightBrace) :
      Relaxed style n (keyword :: name :: opening :: (w ++ [closing]))
        (.declaration (.classDecl name none methods)) faults m
  | derivedClass {less parent : Token} {methods : List FunctionDecl}
      (keyed : keyword.kind = .keyword .classWord) (named : name.kind = .identifier)
      (inherits : less.kind = .symbol .less) (parented : parent.kind = .identifier)
      (opened : opening.kind = .symbol .leftBrace)
      (listed : Relaxed style (n + 1) w (.functions methods) faults m)
      (closed : closing.kind = .symbol .rightBrace) :
      Relaxed style n (keyword :: name :: less :: parent :: opening :: (w ++ [closing]))
        (.declaration (.classDecl name (some (.var n parent)) methods)) faults m
  | noDeclarations : Relaxed style n [] (.declarations []) [] n
  | moreDeclarations {tree : Stmt} {trees : List Stmt}
      (first : Relaxed style n w (.declaration tree) faults m)
      (rest : Relaxed style m w₁ (.declarations trees) faults₁ k) :
      Relaxed style n (w ++ w₁) (.declarations (tree :: trees)) (faults ++ faults₁) k
  | function {params body} {brace endBrace : Token} (named : name.kind = .identifier)
      (opened : opening.kind = .symbol .leftParen)
      (listed : w = [] ∧ params = [] ∨ Parameters w params)
      (closed : closing.kind = .symbol .rightParen) (entered : brace.kind = .symbol .leftBrace)
      (content : Relaxed style n w₁ (.declarations body) faults m)
      (left : endBrace.kind = .symbol .rightBrace) :
      Relaxed style n (name :: opening :: (w ++ closing :: brace :: (w₁ ++ [endBrace])))
        (.function ⟨name, params, body⟩)
        ((params.drop maxArguments).map (.parse .tooManyParameters) ++ faults) m
  | noFunctions : Relaxed style n [] (.functions []) [] n
  | moreFunctions {decl : FunctionDecl} {decls : List FunctionDecl}
      (first : Relaxed style n w (.function decl) faults m)
      (rest : Relaxed style m w₁ (.functions decls) faults₁ k) :
      Relaxed style n (w ++ w₁) (.functions (decl :: decls)) (faults ++ faults₁) k

variable {style : DanglingElse} {n m k : Nat} {w w₁ : List Token} {faults faults₁ : List Fault}

/-! ## First tokens -/

def startsPrimary : TokenKind → Bool
  | .keyword .thisWord => true
  | .keyword .superWord => true
  | .identifier => true
  | .symbol .leftParen => true
  | kind => (literal? kind).isSome

def startsExpression (kind : TokenKind) : Bool := isUnary kind || startsPrimary kind

def startsDeclaration (kind : TokenKind) : Bool :=
  kind ≠ .keyword .elseWord && kind ≠ .symbol .rightBrace

/-- A statement that declares nothing starts with none of the words that declare. -/
def opensStatement (kind : TokenKind) : Bool :=
  startsDeclaration kind && kind ≠ .keyword .classWord && kind ≠ .keyword .funWord &&
    kind ≠ .keyword .varWord

/-- What a derivation of a phrase starts with. -/
def Phrase.Starts : Phrase → List Token → Prop
  | .primary _, w => ∃ t w', w = t :: w' ∧ startsPrimary t.kind = true
  | .call _, w => ∃ t w', w = t :: w' ∧ startsPrimary t.kind = true
  | .unary _, w => ∃ t w', w = t :: w' ∧ startsExpression t.kind = true
  | .tier _ _, w => ∃ t w', w = t :: w' ∧ startsExpression t.kind = true
  | .expression _, w => ∃ t w', w = t :: w' ∧ startsExpression t.kind = true
  | .arguments _, w => ∃ t w', w = t :: w' ∧ startsExpression t.kind = true
  | .expressionStatement _, w => ∃ t w', w = t :: w' ∧ startsExpression t.kind = true
  | .varDeclaration _, w => ∃ t w', w = t :: w' ∧ t.kind = .keyword .varWord
  | .statement _ _, w => ∃ t w', w = t :: w' ∧ opensStatement t.kind = true
  | .declaration _, w => ∃ t w', w = t :: w' ∧ startsDeclaration t.kind = true
  | .function _, w => ∃ t w', w = t :: w' ∧ t.kind = .identifier
  | .declarations _, w => ∀ t ∈ w.head?, startsDeclaration t.kind = true
  | .optional _, _ => True
  | .initializer _, _ => True
  | .functions _, _ => True

theorem startsPrimary_of_literal {kind : TokenKind} {value : Literal}
    (h : literal? kind = some value) : startsPrimary kind = true := by
  unfold startsPrimary
  split <;> first | rfl | simp [h]

theorem opensStatement_of_startsExpression {kind : TokenKind}
    (h : startsExpression kind = true) : opensStatement kind = true := by
  simp only [opensStatement, startsDeclaration, Bool.and_eq_true, decide_eq_true_eq]
  refine ⟨⟨⟨⟨?_, ?_⟩, ?_⟩, ?_⟩, ?_⟩
  all_goals
    rintro rfl
    cases h

theorem startsDeclaration_of_opensStatement {kind : TokenKind} (h : opensStatement kind = true) :
    startsDeclaration kind = true := by
  simp only [opensStatement, Bool.and_eq_true] at h
  exact h.1.1.1

theorem Relaxed.starts {phrase : Phrase} (h : Relaxed style n w phrase faults m) :
    phrase.Starts w := by
  induction h with
  | literal denotes => exact ⟨_, _, rfl, startsPrimary_of_literal denotes⟩
  | this keyed => exact ⟨_, _, rfl, by rw [keyed]; rfl⟩
  | «variable» named => exact ⟨_, _, rfl, by rw [named]; rfl⟩
  | super keyed => exact ⟨_, _, rfl, by rw [keyed]; rfl⟩
  | grouping opened => exact ⟨_, _, rfl, by rw [opened]; rfl⟩
  | simple _ ih => exact ih
  | emptyCall _ _ _ ih | property _ _ _ ih | call _ _ _ _ ih =>
    obtain ⟨t, w', rfl, ht⟩ := ih
    exact ⟨t, _, List.cons_append, ht⟩
  | unaryOperation operates => exact ⟨_, _, rfl, by simp [startsExpression, operates]⟩
  | access _ ih =>
    obtain ⟨t, w', rfl, ht⟩ := ih
    exact ⟨t, w', rfl, by simp [startsExpression, ht]⟩
  | tightest _ ih | tighter _ ih | plain _ ih | firstArgument _ ih => exact ih
  | operation _ _ _ ih | assignment _ _ _ ih | propertyAssignment _ _ _ ih
  | invalidAssignment _ _ _ _ ih | nextArgument _ _ _ ih | expressionEnd _ _ ih =>
    obtain ⟨t, w', rfl, ht⟩ := ih
    exact ⟨t, _, List.cons_append, ht⟩
  | bareVariable keyed | initializedVariable keyed => exact ⟨_, _, rfl, keyed⟩
  | omitted | given | noInitializer | variableInitializer | expressionInitializer => trivial
  | evaluation _ ih =>
    obtain ⟨t, w', rfl, ht⟩ := ih
    exact ⟨t, w', rfl, opensStatement_of_startsExpression ht⟩
  | print keyed | returnWith keyed | whileLoop keyed | forLoop keyed | ifThen keyed
  | ifElse keyed | functionDeclaration keyed | baseClass keyed | derivedClass keyed =>
    exact ⟨_, _, rfl, by rw [keyed]; rfl⟩
  | block opened => exact ⟨_, _, rfl, by rw [opened]; rfl⟩
  | ordinary _ ih =>
    obtain ⟨t, w', rfl, ht⟩ := ih
    exact ⟨t, w', rfl, startsDeclaration_of_opensStatement ht⟩
  | variableDeclaration _ ih =>
    obtain ⟨t, w', rfl, ht⟩ := ih
    exact ⟨t, w', rfl, by rw [ht]; rfl⟩
  | noDeclarations => exact nofun
  | moreDeclarations _ _ ih =>
    obtain ⟨t, w', rfl, ht⟩ := ih
    rintro _ ⟨⟩
    exact ht
  | function named => exact ⟨_, _, rfl, named⟩
  | noFunctions | moreFunctions => trivial

/-! ## The grammar is part of the relaxed one -/

/-- An operand is one of each tier. -/
theorem Relaxed.operand {tree : Expr} (h : Relaxed style n w (.unary tree) faults m)
    (ts : List Tier) : Relaxed style n w (.tier ts tree) faults m := by
  induction ts with
  | nil => exact .tightest h
  | cons t ts ih => exact .tighter ih

theorem crowding_of_lt {cause : ParseCause} {place : Nat} {t : Token} (h : place < maxArguments) :
    crowding cause place t = [] :=
  if_neg (Nat.not_le.mpr h)

theorem OptionalParameters.listed {names : List Token} (h : OptionalParameters w names) :
    (w = [] ∧ names = [] ∨ Parameters w names) ∧ names.drop maxArguments = [] := by
  cases h with
  | none => exact ⟨.inl ⟨rfl, rfl⟩, rfl⟩
  | some listed bounded => exact ⟨.inr listed, List.drop_eq_nil_of_le bounded⟩

/-- The relaxed grammar lists arguments from the left. Arguments within the bound are listed on
their own and after others. -/
structure Relaxed.Listed (style : DanglingElse) (n : Nat) (w : List Token) (trees : List Expr)
    (m : Nat) : Prop where
  alone : trees.length ≤ maxArguments → Relaxed style n w (.arguments trees) [] m
  after {n₀ : Nat} {w₀ : List Token} {before : List Expr} {comma : Token}
    (others : Relaxed style n₀ w₀ (.arguments before) [] n)
    (separated : comma.kind = .symbol .comma)
    (bounded : before.length + trees.length ≤ maxArguments) :
    Relaxed style n₀ (w₀ ++ comma :: w) (.arguments (before ++ trees)) [] m

theorem Relaxed.Listed.last {tree : Expr} (h : Relaxed style n w (.expression tree) [] m) :
    Listed style n w [tree] m where
  alone _ := .firstArgument h
  after others separated bounded := by
    obtain ⟨t, w', rfl, -⟩ := h.starts
    simp only [List.length_cons, List.length_nil] at bounded
    have listed := Relaxed.nextArgument others separated h
    rwa [crowding_of_lt (by omega)] at listed

theorem Relaxed.Listed.more {comma : Token} {tree : Expr} {trees : List Expr}
    (h : Relaxed style n w (.expression tree) [] m) (separated : comma.kind = .symbol .comma)
    (rest : Listed style m w₁ trees k) : Listed style n (w ++ comma :: w₁) (tree :: trees) k where
  alone bounded := by
    simp only [List.length_cons] at bounded
    exact rest.after (.firstArgument h) separated (by simp; omega)
  after {n₀ w₀ before first} others separated' bounded := by
    simp only [List.length_cons] at bounded
    have listed := rest.after ((Listed.last h).after others separated' (by simp; omega)) separated
      (by simp; omega)
    simpa using listed

/-- What a derivation is in the relaxed grammar. -/
def Phrase.Relaxes (style : DanglingElse) : Phrase → Nat → List Token → Nat → Prop
  | .arguments trees, n, w, m => Relaxed.Listed style n w trees m
  | phrase, n, w, m => Relaxed style n w phrase [] m

theorem Derives.relaxes {phrase : Phrase} (h : Derives style n w phrase m) :
    phrase.Relaxes style n w m := by
  induction h with
  | literal denotes => exact .literal denotes
  | this keyed => exact .this keyed
  | «variable» named => exact .variable named
  | super keyed dotted named => exact .super keyed dotted named
  | grouping opened _ closed ih => exact .grouping opened ih closed
  | simple _ ih => exact .simple ih
  | emptyCall _ opened closed ih => exact .emptyCall ih opened closed
  | call _ opened _ bounded closed ih ih' => exact .call ih opened (ih'.alone bounded) closed
  | property _ dotted named ih => exact .property ih dotted named
  | unaryOperation operates _ ih => exact .unaryOperation operates ih
  | access _ ih => exact .access ih
  | tightest _ ih => exact .tightest ih
  | tighter _ ih => exact .tighter ih
  | operation _ operates _ ih ih' => exact .operation ih operates ih'
  | plain _ ih => exact .plain ih
  | assignment named assigned _ ih =>
    exact .assignment (.operand (.access (.simple (.variable named))) _) assigned ih
  | propertyAssignment _ dotted named assigned _ ih ih' =>
    have target := Relaxed.operand (.access (.property ih dotted named)) Tier.all
    have assignment := Relaxed.propertyAssignment target assigned ih'
    rw [List.append_assoc] at assignment
    exact assignment
  | lastArgument _ ih => exact .last ih
  | moreArguments _ separated _ ih ih' => exact .more ih separated ih'
  | omitted => exact .omitted
  | given _ ih => exact .given ih
  | bareVariable keyed named closed => exact .bareVariable keyed named closed
  | initializedVariable keyed named assigned _ closed ih =>
    exact .initializedVariable keyed named assigned ih closed
  | expressionEnd _ closed ih => exact .expressionEnd ih closed
  | noInitializer closed => exact .noInitializer closed
  | variableInitializer _ ih => exact .variableInitializer ih
  | expressionInitializer _ ih => exact .expressionInitializer ih
  | evaluation _ ih => exact .evaluation ih
  | print keyed _ closed ih => exact .print keyed ih closed
  | returnWith keyed _ closed ih => exact .returnWith keyed ih closed
  | block opened _ closed ih => exact .block opened ih closed
  | whileLoop keyed opened _ closed _ ih ih' => exact .whileLoop keyed opened ih closed ih'
  | forLoop keyed opened _ _ separated _ closed _ ih ih₁ ih₂ ih₃ =>
    exact .forLoop keyed opened ih ih₁ separated ih₂ closed ih₃
  | ifThen keyed opened _ closed _ ih ih' => exact .ifThen keyed opened ih closed ih'
  | ifElse keyed opened _ closed _ attached alternated _ ih ih₁ ih₂ =>
    exact .ifElse keyed opened ih closed ih₁ attached alternated ih₂
  | ordinary _ ih => exact .ordinary ih
  | variableDeclaration _ ih => exact .variableDeclaration ih
  | functionDeclaration keyed _ ih => exact .functionDeclaration keyed ih
  | baseClass keyed named opened _ closed ih => exact .baseClass keyed named opened ih closed
  | derivedClass keyed named inherits parented opened _ closed ih =>
    exact .derivedClass keyed named inherits parented opened ih closed
  | noDeclarations => exact .noDeclarations
  | moreDeclarations _ _ ih ih' => exact .moreDeclarations ih ih'
  | function named opened listed closed entered _ left ih =>
    have function := Relaxed.function named opened listed.listed.1 closed entered ih left
    rwa [listed.listed.2] at function
  | noFunctions => exact .noFunctions
  | moreFunctions _ _ ih ih' => exact .moreFunctions ih ih'

/-- Not the arguments of a call, which the relaxed grammar counts. -/
def Phrase.Single : Phrase → Prop
  | .arguments _ => False
  | _ => True

/-- What is derivable is derivable in the relaxed grammar, without a fault. Arguments are where
there are no more than the bound. -/
theorem Derives.relaxed {phrase : Phrase} (h : Derives style n w phrase m)
    (single : phrase.Single) : Relaxed style n w phrase [] m := by
  have relaxes := h.relaxes
  cases phrase with
  | arguments trees => exact single.elim
  | _ => exact relaxes

theorem Derives.starts {phrase : Phrase} (h : Derives style n w phrase m)
    (single : phrase.Single) : phrase.Starts w :=
  (h.relaxed single).starts

end Lox.Grammar
