import Lox.Proofs.Grammar.Counting
import Lox.Proofs.Scope.WellFormed

/-!
# Trees that are read, with or without faults

A tree that a reader gives has its names from identifiers, its operators from tokens that are
operators, a variable for a superclass and no declaration for a branch. Its occurrences have
numbers of the stretch that was counted while it was read. Nothing is said about the faults: a
declaration that was dropped leaves a gap in the numbers, and so does the variable that turned
out to be the target of an assignment.
-/
namespace Lox.Grammar

open Scope (Part FunctionKind)

def isLogical (kind : TokenKind) : Bool := Tier.disjunction.holds kind || Tier.conjunction.holds kind

def isBinary (kind : TokenKind) : Bool :=
  Tier.equality.holds kind || Tier.comparison.holds kind || Tier.sum.holds kind ||
    Tier.product.holds kind

/-- A part that readers make, with numbers from `n` up to `m`. The parts below it share out the
numbers in the order in which they are read. -/
inductive Built : Nat → Nat → Part → Prop where
  | literal {n m : Nat} {value : Literal} (le : n ≤ m) : Built n m (.expr (.literal value))
  | this {n m id : Nat} {keyword : Token} (keyed : keyword.kind = .keyword .thisWord)
      (low : n ≤ id) (high : id < m) : Built n m (.expr (.thisRef id keyword))
  | variable {n m id : Nat} {name : Token} (named : name.kind = .identifier) (low : n ≤ id)
      (high : id < m) : Built n m (.expr (.var id name))
  | super {n m id : Nat} {keyword method : Token} (keyed : keyword.kind = .keyword .superWord)
      (named : method.kind = .identifier) (low : n ≤ id) (high : id < m) :
      Built n m (.expr (.superRef id keyword method))
  | grouping {n m : Nat} {inner : Expr} (content : Built n m (.expr inner)) :
      Built n m (.expr (.grouping inner))
  | call {n m k : Nat} {callee : Expr} {paren : Token} {arguments : List Expr}
      (called : Built n m (.expr callee)) (listed : Built m k (.exprs arguments))
      (closed : paren.kind = .symbol .rightParen) :
      Built n k (.expr (.call callee paren arguments))
  | property {n m : Nat} {object : Expr} {name : Token} (owner : Built n m (.expr object))
      (named : name.kind = .identifier) : Built n m (.expr (.get object name))
  | unary {n m : Nat} {operator : Token} {right : Expr}
      (operates : isUnary operator.kind = true) (operand : Built n m (.expr right)) :
      Built n m (.expr (.unary operator right))
  | binary {n m k : Nat} {left right : Expr} {operator : Token}
      (before : Built n m (.expr left)) (operates : isBinary operator.kind = true)
      (after : Built m k (.expr right)) : Built n k (.expr (.binary left operator right))
  | logical {n m k : Nat} {left right : Expr} {operator : Token}
      (before : Built n m (.expr left)) (operates : isLogical operator.kind = true)
      (after : Built m k (.expr right)) : Built n k (.expr (.logical left operator right))
  | assignment {n m id : Nat} {name : Token} {value : Expr} (named : name.kind = .identifier)
      (valued : Built n id (.expr value)) (high : id < m) :
      Built n m (.expr (.assign id name value))
  | propertyAssignment {n m k : Nat} {object value : Expr} {name : Token}
      (owner : Built n m (.expr object)) (named : name.kind = .identifier)
      (valued : Built m k (.expr value)) : Built n k (.expr (.set object name value))
  | noExprs {n m : Nat} (le : n ≤ m) : Built n m (.exprs [])
  | moreExprs {n m k : Nat} {e : Expr} {es : List Expr} (first : Built n m (.expr e))
      (rest : Built m k (.exprs es)) : Built n k (.exprs (e :: es))
  | expression {n m : Nat} {value : Expr} (valued : Built n m (.expr value)) :
      Built n m (.stmt (.expression value))
  | print {n m : Nat} {value : Expr} (valued : Built n m (.expr value)) :
      Built n m (.stmt (.print value))
  | return {n m : Nat} {keyword : Token} {value : Option Expr}
      (keyed : keyword.kind = .keyword .returnWord) (le : n ≤ m)
      (valued : ∀ e ∈ value, Built n m (.expr e)) : Built n m (.stmt (.returnWith keyword value))
  | varDecl {n m : Nat} {name : Token} {value : Option Expr} (named : name.kind = .identifier)
      (le : n ≤ m) (valued : ∀ e ∈ value, Built n m (.expr e)) :
      Built n m (.stmt (.varDecl name value))
  | functionDecl {n m : Nat} {decl : FunctionDecl} (named : decl.name.kind = .identifier)
      (declared : Built n m (.function .function decl)) : Built n m (.stmt (.functionDecl decl))
  | baseClass {n m : Nat} {name : Token} {methods : List FunctionDecl}
      (named : name.kind = .identifier) (listed : Built n m (.functions methods)) :
      Built n m (.stmt (.classDecl name none methods))
  | derivedClass {n m id : Nat} {name parent : Token} {methods : List FunctionDecl}
      (named : name.kind = .identifier) (parented : parent.kind = .identifier) (low : n ≤ id)
      (listed : Built (id + 1) m (.functions methods)) :
      Built n m (.stmt (.classDecl name (some (.var id parent)) methods))
  | block {n m : Nat} {body : List Stmt} (content : Built n m (.stmts body)) :
      Built n m (.stmt (.block body))
  | increment {n m k : Nat} {after : Expr} {body : Stmt} (increased : Built n m (.expr after))
      (repeated : Built m k (.stmt body)) (plain : body.declares = false) :
      Built n k (.stmt (.block [body, .expression after]))
  | whileLoop {n m k : Nat} {test : Expr} {body : Stmt} (tested : Built n m (.expr test))
      (repeated : Built m k (.stmt body)) (plain : body.declares = false) :
      Built n k (.stmt (.whileLoop test body))
  | ifThen {n m k : Nat} {test : Expr} {branch : Stmt} (tested : Built n m (.expr test))
      (chosen : Built m k (.stmt branch)) (plain : branch.declares = false) :
      Built n k (.stmt (.ifElse test branch none))
  | ifElse {n m k l : Nat} {test : Expr} {branch other : Stmt} (tested : Built n m (.expr test))
      (chosen : Built m k (.stmt branch)) (plain : branch.declares = false)
      (rejected : Built k l (.stmt other)) (plain' : other.declares = false) :
      Built n l (.stmt (.ifElse test branch (some other)))
  | noStmts {n m : Nat} (le : n ≤ m) : Built n m (.stmts [])
  | moreStmts {n m k : Nat} {s : Stmt} {ss : List Stmt} (first : Built n m (.stmt s))
      (rest : Built m k (.stmts ss)) : Built n k (.stmts (s :: ss))
  | function {n m : Nat} {kind : FunctionKind} {decl : FunctionDecl}
      (listed : ∀ name ∈ decl.params, name.kind = .identifier)
      (content : Built n m (.stmts decl.body)) : Built n m (.function kind decl)
  | noFunctions {n m : Nat} (le : n ≤ m) : Built n m (.functions [])
  | moreFunctions {n m k : Nat} {decl : FunctionDecl} {decls : List FunctionDecl}
      (named : decl.name.kind = .identifier)
      (first : Built n m (.function (Scope.methodKind decl) decl))
      (rest : Built m k (.functions decls)) : Built n k (.functions (decl :: decls))

namespace Built

variable {n m k l : Nat}

theorem le {p : Part} (h : Built n m p) : n ≤ m := by
  induction h with
  | literal le | «return» _ le | varDecl _ le | noExprs le | noStmts le | noFunctions le => exact le
  | this _ low high | «variable» _ low high | super _ _ low high => omega
  | grouping _ ih | property _ _ ih | unary _ _ ih | expression _ ih | print _ ih
  | functionDecl _ _ ih | baseClass _ _ ih | block _ ih | function _ _ ih => exact ih
  | call _ _ _ ih ih' | binary _ _ _ ih ih' | logical _ _ _ ih ih'
  | propertyAssignment _ _ _ ih ih' | moreExprs _ _ ih ih' | increment _ _ _ ih ih'
  | whileLoop _ _ _ ih ih' | ifThen _ _ _ ih ih' | moreStmts _ _ ih ih'
  | moreFunctions _ _ _ ih ih' => exact Nat.le_trans ih ih'
  | ifElse _ _ _ _ _ ih ih' ih'' => exact Nat.le_trans (Nat.le_trans ih ih') ih''
  | assignment _ _ high ih => omega
  | derivedClass _ _ low _ ih => omega

theorem widen {p : Part} (h : Built n m p) {n' m' : Nat} (hn : n' ≤ n) (hm : m ≤ m') :
    Built n' m' p := by
  induction h generalizing n' m' with
  | literal le => exact .literal (by omega)
  | this keyed low high => exact .this keyed (by omega) (by omega)
  | «variable» named low high => exact .variable named (by omega) (by omega)
  | super keyed named low high => exact .super keyed named (by omega) (by omega)
  | grouping _ ih => exact .grouping (ih hn hm)
  | call _ _ closed ih ih' => exact .call (ih hn (Nat.le_refl _)) (ih' (Nat.le_refl _) hm) closed
  | property _ named ih => exact .property (ih hn hm) named
  | unary operates _ ih => exact .unary operates (ih hn hm)
  | binary _ operates _ ih ih' =>
    exact .binary (ih hn (Nat.le_refl _)) operates (ih' (Nat.le_refl _) hm)
  | logical _ operates _ ih ih' =>
    exact .logical (ih hn (Nat.le_refl _)) operates (ih' (Nat.le_refl _) hm)
  | assignment named _ high ih => exact .assignment named (ih hn (Nat.le_refl _)) (by omega)
  | propertyAssignment _ named _ ih ih' =>
    exact .propertyAssignment (ih hn (Nat.le_refl _)) named (ih' (Nat.le_refl _) hm)
  | noExprs le => exact .noExprs (by omega)
  | moreExprs _ _ ih ih' => exact .moreExprs (ih hn (Nat.le_refl _)) (ih' (Nat.le_refl _) hm)
  | expression _ ih => exact .expression (ih hn hm)
  | print _ ih => exact .print (ih hn hm)
  | «return» keyed le _ ih => exact .return keyed (by omega) fun e he => ih e he hn hm
  | varDecl named le _ ih => exact .varDecl named (by omega) fun e he => ih e he hn hm
  | functionDecl named _ ih => exact .functionDecl named (ih hn hm)
  | baseClass named _ ih => exact .baseClass named (ih hn hm)
  | derivedClass named parented low _ ih =>
    exact .derivedClass named parented (by omega) (ih (Nat.le_refl _) hm)
  | block _ ih => exact .block (ih hn hm)
  | increment _ _ plain ih ih' =>
    exact .increment (ih hn (Nat.le_refl _)) (ih' (Nat.le_refl _) hm) plain
  | whileLoop _ _ plain ih ih' =>
    exact .whileLoop (ih hn (Nat.le_refl _)) (ih' (Nat.le_refl _) hm) plain
  | ifThen _ _ plain ih ih' => exact .ifThen (ih hn (Nat.le_refl _)) (ih' (Nat.le_refl _) hm) plain
  | ifElse _ hb plain _ plain' ih ih' ih'' =>
    exact .ifElse (ih hn (Nat.le_refl _)) (ih' (Nat.le_refl _) (Nat.le_refl _)) plain
      (ih'' (Nat.le_refl _) hm) plain'
  | noStmts le => exact .noStmts (by omega)
  | moreStmts _ _ ih ih' => exact .moreStmts (ih hn (Nat.le_refl _)) (ih' (Nat.le_refl _) hm)
  | function listed _ ih => exact .function listed (ih hn hm)
  | noFunctions le => exact .noFunctions (by omega)
  | moreFunctions named _ _ ih ih' =>
    exact .moreFunctions named (ih hn (Nat.le_refl _)) (ih' (Nat.le_refl _) hm)

theorem operation {t : Tier} {left right : Expr} {operator : Token}
    (before : Built n m (.expr left)) (operates : t.holds operator.kind = true)
    (after : Built m k (.expr right)) : Built n k (.expr (t.node left operator right)) := by
  cases t with
  | disjunction | conjunction => exact .logical before (by simp [isLogical, operates]) after
  | equality | comparison | sum | product =>
    exact .binary before (by simp [isBinary, operates]) after

theorem pair {s s' : Stmt} (h : Built n m (.stmt s)) (h' : Built m k (.stmt s')) :
    Built n k (.stmts [s, s']) :=
  .moreStmts h (.moreStmts h' (.noStmts (Nat.le_refl k)))

theorem loop {clauses : ForClauses} {body : Stmt} {i : Nat} (ordered : n ≤ m)
    (initialized : ∀ s ∈ clauses.initializer, Built n m (.stmt s)) (ordered' : m ≤ k)
    (tested : ∀ e ∈ clauses.condition, Built m k (.expr e)) (ordered'' : k ≤ l)
    (increased : ∀ e ∈ clauses.increment, Built k l (.expr e)) (repeated : Built l i (.stmt body))
    (plain : body.declares = false) :
    Built n i (.stmt (clauses.loop body)) ∧ (clauses.loop body).declares = false := by
  obtain ⟨initializer, condition, increment⟩ := clauses
  have test : Built m k (.expr (condition.getD (.literal (.bool true)))) := by
    cases condition with
    | none => exact .literal ordered'
    | some e => exact tested e rfl
  have inner {s : Stmt} (h : Built k i (.stmt s)) (hs : s.declares = false) :
      Built m i (.stmt (.whileLoop (condition.getD (.literal (.bool true))) s)) :=
    .whileLoop test h hs
  have loop : Built m i (.stmt (ForClauses.loop ⟨none, condition, increment⟩ body)) := by
    cases increment with
    | none => exact inner (repeated.widen ordered'' (Nat.le_refl i)) plain
    | some e => exact inner (.increment (increased e rfl) repeated plain) rfl
  cases initializer with
  | none => exact ⟨loop.widen ordered (Nat.le_refl i), rfl⟩
  | some s => exact ⟨.block ((initialized s rfl).pair loop), rfl⟩

end Built

/-! ## What a reply gives -/

variable {α β : Type} {n m k : Nat}

namespace Reply

/-- What is read, if anything, and the count that is left are as required. -/
def Gives (r : Reply α n) (post : α → Nat → Prop) : Prop :=
  match r with
  | done value _ left _ => post value left.nextId
  | stuck .. => True

variable {post : α → Nat → Prop}

theorem gives_pure {value : α} {s : Input} {h : s.size < n} (hp : post value s.nextId) :
    (pure value s h).Gives post := hp

theorem gives_tagged {value : Nat → α} {s : Input} {h : s.size < n}
    (hp : post (value s.nextId) (s.nextId + 1)) : (tagged value s h).Gives post := hp

theorem gives_expected {cause : ParseCause} {s : Input} {h : s.size ≤ n} :
    (expected cause s h : Reply α n).Gives post := trivial

theorem Gives.noting {r : Reply α n} {earlier : List Fault} (h : r.Gives post) :
    (r.noting earlier).Gives post := by
  cases r <;> exact h

theorem Gives.widen {r : Reply α n} {le : n ≤ m} (h : r.Gives post) : (r.widen le).Gives post := by
  cases r <;> exact h

theorem Gives.andThen {post' : β → Nat → Prop} {r : Reply α n}
    {next : α → (left : Input) → left.size < n → Reply β m} {le : n ≤ m} (h : r.Gives post)
    (h' : ∀ value left hl, post value left.nextId → (next value left hl).Gives post') :
    (r.andThen next le).Gives post' := by
  cases r with
  | done value noted left hl => exact (h' value left hl h).noting
  | stuck => trivial

end Reply

theorem gives_expect (s : Input) (kind : TokenKind) (cause : ParseCause) :
    (s.expect kind cause).Gives fun t m => t.kind = kind ∧ m = s.nextId := by
  unfold Input.expect
  split
  · next t left h ht => exact Reply.gives_pure ⟨(Input.take_eq_some.mp ht).1, Input.nextId_of_take ht⟩
  · exact Reply.gives_expected

/-- A token of a certain kind changes no count. -/
theorem gives_expect_andThen {s : Input} {kind : TokenKind} {cause : ParseCause}
    {next : Token → (left : Input) → left.size < s.size → Reply β m} {le : s.size ≤ m}
    {post : β → Nat → Prop}
    (h : ∀ t left hl, t.kind = kind → left.nextId = s.nextId → (next t left hl).Gives post) :
    ((s.expect kind cause).andThen next le).Gives post :=
  (gives_expect s kind cause).andThen fun t left hl ht => h t left hl ht.1 ht.2

open Reply Input

/-! ## Expressions -/

theorem built_assignTo {target value : Expr} {equals : Token} {s : Input} {h : s.size < k}
    (ht : Built n m (.expr target)) (hv : Built m s.nextId (.expr value)) :
    (assignTo target equals value s h).Gives fun e m => Built n m (.expr e) := by
  unfold assignTo
  split
  · next id name =>
    cases ht with
    | «variable» named low high =>
      have valued := hv.widen (Nat.le_of_lt (Nat.lt_of_le_of_lt low high)) (Nat.le_refl _)
      exact gives_tagged (.assignment named valued (Nat.lt_succ_self _))
  · next object name =>
    cases ht with
    | property owner named => exact gives_pure (.propertyAssignment owner named hv)
  · exact ht.widen (Nat.le_refl n) hv.le

mutual

theorem built_expression {n : Nat} (s : Input) (hn : n ≤ s.nextId) :
    (expression s).Gives fun e m => Built n m (.expr e) := by
  rw [expression]
  refine (built_tiers Tier.all s hn).andThen fun target s₁ h₁ ht => ?_
  split
  · exact gives_pure ht
  · next equals s₂ h₂ he =>
    have hm := nextId_of_take he
    exact (built_expression s₂ (Nat.le_of_eq hm.symm)).andThen fun value s₃ h₃ hv =>
      built_assignTo ht hv
termination_by s.size * 16 + 12
decreasing_by
  · simp only [Tier.length_all]
    omega
  · omega

theorem built_tiers {n : Nat} (ts : List Tier) (s : Input) (hn : n ≤ s.nextId) :
    (tiers ts s).Gives fun e m => Built n m (.expr e) := by
  cases ts with
  | nil =>
    rw [tiers]
    exact built_unary s hn
  | cons t ts =>
    rw [tiers]
    exact (built_tiers ts s hn).andThen fun left s₁ h₁ hl => (built_operators t ts left s₁ hl).widen
termination_by s.size * 16 + ts.length + 3
decreasing_by all_goals (simp only [List.length_nil, List.length_cons]; omega)

theorem built_operators {n : Nat} (t : Tier) (ts : List Tier) (left : Expr) (s : Input)
    (hl : Built n s.nextId (.expr left)) :
    (operators t ts left s).Gives fun e m => Built n m (.expr e) := by
  rw [operators]
  split
  · exact gives_pure hl
  · next operator s₁ h₁ ht =>
    have hm := nextId_of_take? ht
    refine (built_tiers ts s₁ (Nat.le_of_eq hm.symm)).andThen fun right s₂ h₂ hr => ?_
    exact (built_operators t ts _ s₂ (hl.operation (take?_eq_some.mp ht).1 hr)).widen
termination_by s.size * 16 + ts.length + 3

theorem built_unary {n : Nat} (s : Input) (hn : n ≤ s.nextId) :
    (unary s).Gives fun e m => Built n m (.expr e) := by
  rw [unary]
  split
  · next operator s₁ h₁ ht =>
    refine (built_unary s₁ (nextId_of_take? ht ▸ hn)).andThen fun right s₂ h₂ hr => ?_
    exact gives_pure (.unary (take?_eq_some.mp ht).1 hr)
  · exact (built_primary s hn).andThen fun callee s₁ h₁ hc => (built_accesses callee s₁ hc).widen
termination_by s.size * 16 + 1

theorem built_accesses {n : Nat} (target : Expr) (s : Input) (ht : Built n s.nextId (.expr target)) :
    (accesses target s).Gives fun e m => Built n m (.expr e) := by
  rw [accesses]
  split
  · next s₁ h₁ ho =>
    have hm := nextId_of_take ho
    rw [← hm] at ht
    split
    · next paren s₂ h₂ hp =>
      have hm₂ := nextId_of_take hp
      have called := ht.call (.noExprs (Nat.le_of_eq hm₂.symm)) (take_eq_some.mp hp).1
      exact (built_accesses _ s₂ called).widen
    · refine (built_arguments 0 s₁ (Nat.le_refl _)).andThen fun found s₂ h₂ hf => ?_
      exact (built_accesses _ s₂ (ht.call hf.1 hf.2)).widen
  · split
    · next s₁ h₁ hd =>
      refine gives_expect_andThen fun name s₂ h₂ named hm₂ => ?_
      have owner := ht.property named
      rw [← nextId_of_take hd, ← hm₂] at owner
      exact (built_accesses _ s₂ owner).widen
    · exact gives_pure ht
termination_by s.size * 16

theorem built_arguments {n : Nat} (count : Nat) (s : Input) (hn : n ≤ s.nextId) :
    (arguments count s).Gives fun found m =>
      Built n m (.exprs found.1) ∧ found.2.kind = .symbol .rightParen := by
  rw [arguments]
  refine Gives.noting ((built_expression s hn).andThen fun argument s₁ h₁ ha => ?_)
  split
  · next s₂ h₂ ht =>
    refine (built_arguments (count + 1) s₂ (Nat.le_of_eq (nextId_of_take ht).symm)).andThen
      fun more s₃ h₃ hm => ?_
    exact gives_pure ⟨.moreExprs ha hm.1, hm.2⟩
  · refine gives_expect_andThen fun paren s₂ h₂ closed hm => ?_
    exact gives_pure ⟨.moreExprs ha (.noExprs (Nat.le_of_eq hm.symm)), closed⟩
termination_by s.size * 16 + 13

theorem built_primary {n : Nat} (s : Input) (hn : n ≤ s.nextId) :
    (primary s).Gives fun e m => Built n m (.expr e) := by
  rw [primary]
  split
  · exact gives_expected
  · next t s₁ h₁ ht =>
    have hn₁ := nextId_of_next? ht ▸ hn
    split
    · exact gives_pure (.literal hn₁)
    · exact gives_pure (.literal hn₁)
    · exact gives_pure (.literal hn₁)
    · exact gives_pure (.literal hn₁)
    · exact gives_pure (.literal hn₁)
    · next keyed => exact gives_tagged (.this keyed hn₁ (Nat.lt_succ_self _))
    · next named => exact gives_tagged (.variable named hn₁ (Nat.lt_succ_self _))
    · next keyed =>
      refine gives_expect_andThen fun _ s₂ h₂ _ hm₂ => ?_
      refine gives_expect_andThen fun method s₃ h₃ named hm₃ => ?_
      exact gives_tagged (.super keyed named (hm₃ ▸ hm₂ ▸ hn₁) (Nat.lt_succ_self _))
    · refine (built_expression s₁ hn₁).andThen fun inner s₂ h₂ hi => ?_
      refine gives_expect_andThen fun _ s₃ h₃ _ hm => ?_
      exact gives_pure (.grouping (hm ▸ hi))
    · exact gives_expected
termination_by s.size * 16

end

/-! ## Statements -/

theorem built_clause {close : Symbol} {cause : ParseCause} {s : Input} (hn : n ≤ s.nextId) :
    (clause close cause s).Gives fun value m => n ≤ m ∧ ∀ e ∈ value, Built n m (.expr e) := by
  unfold clause
  split
  · next s₁ h₁ ht => exact gives_pure ⟨nextId_of_take ht ▸ hn, nofun⟩
  · refine (built_expression s hn).andThen fun value s₁ h₁ hv => ?_
    refine gives_expect_andThen fun _ s₂ h₂ _ hm => ?_
    rw [← hm] at hv
    refine gives_pure ⟨hv.le, ?_⟩
    rintro _ ⟨⟩
    exact hv

theorem built_expressionStatement {s : Input} (hn : n ≤ s.nextId) :
    (expressionStatement s).Gives fun tree m =>
      Built n m (.stmt tree) ∧ tree.declares = false := by
  refine (built_expression s hn).andThen fun value s₁ h₁ hv => ?_
  refine gives_expect_andThen fun _ s₂ h₂ _ hm => ?_
  exact gives_pure ⟨.expression (hm ▸ hv), rfl⟩

theorem built_printStatement {s : Input} (hn : n ≤ s.nextId) :
    (printStatement s).Gives fun tree m => Built n m (.stmt tree) ∧ tree.declares = false := by
  refine (built_expression s hn).andThen fun value s₁ h₁ hv => ?_
  refine gives_expect_andThen fun _ s₂ h₂ _ hm => ?_
  exact gives_pure ⟨.print (hm ▸ hv), rfl⟩

theorem built_returnStatement {keyword : Token} {s : Input}
    (keyed : keyword.kind = .keyword .returnWord) (hn : n ≤ s.nextId) :
    (returnStatement keyword s).Gives fun tree m =>
      Built n m (.stmt tree) ∧ tree.declares = false :=
  (built_clause hn).andThen fun _ _ _ hv => gives_pure ⟨.return keyed hv.1 hv.2, rfl⟩

theorem built_varDeclaration {s : Input} (hn : n ≤ s.nextId) :
    (varDeclaration s).Gives fun tree m => Built n m (.stmt tree) := by
  refine gives_expect_andThen fun name s₁ h₁ named hm₁ => ?_
  rw [← hm₁] at hn
  split
  · next s₂ h₂ ht =>
    refine (built_expression s₂ (nextId_of_take ht ▸ hn)).andThen fun value s₃ h₃ hv => ?_
    refine gives_expect_andThen fun _ s₄ h₄ _ hm₄ => ?_
    rw [← hm₄] at hv
    refine gives_pure (.varDecl named hv.le ?_)
    rintro _ ⟨⟩
    exact hv
  · refine gives_expect_andThen fun _ s₂ h₂ _ hm₂ => ?_
    exact gives_pure (.varDecl named (hm₂ ▸ hn) nofun)

theorem built_condition {opening closing : ParseCause} {s : Input} (hn : n ≤ s.nextId) :
    (condition opening closing s).Gives fun e m => Built n m (.expr e) := by
  refine gives_expect_andThen fun _ s₁ h₁ _ hm₁ => ?_
  refine (built_expression s₁ (hm₁ ▸ hn)).andThen fun value s₂ h₂ hv => ?_
  refine gives_expect_andThen fun _ s₃ h₃ _ hm₃ => ?_
  exact gives_pure (hm₃ ▸ hv)

theorem built_forInitializer {s : Input} (hn : n ≤ s.nextId) :
    (forInitializer s).Gives fun first m => n ≤ m ∧ ∀ tree ∈ first, Built n m (.stmt tree) := by
  have given {tree : Stmt} {m : Nat} (h : Built n m (.stmt tree)) :
      n ≤ m ∧ ∀ tree' ∈ some tree, Built n m (.stmt tree') := by
    refine ⟨h.le, ?_⟩
    rintro _ ⟨⟩
    exact h
  unfold forInitializer
  split
  · next s₁ h₁ ht => exact gives_pure ⟨nextId_of_take ht ▸ hn, nofun⟩
  · split
    · next s₁ h₁ ht =>
      exact (built_varDeclaration (nextId_of_take ht ▸ hn)).andThen fun _ _ _ hd =>
        gives_pure (given hd)
    · exact (built_expressionStatement hn).andThen fun _ _ _ hd => gives_pure (given hd.1)

/-- The clauses of a loop, each with a stretch of the numbers. -/
def ForClauses.Built (clauses : ForClauses) (n l : Nat) : Prop :=
  ∃ m k, n ≤ m ∧ (∀ tree ∈ clauses.initializer, Grammar.Built n m (.stmt tree)) ∧ m ≤ k ∧
    (∀ e ∈ clauses.condition, Grammar.Built m k (.expr e)) ∧ k ≤ l ∧
    ∀ e ∈ clauses.increment, Grammar.Built k l (.expr e)

theorem built_forClauses {s : Input} (hn : n ≤ s.nextId) :
    (forClauses s).Gives fun clauses m => clauses.Built n m := by
  refine gives_expect_andThen fun _ s₁ h₁ _ hm₁ => ?_
  refine (built_forInitializer (hm₁ ▸ hn)).andThen fun initializer s₂ h₂ hi => ?_
  refine (built_clause (Nat.le_refl s₂.nextId)).andThen fun condition s₃ h₃ hc => ?_
  refine (built_clause (Nat.le_refl s₃.nextId)).andThen fun increment s₄ h₄ ha => ?_
  exact gives_pure ⟨s₂.nextId, s₃.nextId, hi.1, hi.2, hc.1, hc.2, ha.1, ha.2⟩

theorem built_parameters (count : Nat) (s : Input) :
    (parameters count s).Gives fun names m =>
      (∀ name ∈ names, name.kind = .identifier) ∧ m = s.nextId := by
  rw [parameters]
  refine Gives.noting (gives_expect_andThen fun parameter s₁ h₁ named hm₁ => ?_)
  split
  · next s₂ h₂ ht =>
    refine (built_parameters (count + 1) s₂).andThen fun more s₃ h₃ hm => ?_
    exact gives_pure ⟨List.forall_mem_cons.mpr ⟨named, hm.1⟩,
      hm.2.trans ((nextId_of_take ht).trans hm₁)⟩
  · refine gives_expect_andThen fun _ s₂ h₂ _ hm₂ => ?_
    exact gives_pure ⟨List.forall_mem_singleton.mpr named, hm₂.trans hm₁⟩
termination_by s.size

theorem built_signature {kind : Callable} (s : Input) :
    (signature kind s).Gives fun head m =>
      head.1.kind = .identifier ∧ (∀ name ∈ head.2, name.kind = .identifier) ∧ m = s.nextId := by
  refine gives_expect_andThen fun name s₁ h₁ named hm₁ => ?_
  refine gives_expect_andThen fun _ s₂ h₂ _ hm₂ => ?_
  refine Gives.andThen (show Gives _ (fun (names : List Token) m =>
    (∀ name ∈ names, name.kind = .identifier) ∧ m = s₂.nextId) from ?_) fun params s₃ h₃ hp => ?_
  · split
    · next s₃ h₃ ht => exact gives_pure ⟨List.forall_mem_nil _, nextId_of_take ht⟩
    · exact built_parameters 0 s₂
  · refine gives_expect_andThen fun _ s₄ h₄ _ hm₄ => ?_
    exact gives_pure ⟨named, hp.1, hm₄.trans (hp.2.trans (hm₂.trans hm₁))⟩

/-- The name of a class and the variable for its superclass, which uses up a number. -/
theorem built_classHead {s : Input} (hn : n ≤ s.nextId) :
    (classHead s).Gives fun head m => head.1.kind = .identifier ∧ n ≤ m ∧
      ∀ e ∈ head.2, ∃ id parent, e = .var id parent ∧ parent.kind = .identifier ∧
        n ≤ id ∧ id + 1 = m := by
  refine gives_expect_andThen fun name s₁ h₁ named hm₁ => ?_
  split
  · next s₂ h₂ ht =>
    refine gives_expect_andThen fun parent s₃ h₃ parented hm₃ => ?_
    have hn₃ : n ≤ s₃.nextId := by rw [hm₃, nextId_of_take ht, hm₁]; exact hn
    have hp : (Reply.tagged (fun id => Expr.var id parent) s₃ (by omega) : Reply Expr s.size).Gives
        fun e m => e = .var s₃.nextId parent ∧ m = s₃.nextId + 1 := gives_tagged ⟨rfl, rfl⟩
    refine Gives.andThen hp fun superclass s₄ h₄ hs => ?_
    refine gives_expect_andThen fun _ s₅ h₅ _ hm₅ => ?_
    refine gives_pure ⟨named, by omega, ?_⟩
    rintro _ ⟨⟩
    exact ⟨s₃.nextId, parent, hs.1, parented, hn₃, by omega⟩
  · refine gives_expect_andThen fun _ s₂ h₂ _ hm₂ => ?_
    exact gives_pure ⟨named, by omega, nofun⟩

theorem Reply.Gives.recovered {r : Reply Stmt k} {pos : k ≠ 0}
    (h : r.Gives fun tree m => Built n m (.stmt tree)) :
    ∀ tree ∈ (r.recovered pos).statement, Built n (r.recovered pos).left.nextId (.stmt tree) := by
  cases r with
  | done value noted left hl =>
    rintro _ ⟨⟩
    exact h
  | stuck => exact nofun

mutual

theorem built_statement {n : Nat} (s : Input) (hn : n ≤ s.nextId) :
    (statement s).Gives fun tree m => Built n m (.stmt tree) ∧ tree.declares = false := by
  rw [statement]
  split
  · exact built_expressionStatement hn
  · next t s₁ h₁ ht =>
    have hn₁ := nextId_of_next? ht ▸ hn
    split
    · refine (built_forClauses hn₁).andThen fun clauses s₂ h₂ hc => ?_
      obtain ⟨m, k, ordered, hi, ordered', hc, ordered'', ha⟩ := hc
      refine (built_statement s₂ (Nat.le_refl _)).andThen fun body s₃ h₃ hb => ?_
      exact gives_pure (Built.loop ordered hi ordered' hc ordered'' ha hb.1 hb.2)
    · refine (built_condition hn₁).andThen fun test s₂ h₂ hc => ?_
      refine (built_statement s₂ (Nat.le_refl _)).andThen fun thenBranch s₃ h₃ hb => ?_
      split
      · next s₄ h₄ ht =>
        refine (built_statement s₄ (Nat.le_of_eq (nextId_of_take ht).symm)).andThen
          fun other s₅ h₅ ho => ?_
        exact gives_pure ⟨.ifElse hc hb.1 hb.2 ho.1 ho.2, rfl⟩
      · exact gives_pure ⟨.ifThen hc hb.1 hb.2, rfl⟩
    · exact (built_printStatement hn₁).widen
    · next keyed => exact (built_returnStatement keyed hn₁).widen
    · refine (built_condition hn₁).andThen fun test s₂ h₂ hc => ?_
      refine (built_statement s₂ (Nat.le_refl _)).andThen fun body s₃ h₃ hb => ?_
      exact gives_pure ⟨.whileLoop hc hb.1 hb.2, rfl⟩
    · exact (built_block s₁ hn₁).andThen fun body s₂ h₂ hb => gives_pure ⟨.block hb, rfl⟩
    · exact built_expressionStatement hn
termination_by s.size * 4

theorem built_block {n : Nat} (s : Input) (hn : n ≤ s.nextId) :
    (block s).Gives fun body m => Built n m (.stmts body) := by
  rw [block]
  split
  · next s₁ h₁ ht => exact gives_pure (.noStmts (nextId_of_take ht ▸ hn))
  · split
    · exact gives_expected
    · next pos =>
      have hd := built_declaration s pos hn
      have hc := counts_declaration s pos hn
      split
      next stmt noted s₁ h₁ he =>
      rw [he] at hd hc
      cases stmt with
      | none =>
        refine Gives.noting ((built_block s₁ hc).andThen fun rest s₂ h₂ hr => ?_)
        exact gives_pure hr
      | some tree =>
        refine Gives.noting ((built_block s₁ (Nat.le_refl _)).andThen fun rest s₂ h₂ hr => ?_)
        exact gives_pure (.moreStmts (hd tree rfl) hr)
termination_by s.size * 4 + 3

theorem built_declaration {n : Nat} (s : Input) (pos : s.size ≠ 0) (hn : n ≤ s.nextId) :
    ∀ tree ∈ (declaration s pos).statement, Built n (declaration s pos).left.nextId (.stmt tree) := by
  rw [declaration]
  exact (built_declarationOrStuck s hn).recovered
termination_by s.size * 4 + 2

theorem built_declarationOrStuck {n : Nat} (s : Input) (hn : n ≤ s.nextId) :
    (declarationOrStuck s).Gives fun tree m => Built n m (.stmt tree) := by
  have ordinary : (statement s).Gives fun tree m => Built n m (.stmt tree) := by
    have h := built_statement s hn
    cases hs : statement s with
    | done value noted left hl =>
      rw [hs] at h
      exact h.1
    | stuck => trivial
  rw [declarationOrStuck]
  split
  · exact ordinary
  · next t s₁ h₁ ht =>
    have hn₁ := nextId_of_next? ht ▸ hn
    split
    · refine (built_classHead hn₁).andThen fun head s₂ h₂ hh => ?_
      obtain ⟨name, parent⟩ := head
      obtain ⟨named, hn₂, hp⟩ := hh
      cases parent with
      | none =>
        refine (built_methods s₂ hn₂).andThen fun decls s₃ h₃ hd => ?_
        exact gives_pure (.baseClass named hd)
      | some e =>
        obtain ⟨id, parent, rfl, parented, low, hid⟩ := hp e rfl
        refine (built_methods s₂ (Nat.le_of_eq hid)).andThen fun decls s₃ h₃ hd => ?_
        exact gives_pure (.derivedClass named parented low hd)
    · refine (built_function .function s₁ hn₁).andThen fun decl s₂ h₂ hd => ?_
      exact gives_pure (.functionDecl hd.1 (hd.2 .function))
    · exact (built_varDeclaration hn₁).widen
    · exact ordinary
termination_by s.size * 4 + 1

theorem built_methods {n : Nat} (s : Input) (hn : n ≤ s.nextId) :
    (methods s).Gives fun decls m => Built n m (.functions decls) := by
  rw [methods]
  split
  · next s₁ h₁ ht => exact gives_pure (.noFunctions (nextId_of_take ht ▸ hn))
  · split
    · exact gives_expected
    · refine (built_function .method s hn).andThen fun method s₁ h₁ hm => ?_
      refine (built_methods s₁ (Nat.le_refl _)).andThen fun rest s₂ h₂ hr => ?_
      exact gives_pure (.moreFunctions hm.1 (hm.2 _) hr)
termination_by s.size * 4 + 1

theorem built_function {n : Nat} (callable : Callable) (s : Input) (hn : n ≤ s.nextId) :
    (function callable s).Gives fun decl m => decl.name.kind = .identifier ∧
      ∀ kind, Built n m (.function kind decl) := by
  rw [function]
  refine (built_signature s).andThen fun head s₁ h₁ hh => ?_
  refine (built_block s₁ (hh.2.2 ▸ hn)).andThen fun body s₂ h₂ hb => ?_
  exact gives_pure ⟨hh.1, fun kind => .function hh.2.1 hb⟩
termination_by s.size * 4

end

theorem built_program {n : Nat} (s : Input) (hn : n ≤ s.nextId) :
    Built n (program s).nextId (.stmts (program s).statements) := by
  rw [program]
  split
  · exact .noStmts hn
  · next pos =>
    have hd := built_declaration s pos hn
    have hc := counts_declaration s pos hn
    split
    next stmt noted left hl he =>
    rw [he] at hd hc
    cases stmt with
    | none => exact built_program left hc
    | some tree => exact .moreStmts (hd tree rfl) (built_program left (Nat.le_refl _))
termination_by s.size

/-- What is read from tokens, whatever they are. -/
theorem built_parse (tokens : List Token) (n : Nat) :
    Built n (parse tokens n).nextId (.stmts (parse tokens n).statements) :=
  built_program (.ofTokens tokens n) (Nat.le_refl n)

end Lox.Grammar
