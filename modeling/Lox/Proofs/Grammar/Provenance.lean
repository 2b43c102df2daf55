import Lox.Proofs.Grammar.Acceptance
import Lox.Proofs.Grammar.Numbering
import Lox.Proofs.Grammar.Regularity

/-!
# Where the tokens of a tree come from

Every token that is kept in a tree is one of those from which the tree is derived, and every literal
is denoted by one of them. Only the condition `true` of a loop that was written without one is made
up.
-/
namespace Lox

open Grammar (literal?)

namespace Scope.Part

/-- The tokens that a node itself keeps. -/
def tokens : Part → List Token
  | expr (.assign _ name _) => [name]
  | expr (.binary _ operator _) => [operator]
  | expr (.call _ paren _) => [paren]
  | expr (.get _ name) => [name]
  | expr (.logical _ operator _) => [operator]
  | expr (.set _ name _) => [name]
  | expr (.superRef _ keyword method) => [keyword, method]
  | expr (.thisRef _ keyword) => [keyword]
  | expr (.unary operator _) => [operator]
  | expr (.var _ name) => [name]
  | stmt (.classDecl name _ _) => [name]
  | stmt (.functionDecl decl) => [decl.name]
  | stmt (.returnWith keyword _) => [keyword]
  | stmt (.varDecl name _) => [name]
  | function _ decl => decl.params
  | functions decls => decls.map FunctionDecl.name
  | _ => []

/-- What a node itself keeps is taken from tokens with a property. -/
def From (T : Token → Prop) : Part → Prop
  | expr (.literal value) => value = .bool true ∨ ∃ t, T t ∧ literal? t.kind = some value
  | p => ∀ t ∈ p.tokens, T t

end Scope.Part

namespace Grammar

open Scope (Part)

variable {T : Token → Prop}

/-- All parts that a phrase is are taken from such tokens, and so is the name of a function. -/
def Phrase.From (T : Token → Prop) (phrase : Phrase) : Prop :=
  (∀ p, phrase.Is p → p.Throughout (Part.From T)) ∧
    match phrase with
    | .function decl => T decl.name
    | _ => True

theorem Parameters.subset {w params : List Token} (h : Parameters w params) : params ⊆ w := by
  induction h with
  | last => exact List.Subset.refl _
  | more _ _ _ ih => exact List.cons_subset_cons _ (List.subset_cons_of_subset _ ih)

theorem OptionalParameters.subset {w params : List Token} (h : OptionalParameters w params) :
    params ⊆ w := by
  cases h with
  | none => exact List.Subset.refl _
  | some listed => exact listed.subset

theorem from_block {s₁ s₂ : Stmt} (h₁ : (Part.stmt s₁).Throughout (Part.From T))
    (h₂ : (Part.stmt s₂).Throughout (Part.From T)) :
    (Part.stmt (.block [s₁, s₂])).Throughout (Part.From T) := by
  have none : (Part.stmts []).Throughout (Part.From T) := .leaf (List.forall_mem_nil _) fun _ => rfl
  have one : (Part.stmts [s₂]).Throughout (Part.From T) :=
    .two (List.forall_mem_nil _) (fun _ => rfl) h₂ none
  exact .one (List.forall_mem_nil _) (fun _ => rfl)
    (.two (List.forall_mem_nil _) (fun _ => rfl) h₁ one)

theorem from_loop {first : Option Stmt} {test after : Option Expr} {body : Stmt}
    {endsOpen : Bool} (hf : (Phrase.initializer first).From T)
    (ht : (Phrase.optional test).From T) (ha : (Phrase.optional after).From T)
    (hb : (Phrase.statement endsOpen body).From T) :
    (Phrase.statement endsOpen (ForClauses.loop ⟨first, test, after⟩ body)).From T := by
  have condition : (Part.expr (test.getD (.literal (.bool true)))).Throughout (Part.From T) := by
    cases test with
    | none => exact .leaf (.inl rfl) fun _ => rfl
    | some e => exact ht.1 _ ⟨_, rfl, rfl⟩
  have loop {s : Stmt} (hs : (Part.stmt s).Throughout (Part.From T)) :
      (Part.stmt (.whileLoop (test.getD (.literal (.bool true))) s)).Throughout (Part.From T) :=
    .two (List.forall_mem_nil _) (fun _ => rfl) condition hs
  refine ⟨?_, trivial⟩
  rintro _ rfl
  cases after with
  | none =>
    have whole := loop (hb.1 _ rfl)
    cases first with
    | none => exact whole
    | some s => exact from_block (hf.1 _ ⟨_, rfl, rfl⟩) whole
  | some e =>
    have increment : (Part.stmt (.expression e)).Throughout (Part.From T) :=
      .one (List.forall_mem_nil _) (fun _ => rfl) (ha.1 _ ⟨_, rfl, rfl⟩)
    have whole := loop (from_block (hb.1 _ rfl) increment)
    cases first with
    | none => exact whole
    | some s => exact from_block (hf.1 _ ⟨_, rfl, rfl⟩) whole

/-- What is derived from tokens is taken from them. -/
theorem Derives.from {style : DanglingElse} {n m : Nat} {w : List Token} {phrase : Phrase}
    (h : Derives style n w phrase m) (hw : ∀ t ∈ w, T t) : phrase.From T := by
  induction h with
  | literal denotes =>
    refine ⟨?_, trivial⟩
    rintro _ rfl
    exact .leaf (.inr ⟨_, hw _ List.mem_cons_self, denotes⟩) fun _ => rfl
  | noDeclarations | noFunctions =>
    refine ⟨?_, trivial⟩
    rintro _ rfl
    exact .leaf (List.forall_mem_nil _) fun _ => rfl
  | omitted | noInitializer =>
    refine ⟨?_, trivial⟩
    rintro _ ⟨_, h, _⟩
    cases h
  | this | «variable» =>
    refine ⟨?_, trivial⟩
    rintro _ rfl
    exact .leaf hw fun _ => rfl
  | super =>
    refine ⟨?_, trivial⟩
    rintro _ rfl
    simp only [List.forall_mem_cons] at hw
    have both := List.forall_mem_cons.mpr ⟨hw.1, List.forall_mem_singleton.mpr hw.2.2.1⟩
    exact .leaf both fun _ => rfl
  | bareVariable =>
    refine ⟨?_, trivial⟩
    rintro _ rfl
    simp only [List.forall_mem_cons] at hw
    exact .leaf (List.forall_mem_singleton.mpr hw.2.1) fun _ => rfl
  | simple _ ih | access _ ih | tightest _ ih | tighter _ ih | plain _ ih | evaluation _ ih
  | ordinary _ ih | variableDeclaration _ ih =>
    exact ⟨(ih hw).1, trivial⟩
  | given _ ih | variableInitializer _ ih | expressionInitializer _ ih =>
    refine ⟨?_, trivial⟩
    rintro _ ⟨_, ⟨⟩, rfl⟩
    exact (ih hw).1 _ rfl
  | grouping _ _ _ ih | print _ _ _ ih | block _ _ _ ih =>
    simp only [List.forall_mem_cons, List.forall_mem_append] at hw
    refine ⟨?_, trivial⟩
    rintro _ rfl
    exact .one (List.forall_mem_nil _) (fun _ => rfl) ((ih hw.2.1).1 _ rfl)
  | property _ _ _ ih =>
    simp only [List.forall_mem_cons, List.forall_mem_append] at hw
    refine ⟨?_, trivial⟩
    rintro _ rfl
    exact .one (List.forall_mem_singleton.mpr hw.2.2.1) (fun _ => rfl) ((ih hw.1).1 _ rfl)
  | unaryOperation _ _ ih =>
    simp only [List.forall_mem_cons] at hw
    refine ⟨?_, trivial⟩
    rintro _ rfl
    exact .one (List.forall_mem_singleton.mpr hw.1) (fun _ => rfl) ((ih hw.2).1 _ rfl)
  | emptyCall _ _ _ ih =>
    simp only [List.forall_mem_cons, List.forall_mem_append] at hw
    refine ⟨?_, trivial⟩
    rintro _ rfl
    exact .two (List.forall_mem_singleton.mpr hw.2.2.1) (fun _ => rfl) ((ih hw.1).1 _ rfl)
      (.leaf (List.forall_mem_nil _) fun _ => rfl)
  | call _ _ _ _ _ ih ih' =>
    simp only [List.forall_mem_cons, List.forall_mem_append] at hw
    refine ⟨?_, trivial⟩
    rintro _ rfl
    exact .two (List.forall_mem_singleton.mpr hw.2.2.2.1) (fun _ => rfl) ((ih hw.1).1 _ rfl)
      ((ih' hw.2.2.1).1 _ rfl)
  | operation _ _ _ ih ih' =>
    simp only [List.forall_mem_cons, List.forall_mem_append] at hw
    refine ⟨?_, trivial⟩
    rintro _ rfl
    cases ‹Tier›
    all_goals
      exact .two (List.forall_mem_singleton.mpr hw.2.1) (fun _ => rfl) ((ih hw.1).1 _ rfl)
        ((ih' hw.2.2).1 _ rfl)
  | assignment _ _ _ ih =>
    simp only [List.forall_mem_cons] at hw
    refine ⟨?_, trivial⟩
    rintro _ rfl
    exact .one (List.forall_mem_singleton.mpr hw.1) (fun _ => rfl) ((ih hw.2.2).1 _ rfl)
  | propertyAssignment _ _ _ _ _ ih ih' =>
    simp only [List.forall_mem_cons, List.forall_mem_append] at hw
    refine ⟨?_, trivial⟩
    rintro _ rfl
    exact .two (List.forall_mem_singleton.mpr hw.2.2.1) (fun _ => rfl) ((ih' hw.2.2.2.2).1 _ rfl)
      ((ih hw.1).1 _ rfl)
  | lastArgument _ ih =>
    refine ⟨?_, trivial⟩
    rintro _ rfl
    exact .two (List.forall_mem_nil _) (fun _ => rfl) ((ih hw).1 _ rfl)
      (.leaf (List.forall_mem_nil _) fun _ => rfl)
  | moreArguments _ _ _ ih ih' =>
    simp only [List.forall_mem_cons, List.forall_mem_append] at hw
    refine ⟨?_, trivial⟩
    rintro _ rfl
    exact .two (List.forall_mem_nil _) (fun _ => rfl) ((ih hw.1).1 _ rfl) ((ih' hw.2.2).1 _ rfl)
  | initializedVariable _ _ _ _ _ ih =>
    simp only [List.forall_mem_cons, List.forall_mem_append] at hw
    refine ⟨?_, trivial⟩
    rintro _ rfl
    exact .one (List.forall_mem_singleton.mpr hw.2.1) (fun _ => rfl) ((ih hw.2.2.2.1).1 _ rfl)
  | expressionEnd _ _ ih =>
    simp only [List.forall_mem_append] at hw
    refine ⟨?_, trivial⟩
    rintro _ rfl
    exact .one (List.forall_mem_nil _) (fun _ => rfl) ((ih hw.1).1 _ rfl)
  | returnWith _ _ _ ih =>
    simp only [List.forall_mem_cons, List.forall_mem_append] at hw
    refine ⟨?_, trivial⟩
    rintro _ rfl
    cases ‹Option Expr› with
    | none => exact .leaf (List.forall_mem_singleton.mpr hw.1) fun _ => rfl
    | some e =>
      exact .one (List.forall_mem_singleton.mpr hw.1) (fun _ => rfl)
        ((ih hw.2.1).1 _ ⟨_, rfl, rfl⟩)
  | whileLoop _ _ _ _ _ ih ih' | ifThen _ _ _ _ _ ih ih' =>
    simp only [List.forall_mem_cons, List.forall_mem_append] at hw
    refine ⟨?_, trivial⟩
    rintro _ rfl
    exact .two (List.forall_mem_nil _) (fun _ => rfl) ((ih hw.2.2.1).1 _ rfl)
      ((ih' hw.2.2.2.2).1 _ rfl)
  | forLoop _ _ _ _ _ _ _ _ ih ih₁ ih₂ ih₃ =>
    simp only [List.forall_mem_cons, List.forall_mem_append] at hw
    obtain ⟨_, _, hf, ht, _, ha, _, hb⟩ := hw
    exact from_loop (ih hf) (ih₁ ht) (ih₂ ha) (ih₃ hb)
  | ifElse _ _ _ _ _ _ _ _ ih ih₁ ih₂ =>
    simp only [List.forall_mem_cons, List.forall_mem_append] at hw
    obtain ⟨_, _, ht, _, hb, _, ho⟩ := hw
    refine ⟨?_, trivial⟩
    rintro _ rfl
    exact .three (List.forall_mem_nil _) (fun _ => rfl) ((ih ht).1 _ rfl) ((ih₁ hb).1 _ rfl)
      ((ih₂ ho).1 _ rfl)
  | functionDeclaration _ _ ih =>
    simp only [List.forall_mem_cons] at hw
    have hf := ih hw.2
    refine ⟨?_, trivial⟩
    rintro _ rfl
    exact .one (List.forall_mem_singleton.mpr hf.2) (fun _ => rfl) (hf.1 _ ⟨_, rfl⟩)
  | baseClass _ _ _ _ _ ih =>
    simp only [List.forall_mem_cons, List.forall_mem_append] at hw
    refine ⟨?_, trivial⟩
    rintro _ rfl
    exact .one (List.forall_mem_singleton.mpr hw.2.1) (fun _ => rfl) ((ih hw.2.2.2.1).1 _ rfl)
  | derivedClass _ _ _ _ _ _ _ ih =>
    simp only [List.forall_mem_cons, List.forall_mem_append] at hw
    obtain ⟨_, hn, _, hp, _, hm, _⟩ := hw
    refine ⟨?_, trivial⟩
    rintro _ rfl
    exact .two (List.forall_mem_singleton.mpr hn) (fun _ => rfl)
      (.leaf (List.forall_mem_singleton.mpr hp) fun _ => rfl) ((ih hm).1 _ rfl)
  | moreDeclarations _ _ ih ih' =>
    simp only [List.forall_mem_append] at hw
    refine ⟨?_, trivial⟩
    rintro _ rfl
    exact .two (List.forall_mem_nil _) (fun _ => rfl) ((ih hw.1).1 _ rfl) ((ih' hw.2).1 _ rfl)
  | function _ _ listed _ _ _ _ ih =>
    simp only [List.forall_mem_cons, List.forall_mem_append] at hw
    obtain ⟨hn, _, hp, _, _, hb, _⟩ := hw
    refine ⟨?_, hn⟩
    rintro _ ⟨kind, rfl⟩
    exact .one (fun t ht => hp t (listed.subset ht)) (fun _ => rfl) ((ih hb).1 _ rfl)
  | moreFunctions _ _ ih ih' =>
    simp only [List.forall_mem_append] at hw
    have rest := (ih' hw.2).1 _ rfl
    refine ⟨?_, trivial⟩
    rintro _ rfl
    exact .two (List.forall_mem_cons.mpr ⟨(ih hw.1).2, rest.here⟩) (fun _ => rfl)
      ((ih hw.1).1 _ ⟨_, rfl⟩) rest

/-- Whatever holds of all tokens of a text that is parsed without a fault holds of all that its tree
was taken from. -/
theorem from_parse {tokens : List Token} {n : Nat} (faultless : (parse tokens n).faults = [])
    (hw : ∀ t ∈ readable tokens, T t) :
    (Part.stmts (parse tokens n).statements).Throughout (Part.From T) :=
  ((program_of_parse .nearest faultless).from hw).1 _ rfl

end Grammar

end Lox
