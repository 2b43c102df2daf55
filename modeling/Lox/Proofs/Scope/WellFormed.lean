import Lox.Proofs.Grammar.Numbering
import Lox.Proofs.Token.Spelling

/-!
# Programs as they are written

What holds of trees that were read from a source and need not hold of others: names are among those
that identifiers may have, `this` and `super` are spelled so, a superclass is named by a variable,
and branches and loop bodies declare nothing.
-/
namespace Lox

def Stmt.declares : Stmt → Bool
  | .classDecl .. => true
  | .functionDecl _ => true
  | .varDecl .. => true
  | _ => false

namespace Scope

namespace Part

/-- What is required of a node itself. -/
def Proper (names : String → Prop) : Part → Prop
  | expr (.assign _ name _) => names name.lexeme
  | expr (.var _ name) => names name.lexeme
  | expr (.thisRef _ keyword) => keyword.lexeme = thisName
  | expr (.superRef _ keyword _) => keyword.lexeme = superName
  | stmt (.classDecl name parent _) => names name.lexeme ∧ ∀ e ∈ parent, ∃ id n, e = .var id n
  | stmt (.functionDecl decl) => names decl.name.lexeme
  | stmt (.varDecl name _) => names name.lexeme
  | stmt (.ifElse _ branch other) => branch.declares = false ∧ ∀ s ∈ other, s.declares = false
  | stmt (.whileLoop _ body) => body.declares = false
  | function _ decl => ∀ name ∈ decl.params, names name.lexeme
  | _ => True

/-- A part that is proper, as are the parts below it. -/
inductive WellFormed (names : String → Prop) : Part → Prop where
  | intro {p : Part} (proper : p.Proper names)
      (below : ∀ ctx, ∀ c ∈ p.children ctx, WellFormed names c.2) : WellFormed names p

variable {names : String → Prop}

theorem WellFormed.proper {p : Part} (h : p.WellFormed names) : p.Proper names := by
  cases h with
  | intro proper => exact proper

theorem WellFormed.child {p : Part} (h : p.WellFormed names) (ctx : Context) {c : Context × Part}
    (hc : c ∈ p.children ctx) : c.2.WellFormed names := by
  cases h with
  | intro _ below => exact below ctx c hc

theorem Proper.mono {names' : String → Prop} (le : ∀ name, names name → names' name) {p : Part}
    (h : p.Proper names) : p.Proper names' := by
  cases p with
  | expr e =>
    cases e with
    | assign id name value => exact le _ h
    | var id name => exact le _ h
    | _ => exact h
  | stmt s =>
    cases s with
    | classDecl name parent methods => exact ⟨le _ h.1, h.2⟩
    | functionDecl decl => exact le _ h
    | varDecl name value => exact le _ h
    | _ => exact h
  | function kind decl => exact fun name hn => le _ (h name hn)
  | _ => trivial

theorem WellFormed.mono {names' : String → Prop} (le : ∀ name, names name → names' name) {p : Part}
    (h : p.WellFormed names) : p.WellFormed names' := by
  induction h with
  | intro proper _ ih => exact .intro (proper.mono le) ih

end Part

variable {names : String → Prop}

/-- A statement that declares nothing leaves the scopes as they are. -/
theorem scopes_of_not_declares {s : Stmt} (h : (Part.stmt s).WellFormed names)
    (hd : s.declares = false) (ctx : Context) : (stmt ctx s).1 = ctx.scopes := by
  generalize hp : Part.stmt s = part at h
  induction h generalizing s ctx with
  | @intro part proper _ ih =>
    subst hp
    cases s with
    | classDecl | functionDecl | varDecl => cases hd
    | ifElse condition branch other =>
      have hb := ih ctx (ctx, .stmt branch) (by simp [Part.children]) proper.1 ctx rfl
      cases other with
      | none => simp [stmt, hb]
      | some other =>
        have ho := ih ctx (ctx.after branch, .stmt other) (by simp [Part.children])
          (proper.2 other rfl) ctx rfl
        simp [stmt, hb, ho]
    | whileLoop condition body =>
      have hb := ih ctx (ctx, .stmt body) (by simp [Part.children]) proper ctx rfl
      simp [stmt, hb]
    | _ => simp [stmt]

theorem Context.after_eq {ctx : Context} {s : Stmt} (h : (Part.stmt s).WellFormed names)
    (hd : s.declares = false) : ctx.after s = ctx := by
  rw [Context.after, scopes_of_not_declares h hd]

theorem Visits.wellFormed {program : List Stmt} {ctx : Context} {part : Part}
    (h : Visits program ctx part) (wellFormed : (Part.stmts program).WellFormed names) :
    part.WellFormed names := by
  have below : ∀ c, Relation.ReflTransGen Enters (.top, .stmts program) c → c.2.WellFormed names := by
    intro c hc
    induction hc with
    | refl => exact wellFormed
    | tail _ hb ih => exact ih.child _ hb
  exact below _ h

end Scope

namespace Grammar

open Scope (Part Context thisName superName)

/-- The parts that a phrase is are well formed, and a statement declares nothing. A function's
name, which counts where the function is declared, is among those allowed. -/
def Phrase.WellFormed (names : String → Prop) (phrase : Phrase) : Prop :=
  (∀ p, phrase.Is p → p.WellFormed names) ∧
    match phrase with
    | .statement _ s => s.declares = false
    | .expressionStatement s => s.declares = false
    | .function decl => names decl.name.lexeme
    | _ => True

variable {names : String → Prop}

theorem Parameters.spelled {w params : List Token} (h : Parameters w params)
    (hw : ∀ t ∈ w, t.Spelled names) : ∀ name ∈ params, names name.lexeme := by
  induction h with
  | last named =>
    simp only [List.forall_mem_singleton] at hw ⊢
    exact hw.1 named
  | more named _ _ ih =>
    simp only [List.forall_mem_cons] at hw ⊢
    exact ⟨hw.1.1 named, ih hw.2.2⟩

section
variable {p p₁ p₂ p₃ : Part}

theorem wellFormed_leaf (proper : p.Proper names) (h : ∀ ctx, p.children ctx = []) : p.WellFormed names :=
  .intro proper fun ctx c hc => by
    rw [h ctx] at hc
    cases hc

theorem wellFormed_one (proper : p.Proper names) (h : ∀ ctx, (p.children ctx).map Prod.snd = [p₁])
    (h₁ : p₁.WellFormed names) : p.WellFormed names := by
  refine .intro proper fun ctx c hc => ?_
  have hm := h ctx ▸ List.mem_map_of_mem hc
  rwa [List.mem_singleton.mp hm]

theorem wellFormed_two (proper : p.Proper names) (h : ∀ ctx, (p.children ctx).map Prod.snd = [p₁, p₂])
    (h₁ : p₁.WellFormed names) (h₂ : p₂.WellFormed names) : p.WellFormed names := by
  refine .intro proper fun ctx c hc => ?_
  have hm := h ctx ▸ List.mem_map_of_mem hc
  rcases List.mem_pair.mp hm with he | he
  · rwa [he]
  · rwa [he]

theorem wellFormed_three (proper : p.Proper names)
    (h : ∀ ctx, (p.children ctx).map Prod.snd = [p₁, p₂, p₃]) (h₁ : p₁.WellFormed names)
    (h₂ : p₂.WellFormed names) (h₃ : p₃.WellFormed names) : p.WellFormed names := by
  refine .intro proper fun ctx c hc => ?_
  have hm := h ctx ▸ List.mem_map_of_mem hc
  rcases List.mem_cons.mp hm with he | hm
  · rwa [he]
  · rcases List.mem_pair.mp hm with he | he
    · rwa [he]
    · rwa [he]

/-- A list of statements in a block of its own. -/
theorem wellFormed_block {s₁ s₂ : Stmt} (h₁ : (Part.stmt s₁).WellFormed names)
    (h₂ : (Part.stmt s₂).WellFormed names) : (Part.stmt (.block [s₁, s₂])).WellFormed names := by
  have none : (Part.stmts []).WellFormed names := wellFormed_leaf trivial fun _ => rfl
  have one : (Part.stmts [s₂]).WellFormed names := wellFormed_two trivial (fun _ => rfl) h₂ none
  exact wellFormed_one trivial (fun _ => rfl) (wellFormed_two trivial (fun _ => rfl) h₁ one)

end

theorem wellFormed_loop {first : Option Stmt} {test after : Option Expr} {body : Stmt}
    {endsOpen : Bool} (hf : (Phrase.initializer first).WellFormed names)
    (ht : (Phrase.optional test).WellFormed names) (ha : (Phrase.optional after).WellFormed names)
    (hb : (Phrase.statement endsOpen body).WellFormed names) :
    (Phrase.statement endsOpen (ForClauses.loop ⟨first, test, after⟩ body)).WellFormed names := by
  have condition : (Part.expr (test.getD (.literal (.bool true)))).WellFormed names := by
    cases test with
    | none => exact wellFormed_leaf trivial fun _ => rfl
    | some e => exact ht.1 _ ⟨_, rfl, rfl⟩
  have loop {s : Stmt} (hs : (Part.stmt s).WellFormed names) (hd : s.declares = false) :
      (Part.stmt (.whileLoop (test.getD (.literal (.bool true))) s)).WellFormed names :=
    wellFormed_two hd (fun _ => rfl) condition hs
  have body := hb.1 _ rfl
  have increment {e : Expr} (he : (Part.expr e).WellFormed names) :
      (Part.stmt (.expression e)).WellFormed names :=
    wellFormed_one trivial (fun _ => rfl) he
  -- Only a clause that is present brings a block.
  cases first with
  | none =>
    cases after with
    | none =>
      refine ⟨?_, rfl⟩
      rintro _ rfl
      exact loop body hb.2
    | some e =>
      refine ⟨?_, rfl⟩
      rintro _ rfl
      exact loop (wellFormed_block body (increment (ha.1 _ ⟨_, rfl, rfl⟩))) rfl
  | some s =>
    have initializer := hf.1 _ ⟨_, rfl, rfl⟩
    cases after with
    | none =>
      refine ⟨?_, rfl⟩
      rintro _ rfl
      exact wellFormed_block initializer (loop body hb.2)
    | some e =>
      refine ⟨?_, rfl⟩
      rintro _ rfl
      exact wellFormed_block initializer
        (loop (wellFormed_block body (increment (ha.1 _ ⟨_, rfl, rfl⟩))) rfl)

/-- What is derived from well spelled tokens is well formed. -/
theorem Derives.wellFormed {style : DanglingElse} {n m : Nat} {w : List Token} {phrase : Phrase}
    (h : Derives style n w phrase m) (hw : ∀ t ∈ w, t.Spelled names) : phrase.WellFormed names := by
  induction h with
  | literal | noDeclarations | noFunctions =>
    refine ⟨?_, trivial⟩
    rintro _ rfl
    exact wellFormed_leaf trivial fun _ => rfl
  | omitted | noInitializer =>
    refine ⟨?_, trivial⟩
    rintro _ ⟨_, h, _⟩
    cases h
  | this keyed | super keyed =>
    refine ⟨?_, trivial⟩
    rintro _ rfl
    exact wellFormed_leaf ((hw _ List.mem_cons_self).2 _ keyed) fun _ => rfl
  | «variable» named =>
    refine ⟨?_, trivial⟩
    rintro _ rfl
    exact wellFormed_leaf ((hw _ List.mem_cons_self).1 named) fun _ => rfl
  | bareVariable keyed named =>
    refine ⟨?_, trivial⟩
    rintro _ rfl
    simp only [List.forall_mem_cons] at hw
    exact wellFormed_leaf (hw.2.1.1 named) fun _ => rfl
  | simple _ ih | access _ ih | tightest _ ih | tighter _ ih | plain _ ih | evaluation _ ih => 
    exact ih hw
  | ordinary _ ih | variableDeclaration _ ih => exact ⟨(ih hw).1, trivial⟩
  | given _ ih | variableInitializer _ ih | expressionInitializer _ ih =>
    refine ⟨?_, trivial⟩
    rintro _ ⟨_, ⟨⟩, rfl⟩
    exact (ih hw).1 _ rfl
  | grouping _ _ _ ih =>
    simp only [List.forall_mem_cons, List.forall_mem_append] at hw
    refine ⟨?_, trivial⟩
    rintro _ rfl
    exact wellFormed_one trivial (fun _ => rfl) ((ih hw.2.1).1 _ rfl)
  | property _ _ _ ih =>
    simp only [List.forall_mem_append] at hw
    refine ⟨?_, trivial⟩
    rintro _ rfl
    exact wellFormed_one trivial (fun _ => rfl) ((ih hw.1).1 _ rfl)
  | unaryOperation _ _ ih =>
    simp only [List.forall_mem_cons] at hw
    refine ⟨?_, trivial⟩
    rintro _ rfl
    exact wellFormed_one trivial (fun _ => rfl) ((ih hw.2).1 _ rfl)
  | emptyCall _ _ _ ih =>
    simp only [List.forall_mem_append] at hw
    refine ⟨?_, trivial⟩
    rintro _ rfl
    exact wellFormed_two trivial (fun _ => rfl) ((ih hw.1).1 _ rfl)
      (wellFormed_leaf trivial fun _ => rfl)
  | call _ _ _ _ _ ih ih' =>
    simp only [List.forall_mem_cons, List.forall_mem_append] at hw
    refine ⟨?_, trivial⟩
    rintro _ rfl
    exact wellFormed_two trivial (fun _ => rfl) ((ih hw.1).1 _ rfl) ((ih' hw.2.2.1).1 _ rfl)
  | operation _ _ _ ih ih' =>
    simp only [List.forall_mem_cons, List.forall_mem_append] at hw
    refine ⟨?_, trivial⟩
    rintro _ rfl
    cases ‹Tier›
    all_goals
      exact wellFormed_two trivial (fun _ => rfl) ((ih hw.1).1 _ rfl) ((ih' hw.2.2).1 _ rfl)
  | assignment named _ _ ih =>
    simp only [List.forall_mem_cons] at hw
    refine ⟨?_, trivial⟩
    rintro _ rfl
    exact wellFormed_one (hw.1.1 named) (fun _ => rfl) ((ih hw.2.2).1 _ rfl)
  | propertyAssignment _ _ _ _ _ ih ih' =>
    simp only [List.forall_mem_cons, List.forall_mem_append] at hw
    refine ⟨?_, trivial⟩
    rintro _ rfl
    exact wellFormed_two trivial (fun _ => rfl) ((ih' hw.2.2.2.2).1 _ rfl) ((ih hw.1).1 _ rfl)
  | lastArgument _ ih =>
    refine ⟨?_, trivial⟩
    rintro _ rfl
    exact wellFormed_two trivial (fun _ => rfl) ((ih hw).1 _ rfl)
      (wellFormed_leaf trivial fun _ => rfl)
  | moreArguments _ _ _ ih ih' =>
    simp only [List.forall_mem_cons, List.forall_mem_append] at hw
    refine ⟨?_, trivial⟩
    rintro _ rfl
    exact wellFormed_two trivial (fun _ => rfl) ((ih hw.1).1 _ rfl) ((ih' hw.2.2).1 _ rfl)
  | initializedVariable _ named _ _ _ ih =>
    simp only [List.forall_mem_cons, List.forall_mem_append] at hw
    refine ⟨?_, trivial⟩
    rintro _ rfl
    exact wellFormed_one (hw.2.1.1 named) (fun _ => rfl) ((ih hw.2.2.2.1).1 _ rfl)
  | expressionEnd _ _ ih =>
    simp only [List.forall_mem_append] at hw
    refine ⟨?_, rfl⟩
    rintro _ rfl
    exact wellFormed_one trivial (fun _ => rfl) ((ih hw.1).1 _ rfl)
  | print _ _ _ ih | block _ _ _ ih =>
    simp only [List.forall_mem_cons, List.forall_mem_append] at hw
    refine ⟨?_, rfl⟩
    rintro _ rfl
    exact wellFormed_one trivial (fun _ => rfl) ((ih hw.2.1).1 _ rfl)
  | returnWith _ _ _ ih =>
    simp only [List.forall_mem_cons, List.forall_mem_append] at hw
    refine ⟨?_, rfl⟩
    rintro _ rfl
    cases ‹Option Expr› with
    | none => exact wellFormed_leaf trivial fun _ => rfl
    | some e => exact wellFormed_one trivial (fun _ => rfl) ((ih hw.2.1).1 _ ⟨_, rfl, rfl⟩)
  | whileLoop _ _ _ _ _ ih ih' =>
    simp only [List.forall_mem_cons, List.forall_mem_append] at hw
    have hb := ih' hw.2.2.2.2
    refine ⟨?_, rfl⟩
    rintro _ rfl
    exact wellFormed_two hb.2 (fun _ => rfl) ((ih hw.2.2.1).1 _ rfl) (hb.1 _ rfl)
  | forLoop _ _ _ _ _ _ _ _ ih ih₁ ih₂ ih₃ =>
    simp only [List.forall_mem_cons, List.forall_mem_append] at hw
    obtain ⟨_, _, hf, ht, _, ha, _, hb⟩ := hw
    exact wellFormed_loop (ih hf) (ih₁ ht) (ih₂ ha) (ih₃ hb)
  | ifThen _ _ _ _ _ ih ih' =>
    simp only [List.forall_mem_cons, List.forall_mem_append] at hw
    have hb := ih' hw.2.2.2.2
    refine ⟨?_, rfl⟩
    rintro _ rfl
    exact wellFormed_two ⟨hb.2, nofun⟩ (fun _ => rfl) ((ih hw.2.2.1).1 _ rfl) (hb.1 _ rfl)
  | ifElse _ _ _ _ _ _ _ _ ih ih₁ ih₂ =>
    simp only [List.forall_mem_cons, List.forall_mem_append] at hw
    obtain ⟨_, _, ht, _, hb, _, ho⟩ := hw
    have hb := ih₁ hb
    have ho := ih₂ ho
    refine ⟨?_, rfl⟩
    rintro _ rfl
    refine wellFormed_three ⟨hb.2, ?_⟩ (fun _ => rfl) ((ih ht).1 _ rfl) (hb.1 _ rfl) (ho.1 _ rfl)
    rintro _ ⟨⟩
    exact ho.2
  | functionDeclaration _ _ ih =>
    simp only [List.forall_mem_cons] at hw
    have hf := ih hw.2
    refine ⟨?_, trivial⟩
    rintro _ rfl
    exact wellFormed_one hf.2 (fun _ => rfl) (hf.1 _ ⟨_, rfl⟩)
  | baseClass _ named _ _ _ ih =>
    simp only [List.forall_mem_cons, List.forall_mem_append] at hw
    refine ⟨?_, trivial⟩
    rintro _ rfl
    exact wellFormed_one ⟨hw.2.1.1 named, nofun⟩ (fun _ => rfl) ((ih hw.2.2.2.1).1 _ rfl)
  | derivedClass _ named _ parented _ _ _ ih =>
    simp only [List.forall_mem_cons, List.forall_mem_append] at hw
    obtain ⟨_, hn, _, hp, _, hm, _⟩ := hw
    refine ⟨?_, trivial⟩
    rintro _ rfl
    refine wellFormed_two ⟨hn.1 named, ?_⟩ (fun _ => rfl)
      (wellFormed_leaf (hp.1 parented) fun _ => rfl) ((ih hm).1 _ rfl)
    rintro _ ⟨⟩
    exact ⟨_, _, rfl⟩
  | moreDeclarations _ _ ih ih' =>
    simp only [List.forall_mem_append] at hw
    refine ⟨?_, trivial⟩
    rintro _ rfl
    exact wellFormed_two trivial (fun _ => rfl) ((ih hw.1).1 _ rfl) ((ih' hw.2).1 _ rfl)
  | function named _ listed _ _ _ _ ih =>
    simp only [List.forall_mem_cons, List.forall_mem_append] at hw
    obtain ⟨hn, _, hp, _, _, hb, _⟩ := hw
    refine ⟨?_, hn.1 named⟩
    rintro _ ⟨kind, rfl⟩
    refine wellFormed_one ?_ (fun _ => rfl) ((ih hb).1 _ rfl)
    cases listed with
    | none => exact nofun
    | some listed => exact listed.spelled hp
  | moreFunctions _ _ ih ih' =>
    simp only [List.forall_mem_append] at hw
    refine ⟨?_, trivial⟩
    rintro _ rfl
    exact wellFormed_two trivial (fun _ => rfl) ((ih hw.1).1 _ ⟨_, rfl⟩) ((ih' hw.2).1 _ rfl)

end Grammar

end Lox
