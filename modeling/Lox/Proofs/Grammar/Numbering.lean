import Lox.Proofs.Grammar.Rules
import Lox.Proofs.Scope.Walk

/-!
# Numbers of occurrences

A derivation hands out the numbers from its first counter up to its last. In whatever context
its tree is walked, the occurrences reported have numbers of that range, each once.
-/
namespace Lox

namespace Scope

/-- The numbers of the occurrences are at least `n`, below `m` and all different. -/
def Report.Numbered (r : Report) (n m : Nat) : Prop :=
  (∀ o ∈ r.occurrences, n ≤ o.id ∧ o.id < m) ∧ (r.occurrences.map Occurrence.id).Nodup

namespace Report.Numbered

variable {n m k : Nat} {a b : Report}

theorem of_none (h : a.occurrences = []) : a.Numbered n m := by
  simp [Numbered, h]

theorem of_eq (h : a.Numbered n m) (he : b.occurrences = a.occurrences) : b.Numbered n m := by
  rw [Numbered, he]
  exact h

theorem widen (h : a.Numbered n m) {n' m' : Nat} (hn : n' ≤ n) (hm : m ≤ m') :
    a.Numbered n' m' :=
  ⟨fun o ho => ⟨Nat.le_trans hn (h.1 o ho).1, Nat.lt_of_lt_of_le (h.1 o ho).2 hm⟩, h.2⟩

/-- Two reports whose ranges lie apart, in either order. -/
theorem append_of_apart (h : a.Numbered n m) (h' : b.Numbered n m)
    (apart : ∀ o ∈ a.occurrences, ∀ o' ∈ b.occurrences, o.id ≠ o'.id) :
    (a ++ b).Numbered n m := by
  constructor
  · intro o ho
    rcases List.mem_append.mp ho with ho | ho
    · exact h.1 o ho
    · exact h'.1 o ho
  · rw [occurrences_append, List.map_append]
    refine List.nodup_append.mpr ⟨h.2, h'.2, ?_⟩
    rintro _ hi _ hi'
    obtain ⟨o, ho, rfl⟩ := List.mem_map.mp hi
    obtain ⟨o', ho', rfl⟩ := List.mem_map.mp hi'
    exact apart o ho o' ho'

theorem append (h : a.Numbered n m) (h' : b.Numbered m k) (hn : n ≤ m) (hm : m ≤ k) :
    (a ++ b).Numbered n k :=
  append_of_apart (h.widen (Nat.le_refl n) hm) (h'.widen hn (Nat.le_refl k)) fun o ho o' ho' =>
    Nat.ne_of_lt (Nat.lt_of_lt_of_le (h.1 o ho).2 (h'.1 o' ho').1)

theorem append_swapped (h : a.Numbered n m) (h' : b.Numbered m k) (hn : n ≤ m) (hm : m ≤ k) :
    (b ++ a).Numbered n k :=
  append_of_apart (h'.widen hn (Nat.le_refl k)) (h.widen (Nat.le_refl n) hm) fun o ho o' ho' =>
    (Nat.ne_of_lt (Nat.lt_of_lt_of_le (h.1 o' ho').2 (h'.1 o ho).1)).symm

end Report.Numbered

theorem numbered_occurrence (ctx : Context) (n : Nat) (name : Token) :
    (occurrence ctx n name).Numbered n (n + 1) := by
  simp [Report.Numbered, occurrence]

end Scope

namespace Grammar

open Scope (Part Report Context)

/-- The parts of a program that the tree of a phrase is. -/
def Phrase.Is : Phrase → Part → Prop
  | .primary e, p => p = .expr e
  | .call e, p => p = .expr e
  | .unary e, p => p = .expr e
  | .tier _ e, p => p = .expr e
  | .expression e, p => p = .expr e
  | .optional e, p => ∃ e' ∈ e, p = .expr e'
  | .arguments es, p => p = .exprs es
  | .varDeclaration s, p => p = .stmt s
  | .expressionStatement s, p => p = .stmt s
  | .initializer s, p => ∃ s' ∈ s, p = .stmt s'
  | .statement _ s, p => p = .stmt s
  | .declaration s, p => p = .stmt s
  | .declarations ss, p => p = .stmts ss
  | .function d, p => ∃ kind, p = .function kind d
  | .functions ds, p => p = .functions ds

/-- In each context the numbers reported are of a range, and the range may be empty. -/
def Phrase.Numbered (phrase : Phrase) (n m : Nat) : Prop :=
  n ≤ m ∧ ∀ p, phrase.Is p → ∀ ctx, (p.report ctx).Numbered n m

section
variable {n m k : Nat}

theorem numbered_var (ctx : Context) (n : Nat) (name : Token) :
    ((Part.expr (.var n name)).report ctx).Numbered n (n + 1) :=
  (Scope.numbered_occurrence ctx n name).of_eq (Part.occurrences_report ctx _)

section
variable {ctx ctx₁ ctx₂ ctx₃ : Context} {p p₁ p₂ p₃ : Part}

theorem numbered_leaf (hc : p.children ctx = []) (ho : p.own ctx = []) :
    (p.report ctx).Numbered n m :=
  .of_none (by rw [Part.occurrences_report, hc, ho]; rfl)

theorem numbered_one (hc : p.children ctx = [(ctx₁, p₁)]) (ho : p.own ctx = [])
    (h : (p₁.report ctx₁).Numbered n m) : (p.report ctx).Numbered n m :=
  h.of_eq (by rw [Part.occurrences_report, hc, ho]; simp)

theorem numbered_two (hc : p.children ctx = [(ctx₁, p₁), (ctx₂, p₂)]) (ho : p.own ctx = [])
    (h₁ : (p₁.report ctx₁).Numbered n m) (h₂ : (p₂.report ctx₂).Numbered m k) (hn : n ≤ m)
    (hm : m ≤ k) : (p.report ctx).Numbered n k :=
  (h₁.append h₂ hn hm).of_eq (by rw [Part.occurrences_report, hc, ho]; simp)

/-- The second child is read before the first. -/
theorem numbered_swapped (hc : p.children ctx = [(ctx₂, p₂), (ctx₁, p₁)]) (ho : p.own ctx = [])
    (h₁ : (p₁.report ctx₁).Numbered n m) (h₂ : (p₂.report ctx₂).Numbered m k) (hn : n ≤ m)
    (hm : m ≤ k) : (p.report ctx).Numbered n k :=
  (h₁.append_swapped h₂ hn hm).of_eq (by rw [Part.occurrences_report, hc, ho]; simp)

theorem numbered_three {l : Nat} (hc : p.children ctx = [(ctx₁, p₁), (ctx₂, p₂), (ctx₃, p₃)])
    (ho : p.own ctx = []) (h₁ : (p₁.report ctx₁).Numbered n m)
    (h₂ : (p₂.report ctx₂).Numbered m k) (h₃ : (p₃.report ctx₃).Numbered k l) (hn : n ≤ m)
    (hm : m ≤ k) (hk : k ≤ l) : (p.report ctx).Numbered n l :=
  ((h₁.append h₂ hn hm).append h₃ (Nat.le_trans hn hm) hk).of_eq
    (by rw [Part.occurrences_report, hc, ho]; simp)

end

/-- The walk over a loop meets its body before the increment, which is read first. -/
theorem numbered_increment {after : Option Expr} {body : Stmt} {endsOpen : Bool} :
    (Phrase.optional after).Numbered n m → (Phrase.statement endsOpen body).Numbered m k →
    (Phrase.statement endsOpen (match after with
      | some increment => .block [body, .expression increment]
      | none => body)).Numbered n k := by
  intro ha hb
  refine ⟨Nat.le_trans ha.1 hb.1, ?_⟩
  rintro _ rfl ctx
  cases after with
  | none => exact (hb.2 _ rfl ctx).widen ha.1 (Nat.le_refl k)
  | some increment =>
    let inner : Context := { ctx with scopes := .empty :: ctx.scopes }
    have hr := (ha.2 _ ⟨_, rfl, rfl⟩ (inner.after body)).append_swapped (hb.2 _ rfl inner) ha.1 hb.1
    exact hr.of_eq (by simp [inner, Part.report, Scope.stmt, Scope.stmts, Context.after])

theorem numbered_test {test : Option Expr} {body : Stmt} {endsOpen : Bool}
    (ht : (Phrase.optional test).Numbered n m) (hb : (Phrase.statement endsOpen body).Numbered m k) :
    (Phrase.statement endsOpen
      (.whileLoop (test.getD (.literal (.bool true))) body)).Numbered n k := by
  refine ⟨Nat.le_trans ht.1 hb.1, ?_⟩
  rintro _ rfl ctx
  cases test with
  | none =>
    have hr := (hb.2 _ rfl ctx).widen ht.1 (Nat.le_refl k)
    exact hr.of_eq (by simp [Part.report, Scope.stmt, Scope.expr])
  | some e =>
    exact numbered_two rfl rfl (ht.2 _ ⟨_, rfl, rfl⟩ ctx) (hb.2 _ rfl ctx) ht.1 hb.1

theorem numbered_initializer {first : Option Stmt} {loop : Stmt} {endsOpen : Bool} :
    (Phrase.initializer first).Numbered n m → (Phrase.statement endsOpen loop).Numbered m k →
    (Phrase.statement endsOpen (match first with
      | some initializer => .block [initializer, loop]
      | none => loop)).Numbered n k := by
  intro hf hl
  refine ⟨Nat.le_trans hf.1 hl.1, ?_⟩
  rintro _ rfl ctx
  cases first with
  | none => exact (hl.2 _ rfl ctx).widen hf.1 (Nat.le_refl k)
  | some initializer =>
    let inner : Context := { ctx with scopes := .empty :: ctx.scopes }
    have hr := (hf.2 _ ⟨_, rfl, rfl⟩ inner).append (hl.2 _ rfl (inner.after initializer)) hf.1 hl.1
    exact hr.of_eq (by simp [inner, Part.report, Scope.stmt, Scope.stmts, Context.after])

/-- A derivation hands out its numbers once each. -/
theorem Derives.numbered {style : DanglingElse} {w : List Token} {phrase : Phrase}
    (h : Derives style n w phrase m) : phrase.Numbered n m := by
  induction h with
  | literal | bareVariable | noDeclarations | noFunctions =>
    refine ⟨Nat.le_refl _, ?_⟩
    rintro _ rfl ctx
    exact numbered_leaf rfl rfl
  | omitted | noInitializer =>
    refine ⟨Nat.le_refl _, ?_⟩
    rintro _ ⟨_, h, _⟩
    cases h
  | this =>
    refine ⟨Nat.le_succ _, ?_⟩
    rintro _ rfl ctx
    rw [Part.report, Scope.expr]
    split
    · exact .of_none rfl
    · exact Scope.numbered_occurrence _ _ _
  | «variable» =>
    refine ⟨Nat.le_succ _, ?_⟩
    rintro _ rfl ctx
    exact numbered_var ctx _ _
  | super =>
    refine ⟨Nat.le_succ _, ?_⟩
    rintro _ rfl ctx
    rw [Part.report, Scope.expr]
    split
    · exact .of_none rfl
    · exact .of_none rfl
    · exact Scope.numbered_occurrence _ _ _
  | simple _ ih | access _ ih | tightest _ ih | tighter _ ih | plain _ ih | evaluation _ ih
  | ordinary _ ih | variableDeclaration _ ih => exact ih
  | given _ ih | variableInitializer _ ih | expressionInitializer _ ih =>
    refine ⟨ih.1, ?_⟩
    rintro _ ⟨_, ⟨⟩, rfl⟩
    exact ih.2 _ rfl
  | grouping _ _ _ ih | property _ _ _ ih | unaryOperation _ _ ih | initializedVariable _ _ _ _ _ ih
  | expressionEnd _ _ ih | print _ _ _ ih | block _ _ _ ih | baseClass _ _ _ _ _ ih =>
    refine ⟨ih.1, ?_⟩
    rintro _ rfl ctx
    exact numbered_one rfl rfl (ih.2 _ rfl _)
  | functionDeclaration _ _ ih =>
    refine ⟨ih.1, ?_⟩
    rintro _ rfl ctx
    exact numbered_one rfl rfl (ih.2 _ ⟨_, rfl⟩ _)
  | function _ _ _ _ _ _ _ ih =>
    refine ⟨ih.1, ?_⟩
    rintro _ ⟨kind, rfl⟩ ctx
    exact numbered_one rfl rfl (ih.2 _ rfl _)
  | returnWith _ _ _ ih =>
    refine ⟨ih.1, ?_⟩
    rintro _ rfl ctx
    rename_i value _ _ _
    cases value with
    | none => exact numbered_leaf rfl rfl
    | some e => exact numbered_one rfl rfl (ih.2 _ ⟨_, rfl, rfl⟩ _)
  | emptyCall _ _ _ ih =>
    refine ⟨ih.1, ?_⟩
    rintro _ rfl ctx
    exact numbered_two rfl rfl (ih.2 _ rfl ctx) (numbered_leaf rfl rfl) ih.1 (Nat.le_refl _)
  | lastArgument _ ih =>
    refine ⟨ih.1, ?_⟩
    rintro _ rfl ctx
    exact numbered_two rfl rfl (ih.2 _ rfl ctx) (numbered_leaf rfl rfl) ih.1 (Nat.le_refl _)
  | call _ _ _ _ _ ih ih' | moreArguments _ _ _ ih ih' | whileLoop _ _ _ _ _ ih ih'
  | ifThen _ _ _ _ _ ih ih' | moreDeclarations _ _ ih ih' =>
    refine ⟨Nat.le_trans ih.1 ih'.1, ?_⟩
    rintro _ rfl ctx
    exact numbered_two rfl rfl (ih.2 _ rfl _) (ih'.2 _ rfl _) ih.1 ih'.1
  | moreFunctions _ _ ih ih' =>
    refine ⟨Nat.le_trans ih.1 ih'.1, ?_⟩
    rintro _ rfl ctx
    exact numbered_two rfl rfl (ih.2 _ ⟨_, rfl⟩ _) (ih'.2 _ rfl _) ih.1 ih'.1
  | operation _ _ _ ih ih' =>
    refine ⟨Nat.le_trans ih.1 ih'.1, ?_⟩
    rintro _ rfl ctx
    cases ‹Tier›
    all_goals exact numbered_two rfl rfl (ih.2 _ rfl ctx) (ih'.2 _ rfl ctx) ih.1 ih'.1
  | assignment _ _ _ ih =>
    -- The name's own number is not used in the tree.
    have hn := Nat.le_trans (Nat.le_succ _) ih.1
    refine ⟨Nat.le_succ_of_le hn, ?_⟩
    rintro _ rfl ctx
    have hv := (ih.2 _ rfl ctx).widen (Nat.le_succ _) (Nat.le_refl _)
    exact hv.append (Scope.numbered_occurrence ctx _ _) hn (Nat.le_succ _)
  | propertyAssignment _ _ _ _ _ ih ih' =>
    refine ⟨Nat.le_trans ih.1 ih'.1, ?_⟩
    rintro _ rfl ctx
    exact numbered_swapped rfl rfl (ih.2 _ rfl ctx) (ih'.2 _ rfl ctx) ih.1 ih'.1
  | forLoop _ _ _ _ _ _ _ _ ih ih₁ ih₂ ih₃ =>
    exact numbered_initializer ih (numbered_test ih₁ (numbered_increment ih₂ ih₃))
  | ifElse _ _ _ _ _ _ _ _ ih ih₁ ih₂ =>
    refine ⟨Nat.le_trans (Nat.le_trans ih.1 ih₁.1) ih₂.1, ?_⟩
    rintro _ rfl ctx
    exact numbered_three rfl rfl (ih.2 _ rfl _) (ih₁.2 _ rfl _) (ih₂.2 _ rfl _) ih.1 ih₁.1 ih₂.1
  | derivedClass _ _ _ _ _ _ _ ih =>
    refine ⟨Nat.le_trans (Nat.le_succ _) ih.1, ?_⟩
    rintro _ rfl ctx
    exact numbered_two rfl rfl (numbered_var _ _ _) (ih.2 _ rfl _) (Nat.le_succ _) ih.1

end

/-- The numbers that a program read without faults uses. -/
theorem Program.numbered {style : DanglingElse} {n m : Nat} {w : List Token} {trees : List Stmt}
    (h : Program style n w trees m) : n ≤ m ∧ (resolve trees).Numbered n m :=
  ⟨(Derives.numbered h).1, (Derives.numbered h).2 _ rfl .top⟩

end Grammar

end Lox
