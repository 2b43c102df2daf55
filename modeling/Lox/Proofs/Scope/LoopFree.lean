import Lox.Proofs.Grammar.Acceptance
import Lox.Proofs.Scope.Walk

/-!
# Code without loops

A statement is free of loops if there is none in it, the functions and methods declared in it
included. What is derived from tokens without `while` and without `for` is free of loops.
-/
namespace Lox

mutual

def Stmt.loopFree : Stmt → Bool
  | .block body => Stmt.allLoopFree body
  | .classDecl _ _ methods => FunctionDecl.allLoopFree methods
  | .functionDecl decl => decl.loopFree
  | .ifElse _ thenBranch none => thenBranch.loopFree
  | .ifElse _ thenBranch (some other) => thenBranch.loopFree && other.loopFree
  | .whileLoop _ _ => false
  | _ => true

def Stmt.allLoopFree : List Stmt → Bool
  | [] => true
  | s :: ss => s.loopFree && Stmt.allLoopFree ss

def FunctionDecl.loopFree : FunctionDecl → Bool
  | ⟨_, _, body⟩ => Stmt.allLoopFree body

def FunctionDecl.allLoopFree : List FunctionDecl → Bool
  | [] => true
  | decl :: decls => decl.loopFree && FunctionDecl.allLoopFree decls

end

theorem FunctionDecl.loopFree_body {decl : FunctionDecl} (h : decl.loopFree = true) :
    Stmt.allLoopFree decl.body = true := by
  cases decl
  exact h

theorem FunctionDecl.loopFree_of_mem {decls : List FunctionDecl}
    (h : FunctionDecl.allLoopFree decls = true) {decl : FunctionDecl} (hd : decl ∈ decls) :
    decl.loopFree = true := by
  induction decls with
  | nil => cases hd
  | cons first decls ih =>
    simp only [allLoopFree, Bool.and_eq_true] at h
    rcases List.mem_cons.mp hd with rfl | hd
    · exact h.1
    · exact ih h.2 hd

namespace Scope.Part

def loopFree : Part → Bool
  | stmt s => s.loopFree
  | stmts ss => Stmt.allLoopFree ss
  | function _ decl => decl.loopFree
  | functions decls => FunctionDecl.allLoopFree decls
  | _ => true

def isLoop : Part → Bool
  | stmt (.whileLoop _ _) => true
  | _ => false

/-- Code is free of loops if it is no loop itself and there is none below it. -/
theorem loopFree_eq (ctx : Context) (p : Part) :
    p.loopFree = (!p.isLoop && (p.children ctx).all fun c => c.2.loopFree) := by
  cases p with
  | expr e => cases e <;> simp [loopFree, isLoop, children]
  | exprs es => cases es <;> simp [loopFree, isLoop, children]
  | stmt s =>
    cases s with
    | classDecl name parent methods =>
      cases parent <;> simp [loopFree, Stmt.loopFree, isLoop, children]
    | ifElse condition thenBranch other =>
      cases other <;> simp [loopFree, Stmt.loopFree, isLoop, children]
    | returnWith keyword value =>
      cases value <;> simp [loopFree, Stmt.loopFree, isLoop, children]
    | varDecl name value => cases value <;> simp [loopFree, Stmt.loopFree, isLoop, children]
    | _ => simp [loopFree, Stmt.loopFree, isLoop, children]
  | stmts ss => cases ss <;> simp [loopFree, Stmt.allLoopFree, isLoop, children]
  | function kind decl =>
    cases decl
    simp [loopFree, FunctionDecl.loopFree, isLoop, children]
  | functions decls => cases decls <;> simp [loopFree, FunctionDecl.allLoopFree, isLoop, children]

theorem loopFree_child {p : Part} (h : p.loopFree = true) (ctx : Context) {c : Context × Part}
    (hc : c ∈ p.children ctx) : c.2.loopFree = true := by
  rw [loopFree_eq ctx, Bool.and_eq_true, List.all_eq_true] at h
  exact h.2 c hc

end Scope.Part

namespace Grammar

/-- The trees of a phrase are free of loops. There is none in an expression. -/
def Phrase.loopFree : Phrase → Bool
  | .varDeclaration s => s.loopFree
  | .expressionStatement s => s.loopFree
  | .initializer s => s.all Stmt.loopFree
  | .statement _ s => s.loopFree
  | .declaration s => s.loopFree
  | .declarations ss => Stmt.allLoopFree ss
  | .function decl => decl.loopFree
  | .functions decls => FunctionDecl.allLoopFree decls
  | _ => true

/-- A token that starts a loop. -/
def StartsLoop (t : Token) : Prop := t.kind = .keyword .whileWord ∨ t.kind = .keyword .forWord

instance (t : Token) : Decidable (StartsLoop t) :=
  inferInstanceAs (Decidable (t.kind = .keyword .whileWord ∨ t.kind = .keyword .forWord))

/-- What is derived from tokens none of which starts a loop is free of loops. -/
theorem Derives.loopFree {style : DanglingElse} {n m : Nat} {w : List Token} {phrase : Phrase}
    (h : Derives style n w phrase m) (hw : ∀ t ∈ w, ¬ StartsLoop t) : phrase.loopFree = true := by
  induction h with
  | whileLoop keyed => exact absurd (.inl keyed) (hw _ List.mem_cons_self)
  | forLoop keyed => exact absurd (.inr keyed) (hw _ List.mem_cons_self)
  | variableInitializer _ ih | expressionInitializer _ ih | evaluation _ ih | ordinary _ ih
  | variableDeclaration _ ih => exact ih hw
  | block _ _ _ ih =>
    simp only [List.forall_mem_cons, List.forall_mem_append] at hw
    exact ih hw.2.1
  | ifThen _ _ _ _ _ _ ih =>
    simp only [List.forall_mem_cons, List.forall_mem_append] at hw
    exact ih hw.2.2.2.2
  | ifElse _ _ _ _ _ _ _ _ _ ih ih' =>
    simp only [List.forall_mem_cons, List.forall_mem_append] at hw
    obtain ⟨_, _, _, _, chosen, _, rejected⟩ := hw
    exact Bool.and_eq_true_iff.mpr ⟨ih chosen, ih' rejected⟩
  | functionDeclaration _ _ ih =>
    simp only [List.forall_mem_cons] at hw
    exact ih hw.2
  | baseClass _ _ _ _ _ ih =>
    simp only [List.forall_mem_cons, List.forall_mem_append] at hw
    exact ih hw.2.2.2.1
  | derivedClass _ _ _ _ _ _ _ ih =>
    simp only [List.forall_mem_cons, List.forall_mem_append] at hw
    exact ih hw.2.2.2.2.2.1
  | function _ _ _ _ _ _ _ ih =>
    simp only [List.forall_mem_cons, List.forall_mem_append] at hw
    exact ih hw.2.2.2.2.2.1
  | moreDeclarations _ _ ih ih' | moreFunctions _ _ ih ih' =>
    simp only [List.forall_mem_append] at hw
    exact Bool.and_eq_true_iff.mpr ⟨ih hw.1, ih' hw.2⟩
  | _ => rfl

end Grammar

/-- A program that is read from a source without loops is free of loops. -/
theorem loopFree_parse {tokens : List Token} {n : Nat} (clean : (parse tokens n).faults = [])
    (loopless : ∀ t ∈ tokens, ¬ Grammar.StartsLoop t) :
    Stmt.allLoopFree (parse tokens n).statements = true := by
  have derived := Grammar.program_of_parse .nearest clean
  exact derived.loopFree fun t ht => loopless t (List.takeWhile_subset _ ht)

end Lox
