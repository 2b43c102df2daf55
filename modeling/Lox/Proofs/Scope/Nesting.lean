import Lox.Proofs.Machine.Agreement

/-!
# What opens the scopes around a part

Each scope around a part was opened by a block, by the body of a function, for the receiver of a
method or for the superclass of a class. `Nested programs openers ctx part` lists these from the
innermost outwards. Around a `super` that passes stand blocks and bodies up to the body of a
method, then the scope for that method's receiver, and then the one for the superclass of the class
that the method was written in. So the distance of `super` tells how many blocks and bodies lie
between.
-/
namespace Lox

namespace Scope

inductive Opener where
  | block
  | body (decl : FunctionDecl)
  | receiver (decl : FunctionDecl)
  | superclass (name : Token) (parent : Expr) (methods : List FunctionDecl)

namespace Opener

/-- Blocks and bodies may lie between a `super` and the method that it belongs to. -/
def Inner : Opener → Prop
  | block => True
  | body _ => True
  | receiver _ => False
  | superclass .. => False

def isReceiver : Opener → Bool
  | receiver _ => true
  | _ => false

def isSuperclass : Opener → Bool
  | superclass .. => true
  | _ => false

/-- Only the scopes opened for them have `this` and `super`. -/
def Fits (o : Opener) (scope : Bindings Bool) : Prop :=
  scope.contains thisName = o.isReceiver ∧ scope.contains superName = o.isSuperclass

variable {o : Opener} {scope : Bindings Bool}

theorem Fits.insert (h : o.Fits scope) {name : Token} (plain : name.Plain) (b : Bool) :
    o.Fits (scope.insert name.lexeme b) := by
  have this := Token.Plain.ne plain (.inl rfl)
  have super := Token.Plain.ne plain (.inr rfl)
  exact ⟨by simp [contains_insert, this, h.1], by simp [contains_insert, super, h.2]⟩

theorem fits_block : block.Fits .empty := ⟨rfl, rfl⟩

theorem fits_body (decl : FunctionDecl) : (body decl).Fits .empty := ⟨rfl, rfl⟩

theorem fits_receiver (decl : FunctionDecl) : (receiver decl).Fits (implicit thisName) :=
  ⟨rfl, rfl⟩

theorem fits_superclass (name : Token) (parent : Expr) (methods : List FunctionDecl) :
    (superclass name parent methods).Fits (implicit superName) :=
  ⟨rfl, rfl⟩

theorem Inner.not_receives (h : o.Inner) : o.isReceiver = false ∧ o.isSuperclass = false := by
  cases o with
  | block => exact ⟨rfl, rfl⟩
  | body decl => exact ⟨rfl, rfl⟩
  | receiver decl => cases h
  | superclass name parent methods => cases h

end Opener

/-- The scopes opened between a part and one right below it. The scope for a receiver is counted to
the single method, although the walk enters it for all methods of a class at once. -/
def Part.opens : Part → Part → List Opener
  | .stmt (.block _), _ => [.block]
  | .stmt (.classDecl name (some parent) methods), .functions _ =>
    [.superclass name parent methods]
  | .functions _, .function _ decl => [.receiver decl]
  | .function _ decl, _ => [.body decl]
  | _, _ => []

end Scope

open Scope (Context Part Scopes Opener thisName superName)

/-- The walk comes to a part in a context, and these opened the scopes around it. -/
inductive Nested (programs : List (List Stmt)) : List Opener → Context → Part → Prop where
  | program {program : List Stmt} (h : program ∈ programs) :
      Nested programs [] .top (.stmts program)
  | child {openers : List Opener} {ctx ctx' : Context} {part part' : Part}
      (h : Nested programs openers ctx part) (hc : (ctx', part') ∈ part.children ctx) :
      Nested programs (part.opens part' ++ openers) ctx' part'

section
variable {programs : List (List Stmt)} {openers : List Opener} {ctx : Context} {part : Part}

theorem Nested.visited (h : Nested programs openers ctx part) : Visited programs ctx part := by
  induction h with
  | program h => exact ⟨_, h, .program _⟩
  | child _ hc ih =>
    obtain ⟨program, hp, hv⟩ := ih
    exact ⟨program, hp, hv.enter hc⟩

theorem Nested.more (h : Nested programs openers ctx part) (program : List Stmt) :
    Nested (program :: programs) openers ctx part := by
  induction h with
  | program h => exact .program (List.mem_cons_of_mem _ h)
  | child _ hc ih => exact .child ih hc

/-- A part right below another that is in the same environment. -/
theorem Nested.within (h : Nested programs openers ctx part) {ctx' : Context} {part' : Part}
    (hc : (ctx', part') ∈ part.children ctx) (same : part.opens part' = []) :
    Nested programs openers ctx' part' := by
  have child := h.child hc
  rwa [same] at child

/-! ## Scopes and what opened them -/

namespace Scope

theorem fits_declare {scopes : Scopes} (h : List.Forall₂ Opener.Fits openers scopes) {name : Token}
    (plain : name.Plain) : List.Forall₂ Opener.Fits openers (declare scopes name).1 := by
  cases h with
  | nil => exact .nil
  | cons first rest => exact .cons (first.insert plain false) rest

theorem fits_introduce {scopes : Scopes} (h : List.Forall₂ Opener.Fits openers scopes)
    {name : Token} (plain : name.Plain) :
    List.Forall₂ Opener.Fits openers (introduce scopes name).1 := by
  cases h with
  | nil => exact .nil
  | cons first rest => exact .cons ((first.insert plain false).insert plain true) rest

theorem fits_introduceAll {scopes : Scopes} (h : List.Forall₂ Opener.Fits openers scopes)
    {names : List Token} (plain : ∀ name ∈ names, name.Plain) :
    List.Forall₂ Opener.Fits openers (introduceAll scopes names).1 := by
  induction names generalizing scopes with
  | nil => exact h
  | cons name names ih =>
    rw [List.forall_mem_cons] at plain
    exact ih (fits_introduce h plain.1) plain.2

theorem fits_after (h : List.Forall₂ Opener.Fits openers ctx.scopes) {s : Stmt}
    (wf : (Part.stmt s).WellFormed Plain) :
    List.Forall₂ Opener.Fits openers (ctx.after s).scopes := by
  rcases scopes_after wf ctx with same | ⟨name, plain, introduced⟩
  · rw [Context.after, same]
    exact h
  · rw [Context.after, introduced]
    exact fits_introduce h plain

/-- Each scope was opened by what is listed. Above the methods of a class stands the scope for
their receivers, which is not listed yet. -/
def Part.Laid (openers : List Opener) (scopes : Scopes) : Part → Prop
  | .functions _ => ∃ outer, scopes = implicit thisName :: outer ∧
      List.Forall₂ Opener.Fits openers outer
  | _ => List.Forall₂ Opener.Fits openers scopes

/-- The parts right below one that is laid out as listed. -/
theorem Part.Laid.child (h : part.Laid openers ctx.scopes) (wf : part.WellFormed Plain)
    {ctx' : Context} {part' : Part} (hc : (ctx', part') ∈ part.children ctx) :
    part'.Laid (part.opens part' ++ openers) ctx'.scopes := by
  have proper := wf.proper
  cases part with
  | expr e =>
    cases e <;> simp only [Part.children, List.mem_cons, List.not_mem_nil, or_false] at hc
    all_goals
      first
      | (rcases hc with hc | hc <;> cases hc <;> exact h)
      | (cases hc; exact h)
  | exprs es =>
    cases es with
    | nil => cases hc
    | cons e es => rcases List.mem_pair.mp hc with hc | hc <;> cases hc <;> exact h
  | stmt s =>
    cases s with
    | block body =>
      cases List.mem_singleton.mp hc
      exact .cons Opener.fits_block h
    | classDecl name parent methods =>
      have introduced : List.Forall₂ Opener.Fits openers (ctx.introducing name).scopes :=
        fits_introduce h proper.1
      cases parent with
      | none =>
        cases List.mem_singleton.mp hc
        exact ⟨_, rfl, introduced⟩
      | some parent =>
        rcases List.mem_pair.mp hc with hc | hc
        · cases hc
          exact introduced
        · cases hc
          exact ⟨_, rfl, .cons (Opener.fits_superclass name parent methods) introduced⟩
    | functionDecl decl =>
      cases List.mem_singleton.mp hc
      exact fits_introduce h proper
    | ifElse condition branch other =>
      have branchWf := wf.child ctx (c := (ctx, .stmt branch)) (by simp [Part.children])
      cases other with
      | none => rcases List.mem_pair.mp hc with hc | hc <;> cases hc <;> exact h
      | some other =>
        rcases List.mem_cons.mp hc with hc | hc
        · cases hc
          exact h
        · rcases List.mem_pair.mp hc with hc | hc
          · cases hc
            exact h
          · cases hc
            exact fits_after h branchWf
    | varDecl name value =>
      cases value with
      | none => cases hc
      | some e =>
        cases List.mem_singleton.mp hc
        exact fits_declare h proper
    | returnWith keyword value =>
      cases value with
      | none => cases hc
      | some e =>
        cases List.mem_singleton.mp hc
        exact h
    | expression | print =>
      cases List.mem_singleton.mp hc
      exact h
    | whileLoop => rcases List.mem_pair.mp hc with hc | hc <;> cases hc <;> exact h
  | stmts ss =>
    cases ss with
    | nil => cases hc
    | cons s ss =>
      have first := wf.child ctx (c := (ctx, .stmt s)) (by simp [Part.children])
      rcases List.mem_pair.mp hc with hc | hc
      · cases hc
        exact h
      · cases hc
        exact fits_after h first
  | function kind decl =>
    cases List.mem_singleton.mp hc
    exact fits_introduceAll (.cons (Opener.fits_body decl) h) proper
  | functions decls =>
    obtain ⟨outer, hs, fits⟩ := h
    cases decls with
    | nil => cases hc
    | cons decl decls =>
      rcases List.mem_pair.mp hc with hc | hc
      · cases hc
        show List.Forall₂ Opener.Fits (.receiver decl :: openers) ctx.scopes
        rw [hs]
        exact .cons (Opener.fits_receiver decl) fits
      · cases hc
        exact ⟨outer, hs, fits⟩

end Scope

theorem Nested.laid (h : Nested programs openers ctx part)
    (wf : ∀ program ∈ programs, (Part.stmts program).WellFormed Plain) :
    part.Laid openers ctx.scopes := by
  induction h with
  | program => exact .nil
  | child h hc ih =>
    obtain ⟨program, hp, hv⟩ := h.visited
    exact ih.child (hv.wellFormed (wf program hp)) hc

/-! ## Methods of derived classes -/

namespace Scope

/-- Where a part below the declaration of a derived class stands: it is a list of its methods, one
of them, or within the body of one. -/
inductive InDerived : List Opener → Part → Prop where
  | methods {name : Token} {parent : Expr} {methods decls : List FunctionDecl}
      {outer : List Opener} (among : decls ⊆ methods) :
      InDerived (.superclass name parent methods :: outer) (.functions decls)
  | method {name : Token} {parent : Expr} {methods : List FunctionDecl} {outer : List Opener}
      {kind : FunctionKind} {decl : FunctionDecl} (among : decl ∈ methods) :
      InDerived (.receiver decl :: .superclass name parent methods :: outer) (.function kind decl)
  | inside {name : Token} {parent : Expr} {methods : List FunctionDecl}
      {inner outer : List Opener} {decl : FunctionDecl} {part : Part}
      (between : ∀ o ∈ inner, o.Inner) (among : decl ∈ methods)
      (single : ∀ decls, part ≠ .functions decls) :
      InDerived (inner ++ .body decl :: .receiver decl :: .superclass name parent methods :: outer)
        part

/-- Below a part that is no class the class around stays the same, and only below a list of methods
there is another one. -/
theorem child_same {c : Context × Part} (hc : c ∈ part.children ctx)
    (noClass : ∀ name parent methods, part ≠ .stmt (.classDecl name parent methods)) :
    c.1.enclosingClass = ctx.enclosingClass ∧
      ((∀ decls, part ≠ .functions decls) → ∀ decls, c.2 ≠ .functions decls) := by
  cases part with
  | expr | exprs =>
    obtain ⟨same, below⟩ := children_of_isExpression rfl c hc
    refine ⟨by rw [same], fun _ decls hd => ?_⟩
    rw [hd] at below
    cases below
  | stmt s =>
    cases s with
    | classDecl name parent methods => exact absurd rfl (noClass name parent methods)
    | ifElse condition branch other =>
      cases other with
      | none => rcases List.mem_pair.mp hc with rfl | rfl <;> exact ⟨rfl, nofun⟩
      | some other =>
        rcases List.mem_cons.mp hc with rfl | hc
        · exact ⟨rfl, nofun⟩
        · rcases List.mem_pair.mp hc with rfl | rfl <;> exact ⟨rfl, nofun⟩
    | varDecl name value | returnWith keyword value =>
      cases value with
      | none => cases hc
      | some e =>
        obtain rfl := List.mem_singleton.mp hc
        exact ⟨rfl, nofun⟩
    | block | expression | functionDecl | print =>
      obtain rfl := List.mem_singleton.mp hc
      exact ⟨rfl, nofun⟩
    | whileLoop => rcases List.mem_pair.mp hc with rfl | rfl <;> exact ⟨rfl, nofun⟩
  | stmts ss =>
    cases ss with
    | nil => cases hc
    | cons s ss => rcases List.mem_pair.mp hc with rfl | rfl <;> exact ⟨rfl, nofun⟩
  | function kind decl =>
    obtain rfl := List.mem_singleton.mp hc
    exact ⟨rfl, nofun⟩
  | functions decls =>
    cases decls with
    | nil => cases hc
    | cons decl decls =>
      rcases List.mem_pair.mp hc with rfl | rfl <;> exact ⟨rfl, fun no => absurd rfl (no _)⟩

/-- Only a function and a list of methods open more than a block opens. -/
theorem inner_opens {part part' : Part} (noFunctions : ∀ decls, part ≠ .functions decls)
    (noClass : ∀ name parent methods, part ≠ .stmt (.classDecl name parent methods)) :
    ∀ o ∈ part.opens part', o.Inner := by
  intro o ho
  unfold Part.opens at ho
  split at ho
  · obtain rfl := List.mem_singleton.mp ho
    trivial
  · exact absurd rfl (noClass _ _ _)
  · exact absurd rfl (noFunctions _)
  · obtain rfl := List.mem_singleton.mp ho
    trivial
  · cases ho

end Scope

theorem Nested.inDerived (h : Nested programs openers ctx part)
    (wf : ∀ program ∈ programs, (Part.stmts program).WellFormed Plain)
    (derived : ctx.enclosingClass = some .derived) :
    Scope.InDerived openers part ∨ ∃ id name, part = .expr (.var id name) := by
  induction h with
  | program => cases derived
  | @child openers ctx ctx' part part' h hc ih =>
    by_cases isClass : ∃ name parent methods, part = .stmt (.classDecl name parent methods)
    · obtain ⟨name, parent, methods, rfl⟩ := isClass
      cases parent with
      | none =>
        cases List.mem_singleton.mp hc
        cases derived
      | some parent =>
        rcases List.mem_pair.mp hc with hc | hc
        · cases hc
          obtain ⟨program, hp, hv⟩ := h.visited
          obtain ⟨id, named, rfl⟩ := (hv.wellFormed (wf program hp)).proper.2 parent rfl
          exact .inr ⟨id, named, rfl⟩
        · cases hc
          exact .inl (.methods (List.Subset.refl methods))
    · have noClass : ∀ name parent methods, part ≠ .stmt (.classDecl name parent methods) :=
        fun name parent methods he => isClass ⟨name, parent, methods, he⟩
      obtain ⟨same, single⟩ := Scope.child_same hc noClass
      rcases ih (same.symm.trans derived) with place | ⟨id, name, rfl⟩
      · refine .inl ?_
        cases place with
        | @methods name parent methods decls outer among =>
          cases decls with
          | nil => cases hc
          | cons decl decls =>
            rcases List.mem_pair.mp hc with hc | hc
            · cases hc
              exact .method (among List.mem_cons_self)
            · cases hc
              exact .methods fun d hd => among (List.mem_cons_of_mem _ hd)
        | method among =>
          cases List.mem_singleton.mp hc
          have between : ∀ o ∈ ([] : List Opener), o.Inner := nofun
          exact .inside between among nofun
        | inside between among noFunctions =>
          rw [← List.append_assoc]
          refine .inside (fun o ho => ?_) among (single noFunctions)
          rcases List.mem_append.mp ho with ho | ho
          · exact Scope.inner_opens noFunctions noClass o ho
          · exact between o ho
      · cases hc

/-! ## The distance of `super` -/

/-- Among scopes that were opened by blocks and bodies nothing is found. -/
theorem Scope.distance?_inner {inner rest : List Opener} {scopes : Scopes} {name : String}
    (hn : name = thisName ∨ name = superName)
    (between : ∀ o ∈ inner, o.Inner) (fits : List.Forall₂ Opener.Fits (inner ++ rest) scopes) :
    ∃ outer, List.Forall₂ Opener.Fits rest outer ∧
      Scope.distance? scopes name = (Scope.distance? outer name).map (· + inner.length) := by
  induction inner generalizing scopes with
  | nil => exact ⟨scopes, fits, by simp⟩
  | cons o inner ih =>
    cases fits with
    | @cons _ scope _ scopes first fits =>
      rw [List.forall_mem_cons] at between
      obtain ⟨outer, hr, hd⟩ := ih between.2 fits
      obtain ⟨notThis, notSuper⟩ := between.1.not_receives
      have absent : scope.contains name = false := by
        rcases hn with rfl | rfl
        · exact first.1.trans notThis
        · exact first.2.trans notSuper
      refine ⟨outer, hr, ?_⟩
      rw [Scope.distance?_cons, absent, hd]
      cases Scope.distance? outer name <;> simp [Nat.add_assoc]

/-- Around a `super` that passes stand blocks and bodies, the body of a method of a derived class, the
scope for its receiver and the scope for the superclass, which has the distance of `super`. -/
theorem Recorded.superPlace {table : Distances} {n id : Nat} {keyword method : Token}
    (recorded : Recorded programs table n)
    (h : Nested programs openers ctx (.expr (.superRef id keyword method))) :
    ∃ inner outer decl name parent methods,
      openers = inner ++ .body decl :: .receiver decl :: .superclass name parent methods :: outer ∧
        (∀ o ∈ inner, o.Inner) ∧ decl ∈ methods ∧ table[id]? = some (inner.length + 2) := by
  have derived := (recorded.receives h.visited).1
  have spelled := (recorded.proper h.visited).proper
  rcases h.inDerived recorded.wellFormed derived with place | ⟨_, _, named⟩
  · generalize hpart : Part.expr (.superRef id keyword method) = part at place
    cases place with
    | methods => cases hpart
    | method => cases hpart
    | @inside name parent methods inner outer decl _ between among single =>
      refine ⟨inner, outer, decl, name, parent, methods, rfl, between, among, ?_⟩
      rw [recorded.distance_own h.visited (recorded.own_super h.visited), spelled]
      obtain ⟨scopes, fits, hd⟩ := Scope.distance?_inner (.inr rfl) between
        (h.laid recorded.wellFormed)
      cases fits with
      | cons first fits =>
        cases fits with
        | cons second fits =>
          cases fits with
          | cons third fits =>
            rw [hd]
            simp [Scope.distance?_cons, first.2, second.2, third.2, Opener.isSuperclass,
              Nat.add_comm]
  · cases named

end

end Lox
