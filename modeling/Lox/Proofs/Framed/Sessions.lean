import Lox.Proofs.Framed.Scopes
import Lox.Proofs.Framed.Steps
import Lox.Proofs.Machine.Validity
import Lox.Proofs.Session.Reached

/-!
# A store beside itself

What was made so far is framed like itself, whatever comes next in two runs: the functions and
methods in the store belong to programs of which both tables have the distances, and outwards from
each environment there are the same ones on both sides. When both runs are over all that was there
has the same values in both.
-/
namespace Lox

open Scope (Part Context thisName)
open Store (Chain)

/-- Names in scope are defined wherever there is no expression. -/
theorem Scope.Visits.regular {program : List Stmt} {ctx : Context} {part : Part}
    (h : Visits program ctx part) (wf : (Part.stmts program).WellFormed Plain)
    (noExpression : part.isExpression = false) : ctx.Regular := by
  cases h.placed wf with
  | regular regular => exact regular
  | initializer expression => exact absurd (expression.symm.trans noExpression) nofun
  | superclass named =>
    rw [named] at noExpression
    cases noExpression

section
variable {programs : List (List Stmt)} {table table' : Distances} {n n' : Nat} {ctx : Context}
  {part : Part}

theorem Recorded.regular (h : Recorded programs table n) (visited : Visited programs ctx part)
    (noExpression : part.isExpression = false) : ctx.Regular := by
  obtain ⟨p, hp, hv⟩ := visited
  exact hv.regular (h.wellFormed p hp) noExpression

/-- Other programs may be left out. -/
theorem Recorded.earlier {program : List Stmt} (h : Recorded (program :: programs) table n) :
    Recorded programs table n where
  wellFormed p hp := h.wellFormed p (List.mem_cons_of_mem _ hp)
  clean p hp := h.clean p (List.mem_cons_of_mem _ hp)
  once p hp := h.once p (List.mem_cons_of_mem _ hp)
  apart p hp q hq := h.apart p (List.mem_cons_of_mem _ hp) q (List.mem_cons_of_mem _ hq)
  below p hp := h.below p (List.mem_cons_of_mem _ hp)
  entered p hp := h.entered p (List.mem_cons_of_mem _ hp)
  beyond := h.beyond

/-- A function of programs that are recorded in both tables. -/
theorem Recorded.function_framed (h : Recorded programs table n) (h' : Recorded programs table' n')
    {kind : Scope.FunctionKind} {decl : FunctionDecl}
    (visited : Visited programs ctx (.function kind decl)) {w : Shape}
    (contexts : w.ContextsFramed ctx ctx) :
    (table.framed table').Framed w (.function kind decl) (.function kind decl) := by
  have receives := (h.regular visited rfl).receives
  have resolved := h.resolved visited
  exact (Numbering.function_framed resolved.wellFormed).resolved
    ⟨contexts, receives, receives, resolved.entered, h'.resolved visited⟩

namespace Store

variable {σ : Store} {e : EnvironmentId} {scopes : Scope.Scopes}

/-- Every environment of a store with itself. -/
def self (σ : Store) : Pairing := fun e e' => e = e' ∧ e < σ.environments.size

theorem Mirrors.chain (h : σ.Mirrors e scopes) : Chain σ σ σ.self e e [] := by
  induction h with
  | globals => exact .globals
  | frame inside _ _ _ ih => exact .beyond ⟨rfl, lt_of_enclosing? inside⟩ inside inside ih

theorem environments_framed (made : State.globals < σ.environments.size) (layered : σ.Layered) :
    EnvironmentsFramed σ.self σ σ := by
  have alone {e : EnvironmentId} (out : ¬e < σ.environments.size) (name : String) :
      σ.local? e name = none := by
    rw [local?, Array.getElem?_eq_none (Nat.le_of_not_lt out), Option.bind_none]
  have outermost : σ.enclosing? State.globals = none :=
    Option.eq_none_iff_forall_ne_some.mpr fun o inside => Nat.not_lt_zero o (layered _ o inside)
  refine ⟨?_, ?_, ?_, fun e he => alone fun lt => he e ⟨rfl, lt⟩,
    fun e he => alone fun lt => he e ⟨rfl, lt⟩, ⟨rfl, made⟩, outermost, outermost⟩
  · rintro e _ ⟨rfl, lt⟩
    exact ⟨lt, lt⟩
  · rintro e _ a _ ⟨rfl, -⟩ ⟨rfl, -⟩
    rfl
  · rintro e _ ⟨rfl, -⟩ name
    rfl

/-- A store is framed like itself if both tables record the programs that its functions are from. -/
theorem Scoped.framed (h : σ.Scoped programs) (layered : σ.Layered)
    (recorded : Recorded programs table n) (recorded' : Recorded programs table' n') :
    Framed (table.framed table') σ.self σ σ := by
  refine ⟨environments_framed h.made layered, rfl, fun i => ?_, rfl, fun i => ?_, rfl⟩
  · cases hc : σ.functions[i]? with
    | none => exact .none
    | some c =>
      obtain ⟨ctx, kind, visited, mirrors⟩ := h.functions i c hc
      have framed := recorded.function_framed recorded' visited (.beyond ctx)
      exact .some ⟨⟨rfl, [], kind, mirrors.chain, framed⟩, fun _ => ⟨rfl, mirrors.lt_size⟩⟩
  · cases hc : σ.classes[i]? with
    | none => exact .none
    | some made =>
      refine .some ⟨rfl, rfl, fun name => ?_⟩
      cases hm : made.methods.get? name with
      | none => exact .none
      | some c =>
        obtain ⟨ctx, kind, scopes, visited, hs, mirrors⟩ := h.methods i made hc name c hm
        -- A method will be called within a scope for its receiver, which both sides make then.
        have contexts : Shape.ContextsFramed [.both] ctx ctx := by
          refine ⟨?_, rfl, rfl⟩
          rw [hs]
          exact .both _ (.beyond scopes)
        have framed := recorded.function_framed recorded' visited contexts
        exact .some ⟨rfl, [], kind, mirrors.chain, framed⟩

end Store

end

/-! ## States of two runs -/

/-- States with the same values in all names and fields. The first environments, so many as are
`shared`, are the same ones. Of all others some correspond, and the rest binds nothing. -/
structure State.Framed (shared : Nat) (σ σ' : State) : Prop where
  names : ∀ e < shared, ∀ name, σ'.store.local? e name = σ.store.local? e name
  instances : σ'.store.instances = σ.store.instances
  store : ∃ ρ, (∀ e < shared, ρ e e) ∧
    Store.Framed (σ.distances.framed σ'.distances) ρ σ.store σ'.store
  depth : σ'.depth = σ.depth
  sink : σ'.sink = σ.sink
  clock : σ'.clock = σ.clock

theorem Numbering.Beside.framed {G : Ground} {ρ : Pairing} {σ σ' : State} {shared : Nat}
    (h : (σ.distances.framed σ'.distances).Beside G ρ σ σ') (pairs : ∀ e < shared, G.pairs e e) :
    σ.Framed shared σ' where
  names e he := h.store.bound e e (h.pairs e e (pairs e he))
  instances := h.store.instances
  store := ⟨ρ, fun e he => h.pairs e e (pairs e he), h.store⟩
  depth := h.depth
  sink := h.sink
  clock := h.clock

end Lox
