import Lox.Proofs.Grammar.Building
import Mathlib.Data.List.Flatten

/-!
# The numbers in a tree

The numbers that the occurrences in a tree carry, in the order of the walk, whether or not the
walk reports on them. In a tree that was read they are all different and of the stretch that was
counted meanwhile, so trees that were read one after another have no number in common.
-/
namespace Lox

mutual

def Expr.ids : Expr → List Nat
  | .assign id _ value => value.ids ++ [id]
  | .binary left _ right => left.ids ++ right.ids
  | .call callee _ arguments => callee.ids ++ Expr.idsOf arguments
  | .get object _ => object.ids
  | .grouping inner => inner.ids
  | .literal _ => []
  | .logical left _ right => left.ids ++ right.ids
  | .set object _ value => value.ids ++ object.ids
  | .superRef id _ _ => [id]
  | .thisRef id _ => [id]
  | .unary _ right => right.ids
  | .var id _ => [id]

def Expr.idsOf : List Expr → List Nat
  | [] => []
  | e :: es => e.ids ++ Expr.idsOf es

end

/-- The numbers in an expression that may be left out. -/
def Expr.idsOf? (e : Option Expr) : List Nat := (e.map Expr.ids).getD []

mutual

def Stmt.ids : Stmt → List Nat
  | .block body => Stmt.idsOf body
  | .classDecl _ parent methods => Expr.idsOf? parent ++ FunctionDecl.idsOf methods
  | .expression value => value.ids
  | .functionDecl decl => decl.ids
  | .ifElse condition thenBranch none => condition.ids ++ thenBranch.ids
  | .ifElse condition thenBranch (some other) => condition.ids ++ thenBranch.ids ++ other.ids
  | .print value => value.ids
  | .returnWith _ value => Expr.idsOf? value
  | .varDecl _ value => Expr.idsOf? value
  | .whileLoop condition body => condition.ids ++ body.ids

def Stmt.idsOf : List Stmt → List Nat
  | [] => []
  | s :: ss => s.ids ++ Stmt.idsOf ss

def FunctionDecl.ids : FunctionDecl → List Nat
  | ⟨_, _, body⟩ => Stmt.idsOf body

def FunctionDecl.idsOf : List FunctionDecl → List Nat
  | [] => []
  | decl :: decls => decl.ids ++ FunctionDecl.idsOf decls

end

namespace Scope

def Part.ids : Part → List Nat
  | .expr e => e.ids
  | .exprs es => Expr.idsOf es
  | .stmt s => s.ids
  | .stmts ss => Stmt.idsOf ss
  | .function _ decl => decl.ids
  | .functions decls => FunctionDecl.idsOf decls

/-- The number that a node itself carries. -/
def Part.ownId : Part → List Nat
  | .expr (.assign id _ _) => [id]
  | .expr (.superRef id _ _) => [id]
  | .expr (.thisRef id _) => [id]
  | .expr (.var id _) => [id]
  | _ => []

/-- The numbers below a node, and then its own. -/
theorem Part.ids_eq (ctx : Context) (part : Part) :
    part.ids = (part.children ctx).flatMap (fun c => c.2.ids) ++ part.ownId := by
  cases part with
  | expr e => cases e <;> simp [ids, Expr.ids, children, ownId]
  | exprs es => cases es <;> simp [ids, Expr.idsOf, children, ownId]
  | stmt s =>
    cases s with
    | classDecl name parent methods =>
      cases parent <;> simp [ids, Stmt.ids, Expr.idsOf?, children, ownId]
    | ifElse condition thenBranch other => cases other <;> simp [ids, Stmt.ids, children, ownId]
    | returnWith keyword value => cases value <;> simp [ids, Stmt.ids, Expr.idsOf?, children, ownId]
    | varDecl name value => cases value <;> simp [ids, Stmt.ids, Expr.idsOf?, children, ownId]
    | _ => simp [ids, Stmt.ids, children, ownId]
  | stmts ss => cases ss <;> simp [ids, Stmt.idsOf, children, ownId]
  | function kind decl =>
    cases decl
    simp [ids, FunctionDecl.ids, children, ownId]
  | functions decls => cases decls <;> simp [ids, FunctionDecl.idsOf, children, ownId]

/-- What a walk comes to below a part carries none but numbers of that part. -/
theorem ids_below {c c' : Context × Part} (h : Relation.ReflTransGen Enters c c') :
    c'.2.ids ⊆ c.2.ids := by
  induction h using Relation.ReflTransGen.head_induction_on with
  | refl => exact List.Subset.refl _
  | @head c d hd _ ih =>
    intro id hid
    rw [Part.ids_eq c.1]
    exact List.mem_append_left _ (List.mem_flatMap.mpr ⟨d, hd, ih hid⟩)

theorem Visits.ids {program : List Stmt} {ctx : Context} {part : Part}
    (h : Visits program ctx part) : part.ids ⊆ Stmt.idsOf program :=
  ids_below h

end Scope

namespace Grammar

open Scope (Part)

/-- Numbers of a stretch, each once. -/
structure Drawn (ids : List Nat) (n m : Nat) : Prop where
  within : ∀ id ∈ ids, n ≤ id ∧ id < m
  once : ids.Nodup

namespace Drawn

variable {ids ids' : List Nat} {n m k : Nat}

theorem nil : Drawn [] n m := ⟨nofun, .nil⟩

theorem one {id : Nat} (low : n ≤ id) (high : id < m) : Drawn [id] n m :=
  ⟨List.forall_mem_singleton.mpr ⟨low, high⟩, List.nodup_singleton id⟩

theorem perm (h : Drawn ids n m) (hp : ids'.Perm ids) : Drawn ids' n m :=
  ⟨fun id hid => h.within id (hp.subset hid), hp.nodup_iff.mpr h.once⟩

theorem append (h : Drawn ids n m) (h' : Drawn ids' m k) (hn : n ≤ m) (hm : m ≤ k) :
    Drawn (ids ++ ids') n k := by
  constructor
  · intro id hid
    rcases List.mem_append.mp hid with hid | hid
    · have := h.within id hid
      omega
    · have := h'.within id hid
      omega
  · refine List.nodup_append.mpr ⟨h.once, h'.once, fun id hid id' hid' => ?_⟩
    have := h.within id hid
    have := h'.within id' hid'
    omega

/-- What is read second may be walked first. -/
theorem swapped (h : Drawn ids n m) (h' : Drawn ids' m k) (hn : n ≤ m) (hm : m ≤ k) :
    Drawn (ids' ++ ids) n k :=
  (h.append h' hn hm).perm List.perm_append_comm

end Drawn

variable {n m : Nat}

/-- A tree that was read has the numbers of its stretch, each once at most. -/
theorem Built.drawn {part : Part} (h : Built n m part) : Drawn part.ids n m := by
  induction h with
  | literal | noExprs | noStmts | noFunctions => exact .nil
  | this _ low high | «variable» _ low high | super _ _ low high => exact .one low high
  | grouping _ ih | property _ _ ih | unary _ _ ih | expression _ ih | print _ ih
  | functionDecl _ _ ih | baseClass _ _ ih | block _ ih => exact ih
  | call h h' _ ih ih' | binary h _ h' ih ih' | logical h _ h' ih ih' | moreExprs h h' ih ih'
  | moreStmts h h' ih ih' | moreFunctions _ h h' ih ih' | whileLoop h h' _ ih ih'
  | ifThen h h' _ ih ih' => exact ih.append ih' h.le h'.le
  | ifElse h h' _ h'' _ ih ih' ih'' =>
    exact (ih.append ih' h.le h'.le).append ih'' (Nat.le_trans h.le h'.le) h''.le
  | propertyAssignment h _ h' ih ih' => exact ih.swapped ih' h.le h'.le
  | increment h h' _ ih ih' =>
    -- The increment stands last in its block, after the body.
    have hr := ih.swapped ih' h.le h'.le
    simp only [Part.ids] at hr
    simpa [Part.ids, Stmt.ids, Stmt.idsOf] using hr
  | assignment _ h high ih => exact ih.append (.one (Nat.le_refl _) high) h.le (Nat.le_of_lt high)
  | «return» _ _ _ ih | varDecl _ _ _ ih =>
    rename_i value _ _ _
    cases value with
    | none => exact .nil
    | some e => exact ih e rfl
  | derivedClass _ _ low h ih =>
    exact (Drawn.one low (Nat.lt_succ_self _)).append ih (Nat.le_succ_of_le low) h.le
  | function _ _ ih =>
    rename_i decl _ _
    cases decl
    exact ih

/-- The numbers of a tree that is read lie between the counts before and after. -/
theorem drawn_parse (tokens : List Token) (n : Nat) :
    Drawn (Stmt.idsOf (parse tokens n).statements) n (parse tokens n).nextId :=
  (built_parse tokens n).drawn

end Grammar

namespace Scope

/-! ## Induction along the walk -/

section
variable {motive : Part → Prop}
  (step : ∀ part : Part, (∀ ctx, ∀ c ∈ part.children ctx, motive c.2) → motive part)

include step

mutual

theorem induct_expr (e : Expr) : motive (.expr e) := by
  refine step _ fun ctx c hc => ?_
  cases e with
  | literal | superRef | thisRef | var => cases hc
  | assign | get | grouping | unary =>
    obtain rfl := List.mem_singleton.mp hc
    exact induct_expr _
  | binary | logical | set =>
    rcases List.mem_pair.mp hc with rfl | rfl <;> exact induct_expr _
  | call callee paren arguments =>
    rcases List.mem_pair.mp hc with rfl | rfl
    · exact induct_expr callee
    · exact induct_exprs arguments

theorem induct_exprs (es : List Expr) : motive (.exprs es) := by
  refine step _ fun ctx c hc => ?_
  cases es with
  | nil => cases hc
  | cons e es =>
    rcases List.mem_pair.mp hc with rfl | rfl
    · exact induct_expr e
    · exact induct_exprs es

end

mutual

theorem induct_stmt (s : Stmt) : motive (.stmt s) := by
  refine step _ fun ctx c hc => ?_
  cases s with
  | block body =>
    obtain rfl := List.mem_singleton.mp hc
    exact induct_stmts body
  | classDecl name parent methods =>
    cases parent with
    | none =>
      obtain rfl := List.mem_singleton.mp hc
      exact induct_functions methods
    | some e =>
      rcases List.mem_pair.mp hc with rfl | rfl
      · exact induct_expr step e
      · exact induct_functions methods
  | expression | print =>
    obtain rfl := List.mem_singleton.mp hc
    exact induct_expr step _
  | functionDecl decl =>
    obtain rfl := List.mem_singleton.mp hc
    exact induct_function _ decl
  | ifElse condition branch other =>
    cases other with
    | none =>
      rcases List.mem_pair.mp hc with rfl | rfl
      · exact induct_expr step condition
      · exact induct_stmt branch
    | some other =>
      rcases List.mem_cons.mp hc with rfl | hc
      · exact induct_expr step condition
      · rcases List.mem_pair.mp hc with rfl | rfl
        · exact induct_stmt branch
        · exact induct_stmt other
  | returnWith keyword value | varDecl keyword value =>
    cases value with
    | none => cases hc
    | some e =>
      obtain rfl := List.mem_singleton.mp hc
      exact induct_expr step e
  | whileLoop condition body =>
    rcases List.mem_pair.mp hc with rfl | rfl
    · exact induct_expr step condition
    · exact induct_stmt body

theorem induct_stmts (ss : List Stmt) : motive (.stmts ss) := by
  refine step _ fun ctx c hc => ?_
  cases ss with
  | nil => cases hc
  | cons s ss =>
    rcases List.mem_pair.mp hc with rfl | rfl
    · exact induct_stmt s
    · exact induct_stmts ss

theorem induct_function (kind : FunctionKind) (decl : FunctionDecl) :
    motive (.function kind decl) := by
  refine step _ fun ctx c hc => ?_
  obtain ⟨name, params, body⟩ := decl
  obtain rfl := List.mem_singleton.mp hc
  exact induct_stmts body

theorem induct_functions (decls : List FunctionDecl) : motive (.functions decls) := by
  refine step _ fun ctx c hc => ?_
  cases decls with
  | nil => cases hc
  | cons decl decls =>
    rcases List.mem_pair.mp hc with rfl | rfl
    · exact induct_function _ decl
    · exact induct_functions decls

end

/-- What holds of a part as soon as it holds of the parts right below it holds of every part. -/
theorem Part.induct (part : Part) : motive part := by
  cases part with
  | expr e => exact induct_expr step e
  | exprs es => exact induct_exprs step es
  | stmt s => exact induct_stmt step s
  | stmts ss => exact induct_stmts step ss
  | function kind decl => exact induct_function step kind decl
  | functions decls => exact induct_functions step decls

end

/-! ## Numbers on which the walk reports -/

theorem Part.own_sublist (ctx : Context) (part : Part) :
    ((part.own ctx).map Occurrence.id).Sublist part.ownId := by
  cases part with
  | expr e =>
    cases e with
    | superRef =>
      simp only [own, ownId]
      split <;> simp [occurrence]
    | thisRef =>
      simp only [own, ownId]
      split <;> simp [occurrence]
    | _ => simp [own, ownId, occurrence]
  | _ => exact List.Sublist.refl _

/-- The walk reports on numbers of the tree only, in their order. -/
theorem Part.report_sublist (part : Part) :
    ∀ ctx, ((part.report ctx).occurrences.map Occurrence.id).Sublist part.ids := by
  refine part.induct (motive := fun part =>
    ∀ ctx, ((part.report ctx).occurrences.map Occurrence.id).Sublist part.ids) ?_
  intro part below ctx
  rw [occurrences_report, ids_eq ctx, List.map_append, List.map_flatMap]
  refine List.Sublist.append (List.Sublist.flatMap_right _ fun c hc => ?_) (own_sublist ctx part)
  exact below ctx c hc c.1

/-- A walk without faults reports on all numbers. -/
theorem Part.ids_of_clean (part : Part) : ∀ ctx, (part.report ctx).faults = [] →
    (part.report ctx).occurrences.map Occurrence.id = part.ids := by
  refine part.induct (motive := fun part => ∀ ctx, (part.report ctx).faults = [] →
    (part.report ctx).occurrences.map Occurrence.id = part.ids) ?_
  intro part below ctx clean
  have children := faults_children clean
  have own : (part.own ctx).map Occurrence.id = part.ownId := by
    cases part with
    | expr e =>
      cases e with
      | superRef id keyword method =>
        simp only [report, Scope.expr] at clean
        split at clean
        · cases clean
        · cases clean
        · next derived => simp [own, ownId, derived, occurrence]
      | thisRef id keyword =>
        simp only [report, Scope.expr] at clean
        split at clean
        · cases clean
        · next within => simp [own, ownId, within, occurrence]
      | _ => simp [own, ownId, occurrence]
    | _ => rfl
  rw [occurrences_report, ids_eq ctx, List.map_append, List.map_flatMap, own]
  congr 1
  exact List.flatMap_congr fun c hc => below ctx c hc c.1 (children c hc)

end Scope

namespace Grammar

/-- The walk over a program that was read, with or without faults, reports on each number once. -/
theorem numbered_parse (tokens : List Token) (n : Nat) :
    (resolve (parse tokens n).statements).Numbered n (parse tokens n).nextId := by
  have drawn := drawn_parse tokens n
  have sublist := Scope.Part.report_sublist (.stmts (parse tokens n).statements) .top
  refine ⟨fun o ho => ?_, sublist.nodup drawn.once⟩
  exact drawn.within o.id (sublist.subset (List.mem_map_of_mem ho))

end Grammar

end Lox
