import Lox.Scope
import Mathlib.Data.List.Nodup
import Mathlib.Data.List.Pairwise
import Mathlib.Logic.Relation

/-!
# The walk over a program

The report on a node puts together the reports on the parts below it, each in its own context.
`Visits program ctx part` says that the walk over a program comes to a part in a context. The
occurrences reported below a node make up one stretch of the whole report, so where numbers are
not used twice, a number is met in one context only.
-/
namespace Lox.Scope

namespace Report

@[simp] theorem occurrences_nothing : nothing.occurrences = [] := rfl

@[simp] theorem faults_nothing : nothing.faults = [] := rfl

@[simp] theorem occurrences_fault (cause : ScopeCause) (token : Token) :
    (fault cause token).occurrences = [] := rfl

@[simp] theorem faults_fault (cause : ScopeCause) (token : Token) :
    (fault cause token).faults = [.scope cause token] := rfl

@[simp] theorem occurrences_append (a b : Report) :
    (a ++ b).occurrences = a.occurrences ++ b.occurrences := rfl

@[simp] theorem faults_append (a b : Report) : (a ++ b).faults = a.faults ++ b.faults := rfl

@[simp] theorem nothing_append (r : Report) : nothing ++ r = r := rfl

@[simp] theorem append_nothing (r : Report) : r ++ nothing = r := by
  cases r
  exact congrArg₂ mk (List.append_nil _) (List.append_nil _)

theorem append_assoc (a b c : Report) : a ++ b ++ c = a ++ (b ++ c) :=
  congrArg₂ mk (List.append_assoc ..) (List.append_assoc ..)

@[simp] theorem occurrences_ite (c : Prop) [Decidable c] (a b : Report) :
    (if c then a else b).occurrences = if c then a.occurrences else b.occurrences := by
  split <;> rfl

end Report

inductive Part where
  | expr (e : Expr)
  | exprs (es : List Expr)
  | stmt (s : Stmt)
  | stmts (ss : List Stmt)
  | function (kind : FunctionKind) (decl : FunctionDecl)
  | functions (decls : List FunctionDecl)

/-- What surrounds the statements after one. -/
def Context.after (ctx : Context) (s : Stmt) : Context := { ctx with scopes := (stmt ctx s).1 }

theorem stmts_cons (ctx : Context) (s : Stmt) (ss : List Stmt) :
    stmts ctx (s :: ss) = (stmt ctx s).2 ++ stmts (ctx.after s) ss := by
  rw [stmts]
  rfl

/-- What surrounds the body of a function. -/
def Context.inside (ctx : Context) (kind : FunctionKind) (params : List Token) : Context :=
  { ctx with scopes := (introduceAll (.empty :: ctx.scopes) params).1, function := some kind }

/-- A name is entered once it is declared. -/
def Context.introducing (ctx : Context) (name : Token) : Context :=
  { ctx with scopes := (introduce ctx.scopes name).1 }

/-- What surrounds the initializer of a variable. -/
def Context.declaring (ctx : Context) (name : Token) : Context :=
  { ctx with scopes := (declare ctx.scopes name).1 }

namespace Part

def report (ctx : Context) : Part → Report
  | expr e => Scope.expr ctx e
  | exprs es => Scope.exprs ctx es
  | stmt s => (Scope.stmt ctx s).2
  | stmts ss => Scope.stmts ctx ss
  | function kind decl => Scope.function ctx kind decl
  | functions decls => Scope.functions ctx decls

/-- The parts right below one, in the order of the walk. -/
def children (ctx : Context) : Part → List (Context × Part)
  | expr (.assign _ _ value) => [(ctx, expr value)]
  | expr (.binary left _ right) => [(ctx, expr left), (ctx, expr right)]
  | expr (.call callee _ arguments) => [(ctx, expr callee), (ctx, exprs arguments)]
  | expr (.get object _) => [(ctx, expr object)]
  | expr (.grouping inner) => [(ctx, expr inner)]
  | expr (.literal _) => []
  | expr (.logical left _ right) => [(ctx, expr left), (ctx, expr right)]
  | expr (.set object _ value) => [(ctx, expr value), (ctx, expr object)]
  | expr (.superRef ..) => []
  | expr (.thisRef ..) => []
  | expr (.unary _ right) => [(ctx, expr right)]
  | expr (.var ..) => []
  | exprs [] => []
  | exprs (e :: es) => [(ctx, expr e), (ctx, exprs es)]
  | stmt (.block body) => [({ ctx with scopes := .empty :: ctx.scopes }, stmts body)]
  | stmt (.classDecl name parent methods) =>
    let ctx := ctx.introducing name
    (parent.map fun e => ({ ctx with enclosingClass := some .derived }, expr e)).toList ++
      [(classBody ctx parent.isSome, functions methods)]
  | stmt (.expression value) => [(ctx, expr value)]
  | stmt (.functionDecl decl) => [(ctx.introducing decl.name, function .function decl)]
  | stmt (.ifElse condition thenBranch elseBranch) =>
    (ctx, expr condition) :: (ctx, stmt thenBranch) ::
      (elseBranch.map fun other => (ctx.after thenBranch, stmt other)).toList
  | stmt (.print value) => [(ctx, expr value)]
  | stmt (.returnWith _ value) => (value.map fun e => (ctx, expr e)).toList
  | stmt (.varDecl name value) => (value.map fun e => (ctx.declaring name, expr e)).toList
  | stmt (.whileLoop condition body) => [(ctx, expr condition), (ctx, stmt body)]
  | stmts [] => []
  | stmts (s :: ss) => [(ctx, stmt s), (ctx.after s, stmts ss)]
  | function kind decl => [(ctx.inside kind decl.params, stmts decl.body)]
  | functions [] => []
  | functions (decl :: decls) => [(ctx, function (methodKind decl) decl), (ctx, functions decls)]

/-- The occurrence that a node itself is. -/
def own (ctx : Context) : Part → List Occurrence
  | expr (.assign id name _) => (occurrence ctx id name).occurrences
  | expr (.superRef id keyword _) =>
    if ctx.enclosingClass = some .derived then (occurrence ctx id keyword).occurrences else []
  | expr (.thisRef id keyword) =>
    if ctx.enclosingClass = none then [] else (occurrence ctx id keyword).occurrences
  | expr (.var id name) => (occurrence ctx id name).occurrences
  | _ => []

end Part

theorem occurrences_superclass (ctx : Context) (name : Token) (e : Expr) :
    (superclass ctx name e).occurrences = (expr ctx e).occurrences := by
  unfold superclass
  split <;> simp

theorem occurrences_introduce (scopes : Scopes) (name : Token) :
    (introduce scopes name).2.occurrences = [] := by
  cases scopes <;> simp [introduce, declare]

theorem occurrences_declare (scopes : Scopes) (name : Token) :
    (declare scopes name).2.occurrences = [] := by
  cases scopes <;> simp [declare]

theorem occurrences_introduceAll (scopes : Scopes) (names : List Token) :
    (introduceAll scopes names).2.occurrences = [] := by
  induction names generalizing scopes with
  | nil => rfl
  | cons name names ih =>
    simp only [introduceAll, Report.occurrences_append, occurrences_introduce, ih]
    rfl

/-- The occurrences below a node, and then its own. -/
theorem Part.occurrences_report (ctx : Context) (part : Part) :
    (part.report ctx).occurrences =
      (part.children ctx).flatMap (fun c => (c.2.report c.1).occurrences) ++ part.own ctx := by
  cases part with
  | expr e =>
    cases e with
    | superRef id keyword method =>
      simp only [report, Scope.expr, children, own]
      cases ctx.enclosingClass with
      | none => rfl
      | some kind => cases kind <;> rfl
    | thisRef id keyword =>
      simp only [report, Scope.expr, children, own]
      cases ctx.enclosingClass <;> rfl
    | _ => simp [report, Scope.expr, children, own]
  | exprs es => cases es <;> simp [report, Scope.exprs, children, own]
  | stmt s =>
    cases s with
    | classDecl name parent methods =>
      cases parent <;>
        simp [report, Scope.stmt, children, own, occurrences_introduce, occurrences_superclass,
          Context.introducing]
    | functionDecl decl =>
      simp [report, Scope.stmt, children, own, occurrences_introduce, Context.introducing]
    | ifElse condition thenBranch elseBranch =>
      cases elseBranch <;> simp [report, Scope.stmt, children, own, Context.after]
    | returnWith keyword value =>
      cases value <;> simp [report, Scope.stmt, children, own, returned, optional]
    | varDecl name value =>
      cases value <;>
        simp [report, Scope.stmt, children, own, optional, occurrences_declare, Context.declaring]
    | _ => simp [report, Scope.stmt, children, own]
  | stmts ss => cases ss <;> simp [report, Scope.stmts, children, own, Context.after]
  | function kind decl =>
    obtain ⟨name, params, body⟩ := decl
    simp [report, Scope.function, children, own, occurrences_introduceAll, Context.inside]
  | functions decls => cases decls <;> simp [report, Scope.functions, children, own]

theorem faults_superclass {ctx : Context} {name : Token} {e : Expr}
    (h : (superclass ctx name e).faults = []) : (expr ctx e).faults = [] := by
  unfold superclass at h
  split at h
  · exact (List.append_eq_nil_iff.mp h).2
  · exact h

/-- What is reported without a fault has no fault below it. -/
theorem Part.faults_children {ctx : Context} {part : Part} (h : (part.report ctx).faults = []) :
    ∀ c ∈ part.children ctx, (c.2.report c.1).faults = [] := by
  cases part with
  | expr e => cases e <;> simp_all [report, Scope.expr, children]
  | exprs es => cases es <;> simp_all [report, Scope.exprs, children]
  | stmt s =>
    cases s with
    | classDecl name parent methods =>
      cases parent with
      | none => simp_all [report, Scope.stmt, children, Context.introducing]
      | some e =>
        simp only [report, Scope.stmt, Report.faults_append, List.append_eq_nil_iff] at h
        have hs := faults_superclass h.1.2
        simp_all [report, children, Context.introducing]
    | functionDecl decl => simp_all [report, Scope.stmt, children, Context.introducing]
    | ifElse condition thenBranch elseBranch =>
      cases elseBranch <;> simp_all [report, Scope.stmt, children, Context.after]
    | returnWith keyword value =>
      cases value <;> simp_all [report, Scope.stmt, children, returned, optional]
    | varDecl name value =>
      cases value <;> simp_all [report, Scope.stmt, children, optional, Context.declaring]
    | _ => simp_all [report, Scope.stmt, children]
  | stmts ss => cases ss <;> simp_all [report, Scope.stmts, children, Context.after]
  | function kind decl =>
    obtain ⟨name, params, body⟩ := decl
    simp_all [report, Scope.function, children, Context.inside]
  | functions decls => cases decls <;> simp_all [report, Scope.functions, children]

/-! ## Visits -/

/-- The walk goes from one part to another right below it. -/
def Enters (c c' : Context × Part) : Prop := c' ∈ c.2.children c.1

/-- What surrounds a program. -/
def Context.top : Context := ⟨[], none, none⟩

/-- The walk over a program comes to a part in a context. -/
def Visits (program : List Stmt) (ctx : Context) (part : Part) : Prop :=
  Relation.ReflTransGen Enters (.top, .stmts program) (ctx, part)

theorem Visits.program (program : List Stmt) : Visits program .top (.stmts program) := .refl

theorem Visits.enter {program : List Stmt} {ctx ctx' : Context} {part part' : Part}
    (h : Visits program ctx part) (hc : (ctx', part') ∈ part.children ctx) :
    Visits program ctx' part' :=
  h.tail hc

/-- What is reported below a part is reported on the part. -/
theorem occurrences_below {c c' : Context × Part} (h : Relation.ReflTransGen Enters c c')
    {o : Occurrence} (ho : o ∈ (c'.2.report c'.1).occurrences) :
    o ∈ (c.2.report c.1).occurrences := by
  induction h using Relation.ReflTransGen.head_induction_on with
  | refl => exact ho
  | head hb _ ih =>
    rw [Part.occurrences_report]
    exact List.mem_append_left _ (List.mem_flatMap.mpr ⟨_, hb, ih⟩)

theorem Visits.occurrences {program : List Stmt} {ctx : Context} {part : Part}
    (h : Visits program ctx part) {o : Occurrence} (ho : o ∈ (part.report ctx).occurrences) :
    o ∈ (resolve program).occurrences :=
  occurrences_below h ho

theorem Visits.faults {program : List Stmt} {ctx : Context} {part : Part}
    (h : Visits program ctx part) (accepted : (resolve program).faults = []) :
    (part.report ctx).faults = [] := by
  have clean : ∀ c, Relation.ReflTransGen Enters (.top, .stmts program) c →
      (c.2.report c.1).faults = [] := by
    intro c hc
    induction hc with
    | refl => exact accepted
    | tail _ hb ih => exact Part.faults_children ih _ hb
  exact clean _ h

theorem Part.own_subset (ctx : Context) (part : Part) {o : Occurrence} (ho : o ∈ part.own ctx) :
    o ∈ (part.report ctx).occurrences := by
  rw [occurrences_report]
  exact List.mem_append_right _ ho

/-! ## Numbers that are used once -/

/-- No two occurrences on a part have one number. -/
def Once (c : Context × Part) : Prop := ((c.2.report c.1).occurrences.map Occurrence.id).Nodup

section
variable {c d d' : Context × Part} {o o' : Occurrence}

theorem Once.child (once : Once c) (hd : Enters c d) : Once d := by
  unfold Once at once
  rw [Part.occurrences_report, List.map_append, List.map_flatMap] at once
  exact (List.nodup_flatMap.mp once.of_append_left).1 d hd

/-- Two children that report one number are the same. -/
theorem Once.child_unique (once : Once c) (hd : Enters c d) (hd' : Enters c d')
    (ho : o ∈ (d.2.report d.1).occurrences) (ho' : o' ∈ (d'.2.report d'.1).occurrences)
    (same : o.id = o'.id) : d = d' := by
  unfold Once at once
  rw [Part.occurrences_report, List.map_append, List.map_flatMap] at once
  have apart := (List.nodup_flatMap.mp once.of_append_left).2
  by_contra hne
  have symmetric : Std.Symm (Function.onFun List.Disjoint
      fun a : Context × Part => (a.2.report a.1).occurrences.map Occurrence.id) :=
    ⟨fun _ _ h => List.disjoint_symm h⟩
  exact apart.forall hd hd' hne (List.mem_map_of_mem ho) (same ▸ List.mem_map_of_mem ho')

/-- A node's own number is met nowhere below it. -/
theorem Once.own_ne (once : Once c) (ho : o ∈ c.2.own c.1) (hd : Enters c d)
    (ho' : o' ∈ (d.2.report d.1).occurrences) : o.id ≠ o'.id := by
  unfold Once at once
  rw [Part.occurrences_report, List.map_append] at once
  intro same
  have below : o' ∈ (c.2.children c.1).flatMap fun c => (c.2.report c.1).occurrences :=
    List.mem_flatMap.mpr ⟨d, hd, ho'⟩
  exact List.disjoint_of_nodup_append once (List.mem_map_of_mem below)
    (same ▸ List.mem_map_of_mem ho)

/-- One number stands at one node in one context. -/
theorem Once.unique (once : Once c) (hd : Relation.ReflTransGen Enters c d)
    (hd' : Relation.ReflTransGen Enters c d') (ho : o ∈ d.2.own d.1) (ho' : o' ∈ d'.2.own d'.1)
    (same : o.id = o'.id) : d = d' := by
  induction hd using Relation.ReflTransGen.head_induction_on with
  | refl =>
    rcases hd'.cases_head with rfl | ⟨b, hb, hbd⟩
    · rfl
    · exact absurd same (once.own_ne ho hb (occurrences_below hbd (Part.own_subset _ _ ho')))
  | @head c b hb hbd ih =>
    have hob := occurrences_below hbd (Part.own_subset _ _ ho)
    rcases hd'.cases_head with rfl | ⟨b', hb', hbd'⟩
    · exact absurd same.symm (once.own_ne ho' hb hob)
    · have hob' := occurrences_below hbd' (Part.own_subset _ _ ho')
      obtain rfl := once.child_unique hb hb' hob hob' same
      exact ih (once.child hb) hbd'

end

/-- So it is with every part that is visited. -/
theorem Visits.once {program : List Stmt} {ctx : Context} {part : Part}
    (h : Visits program ctx part) (once : Once (.top, .stmts program)) : Once (ctx, part) := by
  have along : ∀ c, Relation.ReflTransGen Enters (.top, .stmts program) c → Once c := by
    intro c hc
    induction hc with
    | refl => exact once
    | tail _ enters ih => exact ih.child enters
  exact along _ h

/-- In a program whose occurrences have different numbers, a number is met in one context. -/
theorem Visits.unique {program : List Stmt} {ctx ctx' : Context} {part part' : Part}
    (once : ((resolve program).occurrences.map Occurrence.id).Nodup)
    (h : Visits program ctx part) (h' : Visits program ctx' part') {o o' : Occurrence}
    (ho : o ∈ part.own ctx) (ho' : o' ∈ part'.own ctx') (same : o.id = o'.id) :
    ctx = ctx' ∧ part = part' :=
  Prod.mk.injEq .. ▸ Once.unique (c := (.top, .stmts program)) once h h' ho ho' same

end Lox.Scope
