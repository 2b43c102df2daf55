import Lox.Proofs.Framed.Code
import Lox.Proofs.Scope.Contexts
import Lox.Proofs.Session.Load

/-!
# Scopes of programs that are framed alike

The walks over two programs that are framed alike come to corresponding parts in contexts that
differ in empty scopes only. So a name has distances that lead to the same scope, and the second
program passes if the first one does.
-/
namespace Lox

open Scope (Part Scopes Context Report Occurrence distance? thisName superName)
open Shape (Open Spans)

namespace Shape

/-- Scopes that differ by empty ones. -/
inductive ScopesFramed : Shape → Scopes → Scopes → Prop where
  | beyond (scopes : Scopes) : ScopesFramed [] scopes scopes
  | both {w : Shape} {scopes scopes' : Scopes} (scope : Bindings Bool)
      (outer : ScopesFramed w scopes scopes') :
      ScopesFramed (.both :: w) (scope :: scopes) (scope :: scopes')
  | left {w : Shape} {scopes scopes' : Scopes} (outer : ScopesFramed w scopes scopes') :
      ScopesFramed (.left :: w) (.empty :: scopes) scopes'
  | right {w : Shape} {scopes scopes' : Scopes} (outer : ScopesFramed w scopes scopes') :
      ScopesFramed (.right :: w) scopes (.empty :: scopes')

/-- Contexts that differ in empty scopes. -/
structure ContextsFramed (w : Shape) (ctx ctx' : Context) : Prop where
  scopes : w.ScopesFramed ctx.scopes ctx'.scopes
  function : ctx'.function = ctx.function
  enclosingClass : ctx'.enclosingClass = ctx.enclosingClass

variable {w : Shape} {scopes scopes' : Scopes} {ctx ctx' : Context}

/-- A name has distances to the same scope. -/
theorem ScopesFramed.distance (h : w.ScopesFramed scopes scopes') (name : String) :
    Option.Rel (Spans w) (distance? scopes name) (distance? scopes' name) := by
  induction h with
  | beyond scopes =>
    cases distance? scopes name with
    | none => exact .none
    | some d => exact .some (.beyond d)
  | @both _ scopes scopes' scope _ ih =>
    rw [Scope.distance?_cons, Scope.distance?_cons]
    generalize distance? scopes name = d, distance? scopes' name = d' at ih
    split
    · exact .some .here
    · cases ih with
      | none => exact .none
      | some further => exact .some (.both further)
  | @left _ scopes scopes' _ ih =>
    rw [Scope.distance?_cons, if_neg (by simp [Bindings.contains])]
    generalize distance? scopes name = d, distance? scopes' name = d' at ih
    cases ih with
    | none => exact .none
    | some further => exact .some (.left further)
  | @right _ scopes scopes' _ ih =>
    rw [Scope.distance?_cons, if_neg (by simp [Bindings.contains])]
    generalize distance? scopes name = d, distance? scopes' name = d' at ih
    cases ih with
    | none => exact .none
    | some further => exact .some (.right further)

/-! ## Declarations -/

theorem ScopesFramed.declare (h : w.ScopesFramed scopes scopes') (opens : Open w) (name : Token) :
    w.ScopesFramed (Scope.declare scopes name).1 (Scope.declare scopes' name).1 ∧
      (Scope.declare scopes' name).2 = (Scope.declare scopes name).2 := by
  cases h with
  | beyond => exact ⟨.beyond _, rfl⟩
  | both scope outer => exact ⟨.both _ outer, rfl⟩
  | left => cases opens
  | right => cases opens

theorem ScopesFramed.introduce (h : w.ScopesFramed scopes scopes') (opens : Open w) (name : Token) :
    w.ScopesFramed (Scope.introduce scopes name).1 (Scope.introduce scopes' name).1 ∧
      (Scope.introduce scopes' name).2 = (Scope.introduce scopes name).2 := by
  cases h with
  | beyond => exact ⟨.beyond _, rfl⟩
  | both scope outer => exact ⟨.both _ outer, rfl⟩
  | left => cases opens
  | right => cases opens

theorem ScopesFramed.introduceAll (h : w.ScopesFramed scopes scopes') (opens : Open w)
    (names : List Token) :
    w.ScopesFramed (Scope.introduceAll scopes names).1 (Scope.introduceAll scopes' names).1 ∧
      (Scope.introduceAll scopes' names).2 = (Scope.introduceAll scopes names).2 := by
  induction names generalizing scopes scopes' with
  | nil => exact ⟨h, rfl⟩
  | cons name names ih =>
    obtain ⟨first, same⟩ := h.introduce opens name
    obtain ⟨rest, same'⟩ := ih first
    exact ⟨rest, congrArg₂ (· ++ ·) same same'⟩

/-- Where only the second program has scopes more, it reads no name in its own initializer if the
first one does not. -/
theorem ScopesFramed.inOwnInitializer (h : w.ScopesFramed scopes scopes') (right : .left ∉ w)
    {name : String} (ended : Scope.inOwnInitializer scopes name = false) :
    Scope.inOwnInitializer scopes' name = false := by
  cases h with
  | beyond => exact ended
  | both => exact ended
  | left => exact absurd List.mem_cons_self right
  | right => simp [Scope.inOwnInitializer]

/-! ## Contexts -/

namespace ContextsFramed

theorem beyond (ctx : Context) : ContextsFramed [] ctx ctx := ⟨.beyond _, rfl, rfl⟩

theorem withScopes (h : w.ContextsFramed ctx ctx') {w' : Shape}
    (framed : w'.ScopesFramed scopes scopes') :
    w'.ContextsFramed { ctx with scopes } { ctx' with scopes := scopes' } :=
  ⟨framed, h.function, h.enclosingClass⟩

theorem inClass (h : w.ContextsFramed ctx ctx') (kind : Scope.ClassKind) :
    w.ContextsFramed { ctx with enclosingClass := some kind }
      { ctx' with enclosingClass := some kind } :=
  ⟨h.scopes, h.function, rfl⟩

theorem block (h : w.ContextsFramed ctx ctx') : ContextsFramed (.both :: w)
    { ctx with scopes := .empty :: ctx.scopes } { ctx' with scopes := .empty :: ctx'.scopes } :=
  h.withScopes (.both _ h.scopes)

theorem wrapped (h : w.ContextsFramed ctx ctx') :
    ContextsFramed (.right :: w) ctx { ctx' with scopes := .empty :: ctx'.scopes } :=
  ⟨.right h.scopes, h.function, h.enclosingClass⟩

theorem introducing (h : w.ContextsFramed ctx ctx') (opens : Open w) (name : Token) :
    w.ContextsFramed (ctx.introducing name) (ctx'.introducing name) :=
  h.withScopes (h.scopes.introduce opens name).1

theorem declaring (h : w.ContextsFramed ctx ctx') (opens : Open w) (name : Token) :
    w.ContextsFramed (ctx.declaring name) (ctx'.declaring name) :=
  h.withScopes (h.scopes.declare opens name).1

theorem inside (h : w.ContextsFramed ctx ctx') (kind : Scope.FunctionKind) (params : List Token) :
    ContextsFramed (.both :: w) (ctx.inside kind params) (ctx'.inside kind params) :=
  ⟨((ScopesFramed.both .empty h.scopes).introduceAll rfl params).1, rfl, h.enclosingClass⟩

theorem baseClass (h : w.ContextsFramed ctx ctx') :
    ContextsFramed (.both :: w) (Scope.classBody ctx false) (Scope.classBody ctx' false) :=
  ⟨.both _ h.scopes, h.function, rfl⟩

theorem derivedClass (h : w.ContextsFramed ctx ctx') :
    ContextsFramed (.both :: .both :: w) (Scope.classBody ctx true) (Scope.classBody ctx' true) :=
  ⟨.both _ (.both _ h.scopes), h.function, rfl⟩

end ContextsFramed

end Shape

namespace Numbering

variable {K : Numbering} {w : Shape} {ctx ctx' : Context}

/-- Where the programs declare in different scopes a statement declares nothing. -/
theorem Framed.scopes_of_not_open {s s' : Stmt} (h : K.Framed w (.stmt s) (.stmt s'))
    (closed : ¬Open w) (ctx : Context) : (Scope.stmt ctx s).1 = ctx.scopes := by
  generalize hp : Part.stmt s = part, hp' : Part.stmt s' = part' at h
  induction h generalizing s s' ctx with
  | block | expression | print | bareReturn | returnWith =>
    cases hp
    simp only [Scope.stmt]
  | baseClass opens | derivedClass opens | functionDecl opens | bareVariable opens
  | initializedVariable opens => exact absurd opens closed
  | ifThen _ _ _ ih =>
    cases hp
    cases hp'
    simp only [Scope.stmt, ih closed ctx rfl rfl]
  | ifElse _ _ _ _ ih ih' =>
    cases hp
    cases hp'
    simp only [Scope.stmt, ih closed ctx rfl rfl, ih' closed ctx rfl rfl]
  | whileLoop _ _ _ ih =>
    cases hp
    cases hp'
    simp only [Scope.stmt, ih closed ctx rfl rfl]
  | wrapped _ ih => exact ih Shape.not_open_right ctx hp rfl
  | _ => cases hp

/-- What surrounds the statements that come next. -/
theorem Framed.after {s s' : Stmt} (h : K.Framed w (.stmt s) (.stmt s'))
    (contexts : w.ContextsFramed ctx ctx') : w.ContextsFramed (ctx.after s) (ctx'.after s') := by
  generalize hp : Part.stmt s = part, hp' : Part.stmt s' = part' at h
  induction h generalizing s s' ctx ctx' with
  | block | expression | print | bareReturn | returnWith =>
    cases hp
    cases hp'
    simpa only [Context.after, Scope.stmt] using contexts
  | @baseClass _ name _ _ opens | @derivedClass _ name _ _ _ _ _ opens
  | @functionDecl _ name _ _ _ opens | bareVariable opens name
  | @initializedVariable _ name _ _ opens =>
    cases hp
    cases hp'
    rw [Scope.after_of_declared? rfl, Scope.after_of_declared? rfl]
    exact contexts.introducing opens name
  | ifThen _ _ _ ih =>
    cases hp
    cases hp'
    simpa only [Context.after, Scope.stmt] using ih contexts rfl rfl
  | ifElse _ _ _ _ ih ih' =>
    cases hp
    cases hp'
    simpa only [Context.after, Scope.stmt] using ih' (ih contexts rfl rfl) rfl rfl
  | whileLoop _ _ _ ih =>
    cases hp
    cases hp'
    simpa only [Context.after, Scope.stmt] using ih contexts rfl rfl
  | wrapped content =>
    cases hp
    cases hp'
    rw [Context.after, content.scopes_of_not_open Shape.not_open_right]
    simpa only [Context.after, Scope.stmt] using contexts
  | _ => cases hp

/-- Declaring a name of the second program hides neither `this` nor `super` in the first one. -/
theorem Framed.receives_after {s s' : Stmt} (h : K.Framed w (.stmt s) (.stmt s'))
    (wf : (Part.stmt s').WellFormed Plain) (receives : ctx.Receives) : (ctx.after s).Receives := by
  generalize hp : Part.stmt s = part, hp' : Part.stmt s' = part' at h
  induction h generalizing s s' ctx with
  | block | expression | print | bareReturn | returnWith =>
    cases hp
    simpa only [Context.after, Scope.stmt] using receives
  | baseClass | derivedClass =>
    cases hp
    cases hp'
    rw [Scope.after_of_declared? rfl]
    exact receives.introducing wf.proper.1
  | functionDecl | bareVariable | initializedVariable =>
    cases hp
    cases hp'
    rw [Scope.after_of_declared? rfl]
    exact receives.introducing wf.proper
  | ifThen _ _ _ ih =>
    cases hp
    cases hp'
    have chosen := wf.child .top (List.mem_cons_of_mem _ List.mem_cons_self)
    simpa only [Context.after, Scope.stmt] using ih chosen receives rfl rfl
  | ifElse _ _ _ _ ih ih' =>
    cases hp
    cases hp'
    have chosen := wf.child .top (List.mem_cons_of_mem _ List.mem_cons_self)
    have alternated :=
      wf.child .top (List.mem_cons_of_mem _ (List.mem_cons_of_mem _ List.mem_cons_self))
    simpa only [Context.after, Scope.stmt] using ih' alternated (ih chosen receives rfl rfl) rfl rfl
  | whileLoop _ _ _ ih =>
    cases hp
    cases hp'
    have repeated := wf.child .top (List.mem_cons_of_mem _ List.mem_cons_self)
    simpa only [Context.after, Scope.stmt] using ih repeated receives rfl rfl
  | wrapped _ ih =>
    cases hp'
    exact ih ((wf.child .top List.mem_cons_self).child .top List.mem_cons_self) receives hp rfl
  | _ => cases hp

/-- A part that passes, does so with blocks around some of its statements. -/
theorem Framed.clean {part part' : Part} (h : K.Framed w part part')
    (contexts : w.ContextsFramed ctx ctx') (right : .left ∉ w)
    (clean : (part.report ctx).faults = []) : (part'.report ctx').faults = [] := by
  have inner {w : Shape} (right : .left ∉ w) : .left ∉ .both :: w :=
    List.not_mem_cons_of_ne_of_not_mem (by decide) right
  have early {w : Shape} {ctx ctx' : Context} (contexts : w.ContextsFramed ctx ctx')
      (right : .left ∉ w) {id id' : Nat} {name : Token}
      (clean : (Scope.expr ctx (.var id name)).faults = []) :
      (Scope.expr ctx' (.var id' name)).faults = [] := by
    simp only [Scope.expr, Report.faults_append, List.append_eq_nil_iff] at clean ⊢
    have ended : Scope.inOwnInitializer ctx.scopes name.lexeme = false := by
      by_contra own
      rw [if_pos (by simpa using own)] at clean
      cases clean.1
    rw [contexts.scopes.inOwnInitializer right ended]
    exact ⟨rfl, rfl⟩
  induction h generalizing ctx ctx' with
  | assign _ _ ih =>
    simp only [Part.report, Scope.expr, Report.faults_append, List.append_eq_nil_iff] at clean ⊢
    exact ⟨ih contexts right clean.1, rfl⟩
  | binary _ _ ih ih' | logical _ _ ih ih' | call _ _ ih ih' =>
    simp only [Part.report, Scope.expr, Report.faults_append, List.append_eq_nil_iff] at clean ⊢
    exact ⟨ih contexts right clean.1, ih' contexts right clean.2⟩
  | set _ _ ih ih' =>
    simp only [Part.report, Scope.expr, Report.faults_append, List.append_eq_nil_iff] at clean ⊢
    exact ⟨ih' contexts right clean.1, ih contexts right clean.2⟩
  | get _ ih | grouping _ ih | unary _ ih => exact ih contexts right clean
  | literal | noExprs | noStmts | noFunctions => rfl
  | superRef | thisRef =>
    simp only [Part.report, Scope.expr, contexts.enclosingClass] at clean ⊢
    split at clean <;> first | rfl | cases clean
  | var => exact early contexts right clean
  | moreExprs _ _ ih ih' =>
    simp only [Part.report, Scope.exprs, Report.faults_append, List.append_eq_nil_iff] at clean ⊢
    exact ⟨ih contexts right clean.1, ih' contexts right clean.2⟩
  | block _ ih =>
    simp only [Part.report, Scope.stmt] at clean ⊢
    exact ih contexts.block (inner right) clean
  | @baseClass _ name _ _ opens _ ih =>
    simp only [Part.report, Scope.stmt, Report.faults_append, List.append_eq_nil_iff] at clean ⊢
    obtain ⟨⟨named, _⟩, listed⟩ := clean
    refine ⟨⟨?_, rfl⟩, ih (contexts.introducing opens name).baseClass (inner right) listed⟩
    rw [(contexts.scopes.introduce opens name).2]
    exact named
  | @derivedClass _ name parent _ _ _ _ opens _ _ ih =>
    simp only [Part.report, Scope.stmt, Scope.superclass, Report.faults_append,
      List.append_eq_nil_iff] at clean ⊢
    obtain ⟨⟨named, itself, inherits⟩, listed⟩ := clean
    have declared := contexts.introducing opens name
    refine ⟨⟨?_, itself, ?_⟩, ih declared.derivedClass (inner (inner right)) listed⟩
    · rw [(contexts.scopes.introduce opens name).2]
      exact named
    · exact early (declared.inClass .derived) right inherits
  | expression _ ih | print _ ih =>
    simp only [Part.report, Scope.stmt] at clean ⊢
    exact ih contexts right clean
  | @functionDecl _ name params body body' opens _ ih =>
    simp only [Part.report, Scope.stmt, Report.faults_append, List.append_eq_nil_iff] at clean ⊢
    refine ⟨?_, ih (contexts.introducing opens name) right clean.2⟩
    rw [(contexts.scopes.introduce opens name).2]
    exact clean.1
  | ifThen _ _ ih ih' | whileLoop _ _ ih ih' =>
    simp only [Part.report, Scope.stmt, Report.faults_append, List.append_eq_nil_iff] at clean ⊢
    exact ⟨ih contexts right clean.1, ih' contexts right clean.2⟩
  | ifElse _ chosen _ ih ih₁ ih₂ =>
    simp only [Part.report, Scope.stmt, Report.faults_append, List.append_eq_nil_iff] at clean ⊢
    exact ⟨⟨ih contexts right clean.1.1, ih₁ contexts right clean.1.2⟩,
      ih₂ (chosen.after contexts) right clean.2⟩
  | bareReturn =>
    simp only [Part.report, Scope.stmt, Scope.returned, contexts.function] at clean ⊢
    exact clean
  | returnWith _ ih =>
    simp only [Part.report, Scope.stmt, Scope.returned, Scope.optional, contexts.function,
      Report.faults_append, List.append_eq_nil_iff] at clean ⊢
    exact ⟨clean.1, ih contexts right clean.2⟩
  | bareVariable opens name =>
    simp only [Part.report, Scope.stmt] at clean ⊢
    rw [(contexts.scopes.declare opens name).2]
    exact clean
  | @initializedVariable _ name _ _ opens _ ih =>
    simp only [Part.report, Scope.stmt, Report.faults_append, List.append_eq_nil_iff] at clean ⊢
    rw [(contexts.scopes.declare opens name).2]
    exact ⟨clean.1, ih (contexts.declaring opens name) right clean.2⟩
  | wrapped _ ih =>
    simp only [Part.report, Scope.stmt, Scope.stmts, Report.append_nothing] at clean ⊢
    exact ih contexts.wrapped (List.not_mem_cons_of_ne_of_not_mem (by decide) right) clean
  | moreStmts first _ ih ih' =>
    simp only [Part.report, Scope.stmts, Report.faults_append, List.append_eq_nil_iff] at clean ⊢
    exact ⟨ih contexts right clean.1, ih' (first.after contexts) right clean.2⟩
  | @function _ kind name params body body' _ ih =>
    simp only [Part.report, Scope.function, Report.faults_append, List.append_eq_nil_iff] at clean ⊢
    have listed := (Shape.ScopesFramed.both .empty contexts.scopes).introduceAll rfl params
    rw [listed.2]
    exact ⟨clean.1, ih (contexts.inside kind params) (inner right) clean.2⟩
  | @moreFunctions _ decl decl' _ _ first _ ih ih' =>
    simp only [Part.report, Scope.functions, Report.faults_append, List.append_eq_nil_iff]
      at clean ⊢
    have same : Scope.methodKind decl' = Scope.methodKind decl := by
      rw [Scope.methodKind, FunctionDecl.isInitializer, first.function_same.1]
      rfl
    rw [same]
    exact ⟨ih contexts right clean.1, ih' contexts right clean.2⟩

end Numbering

/-! ## Tables -/

/-- The numbers of occurrences whose distances in two tables lead to the same scope. -/
def Distances.framed (table table' : Distances) : Numbering where
  occurs w id id' := Option.Rel (Spans w) table[id]? table'[id']?
  superior w id id' := ∃ inner inner', table[id]? = some (inner + 1) ∧
    table'[id']? = some (inner' + 1) ∧ Spans w inner inner' ∧ Spans w (inner + 1) (inner' + 1)

theorem Distances.framed_resolves (table table' : Distances) :
    (table.framed table').Resolves table table' :=
  ⟨fun _ _ _ h => h, fun _ _ _ h => h⟩

/-- The table has the distances of all occurrences in a part. -/
def Entered (table : Distances) (ctx : Context) (part : Part) : Prop :=
  ∀ o ∈ (part.report ctx).occurrences, table[o.id]? = o.distance

/-- A part as it was written, without faults in its context, with its distances in the table. -/
structure Resolved (table : Distances) (ctx : Context) (part : Part) : Prop where
  wellFormed : part.WellFormed Plain
  clean : (part.report ctx).faults = []
  entered : Entered table ctx part

section
variable {table table' : Distances} {ctx ctx' : Context} {part : Part} {w : Shape}
  {related : Nat → Nat → Prop}

theorem Entered.child (h : Entered table ctx part) {ctx' : Context} {part' : Part}
    (hc : (ctx', part') ∈ part.children ctx) : Entered table ctx' part' := by
  intro o ho
  refine h o ?_
  rw [Part.occurrences_report]
  exact List.mem_append_left _ (List.mem_flatMap.mpr ⟨_, hc, ho⟩)

theorem Entered.own (h : Entered table ctx part) {id : Nat} (name : String) {d : Option Nat}
    (ho : ⟨id, name, d⟩ ∈ part.own ctx) : table[id]? = d :=
  h ⟨id, name, d⟩ (part.own_subset ctx ho)

theorem Resolved.child (h : Resolved table ctx part) {ctx' : Context} {part' : Part}
    (hc : (ctx', part') ∈ part.children ctx) : Resolved table ctx' part' where
  wellFormed := h.wellFormed.child ctx hc
  clean := Part.faults_children h.clean _ hc
  entered := h.entered.child hc

/-- What is visited in the programs of a session is resolved. -/
theorem Recorded.resolved {programs : List (List Stmt)} {n : Nat}
    (recorded : Recorded programs table n) (visited : Visited programs ctx part) :
    Resolved table ctx part where
  wellFormed := recorded.proper visited
  clean := recorded.faultless visited
  entered o ho := by
    obtain ⟨p, hp, hv⟩ := visited
    exact recorded.entered p hp o (hv.occurrences ho)

/-- Parts of two programs, each in its context. Where `this` and `super` may stand both contexts
have scopes for them. The first part has its distances in its table, the second one passes as well. -/
structure Counterparts (table table' : Distances) (w : Shape) (ctx ctx' : Context)
    (part part' : Part) : Prop where
  contexts : w.ContextsFramed ctx ctx'
  receives : ctx.Receives
  receives' : ctx'.Receives
  entered : Entered table ctx part
  resolved' : Resolved table' ctx' part'

namespace Counterparts

variable {part' first first' : Part}

theorem enter (h : Counterparts table table' w ctx ctx' part part') {w₁ : Shape}
    {ctx₁ ctx₁' : Context} (contexts : w₁.ContextsFramed ctx₁ ctx₁') (receives : ctx₁.Receives)
    (receives' : ctx₁'.Receives) (hc : (ctx₁, first) ∈ part.children ctx)
    (hc' : (ctx₁', first') ∈ part'.children ctx') :
    Counterparts table table' w₁ ctx₁ ctx₁' first first' :=
  ⟨contexts, receives, receives', h.entered.child hc, h.resolved'.child hc'⟩

theorem child (h : Counterparts table table' w ctx ctx' part part')
    (hc : (ctx, first) ∈ part.children ctx) (hc' : (ctx', first') ∈ part'.children ctx') :
    Counterparts table table' w ctx ctx' first first' :=
  h.enter h.contexts h.receives h.receives' hc hc'

/-- Occurrences of one name. -/
theorem occurs (h : Counterparts table table' w ctx ctx' part part') {id id' : Nat} {name : String}
    (own : ⟨id, name, distance? ctx.scopes name⟩ ∈ part.own ctx)
    (own' : ⟨id', name, distance? ctx'.scopes name⟩ ∈ part'.own ctx') :
    (table.framed table').occurs w id id' := by
  show Option.Rel (Spans w) table[id]? table'[id']?
  rw [h.entered.own name own, h.resolved'.entered.own name own']
  exact h.contexts.scopes.distance name

/-- Occurrences of `super`. -/
theorem superior (h : Counterparts table table' w ctx ctx' part part')
    (derived : ctx.enclosingClass = some .derived) {id id' : Nat}
    (own : ⟨id, superName, distance? ctx.scopes superName⟩ ∈ part.own ctx)
    (own' : ⟨id', superName, distance? ctx'.scopes superName⟩ ∈ part'.own ctx') :
    (table.framed table').superior w id id' := by
  have receives := h.receives
  have receives' := h.receives'
  unfold Context.Receives at receives receives'
  rw [h.contexts.enclosingClass] at receives'
  rw [derived] at receives receives'
  obtain ⟨inner, within, further⟩ := receives
  obtain ⟨inner', within', further'⟩ := receives'
  have near := h.contexts.scopes.distance thisName
  have far := h.contexts.scopes.distance superName
  rw [within, within'] at near
  rw [further, further'] at far
  refine ⟨inner, inner', (h.entered.own _ own).trans further,
    (h.resolved'.entered.own _ own').trans further', ?_, ?_⟩
  · cases near with
    | some spans => exact spans
  · cases far with
    | some spans => exact spans

end Counterparts

/-- Parts that differ in blocks, and whose contexts differ in the scopes of these blocks, have
distances that lead to the same scopes. -/
theorem Numbering.Framed.resolved {part part' : Part}
    (h : (Numbering.pairs related).Framed w part part')
    (both : Counterparts table table' w ctx ctx' part part') :
    (table.framed table').Framed w part part' := by
  have first {α : Type} (a : α) (l : List α) : a ∈ a :: l := List.mem_cons_self
  have second {α : Type} (a b : α) (l : List α) : b ∈ a :: b :: l :=
    List.mem_cons_of_mem a List.mem_cons_self
  have third {α : Type} (a b c : α) (l : List α) : c ∈ a :: b :: c :: l :=
    List.mem_cons_of_mem a (second b c l)
  induction h generalizing ctx ctx' with
  | assign _ _ ih =>
    exact .assign (both.occurs (first _ _) (first _ _)) (ih (both.child (first _ _) (first _ _)))
  | binary _ _ ih ih' =>
    exact .binary (ih (both.child (first _ _) (first _ _)))
      (ih' (both.child (second _ _ _) (second _ _ _)))
  | logical _ _ ih ih' =>
    exact .logical (ih (both.child (first _ _) (first _ _)))
      (ih' (both.child (second _ _ _) (second _ _ _)))
  | call _ _ ih ih' =>
    exact .call (ih (both.child (first _ _) (first _ _)))
      (ih' (both.child (second _ _ _) (second _ _ _)))
  | set _ _ ih ih' =>
    exact .set (ih (both.child (second _ _ _) (second _ _ _)))
      (ih' (both.child (first _ _) (first _ _)))
  | get _ ih => exact .get (ih (both.child (first _ _) (first _ _)))
  | grouping _ ih => exact .grouping (ih (both.child (first _ _) (first _ _)))
  | unary _ ih => exact .unary (ih (both.child (first _ _) (first _ _)))
  | literal value => exact .literal value
  | @superRef _ id id' keyword method =>
    have spelled : keyword.lexeme = superName := both.resolved'.wellFormed.proper
    have derived' : ctx'.enclosingClass = some .derived := by
      have clean := both.resolved'.clean
      simp only [Part.report, Scope.expr] at clean
      split at clean
      · cases clean
      · cases clean
      · next derived => exact derived
    have derived : ctx.enclosingClass = some .derived :=
      both.contexts.enclosingClass.symm.trans derived'
    refine .superRef (both.superior derived ?_ ?_)
    · simp [Part.own, derived, Scope.occurrence, spelled]
    · simp [Part.own, derived', Scope.occurrence, spelled]
  | @thisRef _ id id' keyword =>
    have within' : ctx'.enclosingClass ≠ none := by
      intro outside
      have clean := both.resolved'.clean
      simp only [Part.report, Scope.expr, outside] at clean
      cases clean
    have within : ctx.enclosingClass ≠ none := both.contexts.enclosingClass.symm.trans_ne within'
    have own : ⟨id, keyword.lexeme, distance? ctx.scopes keyword.lexeme⟩ ∈
        (Part.expr (.thisRef id keyword)).own ctx := by
      simp [Part.own, within, Scope.occurrence]
    have own' : ⟨id', keyword.lexeme, distance? ctx'.scopes keyword.lexeme⟩ ∈
        (Part.expr (.thisRef id' keyword)).own ctx' := by
      simp [Part.own, within', Scope.occurrence]
    exact .thisRef (both.occurs own own')
  | var => exact .var (both.occurs (first _ _) (first _ _))
  | noExprs => exact .noExprs
  | moreExprs _ _ ih ih' =>
    exact .moreExprs (ih (both.child (first _ _) (first _ _)))
      (ih' (both.child (second _ _ _) (second _ _ _)))
  | block _ ih =>
    exact .block (ih (both.enter both.contexts.block both.receives.block both.receives'.block
      (first _ _) (first _ _)))
  | @baseClass _ name _ _ opens _ ih =>
    exact .baseClass opens (ih (both.enter (both.contexts.introducing opens name).baseClass
      (.classBody _ false) (.classBody _ false) (first _ _) (first _ _)))
  | @derivedClass _ name parent _ _ _ _ opens _ _ ih =>
    have declared := both.contexts.introducing opens name
    have plain : name.Plain := both.resolved'.wellFormed.proper.1
    have inherits := (both.entered.child (first _ _)).own parent.lexeme (first _ _)
    have inherits' := (both.resolved'.child (first _ _)).entered.own parent.lexeme (first _ _)
    refine .derivedClass opens ?_ (ih (both.enter declared.derivedClass (.classBody _ true)
      (.classBody _ true) (second _ _ _) (second _ _ _)))
    show Option.Rel _ _ _
    rw [inherits, inherits']
    exact declared.scopes.distance parent.lexeme
  | expression _ ih => exact .expression (ih (both.child (first _ _) (first _ _)))
  | @functionDecl _ name params body body' opens _ ih =>
    have plain : name.Plain := both.resolved'.wellFormed.proper
    exact .functionDecl opens (ih (both.enter (both.contexts.introducing opens name)
      (both.receives.introducing plain) (both.receives'.introducing plain) (first _ _) (first _ _)))
  | ifThen _ _ ih ih' =>
    exact .ifThen (ih (both.child (first _ _) (first _ _)))
      (ih' (both.child (second _ _ _) (second _ _ _)))
  | ifElse _ chosen _ ih ih₁ ih₂ =>
    have branches := both.child (second _ _ _) (second _ _ _)
    exact .ifElse (ih (both.child (first _ _) (first _ _))) (ih₁ branches)
      (ih₂ (both.enter (chosen.after both.contexts)
        (chosen.receives_after branches.resolved'.wellFormed both.receives)
        (both.receives'.after branches.resolved'.wellFormed) (third _ _ _ _) (third _ _ _ _)))
  | print _ ih => exact .print (ih (both.child (first _ _) (first _ _)))
  | bareReturn keyword => exact .bareReturn keyword
  | returnWith _ ih => exact .returnWith (ih (both.child (first _ _) (first _ _)))
  | bareVariable opens name => exact .bareVariable opens name
  | @initializedVariable _ name _ _ opens _ ih =>
    have plain : name.Plain := both.resolved'.wellFormed.proper
    exact .initializedVariable opens (ih (both.enter (both.contexts.declaring opens name)
      (both.receives.declaring plain) (both.receives'.declaring plain) (first _ _) (first _ _)))
  | whileLoop _ _ ih ih' =>
    exact .whileLoop (ih (both.child (first _ _) (first _ _)))
      (ih' (both.child (second _ _ _) (second _ _ _)))
  | wrapped _ ih =>
    exact .wrapped (ih ⟨both.contexts.wrapped, both.receives, both.receives'.block, both.entered,
      (both.resolved'.child (first _ _)).child (first _ _)⟩)
  | noStmts => exact .noStmts
  | moreStmts executed _ ih ih' =>
    have statements := both.child (first _ _) (first _ _)
    exact .moreStmts (ih statements)
      (ih' (both.enter (executed.after both.contexts)
        (executed.receives_after statements.resolved'.wellFormed both.receives)
        (both.receives'.after statements.resolved'.wellFormed) (second _ _ _) (second _ _ _)))
  | @function _ kind name params body body' _ ih =>
    have plain : ∀ name ∈ params, name.Plain := both.resolved'.wellFormed.proper
    exact .function (ih (both.enter (both.contexts.inside kind params)
      (both.receives.inside kind plain) (both.receives'.inside kind plain) (first _ _) (first _ _)))
  | noFunctions => exact .noFunctions
  | @moreFunctions _ decl decl' _ _ alike _ ih ih' =>
    have same : Scope.methodKind decl' = Scope.methodKind decl := by
      rw [Scope.methodKind, FunctionDecl.isInitializer, alike.function_same.1]
      rfl
    have method' := both.resolved'.child (first _ _)
    rw [same] at method'
    exact .moreFunctions
      (ih ⟨both.contexts, both.receives, both.receives', both.entered.child (first _ _), method'⟩)
      (ih' (both.child (second _ _ _) (second _ _ _)))

end

end Lox
