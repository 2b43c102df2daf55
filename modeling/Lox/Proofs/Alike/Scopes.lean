import Lox.Proofs.Alike.Code
import Lox.Proofs.Scope.Contexts

/-!
# Scopes of programs that are alike

If the first of two programs passes without a fault, and its occurrences are spelled as in the
scopes to which they are resolved, then the second one passes as well, and its occurrences have
the same distances. No name is captured on the way: names that differ in the first program differ
in the second one.
-/
namespace Lox

open Scope (Part Scopes Context Report Occurrence distance? thisName superName)

namespace Link

variable (L : Link)

/-- A scope has the names of another one, as they are spelled. -/
structure ScopeAlike (f : Spelling) (scope scope' : Bindings Bool) : Prop where
  spelled : ∀ name, L.names name → scope'.get? (f name) = scope.get? name
  only : ∀ other b, scope'.get? other = some b → ∃ name, L.names name ∧ other = f name

inductive ScopesAlike : List Spelling → Scopes → Scopes → Prop where
  | nil : ScopesAlike [] [] []
  | cons {f : Spelling} {fs : List Spelling} {scope scope' : Bindings Bool}
      {scopes scopes' : Scopes} (spelling : L.spellings f) (inner : L.ScopeAlike f scope scope')
      (outer : ScopesAlike fs scopes scopes') :
      ScopesAlike (f :: fs) (scope :: scopes) (scope' :: scopes')

structure ContextsAlike (fs : List Spelling) (ctx ctx' : Context) : Prop where
  scopes : L.ScopesAlike fs ctx.scopes ctx'.scopes
  function : ctx'.function = ctx.function
  enclosingClass : ctx'.enclosingClass = ctx.enclosingClass

/-- A report without faults on which the occurrences correspond by their distances. -/
structure Fits (r : Report) : Prop where
  clean : r.faults = []
  resolved : ∀ o ∈ r.occurrences, ∀ id d, L.occurrences o.id id d → d = o.distance

structure ReportsAlike (r r' : Report) : Prop where
  clean : r'.faults = []
  occurrences : List.Forall₂
    (fun o o' => L.occurrences o.id o'.id o.distance ∧ o'.distance = o.distance)
    r.occurrences r'.occurrences

variable {L} {f : Spelling} {fs : List Spelling} {scopes scopes' : Scopes} {ctx ctx' : Context}

theorem fits_append {r r' : Report} : L.Fits (r ++ r') ↔ L.Fits r ∧ L.Fits r' := by
  constructor
  · intro h
    have clean := List.append_eq_nil_iff.mp h.clean
    exact ⟨⟨clean.1, fun o ho => h.resolved o (List.mem_append_left _ ho)⟩,
      ⟨clean.2, fun o ho => h.resolved o (List.mem_append_right _ ho)⟩⟩
  · intro h
    refine ⟨List.append_eq_nil_iff.mpr ⟨h.1.clean, h.2.clean⟩, fun o ho => ?_⟩
    rcases List.mem_append.mp ho with ho | ho
    · exact h.1.resolved o ho
    · exact h.2.resolved o ho

theorem ReportsAlike.nothing : L.ReportsAlike .nothing .nothing := ⟨rfl, .nil⟩

theorem ReportsAlike.append {r r' s s' : Report} (h : L.ReportsAlike r r')
    (h' : L.ReportsAlike s s') : L.ReportsAlike (r ++ s) (r' ++ s') :=
  ⟨List.append_eq_nil_iff.mpr ⟨h.clean, h'.clean⟩, List.rel_append h.occurrences h'.occurrences⟩

theorem ReportsAlike.both {r r' s s' : Report} (first : L.Fits r → L.ReportsAlike r r')
    (second : L.Fits s → L.ReportsAlike s s') (fits : L.Fits (r ++ s)) :
    L.ReportsAlike (r ++ s) (r' ++ s') := by
  obtain ⟨before, after⟩ := fits_append.mp fits
  exact (first before).append (second after)

/-! ## Distances -/

theorem ScopesAlike.allowed (h : L.ScopesAlike fs scopes scopes') (d : Option Nat) :
    L.spellings (spellingAt fs d) := by
  have all : ∀ f ∈ fs, L.spellings f := by
    induction h with
    | nil => exact nofun
    | cons spelling _ _ ih => exact List.forall_mem_cons.mpr ⟨spelling, ih⟩
  exact spellings_spellingAt all d

theorem ScopeAlike.contains {scope scope' : Bindings Bool} (h : L.ScopeAlike f scope scope')
    {name : String} (hn : L.names name) : scope'.contains (f name) = scope.contains name := by
  rw [Bindings.contains, h.spelled name hn, Bindings.contains]

/-- A name that a scope lacks is lacking in the other one however it is spelled further out. -/
theorem ScopeAlike.lacks {scope scope' : Bindings Bool} (h : L.ScopeAlike f scope scope')
    (spelling : L.spellings f) {g : Spelling} (hg : L.spellings g) {name : String}
    (hn : L.names name) (lacks : scope.contains name = false) :
    scope'.contains (g name) = false := by
  cases hc : scope'.contains (g name) with
  | false => rfl
  | true =>
    obtain ⟨b, hb⟩ := Option.isSome_iff_exists.mp hc
    obtain ⟨other, ho, he⟩ := h.only _ b hb
    obtain rfl := L.apart g f name other hg spelling hn ho he
    rw [he, h.contains hn, lacks] at hc
    cases hc

/-- An occurrence that is spelled as in its scope has the same distance. -/
theorem ScopesAlike.distance (h : L.ScopesAlike fs scopes scopes') {name : String}
    (hn : L.names name) :
    distance? scopes' (spellingAt fs (distance? scopes name) name) = distance? scopes name := by
  induction h with
  | nil => rfl
  | @cons f fs scope scope' scopes scopes' spelling inner outer ih =>
    cases hc : scope.contains name with
    | true =>
      have here : scope'.contains (f name) = true := (inner.contains hn).trans hc
      have hd : distance? (scope :: scopes) name = some 0 := by
        rw [Scope.distance?_cons, hc]
        rfl
      rw [hd, Scope.distance?_cons]
      exact if_pos here
    | false =>
      have hd : distance? (scope :: scopes) name = (distance? scopes name).map (· + 1) := by
        rw [Scope.distance?_cons, hc]
        rfl
      have further : spellingAt (f :: fs) ((distance? scopes name).map (· + 1)) =
          spellingAt fs (distance? scopes name) := by
        cases distance? scopes name <;> rfl
      have lacks := inner.lacks spelling (outer.allowed (distance? scopes name)) hn hc
      rw [hd, further, Scope.distance?_cons, lacks, if_neg Bool.false_ne_true, ih]

/-- Reading a name in its own initializer is noticed in both programs. -/
theorem ScopesAlike.inOwnInitializer (h : L.ScopesAlike fs scopes scopes') {name : String}
    (hn : L.names name) :
    Scope.inOwnInitializer scopes' (spellingAt fs (distance? scopes name) name) =
      Scope.inOwnInitializer scopes name := by
  cases h with
  | nil => rfl
  | @cons f fs scope scope' scopes scopes' spelling inner outer =>
    cases hc : scope.contains name with
    | true =>
      have hd : distance? (scope :: scopes) name = some 0 := by
        rw [Scope.distance?_cons, hc]
        rfl
      rw [hd]
      exact congrArg (fun found => decide (found = some false)) (inner.spelled name hn)
    | false =>
      have allowed := (ScopesAlike.cons spelling inner outer).allowed
        (distance? (scope :: scopes) name)
      have lacks := Option.isSome_eq_false_iff.mp (inner.lacks spelling allowed hn hc)
      have lacking := Option.isSome_eq_false_iff.mp hc
      simp only [Scope.inOwnInitializer, Option.isNone_iff_eq_none.mp lacks,
        Option.isNone_iff_eq_none.mp lacking]

/-! ## Declarations -/

theorem ScopeAlike.empty (L : Link) (f : Spelling) : L.ScopeAlike f .empty .empty :=
  ⟨fun _ _ => rfl, nofun⟩

theorem ScopeAlike.insert {scope scope' : Bindings Bool} (h : L.ScopeAlike f scope scope')
    (spelling : L.spellings f) {name : String} (hn : L.names name) (b : Bool) :
    L.ScopeAlike f (scope.insert name b) (scope'.insert (f name) b) := by
  constructor
  · intro other ho
    have same : f other = f name ↔ other = name :=
      ⟨L.apart f f other name spelling spelling ho hn, fun he => by rw [he]⟩
    simp only [Bindings.get?_insert, same, h.spelled other ho]
  · intro other c hc
    rw [Bindings.get?_insert] at hc
    split at hc
    · next he => exact ⟨name, hn, he⟩
    · exact h.only other c hc

theorem ScopeAlike.implicit {name : String} (reserved : name = thisName ∨ name = superName) :
    L.ScopeAlike id (Scope.implicit name) (Scope.implicit name) :=
  (ScopeAlike.empty L id).insert L.plain (L.keywords name reserved).1 true

theorem ScopesAlike.here (h : L.ScopesAlike fs scopes scopes') : L.spellings (spellingHere fs) := by
  cases h with
  | nil => exact L.plain
  | cons spelling => exact spelling

section
variable {name name' : Token}

theorem ScopesAlike.declare (h : L.ScopesAlike fs scopes scopes')
    (named : L.Spelled (spellingHere fs) name name') :
    L.ScopesAlike fs (Scope.declare scopes name).1 (Scope.declare scopes' name').1 := by
  cases h with
  | nil => exact .nil
  | cons spelling inner outer =>
    simp only [Scope.declare, named.lexeme]
    exact .cons spelling (inner.insert spelling named.name false) outer

theorem ScopesAlike.define (h : L.ScopesAlike fs scopes scopes')
    (named : L.Spelled (spellingHere fs) name name') :
    L.ScopesAlike fs (Scope.define scopes name.lexeme) (Scope.define scopes' name'.lexeme) := by
  cases h with
  | nil => exact .nil
  | cons spelling inner outer =>
    rw [named.lexeme]
    exact .cons spelling (inner.insert spelling named.name true) outer

theorem ScopesAlike.introduce (h : L.ScopesAlike fs scopes scopes')
    (named : L.Spelled (spellingHere fs) name name') :
    L.ScopesAlike fs (Scope.introduce scopes name).1 (Scope.introduce scopes' name').1 :=
  (h.declare named).define named

/-- A declaration that is new to its scope is new to the other one. -/
theorem ScopesAlike.declare_clean (h : L.ScopesAlike fs scopes scopes')
    (named : L.Spelled (spellingHere fs) name name')
    (clean : (Scope.declare scopes name).2.faults = []) :
    L.ReportsAlike (Scope.declare scopes name).2 (Scope.declare scopes' name').2 := by
  cases h with
  | nil => exact .nothing
  | cons spelling inner outer =>
    simp only [Scope.declare] at clean ⊢
    split at clean
    · cases clean
    · next fresh =>
      have fresh' := inner.contains named.name
      rw [if_neg fresh, if_neg]
      · exact .nothing
      · rw [named.lexeme]
        exact fun he => fresh (fresh' ▸ he)

end

theorem ScopesAlike.introduceAll {spelling : Spelling} (h : L.ScopesAlike (spelling :: fs) scopes scopes')
    {names names' : List Token} (listed : List.Forall₂ (L.Spelled spelling) names names') :
    L.ScopesAlike (spelling :: fs) (Scope.introduceAll scopes names).1
        (Scope.introduceAll scopes' names').1 ∧
      ((Scope.introduceAll scopes names).2.faults = [] →
        L.ReportsAlike (Scope.introduceAll scopes names).2 (Scope.introduceAll scopes' names').2) := by
  induction listed generalizing scopes scopes' with
  | nil => exact ⟨h, fun _ => .nothing⟩
  | cons named _ ih =>
    obtain ⟨alike, report⟩ := ih (h.introduce named)
    refine ⟨alike, fun clean => ?_⟩
    have clean := List.append_eq_nil_iff.mp clean
    exact (h.declare_clean named clean.1).append (report clean.2)

/-! ## The walks -/

namespace ContextsAlike

theorem withScopes (h : L.ContextsAlike fs ctx ctx') {gs : List Spelling}
    (alike : L.ScopesAlike gs scopes scopes') :
    L.ContextsAlike gs { ctx with scopes } { ctx' with scopes := scopes' } :=
  ⟨alike, h.function, h.enclosingClass⟩

theorem inClass (h : L.ContextsAlike fs ctx ctx') (kind : Scope.ClassKind) :
    L.ContextsAlike fs { ctx with enclosingClass := some kind }
      { ctx' with enclosingClass := some kind } :=
  ⟨h.scopes, h.function, rfl⟩

theorem top : L.ContextsAlike [] .top .top := ⟨.nil, rfl, rfl⟩

end ContextsAlike

/-- The scopes after a statement are alike. -/
theorem Alike.after {s s' : Stmt} (h : L.Alike fs (.stmt s) (.stmt s'))
    (alike : L.ContextsAlike fs ctx ctx') :
    L.ScopesAlike fs (Scope.stmt ctx s).1 (Scope.stmt ctx' s').1 := by
  generalize hp : Part.stmt s = part, hp' : Part.stmt s' = part' at h
  induction h generalizing s s' ctx ctx' with
  | block | expression | print | bareReturn | returnWith =>
    cases hp
    cases hp'
    simp only [Scope.stmt]
    exact alike.scopes
  | baseClass named | derivedClass named | functionDecl named =>
    cases hp
    cases hp'
    simp only [Scope.stmt]
    exact alike.scopes.introduce named.spelled
  | bareVariable named | initializedVariable named =>
    cases hp
    cases hp'
    simp only [Scope.stmt]
    exact alike.scopes.introduce named
  | ifThen _ _ _ ih =>
    cases hp
    cases hp'
    simp only [Scope.stmt]
    exact ih alike rfl rfl
  | ifElse _ _ _ _ ih ih' =>
    cases hp
    cases hp'
    simp only [Scope.stmt]
    exact ih' (alike.withScopes (ih alike rfl rfl)) rfl rfl
  | whileLoop _ _ _ ih =>
    cases hp
    cases hp'
    simp only [Scope.stmt]
    exact ih alike rfl rfl
  | _ => cases hp

theorem ReportsAlike.occurrence (alike : L.ContextsAlike fs ctx ctx') {id id' : Nat}
    {name name' : Token} (occurs : L.Occurs fs id name id' name')
    (fits : L.Fits (Scope.occurrence ctx id name)) :
    L.ReportsAlike (Scope.occurrence ctx id name) (Scope.occurrence ctx' id' name') := by
  obtain ⟨d, hd, spelled⟩ := occurs
  obtain rfl := fits.resolved _ (List.mem_singleton_self _) _ _ hd
  refine ⟨rfl, .cons ⟨hd, ?_⟩ .nil⟩
  show distance? ctx'.scopes name'.lexeme = distance? ctx.scopes name.lexeme
  rw [spelled.lexeme]
  exact alike.scopes.distance spelled.name

theorem ReportsAlike.var (alike : L.ContextsAlike fs ctx ctx') {id id' : Nat}
    {name name' : Token} (occurs : L.Occurs fs id name id' name')
    (fits : L.Fits (Scope.expr ctx (.var id name))) :
    L.ReportsAlike (Scope.expr ctx (.var id name)) (Scope.expr ctx' (.var id' name')) := by
  simp only [Scope.expr] at fits ⊢
  obtain ⟨early, fits⟩ := fits_append.mp fits
  refine .append ?_ (.occurrence alike occurs fits)
  obtain ⟨d, hd, spelled⟩ := occurs
  obtain rfl := fits.resolved _ (List.mem_singleton_self _) _ _ hd
  have ended : ¬Scope.inOwnInitializer ctx.scopes name.lexeme = true := by
    intro own
    rw [if_pos own] at early
    cases early.clean
  rw [if_neg ended, if_neg]
  · exact .nothing
  · rw [spelled.lexeme]
    exact fun own => ended ((alike.scopes.inOwnInitializer spelled.name).symm.trans own)

/-- A superclass is not the class itself in either program. -/
theorem ReportsAlike.superclass (alike : L.ContextsAlike fs ctx ctx') {id id' : Nat}
    {name name' parent parent' : Token} (named : L.Spelled (spellingHere fs) name name')
    (inherits : L.Occurs fs id parent id' parent')
    (fits : L.Fits (Scope.superclass ctx name (.var id parent))) :
    L.ReportsAlike (Scope.superclass ctx name (.var id parent))
      (Scope.superclass ctx' name' (.var id' parent')) := by
  simp only [Scope.superclass] at fits ⊢
  obtain ⟨itself, fits⟩ := fits_append.mp fits
  refine .append ?_ (.var alike inherits fits)
  obtain ⟨d, hd, spelled⟩ := inherits
  have different : parent.lexeme ≠ name.lexeme := by
    intro same
    rw [if_pos same] at itself
    cases itself.clean
  rw [if_neg different, if_neg]
  · exact .nothing
  · rw [spelled.lexeme, named.lexeme]
    exact fun same => different (L.apart _ _ _ _ (alike.scopes.allowed d) alike.scopes.here
      spelled.name named.name same)

theorem ReportsAlike.returned (alike : L.ContextsAlike fs ctx ctx') {keyword keyword' : Token}
    {value value' : Option Expr} (given : value'.isSome = value.isSome)
    (report : L.Fits (Scope.optional ctx value) →
      L.ReportsAlike (Scope.optional ctx value) (Scope.optional ctx' value'))
    (fits : L.Fits (Scope.returned ctx keyword value)) :
    L.ReportsAlike (Scope.returned ctx keyword value) (Scope.returned ctx' keyword' value') := by
  unfold Scope.returned at fits ⊢
  obtain ⟨misplaced, fits⟩ := fits_append.mp fits
  obtain ⟨outside, valued⟩ := fits_append.mp misplaced
  refine .append (.append ?_ ?_) (report fits)
  · rw [alike.function]
    split
    · next top =>
      rw [if_pos top] at outside
      cases outside.clean
    · exact .nothing
  · rw [alike.function, given]
    split
    · next initializing =>
      rw [if_pos initializing] at valued
      cases valued.clean
    · exact .nothing

/-- The second program passes wherever the first one does, with the same distances. -/
theorem Alike.report {part part' : Part} (h : L.Alike fs part part')
    (alike : L.ContextsAlike fs ctx ctx') (fits : L.Fits (part.report ctx)) :
    L.ReportsAlike (part.report ctx) (part'.report ctx') := by
  induction h generalizing ctx ctx' with
  | assign occurs _ ih =>
    simp only [Part.report, Scope.expr] at ih fits ⊢
    exact .both (ih alike) (.occurrence alike occurs) fits
  | binary _ _ _ ih ih' | call _ _ _ ih ih' | logical _ _ _ ih ih' =>
    simp only [Part.report, Scope.expr] at ih ih' fits ⊢
    exact .both (ih alike) (ih' alike) fits
  | set _ _ _ ih ih' =>
    simp only [Part.report, Scope.expr] at ih ih' fits ⊢
    exact .both (ih' alike) (ih alike) fits
  | get _ _ ih | grouping _ ih | unary _ _ ih =>
    simp only [Part.report, Scope.expr] at ih fits ⊢
    exact ih alike fits
  | literal => exact .nothing
  | superRef _ occurs _ =>
    simp only [Part.report, Scope.expr] at fits ⊢
    rw [alike.enclosingClass]
    split at fits
    · cases fits.clean
    · cases fits.clean
    · exact .occurrence alike occurs fits
  | thisRef _ occurs =>
    simp only [Part.report, Scope.expr] at fits ⊢
    rw [alike.enclosingClass]
    split at fits
    · cases fits.clean
    · exact .occurrence alike occurs fits
  | var occurs => exact .var alike occurs fits
  | noExprs | noStmts | noFunctions =>
    simp only [Part.report, Scope.exprs, Scope.stmts, Scope.functions]
    exact .nothing
  | moreExprs _ _ ih ih' =>
    simp only [Part.report, Scope.exprs] at ih ih' fits ⊢
    exact .both (ih alike) (ih' alike) fits
  | @block f fs _ _ spelling _ ih =>
    simp only [Part.report, Scope.stmt] at ih fits ⊢
    exact ih (alike.withScopes (.cons spelling (.empty L f) alike.scopes)) fits
  | baseClass named _ ih =>
    simp only [Part.report, Scope.stmt] at ih fits ⊢
    have within := alike.withScopes (alike.scopes.introduce named.spelled)
    exact .both
      (.both (fun declared => alike.scopes.declare_clean named.spelled declared.clean)
        fun _ => .nothing)
      (ih ⟨.cons L.plain (.implicit (.inl rfl)) within.scopes, within.function, rfl⟩) fits
  | derivedClass named inherits _ ih =>
    simp only [Part.report, Scope.stmt] at ih fits ⊢
    have within := alike.withScopes (alike.scopes.introduce named.spelled)
    have outer := ScopesAlike.cons L.plain (.implicit (.inr rfl)) within.scopes
    exact .both
      (.both (fun declared => alike.scopes.declare_clean named.spelled declared.clean)
        (.superclass (within.inClass .derived) named.spelled inherits))
      (ih ⟨.cons L.plain (.implicit (.inl rfl)) outer, within.function, rfl⟩) fits
  | expression _ ih | print _ ih =>
    simp only [Part.report, Scope.stmt] at ih fits ⊢
    exact ih alike fits
  | functionDecl named _ ih =>
    simp only [Part.report, Scope.stmt] at ih fits ⊢
    exact .both (fun declared => alike.scopes.declare_clean named.spelled declared.clean)
      (ih (alike.withScopes (alike.scopes.introduce named.spelled))) fits
  | ifThen _ _ ih ih' =>
    simp only [Part.report, Scope.stmt] at ih ih' fits ⊢
    exact .both (ih alike) (ih' alike) fits
  | ifElse _ chosen _ ih ih₁ ih₂ =>
    simp only [Part.report, Scope.stmt] at ih ih₁ ih₂ fits ⊢
    exact .both (.both (ih alike) (ih₁ alike)) (ih₂ (alike.withScopes (chosen.after alike))) fits
  | bareReturn =>
    simp only [Part.report, Scope.stmt] at fits ⊢
    exact .returned alike rfl (fun _ => .nothing) fits
  | returnWith _ _ ih =>
    simp only [Part.report, Scope.stmt] at fits ⊢
    exact .returned alike rfl (ih alike) fits
  | bareVariable named =>
    simp only [Part.report, Scope.stmt] at fits ⊢
    exact .both (fun declared => alike.scopes.declare_clean named declared.clean)
      (fun _ => .nothing) fits
  | initializedVariable named _ ih =>
    simp only [Part.report, Scope.stmt] at ih fits ⊢
    exact .both (fun declared => alike.scopes.declare_clean named declared.clean)
      (ih (alike.withScopes (alike.scopes.declare named))) fits
  | whileLoop _ _ ih ih' =>
    simp only [Part.report, Scope.stmt] at ih ih' fits ⊢
    exact .both (ih alike) (ih' alike) fits
  | moreStmts first _ ih ih' =>
    simp only [Part.report, Scope.stmts] at ih ih' fits ⊢
    exact .both (ih alike) (ih' (alike.withScopes (first.after alike))) fits
  | @function f fs kind _ _ _ _ _ _ spelling _ listed _ ih =>
    simp only [Part.report, Scope.function] at ih fits ⊢
    have entered := ScopesAlike.cons spelling (.empty L f) alike.scopes
    obtain ⟨within, report⟩ := entered.introduceAll listed
    exact .both (fun declared => report declared.clean)
      (ih ⟨within, rfl, alike.enclosingClass⟩) fits
  | moreFunctions first _ ih ih' =>
    have named := first.function_same.1
    have kinds : Scope.methodKind _ = Scope.methodKind _ := congrArg
      (fun name => if (decide (name = initializerName)) = true then Scope.FunctionKind.initializer
        else Scope.FunctionKind.method) named
    simp only [Part.report, Scope.functions] at ih ih' fits ⊢
    rw [kinds]
    exact .both (ih alike) (ih' alike) fits

end Link

end Lox
