import Lox.Proofs.Alike.Derivations
import Lox.Proofs.Alike.Recast
import Lox.Proofs.Alike.Scopes
import Lox.Proofs.Session.Load
import Lox.Proofs.Token.Rewording

/-!
# One local name for another

A scope declares each of its names once. So a parameter or a variable of a scope can be written with
another name where it is declared and wherever an occurrence is resolved to this scope, and if the
new name is not in the program, the program that results is alike to the old one.
-/
namespace Lox

open Scope (Part Context)

/-! ## Names of a scope -/

/-- The parameters and the statements of the scope that a part opens. -/
def Scope.Part.opened? : Part → Option (List Token × List Stmt)
  | .stmt (.block body) => some ([], body)
  | .function _ decl => some (decl.params, decl.body)
  | _ => none

/-- The scope that is opened at a place declares a name, as a parameter or as a variable. -/
def DeclaresAt (program : List Stmt) (place : Place) (x : String) : Prop :=
  ∃ ctx part params body, Reaches program place ctx part ∧ part.opened? = some (params, body) ∧
    ((∃ param ∈ params, param.lexeme = x) ∨
      ∃ name value, Stmt.varDecl name value ∈ body ∧ name.lexeme = x)

/-- A place is the place of one part. -/
theorem Reaches.unique {program : List Stmt} {place : Place} {ctx ctx' : Context}
    {part part' : Part} (h : Reaches program place ctx part)
    (h' : Reaches program place ctx' part') : ctx = ctx' ∧ part = part' := by
  induction h generalizing ctx' part' with
  | program =>
    cases h'
    exact ⟨rfl, rfl⟩
  | child _ i hc ih =>
    cases h' with
    | child above _ hc' =>
      obtain ⟨rfl, rfl⟩ := ih above
      cases hc.symm.trans hc'
      exact ⟨rfl, rfl⟩

namespace Scope

theorem declares_of_declared? {s : Stmt} (h : declared? s = none) : s.declares = false := by
  cases s with
  | classDecl | functionDecl | varDecl => cases h
  | _ => rfl

/-- The names of two statements are different. -/
def Apart (s s' : Stmt) : Prop :=
  ∀ n ∈ declared? s, ∀ n' ∈ declared? s', n.lexeme ≠ n'.lexeme

instance : Std.Symm Apart where
  symm _ _ apart n hn n' hn' same := apart n' hn' n hn same.symm

/-- Statements without a fault declare names that are new to their scope and different. -/
theorem declared_apart {ctx : Context} {scope : Bindings Bool} {outer : Scopes} {body : List Stmt}
    (wf : (Part.stmts body).WellFormed Plain) (clean : (stmts ctx body).faults = [])
    (scopes : ctx.scopes = scope :: outer) :
    body.Pairwise Apart ∧ ∀ s ∈ body, ∀ n ∈ declared? s, scope.contains n.lexeme = false := by
  induction body generalizing ctx scope with
  | nil => exact ⟨.nil, nofun⟩
  | cons s ss ih =>
    have now := wf.child ctx (c := (ctx, .stmt s)) (by simp [Part.children])
    have later := wf.child ctx (c := (ctx.after s, .stmts ss)) (by simp [Part.children])
    rw [stmts_cons, Report.faults_append, List.append_eq_nil_iff] at clean
    cases hd : declared? s with
    | none =>
      have same : ctx.after s = ctx := Context.after_eq now (declares_of_declared? hd)
      rw [same] at clean
      obtain ⟨apart, fresh⟩ := ih later clean.2 scopes
      refine ⟨.cons (fun s' _ n hn => ?_) apart, List.forall_mem_cons.mpr ⟨fun n hn => ?_, fresh⟩⟩
      · rw [hd] at hn
        cases hn
      · rw [hd] at hn
        cases hn
    | some name =>
      have entered : (ctx.after s).scopes =
          (scope.insert name.lexeme false).insert name.lexeme true :: outer := by
        rw [after_of_declared? hd, Context.introducing, scopes, introduce_cons]
      obtain ⟨apart, fresh⟩ := ih later clean.2 entered
      have new : scope.contains name.lexeme = false := by
        have unused := clean_of_declared? hd clean.1
        rw [scopes, declare] at unused
        by_contra used
        rw [Bool.not_eq_false] at used
        rw [if_pos used] at unused
        cases unused
      have different : ∀ s' ∈ ss, ∀ n ∈ declared? s',
          n.lexeme ≠ name.lexeme ∧ scope.contains n.lexeme = false := by
        intro s' hs n hn
        have unknown := fresh s' hs n hn
        rw [contains_insert, contains_insert] at unknown
        simpa using unknown
      refine ⟨.cons (fun s' hs n hn n' hn' => ?_) apart, List.forall_mem_cons.mpr ⟨fun n hn => ?_,
        fun s' hs n hn => (different s' hs n hn).2⟩⟩
      · rw [hd] at hn
        cases hn
        exact (different s' hs n' hn').1.symm
      · rw [hd] at hn
        cases hn
        exact new

end Scope

/-! ## The renaming -/

/-- How names are spelled once `x` is `y`. -/
def Spelling.rename (x y : String) : Spelling := fun name => if name = x then y else name

/-- The distances that the walk over a program finds. -/
def foundDistances (program : List Stmt) : Distances :=
  Distances.enter {} (resolve program).occurrences

/-- The program with `y` for the name `x` of the scope at a place, where it is declared and where an
occurrence is resolved to it. -/
def respelling (program : List Stmt) (place : Place) (x y : String) : Recast where
  number := id
  line := id
  distance number := (foundDistances program)[number]?
  spelling p := if p = place then .rename x y else id

/-- Names other than `y` may be spelled as they are or with `y` for `x`. -/
def Link.respelling (program : List Stmt) {x y : String} (hx : Plain x) (hy : Plain y) : Link where
  spellings f := f = id ∨ f = .rename x y
  names name := name ≠ y
  occurrences id id' d := ∃ o ∈ (resolve program).occurrences, id = o.id ∧ id' = o.id ∧ d = o.distance
  lines l l' := l' = l
  plain := .inl rfl
  keywords name reserved := by
    have word : ∃ k : Keyword, name = k.text := by
      rcases reserved with rfl | rfl
      · exact ⟨.thisWord, rfl⟩
      · exact ⟨.superWord, rfl⟩
    obtain ⟨k, rfl⟩ := word
    refine ⟨(hy k).symm, fun f hf => ?_⟩
    rcases hf with rfl | rfl
    · rfl
    · exact if_neg (hx k).symm
  apart f g a b hf hg ha hb same := by
    rcases hf with rfl | rfl <;> rcases hg with rfl | rfl <;>
      simp only [Spelling.rename, id] at same <;> grind

section
variable {program : List Stmt} {place : Place} {x y : String} {hx : Plain x} {hy : Plain y}

/-- The scope that a part opens has the parameters, and no fault is found in its statements. -/
theorem Scope.Part.opened_scope {part : Part} (wf : part.WellFormed Plain) {ctx : Context}
    (clean : (part.report ctx).faults = []) {params : List Token} {body : List Stmt}
    (opened : part.opened? = some (params, body)) :
    (Part.stmts body).WellFormed Plain ∧ ∃ (inner : Context) (scope : Bindings Bool),
      inner.scopes = scope :: ctx.scopes ∧ (Scope.stmts inner body).faults = [] ∧
        ∀ param ∈ params, scope.contains param.lexeme = true := by
  cases part with
  | function kind decl =>
    obtain ⟨name, ps, ss⟩ := decl
    obtain ⟨rfl, rfl⟩ : params = ps ∧ body = ss := by
      cases opened
      exact ⟨rfl, rfl⟩
    obtain ⟨scope, scopes, has⟩ := Scope.introduceAll_cons .empty ctx.scopes params
    refine ⟨wf.child ctx (c := (ctx.inside kind params, .stmts body)) (by simp [Part.children]),
      ctx.inside kind params, scope, scopes, ?_, fun param hp => ?_⟩
    · simp only [Part.report, Scope.function, Scope.Report.faults_append,
        List.append_eq_nil_iff] at clean
      exact clean.2
    · rw [Bindings.contains, (has param.lexeme).mpr (.inr ⟨param, hp, rfl⟩)]
      rfl
  | stmt s =>
    cases s with
    | block body =>
      cases opened
      refine ⟨wf.child ctx (c := ({ ctx with scopes := .empty :: ctx.scopes }, .stmts body))
        (by simp [Part.children]), { ctx with scopes := .empty :: ctx.scopes }, .empty, rfl, ?_,
          List.forall_mem_nil _⟩
      simp only [Part.report, Scope.stmt] at clean
      exact clean
    | _ => cases opened
  | _ => cases opened

/-- No function or class of the scope has the name of a parameter or of a variable. -/
theorem Scope.Part.opened_fixes {part : Part} (wf : part.WellFormed Plain) {ctx : Context}
    (clean : (part.report ctx).faults = []) {params : List Token} {body : List Stmt}
    (opened : part.opened? = some (params, body))
    (declared : (∃ param ∈ params, param.lexeme = x) ∨
      ∃ name value, Stmt.varDecl name value ∈ body ∧ name.lexeme = x) :
    (Spelling.rename x y).Fixes (.stmts body) := by
  obtain ⟨wf', inner, scope, scopes, clean', has⟩ := Part.opened_scope wf clean opened
  obtain ⟨apart, fresh⟩ := Scope.declared_apart wf' clean' scopes
  intro s hs name hn
  have shown : Scope.declared? s = some name := by
    cases s with
    | classDecl | functionDecl => exact hn
    | _ => cases hn
  refine if_neg fun same => ?_
  rcases declared with ⟨param, hp, rfl⟩ | ⟨var, value, hv, rfl⟩
  · have new := fresh s hs name shown
    rw [same, has param hp] at new
    cases new
  · have different : s ≠ .varDecl var value := by
      rintro rfl
      cases hn
    exact apart.forall hs hv different name shown var rfl same

/-- The statements of a list are well formed if the list is. -/
theorem Scope.Part.WellFormed.of_mem {names : String → Prop} {ss : List Stmt}
    (wf : (Part.stmts ss).WellFormed names) {s : Stmt} (hs : s ∈ ss) :
    (Part.stmt s).WellFormed names := by
  induction ss with
  | nil => cases hs
  | cons first ss ih =>
    have now := wf.child .top (c := (.top, .stmt first)) (by simp [Part.children])
    have later := wf.child .top (c := (Context.top.after first, .stmts ss)) (by simp [Part.children])
    rcases List.mem_cons.mp hs with rfl | hs
    · exact now
    · exact ih later hs

/-- The name of a parameter or of a variable is no keyword. -/
theorem plain_of_declaresAt (wf : (Part.stmts program).WellFormed Plain)
    (clean : (resolve program).faults = []) (declares : DeclaresAt program place x) : Plain x := by
  obtain ⟨ctx, part, params, body, reaches, opened, declared⟩ := declares
  have inside := reaches.visits.wellFormed wf
  rcases declared with ⟨param, hp, rfl⟩ | ⟨name, value, hv, rfl⟩
  · cases part with
    | function kind decl =>
      cases opened
      exact inside.proper param hp
    | stmt s =>
      cases s with
      | block => 
        cases opened
        cases hp
      | _ => cases opened
    | _ => cases opened
  · have content := (Part.opened_scope inside (reaches.visits.faults clean) opened).1
    exact (content.of_mem hv).proper

section
variable {n m : Nat} {w : List Token}

/-- The renaming is one that the link allows. -/
theorem suits_respelling (accepted : Session.Accepted program n m)
    (declares : DeclaresAt program place x) :
    (respelling program place x y).Suits (.respelling program hx hy) program := by
  obtain ⟨ctx₀, part₀, params₀, body₀, reaches, opened, declared⟩ := declares
  have fixes {p : Place} {ctx : Context} {part : Part} {params : List Token} {body : List Stmt}
      (h : Reaches program p ctx part) (opens : part.opened? = some (params, body)) :
      ((respelling program place x y).spelling p).Fixes (.stmts body) := by
    by_cases here : p = place
    · subst here
      obtain ⟨rfl, rfl⟩ := reaches.unique h
      cases opened.symm.trans opens
      have spelled : (respelling program p x y).spelling p = .rename x y := if_pos rfl
      rw [spelled]
      exact Part.opened_fixes (h.visits.wellFormed accepted.wellFormed)
        (h.visits.faults accepted.clean) opened declared
    · have spelled : (respelling program place x y).spelling p = id := if_neg here
      rw [spelled]
      exact Spelling.fixes_id _
  refine ⟨fun p => ?_, fun _ => rfl, fun o ho => ⟨o, ho, rfl, rfl, ?_⟩, fun p ctx body h => ?_,
    fun p ctx kind decl h => ?_⟩
  · by_cases here : p = place
    · exact .inr (if_pos here)
    · exact .inl (if_neg here)
  · exact Distances.enter_of_mem accepted.numbered.2 (fun _ _ => Std.TreeMap.getElem?_emptyc) ho
  · exact fixes h (rfl : (Part.stmt (.block body)).opened? = some ([], body))
  · exact fixes h (rfl : (Part.function kind decl).opened? = some (decl.params, decl.body))

/-- The program that results is alike to the old one. -/
theorem respelling_alike (accepted : Session.Accepted program n m)
    (wf : (Part.stmts program).WellFormed fun name => name ≠ y)
    (declares : DeclaresAt program place x) :
    (Link.respelling program hx hy).Alike [] (.stmts program)
      (.stmts ((respelling program place x y).program program)) :=
  (suits_respelling accepted declares).alike accepted.clean wf .program (Spelling.fixes_id _)

theorem respelled_of_tokens {t t' : Token} (h : (Link.respelling program hx hy).Tokens t t') :
    t.Respelled x y t' := by
  obtain ⟨kind, lexeme, line⟩ := t
  obtain ⟨kind', lexeme', line'⟩ := t'
  rcases h with ⟨rfl, rfl, rfl⟩ | ⟨identifier, f, rfl | rfl, rfl, _, spelled, rfl⟩
  · exact .inl rfl
  · exact .inl (congrArg (Token.mk _ · _) spelled)
  · by_cases named : lexeme = x
    · exact .inr ⟨identifier, named, congrArg (Token.mk _ · _) (spelled.trans (if_pos named))⟩
    · exact .inl (congrArg (Token.mk _ · _) (spelled.trans (if_neg named)))

/-- It is derived from the tokens of the old one, some of them spelled differently. -/
theorem respelling_derived
    (alike : (Link.respelling program hx hy).Alike [] (.stmts program)
      (.stmts ((respelling program place x y).program program)))
    (derived : Grammar.Program .nearest n w program m) :
    ∃ w', List.Forall₂ (Token.Respelled x y) w w' ∧
      Grammar.Program .nearest n w' ((respelling program place x y).program program) m := by
  have shifts : (Link.respelling program hx hy).Shifts 0 0 := by
    refine ⟨?_, fun line => ⟨line, rfl⟩⟩
    rintro id id' d ⟨o, _, rfl, rfl, _⟩
    rfl
  have outside : ∀ f ∈ ([] : List Spelling), (Link.respelling program hx hy).spellings f :=
    fun _ hf => nomatch hf
  obtain ⟨w', m', rfl, tokens, again⟩ :=
    Link.carries_of_derives shifts derived _ n (.declarations ⟨[], outside, alike⟩) rfl
  exact ⟨w', tokens.imp fun _ _ => respelled_of_tokens, again⟩

/-- It passes as well, with the same distances. -/
theorem respelling_resolved (accepted : Session.Accepted program n m) {program' : List Stmt}
    (alike : (Link.respelling program hx hy).Alike [] (.stmts program) (.stmts program')) :
    (resolve program').faults = [] ∧ List.Forall₂ (fun o o' => o'.id = o.id ∧ o'.distance = o.distance)
      (resolve program).occurrences (resolve program').occurrences := by
  have fits : (Link.respelling program hx hy).Fits (resolve program) := by
    refine ⟨accepted.clean, ?_⟩
    rintro o ho id d ⟨made, hm, same, _, rfl⟩
    rw [List.inj_on_of_nodup_map accepted.numbered.2 ho hm same]
  obtain ⟨clean, occurrences⟩ := alike.report .top fits
  refine ⟨clean, occurrences.imp ?_⟩
  rintro o o' ⟨⟨_, _, same, same', _⟩, distance⟩
  exact ⟨same'.trans same.symm, distance⟩

end

end

end Lox
