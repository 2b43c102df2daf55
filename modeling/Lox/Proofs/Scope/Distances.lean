import Lox.Proofs.Scope.Violations
import Lox.Proofs.Session.Identities

/-!
# Distances are lexical

The walk over a program that was read binds every use of a name once, a misplaced `this` or `super`
apart, and the distance it records is the number of scopes between the use and the nearest
enclosing scope that is not global and in which the name was declared earlier in the text. Of a
session it changes nothing but the table of distances.
-/
namespace Lox

namespace Scope

/-- The number and the name of a use. -/
def Mark.use? : Mark → Option (Nat × String)
  | reads id name => some (id, name.lexeme)
  | assigns id name => some (id, name.lexeme)
  | this id keyword => some (id, keyword.lexeme)
  | super id keyword => some (id, keyword.lexeme)
  | _ => none

/-- A `this` or `super` that is reported. -/
def Mark.Misplaced (before : List Mark) : Mark → Prop
  | this id keyword => (this id keyword).violations before ≠ []
  | super id keyword => (super id keyword).violations before ≠ []
  | _ => False

/-- What is used where in a text, with the distance to what it means. -/
def Uses (text : List Mark) (o : Occurrence) : Prop :=
  ∃ before mark after, text = before ++ mark :: after ∧ mark.use? = some (o.id, o.name) ∧
    ¬ mark.Misplaced before ∧ Nearest before o.name o.distance

variable {before : List Mark} {o : Occurrence}

theorem mem_occurrence_iff {id : Nat} {name : Token} :
    o ∈ ((place before).occurrence id name).occurrences ↔
      (id, name.lexeme) = (o.id, o.name) ∧ Nearest before o.name o.distance := by
  obtain ⟨id', name', distance⟩ := o
  simp only [Place.occurrence, List.mem_singleton, Occurrence.mk.injEq, Prod.mk.injEq]
  constructor
  · rintro ⟨rfl, rfl, rfl⟩
    exact ⟨⟨rfl, rfl⟩, nearest_distance? before _⟩
  · rintro ⟨⟨rfl, rfl⟩, nearest⟩
    exact ⟨rfl, rfl, nearest.unique (nearest_distance? before _)⟩

@[simp] theorem faults_occurrence (p : Place) (id : Nat) (name : Token) :
    (p.occurrence id name).faults = [] := rfl

/-- At a mark its use is found, unless it is misplaced. -/
theorem occurrences_report (before : List Mark) (mark : Mark) :
    o ∈ ((place before).report mark).occurrences ↔
      mark.use? = some (o.id, o.name) ∧ ¬ mark.Misplaced before ∧
        Nearest before o.name o.distance := by
  cases mark with
  | reads id name =>
    simp [Place.report, Mark.use?, Mark.Misplaced, mem_occurrence_iff]
  | assigns id name =>
    simp [Place.report, Mark.use?, Mark.Misplaced, mem_occurrence_iff]
  | this id keyword =>
    simp only [Mark.use?, Mark.Misplaced, ← faults_report, Place.report]
    cases (place before).class? with
    | none => simp
    | some kind => simp [mem_occurrence_iff]
  | super id keyword =>
    simp only [Mark.use?, Mark.Misplaced, ← faults_report, Place.report]
    cases (place before).class? with
    | none => simp
    | some kind => cases kind <;> simp [mem_occurrence_iff]
  | declares | returns | inherits => simp [Place.report, Mark.use?]
  | opens | closes | provides | initializes | initialized => simp [Place.report, Mark.use?]

/-- Along a text its uses are found. -/
theorem occurrences_reports (text : List Mark) :
    o ∈ (Place.top.reports text).occurrences ↔ Uses text o := by
  have found (before text : List Mark) : o ∈ ((place before).reports text).occurrences ↔
      ∃ earlier mark later, text = earlier ++ mark :: later ∧
        o ∈ ((place (before ++ earlier)).report mark).occurrences := by
    induction text generalizing before with
    | nil => simp
    | cons mark text ih =>
      rw [Place.reports_cons, Report.occurrences_append, List.mem_append, ← place_snoc, ih]
      constructor
      · rintro (here | ⟨earlier, mark', later, rfl, ho⟩)
        · exact ⟨[], mark, text, rfl, by simpa using here⟩
        · exact ⟨mark :: earlier, mark', later, rfl, by simpa using ho⟩
      · rintro ⟨earlier, mark', later, he, ho⟩
        cases earlier with
        | nil =>
          cases he
          exact .inl (by simpa using ho)
        | cons first earlier =>
          cases he
          exact .inr ⟨earlier, mark', later, rfl, by simpa using ho⟩
  refine (found [] text).trans ?_
  simp only [occurrences_report, List.nil_append]
  rfl

/-! ## Heights -/

theorem length_introduce (scopes : Scopes) (name : Token) :
    (introduce scopes name).1.length = scopes.length := by
  cases scopes <;> rfl

/-- A statement leaves as many scopes as it finds. -/
theorem length_stmt (ctx : Context) (s : Stmt) : (stmt ctx s).1.length = ctx.scopes.length := by
  cases s with
  | classDecl name parent methods => exact length_introduce ctx.scopes name
  | functionDecl decl => exact length_introduce ctx.scopes decl.name
  | varDecl name value => exact length_introduce ctx.scopes name
  | ifElse condition branch other =>
    have first := length_stmt ctx branch
    cases other with
    | none => simpa [stmt] using first
    | some other =>
      have second := length_stmt (ctx.after branch) other
      simp only [stmt]
      exact second.trans first
  | whileLoop condition body => simpa [stmt] using length_stmt ctx body
  | _ => simp [stmt]

/-- Where numbers are different, one occurrence has the number of one. -/
theorem filter_id_of_mem {occurrences : List Occurrence}
    (once : (occurrences.map Occurrence.id).Nodup) (h : o ∈ occurrences) :
    occurrences.filter (·.id = o.id) = [o] := by
  obtain ⟨before, after, rfl⟩ := List.append_of_mem h
  simp only [List.map_append, List.map_cons, List.nodup_append, List.nodup_cons, List.mem_map,
    List.mem_cons] at once
  have left : before.filter (·.id = o.id) = [] := by
    rw [List.filter_eq_nil_iff]
    intro x hx he
    exact once.2.2 x.id ⟨x, hx, rfl⟩ o.id (.inl rfl) (of_decide_eq_true he)
  have right : after.filter (·.id = o.id) = [] := by
    rw [List.filter_eq_nil_iff]
    intro x hx he
    exact once.2.1.1 ⟨x, hx, of_decide_eq_true he⟩
  rw [List.filter_append, left, List.filter_cons_of_pos (by simp), right]
  rfl

end Scope

open Scope (Occurrence Part Nearest Uses)

theorem Distances.enter_once {occurrences : List Occurrence}
    (once : (occurrences.map Occurrence.id).Nodup) (table : Distances) {o : Occurrence}
    (h : o ∈ occurrences) : (table.enter occurrences)[o.id]? = o.distance.or table[o.id]? := by
  obtain ⟨before, after, rfl⟩ := List.append_of_mem h
  rw [List.map_append, List.map_cons, List.nodup_append, List.nodup_cons] at once
  have new : o.id ∉ before.map Occurrence.id := fun hid =>
    once.2.2 o.id hid o.id List.mem_cons_self rfl
  have split : table.enter (before ++ o :: after) =
      ((table.enter before).enter [o]).enter after := List.foldl_append
  rw [split, enter_of_not_mem once.2.1.1, enter_one, if_pos rfl, enter_of_not_mem new]

/-- Every use of a name in a program that was read, unless it is a misplaced `this` or `super`, is
bound once, and its distance is that of the nearest scope that declares the name; without such a
scope there is no entry for it. Nothing else is bound. Statements leave the scopes at their height,
expressions as they are, and loading a source leaves all of the state but the distances. -/
theorem distances_lexical (tokens : List Token) (n : Nat) :
    let text := Stmt.outlineOf (parse tokens n).statements
    let occurrences := (resolve (parse tokens n).statements).occurrences
    (∀ before mark after id name, text = before ++ mark :: after →
        mark.use? = some (id, name) → ¬ mark.Misplaced before →
        ∃ distance, Nearest before name distance ∧
          occurrences.filter (·.id = id) = [⟨id, name, distance⟩] ∧
            ∀ σ : State, (σ.record occurrences).distances[id]? = distance.or σ.distances[id]?) ∧
      (∀ o ∈ occurrences, Uses text o) ∧
        (∀ (σ : State) id, id ∉ occurrences.map Occurrence.id →
          (σ.record occurrences).distances[id]? = σ.distances[id]?) ∧
          (∀ ctx s, (Scope.stmt ctx s).1.length = ctx.scopes.length) ∧
            (∀ ctx e, ∀ c ∈ (Part.expr e).children ctx, c.1 = ctx) ∧
              ∀ (s : Session) source, (s.load source).1.state =
                { s.state with distances := (s.load source).1.state.distances } := by
  intro text occurrences
  have once : (occurrences.map Occurrence.id).Nodup := (Grammar.numbered_parse tokens n).2
  have found {o : Occurrence} : o ∈ occurrences ↔ Uses text o := by
    show o ∈ (resolve (parse tokens n).statements).occurrences ↔ _
    rw [resolve_outline]
    exact Scope.occurrences_reports text
  refine ⟨?_, fun o ho => found.mp ho, fun σ id hid => Distances.enter_of_not_mem hid,
    Scope.length_stmt, fun ctx e c hc => (Scope.children_of_isExpression rfl c hc).1, ?_⟩
  · intro before mark after id name he hu placed
    have nearest := Scope.nearest_distance? before name
    have bound : ⟨id, name, (Scope.place before).distance? name⟩ ∈ occurrences :=
      found.mpr ⟨before, mark, after, he, hu, placed, nearest⟩
    exact ⟨_, nearest, Scope.filter_id_of_mem once bound, fun σ =>
      Distances.enter_once once σ.distances bound⟩
  · intro s source
    rcases s.load_state source with same | recorded
    · rw [same]
    · rw [recorded]
      rfl

end Lox
