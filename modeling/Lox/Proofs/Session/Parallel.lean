import Lox.Proofs.Alike.Relabelling
import Lox.Proofs.Alike.Scopes
import Lox.Proofs.Alike.Steps
import Lox.Proofs.Machine.Restoration

/-!
# Sessions that go on alike

Two sessions go on alike if their stores are alike and their counts of occurrences are a fixed
number apart. Then every source is rejected by both for the same faults or runs in step in both,
and they go on alike again, however many sources there are.
-/
namespace Lox

/-! ## What is seen of a session -/

namespace Session

/-- What a run of a source shows within some steps: all output so far and the outcome, if there is
one by then. -/
def shown (fuel : Nat) (s : Session) (source : String) : Sink × Option Outcome :=
  match s.load source with
  | (s, .error faults) => (s.state.sink, some (.rejected faults))
  | (⟨state, nextId⟩, .ok program) =>
    let c := (state.interpreting program).run fuel
    (c.state.sink, (finish? nextId c).map Prod.snd)

theorem run_of_load {s s' : Session} {source : String} {program : List Stmt}
    (load : s.load source = (s', .ok program)) (fuel : Nat) :
    s.run fuel source = finish? s'.nextId ((s'.state.interpreting program).run fuel) := by
  rw [run, load]

theorem shown_of_load {s s' : Session} {source : String} {program : List Stmt}
    (load : s.load source = (s', .ok program)) (fuel : Nat) :
    s.shown fuel source = (((s'.state.interpreting program).run fuel).state.sink,
      (finish? s'.nextId ((s'.state.interpreting program).run fuel)).map Prod.snd) := by
  rw [shown, load]

/-- What is shown when sources are run one after another, each with a number of steps, up to the
first that does not end. -/
def transcript (s : Session) : List (Nat × String) → List (Sink × Option Outcome)
  | [] => []
  | (fuel, source) :: later =>
    s.shown fuel source ::
      match s.run fuel source with
      | some (s', _) => s'.transcript later
      | none => []

end Session

/-- Outcomes that differ in nothing but the line of a fault of the run. -/
inductive Outcome.Alike (lines : Nat → Nat → Prop) : Outcome → Outcome → Prop where
  | success : Alike lines .success .success
  | rejected (faults : List Fault) : Alike lines (.rejected faults) (.rejected faults)
  | failed (cause : RuntimeCause) {line line' : Nat} (moved : lines line line') :
      Alike lines (.failed (.runtime cause line)) (.failed (.runtime cause line'))
  | output (cause : OutputCause) : Alike lines (.failed (.output cause)) (.failed (.output cause))

/-- The same output and outcomes that are alike, if there are any. -/
def Session.ShownAlike (lines : Nat → Nat → Prop) (a b : Sink × Option Outcome) : Prop :=
  b.1 = a.1 ∧ Option.Rel (Outcome.Alike lines) a.2 b.2

/-! ## Sessions that are alike -/

section
variable {related related' : Nat → Nat → Option Nat → Prop} {lines : Nat → Nat → Prop}

theorem Link.faithful_below (more : ∀ id id' d, related id id' d → related' id id' d) :
    (Link.faithful related lines).Below (.faithful related' lines) :=
  ⟨fun _ h => h, fun _ h => h, more, fun _ _ h => h⟩

/-- The occurrences made so far correspond, and the second session numbers the next ones `k`
further on than the first. -/
structure Session.Alike (related : Nat → Nat → Option Nat → Prop) (lines : Nat → Nat → Prop)
    (k : Nat) (s s' : Session) : Prop where
  inStep : ∃ μ, (Link.faithful related lines).InStep [] μ [] s.state s'.state [] []
  ahead : s'.nextId = k + s.nextId
  before : ∀ id id' d, related id id' d → id < s.nextId ∧ id' < s'.nextId
  beyond : ∀ id, s.nextId ≤ id → s.state.distances[id]? = none
  beyond' : ∀ id, s'.nextId ≤ id → s'.state.distances[id]? = none

namespace Session

variable {k : Nat} {s s' t t' : Session}

/-- Numbers may be passed over. -/
theorem Alike.skip (h : Alike related lines k s s') {m : Nat} (le : s.nextId ≤ m) :
    Alike related lines k { s with nextId := m } { s' with nextId := k + m } := by
  have ahead := h.ahead
  refine ⟨h.inStep, rfl, fun id id' d hr => ?_, fun id hid => ?_, fun id hid => ?_⟩
  · have := h.before id id' d hr
    simp only
    omega
  · exact h.beyond id (Nat.le_trans le hid)
  · exact h.beyond' id (by simp only at hid; omega)

/-- Distances may be entered for a program that is not run. -/
theorem Alike.reject (h : Alike related lines k s s') {r : Scope.Report} {m : Nat}
    (numbered : r.Numbered s.nextId m) (le : s.nextId ≤ m) :
    Alike related lines k ⟨s.state.record r.occurrences, m⟩
      ⟨s'.state.record (r.relabel (k + ·) id).occurrences, k + m⟩ := by
  have numbered' := numbered.forward k id
  have ahead := h.ahead
  obtain ⟨μ, inStep⟩ := h.inStep
  refine ⟨⟨μ, { inStep with distances := fun id id' d hr => ?_ }⟩, rfl, fun id id' d hr => ?_,
    fun id hid => ?_, fun id hid => ?_⟩
  · obtain ⟨hid, hid'⟩ := h.before id id' d hr
    obtain ⟨found, found'⟩ := inStep.distances id id' d hr
    rw [State.record_distances, State.record_distances, Distances.enter_outside numbered (.inl hid),
      Distances.enter_outside numbered' (.inl (ahead ▸ hid'))]
    exact ⟨found, found'⟩
  · have := h.before id id' d hr
    simp only
    omega
  · rw [State.record_distances, Distances.enter_outside numbered (.inr hid)]
    exact h.beyond id (Nat.le_trans le hid)
  · rw [State.record_distances, Distances.enter_outside numbered' (.inr hid)]
    exact h.beyond' id (by simp only at hid; omega)

/-- The occurrences of a program of its own numbers, and where they are in the other session. -/
def Made (program : List Stmt) (k id id' : Nat) (d : Option Nat) : Prop :=
  ∃ o ∈ (resolve program).occurrences, id = o.id ∧ id' = k + o.id ∧ d = o.distance

/-- A program that is accepted with other numbers and lines is alike. -/
theorem Alike.accept (h : Alike related lines k s s') {line : Nat → Nat}
    (moved : ∀ l, lines l (line l)) {program : List Stmt} {m : Nat}
    (accepted : Accepted program s.nextId m) :
    let related' := fun id id' d => related id id' d ∨ Made program k id id' d
    Alike related' lines k ⟨s.state.record (resolve program).occurrences, m⟩
        ⟨s'.state.record ((resolve program).relabel (k + ·) id).occurrences, k + m⟩ ∧
      (Link.faithful related' lines).Alike [] (.stmts program)
        (.stmts (Stmt.relabelAll (k + ·) line program)) := by
  intro related'
  have numbered := accepted.numbered
  have numbered' := numbered.forward k id
  have ahead := h.ahead
  have rest := h.reject numbered accepted.ordered
  have below : (Link.faithful related lines).Below (.faithful related' lines) :=
    Link.faithful_below fun _ _ _ => .inl
  have found : ∀ o ∈ (resolve program).occurrences,
      (s.state.record (resolve program).occurrences).distances[o.id]? = o.distance :=
    fun o ho => Distances.enter_of_mem numbered.2
      (fun o ho => h.beyond o.id (numbered.1 o ho).1) ho
  have found' : ∀ o ∈ (resolve program).occurrences,
      (s'.state.record ((resolve program).relabel (k + ·) id).occurrences).distances[k + o.id]? =
        o.distance :=
    fun o ho => Distances.enter_of_mem numbered'.2
      (fun o ho => h.beyond' o.id (ahead ▸ (numbered'.1 o ho).1)) (List.mem_map_of_mem ho)
  obtain ⟨μ, inStep⟩ := rest.inStep
  refine ⟨⟨⟨μ, ?_⟩, rfl, ?_, rest.beyond, rest.beyond'⟩, ?_⟩
  · refine { inStep with store := inStep.store.mono below fun _ h => h, distances := ?_, waiting := .nothing }
    rintro id id' d (hr | ⟨o, ho, rfl, rfl, rfl⟩)
    · exact inStep.distances id id' d hr
    · exact ⟨found o ho, found' o ho⟩
  · rintro id id' d (hr | ⟨o, ho, rfl, rfl, rfl⟩)
    · exact rest.before id id' d hr
    · have := numbered.1 o ho
      exact ⟨this.2, Nat.add_lt_add_left this.2 k⟩
  · refine Link.alike_relabel (fun id =>
      (s.state.record (resolve program).occurrences).distances[id]?) accepted.clean
      (accepted.wellFormed.mono fun _ _ => trivial) moved fun o ho => .inr ⟨o, ho, rfl, rfl, ?_⟩
    exact found o ho

/-- What two sessions that are alike make of one source. -/
inductive Loads (related : Nat → Nat → Option Nat → Prop) (lines : Nat → Nat → Prop) (k : Nat) :
    Session × Except (List Fault) (List Stmt) → Session × Except (List Fault) (List Stmt) → Prop where
  | rejected {t t' : Session} (faults : List Fault) (alike : Alike related lines k t t') :
      Loads related lines k (t, .error faults) (t', .error faults)
  | accepted {t t' : Session} {program program' : List Stmt}
      {related' : Nat → Nat → Option Nat → Prop} (alike : Alike related' lines k t t')
      (content : (Link.faithful related' lines).Alike [] (.stmts program) (.stmts program')) :
      Loads related lines k (t, .ok program) (t', .ok program')

theorem Alike.load (h : Alike related lines k s s') (same : ∀ line, lines line line)
    (source : String) : Loads related lines k (s.load source) (s'.load source) := by
  have le := Grammar.le_nextId_parse (okOnly (scan source)) s.nextId
  rw [Session.load, Session.load, h.ahead, parse_forward]
  by_cases read : (errorsOnly (scan source) ++
      (parse (okOnly (scan source)) s.nextId).faults).isEmpty = true
  · have clean := List.append_eq_nil_iff.mp (List.isEmpty_iff.mp read)
    have derived := Grammar.program_of_parse .nearest clean.2
    simp only [Parsed.forward, read, if_true, resolve_relabel,
      Scope.Report.faults_relabel_id]
    by_cases resolved :
        (resolve (parse (okOnly (scan source)) s.nextId).statements).faults.isEmpty = true
    · have accepted := accepted_of_clean clean.2 (List.isEmpty_iff.mp resolved)
      simp only [resolved, if_true]
      have same : ∀ line, lines line (id line) := same
      have both := h.accept same accepted
      exact .accepted both.1 both.2
    · simp only [resolved]
      exact .rejected _ (h.reject derived.numbered.2 le)
  · simp only [Parsed.forward, read]
    exact .rejected _ (h.skip le)

theorem Alike.interpreting (h : Alike related lines k s s') {program program' : List Stmt}
    (content : (Link.faithful related lines).Alike [] (.stmts program) (.stmts program')) :
    (Link.faithful related lines).Configs [] (s.state.interpreting program)
      (s'.state.interpreting program') := by
  obtain ⟨μ, inStep⟩ := h.inStep
  have waiting : (Link.faithful related lines).Waiting [] s.state.store μ s.state.current []
      [.program program] [.program (program' ++ [])] := .program content
  rw [List.append_nil] at waiting
  exact .completed (inStep.waitFor waiting)

/-- Both runs end with the same outcome, and leave sessions that are alike. -/
def Results (lines : Nat → Nat → Prop) (k : Nat) (r r' : Session × Outcome) : Prop :=
  r.2.Alike lines r'.2 ∧ ∃ related, Alike related lines k r.1 r'.1

/-- A fault of a run ends both runs alike. -/
theorem failed_alike {f f' : Fault} (h : (Link.faithful related lines).Faults f f') :
    Outcome.Alike lines (.failed f) (.failed f') := by
  cases h with
  | output cause => exact .output cause
  | runtime causes moved =>
    cases causes with
    | same => exact .failed _ moved
    | unresolved spelling named =>
      cases spelling
      exact .failed _ moved

theorem Alike.finish (h : Alike related lines k s s') {program program' : List Stmt}
    (content : (Link.faithful related lines).Alike [] (.stmts program) (.stmts program'))
    (fuel : Nat) :
    Option.Rel (Results lines k) (finish? s.nextId ((s.state.interpreting program).run fuel))
      (finish? s'.nextId ((s'.state.interpreting program').run fuel)) := by
  have ending := ((h.interpreting content).run fuel).ending
  obtain ⟨_, before⟩ := h.inStep
  have global := before.spells.global rfl
  generalize he : ((s.state.interpreting program).run fuel).ending? = e,
    he' : ((s'.state.interpreting program').run fuel).ending? = e' at ending
  rw [finish?, finish?, he, he']
  cases ending with
  | none => exact .none
  | @some r r' ends =>
    obtain ⟨own, σ⟩ := r
    obtain ⟨own', σ'⟩ := r'
    obtain ⟨faults, μ, fs, inStep⟩ := ends
    have current : σ.current = State.globals := (State.interpreting_restored he).1.trans global
    have kept : σ.distances = s.state.distances := State.interpreting_distances he
    have kept' : σ'.distances = s'.state.distances := State.interpreting_distances he'
    refine .some ⟨?_, related, ⟨μ, { inStep with spells := ?_, waiting := .nothing }⟩, h.ahead,
      h.before, ?_, ?_⟩
    · cases faults with
      | none => exact .success
      | some faults => exact failed_alike faults
    · rw [current]
      exact .globals
    · rw [kept]
      exact h.beyond
    · rw [kept']
      exact h.beyond'

/-- A source runs in both sessions with the same output and the same outcome. -/
theorem Alike.run (h : Alike related lines k s s') (same : ∀ line, lines line line) (fuel : Nat)
    (source : String) :
    Option.Rel (Results lines k) (s.run fuel source) (s'.run fuel source) := by
  have loads := h.load same source
  rw [Session.run, Session.run]
  generalize s.load source = r, s'.load source = r' at loads
  cases loads with
  | rejected faults alike => exact .some ⟨.rejected faults, _, alike⟩
  | accepted alike content => exact alike.finish content fuel

theorem outcomes_alike {r r' : Option (Session × Outcome)} (h : Option.Rel (Results lines k) r r') :
    Option.Rel (Outcome.Alike lines) (r.map Prod.snd) (r'.map Prod.snd) := by
  cases h with
  | none => exact .none
  | some results => exact .some results.1

theorem Alike.shown (h : Alike related lines k s s') (same : ∀ line, lines line line)
    (fuel : Nat) (source : String) :
    ShownAlike lines (s.shown fuel source) (s'.shown fuel source) := by
  have loads := h.load same source
  rw [Session.shown, Session.shown]
  generalize s.load source = r, s'.load source = r' at loads
  cases loads with
  | rejected faults alike =>
    obtain ⟨_, inStep⟩ := alike.inStep
    exact ⟨inStep.sink, .some (.rejected faults)⟩
  | accepted alike content =>
    refine ⟨((alike.interpreting content).run fuel).sink, ?_⟩
    have results := alike.finish content fuel
    exact outcomes_alike results

/-- Sessions that are alike show the same for ever. -/
theorem Alike.transcript (h : Alike related lines k s s') (same : ∀ line, lines line line)
    (later : List (Nat × String)) :
    List.Forall₂ (ShownAlike lines) (s.transcript later) (s'.transcript later) := by
  induction later generalizing related s s' with
  | nil => exact .nil
  | cons turn later ih =>
    obtain ⟨fuel, source⟩ := turn
    have results := h.run same fuel source
    refine .cons (h.shown same fuel source) ?_
    generalize s.run fuel source = r, s'.run fuel source = r' at results
    cases results with
    | none => exact .nil
    | some results =>
      obtain ⟨_, _, alike⟩ := results
      exact ih alike

/-! ## A session beside itself -/

theorem alike_initial (sink : Sink) (readings : Nat → Float) :
    Alike (fun _ _ _ => False) lines 0 (initial sink readings) (initial sink readings) :=
  ⟨⟨_, Store.alike_initial _ sink readings, rfl, rfl, rfl, rfl, nofun, .globals, .nothing⟩, rfl, nofun,
    fun _ _ => Std.TreeMap.getElem?_emptyc, fun _ _ => Std.TreeMap.getElem?_emptyc⟩

/-- A session that is reached is alike to itself. -/
theorem Reached.alike {programs : List (List Stmt)} (same : ∀ line, lines line line)
    (h : Reached programs s) : ∃ related, Alike related lines 0 s s := by
  induction h with
  | initial sink readings => exact ⟨_, alike_initial sink readings⟩
  | @rejected _ _ _ source _ _ load ih =>
    obtain ⟨_, alike⟩ := ih
    have loads := alike.load same source
    rw [load] at loads
    cases loads with
    | rejected _ alike => exact ⟨_, alike⟩
  | @ended _ _ _ _ source program fuel outcome _ load finish ih =>
    obtain ⟨_, alike⟩ := ih
    have loads := alike.load same source
    rw [load] at loads
    cases loads with
    | accepted alike content =>
      have results := alike.finish content fuel
      rw [finish] at results
      cases results with
      | some results => exact results.2
  | between _ sink clock ih =>
    obtain ⟨_, alike⟩ := ih
    obtain ⟨μ, inStep⟩ := alike.inStep
    exact ⟨_, { alike with inStep := ⟨μ, { inStep with sink := rfl, clock := rfl }⟩ }⟩

end Session

end

end Lox
