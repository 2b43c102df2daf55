import Lox.Proofs.Alike.Derivations
import Lox.Proofs.Session.Parallel
import Lox.Proofs.Token.Joining

/-!
# Sources run in pieces

Two sources that pass one after another do the same as both in one source, with a line break
between them. Scanning, reading and scoping are compositional over such a source, and a run of the
second part starts from where the first one ended. Only lines of the second part differ.
-/
namespace Lox

open Grammar (Program Derives readable)

/-! ## Programs one after another -/

theorem Grammar.Program.append {style : Grammar.DanglingElse} {n m k : Nat} {w w' : List Token}
    {trees trees' : List Stmt} (h : Program style n w trees m) (h' : Program style m w' trees' k) :
    Program style n (w ++ w') (trees ++ trees') k := by
  induction trees generalizing n w with
  | nil =>
    cases h
    exact h'
  | cons tree trees ih =>
    cases h with
    | moreDeclarations first rest =>
      rw [List.append_assoc, List.cons_append]
      exact .moreDeclarations first (ih rest)

/-- A clean program that stands on other lines is derived from the same tokens there. -/
theorem Grammar.Program.moved {n m : Nat} {w : List Token} {program : List Stmt}
    (h : Program .nearest n w program m) (clean : (resolve program).faults = [])
    (wf : (Scope.Part.stmts program).WellFormed fun _ => True) (line : Nat → Nat) :
    Program .nearest n (w.map (Token.moved line)) (Stmt.relabelAll id line program) m := by
  let L := Link.faithful (fun id id' _ => id' = id) fun l l' => l' = line l
  have alike : L.Alike [] (.stmts program) (.stmts (Stmt.relabelAll id line program)) :=
    Link.alike_relabel (fun _ => none) clean wf (fun _ => rfl) fun _ _ => rfl
  have shifts : L.Shifts 0 0 := ⟨fun _ _ _ h => h, fun l => ⟨line l, rfl⟩⟩
  have outside : ∀ f ∈ ([] : List Spelling), L.spellings f := fun _ hf => nomatch hf
  obtain ⟨w', m', rfl, tokens, derived⟩ :=
    Link.carries_of_derives shifts h _ n (.declarations ⟨[], outside, alike⟩) rfl
  have moved (t t' : Token) (ht : L.Tokens t t') : t' = t.moved line := by
    obtain ⟨kind, lexeme, l⟩ : L.Same t t' := by
      rcases ht with same | ⟨_, f, rfl, spelled⟩
      · exact same
      · exact ⟨spelled.kind, spelled.lexeme, spelled.line⟩
    obtain ⟨kind', lexeme', l'⟩ := t'
    exact congr (congr (congrArg Token.mk kind) lexeme) l
  have both : List.Forall₂ (· = ·) (w.map (Token.moved line)) w' :=
    List.forall₂_map_left_iff.mpr (tokens.imp fun t t' ht => (moved t t' ht).symm)
  rw [List.forall₂_eq_eq_eq] at both
  exact both ▸ derived

/-! ## Static passes -/

namespace Scope

theorem Report.occurrences_relabel_id (line : Nat → Nat) (r : Report) :
    (r.relabel id line).occurrences = r.occurrences :=
  List.map_id r.occurrences

/-- Statements outside of all scopes leave nothing behind for those after them. -/
theorem stmts_append_top {ctx : Context} {ss : List Stmt} (wf : (Part.stmts ss).WellFormed Plain)
    (top : ctx.scopes = []) (ss' : List Stmt) :
    stmts ctx (ss ++ ss') = stmts ctx ss ++ stmts ctx ss' := by
  induction ss with
  | nil => rfl
  | cons s ss ih =>
    have now := wf.child ctx (c := (ctx, .stmt s)) (by simp [Part.children])
    have later := wf.child ctx (c := (ctx.after s, .stmts ss)) (by simp [Part.children])
    rw [List.cons_append, stmts_cons, stmts_cons, Context.after_top now top, ih later,
      Report.append_assoc]

/-- The last statements of a program are well formed if all are. -/
theorem Part.WellFormed.suffix {names : String → Prop} {ss ss' : List Stmt}
    (wf : (Part.stmts (ss ++ ss')).WellFormed names) : (Part.stmts ss').WellFormed names := by
  induction ss with
  | nil => exact wf
  | cons s ss ih =>
    exact ih (wf.child .top (c := (Context.top.after s, .stmts (ss ++ ss'))) (by simp [Part.children]))

end Scope

/-- The report on a program is the one on its first statements with the one on the rest. -/
theorem resolve_append {program : List Stmt} (wf : (Scope.Part.stmts program).WellFormed Plain)
    (program' : List Stmt) : resolve (program ++ program') = resolve program ++ resolve program' :=
  Scope.stmts_append_top wf rfl program'

namespace Session

variable {s s' t u : Session} {first second : String} {program program' : List Stmt}

/-- A source that passes on its own is accepted in every session. -/
theorem load_of_passes (h : Passes second) (s : Session) :
    ∃ u program, s.load second = (u, .ok program) := by
  obtain ⟨lexed, parsed, resolved⟩ := h
  have forward := parse_forward (okOnly (scan second)) s.nextId 0
  rw [Nat.add_zero, Parsed.forward, parsed] at forward
  refine ⟨_, _, load_of_clean lexed forward ?_⟩
  rw [resolve_relabel, Scope.Report.faults_relabel_id]
  exact resolved

theorem load_program (h : s.load second = (u, .ok program)) :
    Program .nearest s.nextId (readable (okOnly (scan second))) program u.nextId := by
  obtain ⟨rfl, parsed, _, _, rfl⟩ := load_ok h
  exact Grammar.program_of_parse .nearest parsed

/-- Two sources that are accepted one after another are accepted as one. -/
theorem load_join (h : s.load first = (s', .ok program)) (h' : t.load second = (u, .ok program'))
    (next : t.nextId = s'.nextId) :
    s.load (first ++ "\n" ++ second) =
      (⟨s.state.record ((resolve program).occurrences ++ (resolve program').occurrences), u.nextId⟩,
        .ok (program ++ Stmt.relabelAll id (shift first) program')) := by
  have accepted := load_ok_accepted h
  have accepted' := load_ok_accepted h'
  have derived := load_program h
  have moved := (load_program h').moved accepted'.clean
    (accepted'.wellFormed.mono fun _ _ => trivial) (shift first)
  obtain ⟨read, errors⟩ := readable_join (load_ok h).2.2.1 second
  have both := derived.append (next ▸ moved)
  rw [← read] at both
  have lexed : errorsOnly (scan (first ++ "\n" ++ second)) = [] := by
    rw [errors, (load_ok h').2.2.1, List.map_nil]
  have report := resolve_append accepted.wellFormed (Stmt.relabelAll id (shift first) program')
  rw [resolve_relabel] at report
  have resolved : (resolve (program ++ Stmt.relabelAll id (shift first) program')).faults = [] := by
    rw [report, Scope.Report.faults_append, accepted.clean, Scope.Report.relabel, accepted'.clean]
    rfl
  rw [load_of_clean lexed (Grammar.parse_of_program both) resolved, report,
    Scope.Report.occurrences_append, Scope.Report.occurrences_relabel_id]

end Session

/-! ## Up to the end of a program -/

/-- A program has not come to its end: the rest of it waits below all else. -/
def Config.Open (c : Config) : Prop :=
  ∃ (c₀ : Config) (rest : List Stmt), c = c₀.atop [.program rest]

theorem Config.Open.unfinished {c : Config} (h : c.Open) : c.finished = false := by
  obtain ⟨⟨control, pending, σ⟩, rest, rfl⟩ := h
  cases control <;> cases pending <;> rfl

/-- A program goes on, fails, or all its statements are done. -/
theorem Config.Open.step {c : Config} (h : c.Open) :
    c.step.Open ∨ (∃ f σ, c.step = ⟨.failed f, [], σ⟩) ∨
      ∃ completion σ, c = ⟨.completed completion, [.program []], σ⟩ := by
  obtain ⟨c₀, rest, rfl⟩ := h
  cases hc : c₀.finished with
  | false =>
    rw [step_atop hc]
    exact .inl ⟨c₀.step, rest, rfl⟩
  | true =>
    obtain ⟨control, pending, σ⟩ := c₀
    cases pending with
    | cons first pending => cases control <;> cases hc
    | nil =>
      cases control with
      | evaluate | execute => cases hc
      | value v => exact .inl ⟨⟨.value v, [], σ⟩, rest, rfl⟩
      | failed f => exact .inr (.inl ⟨f, σ, rfl⟩)
      | completed completion =>
        cases rest with
        | nil => exact .inr (.inr ⟨completion, σ, rfl⟩)
        | cons s rest => exact .inl ⟨⟨.execute s, [], σ⟩, rest, rfl⟩

/-- A program that ends without a fault comes to the end of its statements, and until then one with
more statements is in step. -/
theorem Link.Configs.run_to_end {L : Link} {extra : List Stmt} {c c' : Config}
    (h : L.Configs extra c c') (running : c.Open) {fuel : Nat}
    (done : (c.run fuel).finished = true) (sound : ∀ f, (c.run fuel).control ≠ .failed f) :
    ∃ i completion σ, c.run i = ⟨.completed completion, [.program []], σ⟩ ∧
      c.run fuel = ⟨.completed .normal, [], σ⟩ ∧ L.Configs extra (c.run i) (c'.run i) := by
  induction fuel generalizing c c' with
  | zero =>
    rw [Config.run, running.unfinished] at done
    cases done
  | succ fuel ih =>
    have going := running.unfinished
    have going' := h.finished.trans going
    have next (n : Nat) : c.run (n + 1) = c.step.run n := by rw [Config.run, going]; rfl
    have next' (n : Nat) : c'.run (n + 1) = c'.step.run n := by rw [Config.run, going']; rfl
    rw [next] at done sound
    by_cases atEnd : ∃ completion σ, c = ⟨.completed completion, [.program []], σ⟩
    · obtain ⟨completion, σ, rfl⟩ := atEnd
      have ended : (⟨.completed .normal, [], σ⟩ : Config).finished = true := rfl
      exact ⟨0, completion, σ, rfl, (next fuel).trans (Config.run_of_finished ended fuel), h⟩
    rcases running.step with running | ⟨f, σ, failed⟩ | ended
    · have within : c.Within extra := by
        refine .inr fun completion completed last => atEnd ⟨completion, c.state, ?_⟩
        rw [← completed, ← last]
      obtain ⟨i, completion, σ, stands, ends, alike⟩ := ih (h.step within) running done sound
      refine ⟨i + 1, completion, σ, ?_, ?_, ?_⟩
      · rw [next, stands]
      · rw [next, ends]
      · rw [next, next']
        exact alike
    · rw [failed, Config.run_of_finished rfl] at sound
      exact absurd rfl (sound f)
    · exact absurd ended atEnd

/-- At the top of a program it does not matter how the statement before ended. -/
theorem Config.run_between (completion : Completion) (rest : List Stmt) (σ : State) (fuel : Nat) :
    let c : Config := ⟨.completed completion, [.program rest], σ⟩
    (c.run fuel).state.sink = ((σ.interpreting rest).run fuel).state.sink ∧
      (c.run fuel).ending? = ((σ.interpreting rest).run fuel).ending? := by
  cases fuel with
  | zero => exact ⟨rfl, rfl⟩
  | succ fuel =>
    cases rest with
    | nil => exact ⟨rfl, rfl⟩
    | cons s rest => exact ⟨rfl, rfl⟩

namespace Session

variable {related : Nat → Nat → Option Nat → Prop} {lines lines' : Nat → Nat → Prop}
  {programs : List (List Stmt)} {s s' t u : Session} {first second : String}
  {program program' : List Stmt}

theorem Alike.mono {k : Nat} (h : Alike related lines k s s')
    (le : ∀ l l', lines l l' → lines' l l') : Alike related lines' k s s' := by
  have below : (Link.faithful related lines).Below (.faithful related lines') :=
    ⟨fun _ h => h, fun _ h => h, fun _ _ _ h => h, le⟩
  obtain ⟨μ, inStep⟩ := h.inStep
  refine ⟨⟨μ, ?_⟩, h.ahead, h.before, h.beyond, h.beyond'⟩
  exact { inStep with store := inStep.store.mono below fun _ h => h, waiting := .nothing }

/-- A successful run of a program that was loaded. -/
theorem run_of_success {fuel : Nat} (ran : s.run fuel first = some (t, .success)) :
    ∃ s' program, s.load first = (s', .ok program) ∧
      finish? s'.nextId ((s'.state.interpreting program).run fuel) = some (t, .success) := by
  rw [run] at ran
  split at ran
  · cases ran
  · next state nextId program load => exact ⟨⟨state, nextId⟩, program, load, ran⟩

theorem finish_of_success {n : Nat} {c : Config} (h : finish? n c = some (t, .success)) :
    c.finished = true ∧ (∀ f, c.control ≠ .failed f) ∧ t = ⟨c.state, n⟩ := by
  obtain ⟨⟨own, σ⟩, ending, leaves⟩ := Option.map_eq_some_iff.mp h
  obtain ⟨done, rfl⟩ := Config.finished_of_ending? ending
  cases own with
  | some f => cases leaves
  | none =>
    cases leaves
    refine ⟨done, fun f failed => ?_, rfl⟩
    rw [Config.ending?, if_pos done, failed] at ending
    have neither := Option.or_eq_none_iff.mp (congrArg Prod.fst (Option.some.inj ending))
    cases neither.2

/-- Where the first of two programs ends, the session that runs both is alike to the one that ran
the first alone, the distances of the second program aside. -/
theorem Reached.pause (reached : Reached programs s) (same : ∀ line, lines line line)
    (load : s.load first = (s', .ok program)) {fuel : Nat}
    (finish : finish? s'.nextId ((s'.state.interpreting program).run fuel) = some (t, .success))
    {r : Scope.Report} {m : Nat} (numbered : r.Numbered s'.nextId m) (extra : List Stmt) :
    ∃ steps completion σ related,
      ((s'.state.record r.occurrences).interpreting (program ++ extra)).run steps =
          ⟨.completed completion, [.program extra], σ⟩ ∧
        σ.distances = t.state.distances.enter r.occurrences ∧
          Alike related lines 0 t ⟨{ σ with distances := t.state.distances }, t.nextId⟩ := by
  obtain ⟨_, beside⟩ := reached.alike same
  have loads := beside.load same first
  rw [load] at loads
  obtain ⟨related, alike, content⟩ : ∃ related, Alike related lines 0 s' s' ∧
      (Link.faithful related lines).Alike [] (.stmts program) (.stmts program) := by
    cases loads with
    | accepted alike content => exact ⟨_, alike, content⟩
  obtain ⟨μ, inStep⟩ := alike.inStep
  have start : (Link.faithful related lines).Configs extra (s'.state.interpreting program)
      ((s'.state.record r.occurrences).interpreting (program ++ extra)) := by
    refine .completed { inStep with distances := fun id id' d hr => ?_, waiting := .program content }
    obtain ⟨found, found'⟩ := inStep.distances id id' d hr
    refine ⟨found, ?_⟩
    rw [State.record_distances, Distances.enter_outside numbered (.inl (alike.before id id' d hr).2)]
    exact found'
  obtain ⟨done, sound, rfl⟩ := finish_of_success finish
  obtain ⟨steps, completion, σ, stands, ends, both⟩ :=
    start.run_to_end ⟨⟨.completed .normal, [], _⟩, program, rfl⟩ done sound
  have kept := Config.distances_run steps (s'.state.interpreting program)
  have kept' := Config.distances_run steps
    ((s'.state.record r.occurrences).interpreting (program ++ extra))
  rw [stands] at both kept
  rw [ends]
  generalize paused : ((s'.state.record r.occurrences).interpreting (program ++ extra)).run steps = c'
    at both kept'
  cases both with
  | @completed μ fs _ σ' _ _ _ inStep' =>
    cases inStep'.waiting with
    | frame frame => cases frame
    | program nothing =>
      cases nothing
      have distances : σ.distances = s'.state.distances := kept
      have distances' : σ'.distances = s'.state.distances.enter r.occurrences := kept'
      refine ⟨steps, completion, σ', related, paused, ?_, ⟨μ, ?_⟩, (Nat.zero_add _).symm,
        alike.before, ?_, ?_⟩
      · rw [distances', distances]
      · refine { inStep' with distances := fun id id' d hr => ?_, waiting := .nothing }
        show σ.distances[id]? = d ∧ σ.distances[id']? = d
        rw [distances]
        exact inStep.distances id id' d hr
      · show ∀ id, s'.nextId ≤ id → σ.distances[id]? = none
        rw [distances]
        exact alike.beyond
      · show ∀ id, s'.nextId ≤ id → σ.distances[id]? = none
        rw [distances]
        exact alike.beyond

/-- All output so far of the run of a program that was loaded, and what it leaves once it ends. -/
def progressOf (fuel : Nat) (s : Session) (program : List Stmt) :
    Sink × Option (Session × Outcome) :=
  let c := (s.state.interpreting program).run fuel
  (c.state.sink, finish? s.nextId c)

/-- The same of a source. -/
def progress (fuel : Nat) (s : Session) (source : String) : Sink × Option (Session × Outcome) :=
  ((s.shown fuel source).1, s.run fuel source)

theorem progress_of_load (load : s.load first = (s', .ok program)) (fuel : Nat) :
    s.progress fuel first = s'.progressOf fuel program := by
  rw [progress, shown, run, load]
  rfl

/-- All output so far is the same, and so is the outcome up to lines, if there is one. Then numbers go
on from the same count, and whatever sources come later show the same up to lines. -/
def GoesOn (lines : Nat → Nat → Prop) (a b : Sink × Option (Session × Outcome)) : Prop :=
  b.1 = a.1 ∧ Option.Rel (fun r r' => r.2.Alike lines r'.2 ∧ r'.1.nextId = r.1.nextId ∧
    ∀ later, List.Forall₂ (ShownAlike lines) (r.1.transcript later) (r'.1.transcript later)) a.2 b.2

theorem Alike.goesOn (h : Alike related lines 0 s s') (same : ∀ line, lines line line)
    (content : (Link.faithful related lines).Alike [] (.stmts program) (.stmts program'))
    (fuel : Nat) : GoesOn lines (s.progressOf fuel program) (s'.progressOf fuel program') := by
  refine ⟨((h.interpreting content).run fuel).sink, ?_⟩
  have results := h.finish content fuel
  rw [progressOf, progressOf]
  generalize finish? s.nextId _ = r, finish? s'.nextId _ = r' at results ⊢
  cases results with
  | none => exact .none
  | some results =>
    obtain ⟨outcomes, _, alike⟩ := results
    exact .some ⟨outcomes, alike.ahead.trans (Nat.zero_add _), alike.transcript same⟩

/-- The run of a longer program from where its first part is over. -/
theorem progressOf_pause {steps n : Nat} {completion : Completion} {σ τ : State} {extra : List Stmt}
    (paused : (σ.interpreting program).run steps = ⟨.completed completion, [.program extra], τ⟩)
    (fuel : Nat) : progressOf (steps + fuel) ⟨σ, n⟩ program = progressOf fuel ⟨τ, n⟩ extra := by
  obtain ⟨sink, ending⟩ := Config.run_between completion extra τ fuel
  rw [progressOf, progressOf, Config.run_add, paused, sink, finish?, finish?, ending]

/-- The second program, from there on and on its own. -/
theorem Alike.resume {σ : State} {line : Nat → Nat} {m : Nat}
    (alike : Alike related lines 0 t ⟨{ σ with distances := t.state.distances }, t.nextId⟩)
    (same : ∀ l, lines l l) (moved : ∀ l, lines l (line l)) (accepted : Accepted program t.nextId m)
    (entered : σ.distances = t.state.distances.enter (resolve program).occurrences) (fuel : Nat) :
    GoesOn lines (progressOf fuel ⟨t.state.record (resolve program).occurrences, m⟩ program)
      (progressOf fuel ⟨σ, m⟩ (Stmt.relabelAll id line program)) := by
  obtain ⟨both, content⟩ := alike.accept moved accepted
  have stay : (0 + · : Nat → Nat) = id := funext Nat.zero_add
  have whole : State.record { σ with distances := t.state.distances } (resolve program).occurrences =
      σ := by
    show ({ σ with distances := t.state.distances.enter _ } : State) = σ
    rw [← entered]
  rw [stay] at content
  rw [stay, Scope.Report.occurrences_relabel_id, whole, Nat.zero_add] at both
  exact both.goesOn same content fuel

/-- A program that is accepted stays so on other lines. -/
theorem Accepted.moved {n m : Nat} (h : Accepted program n m) (line : Nat → Nat)
    (wf : (Scope.Part.stmts (Stmt.relabelAll id line program)).WellFormed Plain) :
    Accepted (Stmt.relabelAll id line program) n m := by
  refine ⟨h.ordered, ?_, wf, ?_⟩
  · rw [Scope.Report.Numbered, resolve_relabel, Scope.Report.occurrences_relabel_id]
    exact h.numbered
  · rw [resolve_relabel, Scope.Report.relabel, h.clean]
    rfl

/-- Two sources one after another do the same as both in one source with a line break between them.
The joined source is read as the two programs with the same numbers, the second one on lines further
on. Once it has come to the end of the first program, it goes on as the session that ran the first
source goes on with the second one, up to lines, and just as this session goes on with the second
program on the lines further on. -/
theorem pieces_run_as_whole {fuel : Nat} (reached : Reached programs s) (passes : Passes second)
    (ran : s.run fuel first = some (t, .success)) :
    ∃ (p₁ p₂ : List Stmt) (u : Session) (steps : Nat),
      let p₂' := Stmt.relabelAll id (shift first) p₂
      let whole := first ++ "\n" ++ second
      (s.load first).2 = .ok p₁ ∧ t.load second = (u, .ok p₂) ∧
        (s.load whole).2 = .ok (p₁ ++ p₂') ∧ (s.load whole).1.nextId = u.nextId ∧
          ∀ fuel, GoesOn (fun l l' => l' = l ∨ l' = shift first l) (t.progress fuel second)
              (s.progress (steps + fuel) whole) ∧
            GoesOn (· = ·) (u.progressOf fuel p₂') (s.progress (steps + fuel) whole) := by
  obtain ⟨s', p₁, load, finish⟩ := run_of_success ran
  obtain ⟨u, p₂, load'⟩ := load_of_passes passes t
  have next : t.nextId = s'.nextId := by rw [(finish_of_success finish).2.2]
  have whole := load_join load load' next
  have accepted := load_ok_accepted load'
  have moved := accepted.moved (shift first) (load_ok_accepted whole).wellFormed.suffix
  have occurrences : (resolve (Stmt.relabelAll id (shift first) p₂)).occurrences =
      (resolve p₂).occurrences := by
    rw [resolve_relabel, Scope.Report.occurrences_relabel_id]
  obtain ⟨steps, completion, σ, related, paused, entered, alike⟩ :=
    reached.pause (fun _ => rfl) load finish (next ▸ accepted.numbered)
      (Stmt.relabelAll id (shift first) p₂)
  have left : u = ⟨t.state.record (resolve p₂).occurrences, u.nextId⟩ := by
    rw [(load_ok load').2.2.2.2]
  have recorded : s.state.record ((resolve p₁).occurrences ++ (resolve p₂).occurrences) =
      s'.state.record (resolve p₂).occurrences := by
    rw [(load_ok load).2.2.2.2]
    simp only [State.record, List.foldl_append]
  rw [← recorded] at paused
  refine ⟨p₁, p₂, u, steps, by rw [load], load', by rw [whole], by rw [whole], fun fuel => ?_⟩
  rw [progress_of_load load', progress_of_load whole, progressOf_pause paused]
  let lines l l' := l' = l ∨ l' = shift first l
  constructor
  · have alike : Alike related lines 0 t _ := alike.mono fun _ _ same => .inl same.symm
    have goesOn := alike.resume (fun _ => .inl rfl) (fun _ => .inr rfl) accepted entered fuel
    rw [← left] at goesOn
    exact goesOn
  · have stay (l : Nat) : l = id l := rfl
    have goesOn := alike.resume (fun _ => rfl) stay moved (occurrences ▸ entered) fuel
    rw [Stmt.relabelAll_same, occurrences, ← left] at goesOn
    exact goesOn

/-- The fault of the second source is found two lines further on. -/
theorem secondFault_run_as_whole :
    let s := initial .unlimited fun _ => 0
    ∃ t, s.run 6 "var a = \"x\";\n" = some (t, .success) ∧ Passes "print b;" ∧
      ∃ steps, ∀ fuel, GoesOn (fun l l' => l' = l ∨ l' = 2 + l)
        (t.progress fuel "print b;")
          (s.progress (steps + fuel) "var a = \"x\";\n\nprint b;") := by
  intro s
  have ended : (s.run 6 "var a = \"x\";\n").map Prod.snd = some .success := by cbv
  obtain ⟨⟨t, outcome⟩, ran, success⟩ := Option.map_eq_some_iff.mp ended
  cases success
  have passes : Passes "print b;" := by cbv
  obtain ⟨_, _, _, steps, _, _, _, _, goesOn⟩ := pieces_run_as_whole (.initial _ _) passes ran
  have joined : "var a = \"x\";\n" ++ "\n" ++ "print b;" = "var a = \"x\";\n\nprint b;" := by decide
  have lines : shift "var a = \"x\";\n" = (2 + ·) := rfl
  rw [joined, lines] at goesOn
  exact ⟨t, ran, passes, steps, fun fuel => (goesOn fuel).1⟩

end Session

end Lox
