import Lox.Proofs.Framed.Loops
import Lox.Proofs.Framed.Sessions
import Lox.Proofs.Grammar.Identities

/-!
# Lowered loops do what was written

A `for` statement of an accepted program is executed in its lowered form, with the distances that
were found for this form. It does the same as the loop does that is carried out as it was written:
the same output, the same values of all names and fields, and the same end, if it ends at all. This
holds from every state in which the environments are those that the scopes around the statement ask
for, and in a session the statement is never executed in any other.
-/
namespace Lox

open Scope (Context Part Report)
open Grammar (Drawn)

/-! ## Numbers -/

/-- The numbers of a part that is visited are different, and below the count. -/
theorem Recorded.drawn {programs : List (List Stmt)} {table : Distances} {n : Nat} {ctx : Context}
    {part : Part} (h : Recorded programs table n) (visited : Visited programs ctx part) :
    Drawn part.ids 0 n := by
  have ids := part.ids_of_clean ctx (h.faultless visited)
  obtain ⟨p, hp, hv⟩ := visited
  constructor
  · intro id hid
    rw [← ids] at hid
    obtain ⟨o, ho, rfl⟩ := List.mem_map.mp hid
    exact ⟨Nat.zero_le _, h.below p hp o (hv.occurrences ho)⟩
  · rw [← ids]
    exact hv.once (h.once p hp)

namespace ForLoop

section
variable {programs : List (List Stmt)} {table : Distances} {n : Nat} {l : ForLoop} {ctx : Context}
  {number : Nat → Nat}

theorem within_renumber : (l.renumber number).within ctx = l.within ctx := by
  obtain ⟨⟨initializer, condition, increment⟩, body, _⟩ := l
  cases initializer with
  | none => rfl
  | some s =>
    have same : Scope.stmt (inside ctx) (s.relabel number id) =
        ((Scope.stmt (inside ctx) s).1, (Scope.stmt (inside ctx) s).2.relabel number id) :=
      Scope.stmt_relabel (inside ctx) s
    exact congrArg (fun r => { inside ctx with scopes := r.1 }) same

theorem parts_renumber : (l.renumber number).parts ctx =
    (l.initializer.map fun s => (inside ctx, Part.stmt (s.relabel number id))).toList ++
      (l.condition.map fun e => (l.within ctx, Part.expr (e.relabel number id))).toList ++
        (l.within ctx, .stmt (l.body.relabel number id)) ::
          (l.increment.map fun e => (l.within ctx, Part.expr (e.relabel number id))).toList := by
  rw [parts, within_renumber]
  simp [renumber, Grammar.ForClauses.relabel, Function.comp_def]

theorem occurrences_renumber : (l.renumber number).occurrences ctx =
    (l.occurrences ctx).map (Scope.Occurrence.renumber number) := by
  rw [occurrences, occurrences, parts_renumber, parts]
  cases l.initializer <;> cases l.condition <;> cases l.increment <;>
    simp [Part.report, Scope.expr_relabel, Scope.stmt_relabel, Report.relabel]

/-- The clauses and the body have the numbers of the lowered statement, in the same order. -/
theorem ids_lowered (l : ForLoop) (ctx : Context) :
    l.lowered.ids = (l.parts ctx).flatMap fun p => p.2.ids := by
  obtain ⟨⟨initializer, condition, increment⟩, body, plain⟩ := l
  cases initializer <;> cases condition <;> cases increment <;>
    simp [lowered, Grammar.ForClauses.loop, parts, Stmt.ids, Stmt.idsOf, Expr.ids, Part.ids]

/-- The occurrences in the clauses and the body have different numbers, below the count. -/
theorem numbered (recorded : Recorded programs table n)
    (visited : Visited programs ctx (.stmt l.lowered)) :
    Report.Numbered ⟨l.occurrences ctx, []⟩ 0 n := by
  have drawn := recorded.drawn visited
  have sublist : ((l.occurrences ctx).map Scope.Occurrence.id).Sublist
      (Part.stmt l.lowered).ids := by
    rw [Part.ids, ids_lowered l ctx, occurrences, List.map_flatMap]
    exact List.Sublist.flatMap_right _ fun p _ => p.2.report_sublist p.1
  exact ⟨fun o ho => drawn.within _ (sublist.subset (List.mem_map_of_mem ho)),
    sublist.nodup drawn.once⟩

end

/-! ## Scopes -/

/-- Where the `while` stands. -/
def site (l : ForLoop) (ctx : Context) : Context :=
  if l.initializer.isSome then l.within ctx else ctx

/-- Where the body and the increment stand in the lowered statement. -/
def bodySite (l : ForLoop) (ctx : Context) : Context :=
  if l.increment.isSome then inside (l.site ctx) else l.site ctx

section
variable {programs : List (List Stmt)} {table : Distances} {n : Nat} {l : ForLoop} {ctx : Context}

theorem visited_initializer (visited : Visited programs ctx (.stmt l.lowered)) {s : Stmt}
    (present : l.initializer = some s) : Visited programs (inside ctx) (.stmt s) := by
  rw [lowered_of_some present] at visited
  exact (visited.enter List.mem_cons_self).enter List.mem_cons_self

theorem visited_while (visited : Visited programs ctx (.stmt l.lowered)) :
    Visited programs (l.site ctx) (.stmt (.whileLoop l.testing l.repeated)) := by
  unfold site within
  cases present : l.initializer with
  | none => exact lowered_of_none present ▸ visited
  | some s =>
    rw [lowered_of_some present] at visited
    have content := visited.enter List.mem_cons_self
    have rest := content.enter (List.mem_cons_of_mem _ List.mem_cons_self)
    exact rest.enter List.mem_cons_self

theorem visited_condition (visited : Visited programs ctx (.stmt l.lowered)) :
    Visited programs (l.site ctx) (.expr l.testing) :=
  (visited_while visited).enter List.mem_cons_self

theorem visited_repeated (visited : Visited programs ctx (.stmt l.lowered)) :
    Visited programs (l.site ctx) (.stmt l.repeated) :=
  (visited_while visited).enter (List.mem_cons_of_mem _ List.mem_cons_self)

theorem visited_body (visited : Visited programs ctx (.stmt l.lowered)) :
    Visited programs (l.bodySite ctx) (.stmt l.body) := by
  have repeated := visited_repeated visited
  obtain ⟨⟨initializer, condition, increment⟩, body, plain⟩ := l
  cases increment with
  | none => exact repeated
  | some e => exact (repeated.enter List.mem_cons_self).enter List.mem_cons_self

/-- The body declares nothing, so the increment stands in the same scopes. -/
theorem visited_increment (recorded : Recorded programs table n)
    (visited : Visited programs ctx (.stmt l.lowered)) {e : Expr}
    (present : l.increment = some e) : Visited programs (l.bodySite ctx) (.expr e) := by
  have repeated := visited_repeated visited
  have wellFormed := recorded.proper (visited_body visited)
  obtain ⟨⟨initializer, condition, increment⟩, body, plain⟩ := l
  cases present
  have rest := (repeated.enter List.mem_cons_self).enter (List.mem_cons_of_mem _ List.mem_cons_self)
  have increment := (rest.enter List.mem_cons_self).enter List.mem_cons_self
  rwa [Context.after_eq wellFormed plain] at increment

/-- The scopes of the loop and those around the `while`. -/
theorem site_framed (recorded : Recorded programs table n)
    (visited : Visited programs ctx (.stmt l.lowered)) :
    l.shape.ContextsFramed (l.within ctx) (l.site ctx) := by
  have initializer {s : Stmt} := visited_initializer (s := s) visited
  obtain ⟨⟨first, condition, increment⟩, body, plain⟩ := l
  cases first with
  | none => exact ⟨.left (.beyond _), rfl, rfl⟩
  | some s =>
    have wellFormed := recorded.proper (initializer rfl)
    have same := Numbering.stmt_framed (w := [.both]) wellFormed fun _ => rfl
    exact same.after (Shape.ContextsFramed.beyond ctx).block

theorem bodySite_framed (recorded : Recorded programs table n)
    (visited : Visited programs ctx (.stmt l.lowered)) :
    l.bodyShape.ContextsFramed (l.within ctx) (l.bodySite ctx) := by
  have site := site_framed recorded visited
  unfold bodyShape bodySite
  split
  · exact site.wrapped
  · exact site

theorem within_receives (recorded : Recorded programs table n)
    (visited : Visited programs ctx (.stmt l.lowered)) : (l.within ctx).Receives := by
  have around := (recorded.regular visited rfl).receives
  have site := (recorded.regular (visited_while visited) rfl).receives
  obtain ⟨⟨first, condition, increment⟩, body, plain⟩ := l
  cases first with
  | none => exact around.block
  | some s => exact site

/-! ## Copies -/

/-- The table with the distances of a copy, numbered from `n` on. -/
def copied (l : ForLoop) (n : Nat) (ctx : Context) (table : Distances) : Distances :=
  table.enter ((l.renumber (n + ·)).occurrences ctx)

/-- Numbers of a copy and of the lowered statement whose distances lead to the same scope. -/
def numbering (l : ForLoop) (n : Nat) (ctx : Context) (table : Distances) : Numbering :=
  (l.copied n ctx table).framed table

theorem copy_numbered (recorded : Recorded programs table n)
    (visited : Visited programs ctx (.stmt l.lowered)) :
    Report.Numbered ⟨(l.renumber (n + ·)).occurrences ctx, []⟩ n (n + n) := by
  rw [occurrences_renumber]
  exact (numbered recorded visited).forward n id

/-- The programs so far are recorded with a copy as well. -/
theorem copied_recorded (recorded : Recorded programs table n)
    (visited : Visited programs ctx (.stmt l.lowered)) :
    Recorded programs (l.copied n ctx table) (n + n) :=
  recorded.reject (copy_numbered recorded visited) (Nat.le_add_left n n)

theorem copied_entered (recorded : Recorded programs table n)
    (visited : Visited programs ctx (.stmt l.lowered)) {p : Context × Part}
    (hp : p ∈ (l.renumber (n + ·)).parts ctx) : Entered (l.copied n ctx table) p.1 p.2 := by
  obtain ⟨range, once⟩ := copy_numbered recorded visited
  intro o ho
  exact Distances.enter_of_mem once (fun o ho => recorded.beyond o.id (range o ho).1)
    (List.mem_flatMap.mpr ⟨p, hp, ho⟩)

/-- A part of the copy in the scopes of the loop, and one of the lowered statement. -/
theorem copy_resolved (recorded : Recorded programs table n)
    (visited : Visited programs ctx (.stmt l.lowered)) {w : Shape} {ctx' : Context}
    {part part' : Part} (code : (Numbering.copies (n + ·)).Framed w part part')
    (contexts : w.ContextsFramed (l.within ctx) ctx') (receives' : ctx'.Receives)
    (listed : (l.within ctx, part) ∈ (l.renumber (n + ·)).parts ctx)
    (visited' : Visited programs ctx' part') : (l.numbering n ctx table).Framed w part part' :=
  code.resolved ⟨contexts, within_receives recorded visited, receives',
    copied_entered recorded visited listed, recorded.resolved visited'⟩

/-- A copy of a loop has distances to the same scopes as the lowered statement. -/
theorem copy_framed (recorded : Recorded programs table n)
    (visited : Visited programs ctx (.stmt l.lowered)) :
    Framed (l.numbering n ctx table) (l.renumber (n + ·)) l := by
  have site := site_framed recorded visited
  have siteReceives := (recorded.regular (visited_while visited) rfl).receives
  have bodySite := bodySite_framed recorded visited
  have bodyReceives := (recorded.regular (visited_body visited) rfl).receives
  constructor
  · show Option.Rel _ (l.initializer.map _) l.initializer
    cases present : l.initializer with
    | none => exact .none
    | some s =>
      have first := visited_initializer visited present
      have around := (recorded.regular first rfl).receives
      have code := Numbering.stmt_copied (n + ·) (w := [.both]) (recorded.proper first) fun _ => rfl
      have listed : (inside ctx, .stmt (s.relabel (n + ·) id)) ∈
          (l.renumber (n + ·)).parts ctx := by simp [parts_renumber, present]
      exact .some (code.resolved ⟨(Shape.ContextsFramed.beyond ctx).block, around, around,
        copied_entered recorded visited listed, recorded.resolved first⟩)
  · show Option.Rel _ (l.condition.map _) l.condition
    cases present : l.condition with
    | none => exact .none
    | some e =>
      have same : l.testing = e := by rw [testing, present, Option.getD_some]
      exact .some (copy_resolved recorded visited (Numbering.expr_copied (n + ·) l.shape e) site
        siteReceives (by simp [parts_renumber, present]) (same ▸ visited_condition visited))
  · have content := visited_body visited
    have code := Numbering.stmt_copied (n + ·) (w := l.bodyShape) (recorded.proper content)
      fun declares => absurd declares (ne_true_of_eq_false l.plain)
    have listed : (l.within ctx, .stmt (l.body.relabel (n + ·) id)) ∈
        (l.renumber (n + ·)).parts ctx := by simp [parts_renumber]
    exact copy_resolved recorded visited code bodySite bodyReceives listed content
  · show Option.Rel _ (l.increment.map _) l.increment
    cases present : l.increment with
    | none => exact .none
    | some e =>
      have shape : l.bodyShape = .right :: l.shape := by simp [bodyShape, present]
      exact .some (copy_resolved recorded visited (Numbering.expr_copied (n + ·) _ e)
        (shape ▸ bodySite) bodyReceives (by simp [parts_renumber, present])
        (visited_increment recorded visited present))

end

/-! ## Both loops -/

/-- How many environments are the same ones in both runs: those that were there, and the loop's own
if the lowered statement has it too. -/
def shared (l : ForLoop) (σ : State) : Nat :=
  σ.store.environments.size + if l.initializer.isSome then 1 else 0

def sides (l : ForLoop) (n : Nat) (σ : State) : Sides where
  loop := l.renumber (n + ·)
  loop' := l
  outer := σ.current
  own := σ.store.nextEnvironment
  own' := if l.initializer.isSome then σ.store.nextEnvironment else σ.current
  pairs e e' := e = e' ∧ e < l.shared σ

end ForLoop

/-- A state in which a part of the programs of a session may be carried out that stands in a
context: the table has the distances of the programs, and the environments are those that the scopes
ask for. -/
structure State.Within (programs : List (List Stmt)) (n : Nat) (ctx : Context) (σ : State) :
    Prop where
  recorded : Recorded programs σ.distances n
  store : σ.store.Scoped programs
  layered : σ.store.Layered
  mirrors : σ.store.Mirrors σ.current ctx.scopes

namespace ForLoop

section
variable {programs : List (List Stmt)} {n : Nat} {l : ForLoop} {ctx : Context} {σ : State}

/-- The state in which a copy of the loop is carried out. -/
def entering (l : ForLoop) (n : Nat) (ctx : Context) (σ : State) : State :=
  { σ with distances := l.copied n ctx σ.distances }

/-- The state of the copy and the state itself stand at the same place. -/
theorem entering_framed (within : σ.Within programs n ctx)
    (visited : Visited programs ctx (.stmt l.lowered)) :
    (l.numbering n ctx σ.distances).InStep ⟨σ.store.self, fun _ _ _ _ => True⟩ σ.store.self []
      .completion (l.entering n ctx σ) σ [] [] where
  store := within.store.framed within.layered (copied_recorded within.recorded visited)
    within.recorded
  pairs _ _ he := he
  depth := rfl
  sink := rfl
  clock := rfl
  resolves := Distances.framed_resolves _ _
  chain := within.mirrors.chain
  waiting := .nothing nofun trivial

/-- With an initializer both loops enter a scope, and start with it. -/
theorem matches_start_of_some (within : σ.Within programs n ctx)
    (visited : Visited programs ctx (.stmt l.lowered)) {s : Stmt}
    (present : l.initializer = some s) :
    ∃ i, Matches (l.numbering n ctx σ.distances) (l.sides n σ)
      ((l.renumber (n + ·)).start (l.entering n ctx σ)) ((σ.executing l.lowered).run i) := by
  have inStep := entering_framed within visited
  have isSome : l.initializer.isSome = true := by rw [present]; rfl
  have own' : (l.sides n σ).own' = σ.store.nextEnvironment := if_pos isSome
  have size : l.shared σ = σ.store.environments.size + 1 := by rw [shared, if_pos isSome]
  have shares (e e' : EnvironmentId) (h : (l.sides n σ).pairs e e') :
      σ.store.self.add σ.store.nextEnvironment σ.store.nextEnvironment e e' := by
    obtain ⟨rfl, lt⟩ := h
    rcases Nat.lt_succ_iff_lt_or_eq.mp (size ▸ lt) with before | rfl
    · exact .inl ⟨rfl, before⟩
    · exact .inr ⟨rfl, rfl⟩
  have entered := inStep.enter .completion inStep.chain .empty
    fun _ _ _ _ _ _ => .nothing nofun trivial
  have meets : (l.sides n σ).Meets _ _ _ _ _ := .of rfl own'.symm shares entered
  have copied : (l.renumber (n + ·)).initializer = some (s.relabel (n + ·) id) :=
    congrArg (Option.map _) present
  have run : (σ.executing l.lowered).run 2 =
      Config.atop ⟨.execute s, [], σ.enter σ.current .empty⟩
        [.sequence [.whileLoop l.testing l.repeated], .restoration σ.current] := by
    rw [lowered_of_some present]
    rfl
  have code := (copy_framed within.recorded visited).initializer
  rw [copied, present] at code
  cases code with
  | some code =>
    refine ⟨2, ?_⟩
    rw [start_of_some copied, run]
    exact .initializing isSome (.execute (meets.start (k := .completion) nofun).settle code)

/-- Without one the lowered loop stays in the scope around, and both start with the condition. -/
theorem matches_start_of_none (within : σ.Within programs n ctx)
    (visited : Visited programs ctx (.stmt l.lowered)) (absent : l.initializer = none) :
    ∃ i, Matches (l.numbering n ctx σ.distances) (l.sides n σ)
      ((l.renumber (n + ·)).start (l.entering n ctx σ)) ((σ.executing l.lowered).run i) := by
  have inStep := entering_framed within visited
  have isNone : ¬l.initializer.isSome = true := by rw [absent]; nofun
  have own' : (l.sides n σ).own' = σ.current := if_neg isNone
  have size : l.shared σ = σ.store.environments.size := by rw [shared, if_neg isNone, Nat.add_zero]
  have shape : l.shape = [.left] := if_neg isNone
  have entered : (l.numbering n ctx σ.distances).InStep ⟨σ.store.self, fun _ _ _ _ => True⟩
      σ.store.self [.left] .completion ((l.entering n ctx σ).enter σ.current .empty) σ [] [] :=
    { inStep.keep (inStep.store.addLeft σ.current) (.addLeft σ.store σ.store _ _) with
      chain := inStep.chain.enterLeft
      waiting := .nothing nofun trivial }
  have meets : (l.sides n σ).Meets (l.numbering n ctx σ.distances) σ.store.self l.shape _ σ :=
    .of rfl own'.symm (fun e e' h => ⟨h.1, size ▸ h.2⟩) (shape ▸ entered)
  obtain ⟨i, tests⟩ := meets.tests (copy_framed within.recorded visited)
  have copied : (l.renumber (n + ·)).initializer = none := congrArg (Option.map _) absent
  have around : l.around σ.current = [] := if_neg isNone
  have run : (σ.executing l.lowered).run 1 = ⟨.evaluate l.testing, l.tested σ.current, σ⟩ := by
    rw [lowered_of_none absent, tested, around]
    rfl
  refine ⟨1 + i, ?_⟩
  rw [Config.run_add, run, start_of_none copied]
  exact tests

/-- Both loops start alike. -/
theorem matches_start (within : σ.Within programs n ctx)
    (visited : Visited programs ctx (.stmt l.lowered)) :
    ∃ i, Matches (l.numbering n ctx σ.distances) (l.sides n σ)
      ((l.renumber (n + ·)).start (l.entering n ctx σ)) ((σ.executing l.lowered).run i) := by
  cases initializer : l.initializer with
  | some s => exact matches_start_of_some within visited initializer
  | none => exact matches_start_of_none within visited initializer

/-- However far the one loop is, the lowered one gets there. -/
theorem matches_moment (within : σ.Within programs n ctx)
    (visited : Visited programs ctx (.stmt l.lowered)) (k : Nat) :
    ∃ i, k ≤ i ∧ Matches (l.numbering n ctx σ.distances) (l.sides n σ) (l.direct n ctx σ k)
      ((σ.executing l.lowered).run i) := by
  have framed := copy_framed within.recorded visited
  have home (absent : l.initializer = none) : (l.sides n σ).own' = (l.sides n σ).outer :=
    if_neg (by rw [absent]; nofun)
  exact Matches.moments (s := l.sides n σ) (τ := l.entering n ctx σ) rfl
    (matches_start within visited) framed home k

/-- What matches has the same values. -/
theorem Matches.framed {k i : Nat}
    (h : Matches (l.numbering n ctx σ.distances) (l.sides n σ) (l.direct n ctx σ k)
      ((σ.executing l.lowered).run i)) :
    (l.direct n ctx σ k).part.state.Framed (l.shared σ) ((σ.executing l.lowered).run i).state := by
  obtain ⟨G, ρ, pairs, beside⟩ := h.beside
  have table : (l.direct n ctx σ k).part.state.distances = l.copied n ctx σ.distances :=
    distances_moment _ _ k
  have table' : ((σ.executing l.lowered).run i).state.distances = σ.distances :=
    Config.distances_run i _
  rw [numbering, ← table, ← table'] at beside
  exact beside.framed fun e he => pairs ▸ ⟨rfl, he⟩

end

/-! ## The lowered loop -/

/-- A loop is left, with a result that the lowered one has as well, in the environment around both
and with the same values. -/
structure LeftAlike (shared : Nat) (outer : EnvironmentId) (m : Moment) (control : Control)
    (σ' : State) : Prop where
  left : m.phase = .left
  result : control = m.part.control
  current : m.part.state.current = outer
  current' : σ'.current = outer
  framed : m.part.state.Framed shared σ'

/-- The lowered loop does what the loop does that is carried out as it was written, whatever waits
for it. It comes to the same values as each moment of the other one and goes on as long, it ends if
the other one is left, and only then. Meanwhile the other one works in one scope. -/
structure Preserved (l : ForLoop) (n : Nat) (ctx : Context) (σ : State) : Prop where
  moments : ∀ below k, ∃ i, ((l.direct n ctx σ k).phase ≠ .left → k ≤ i) ∧
    (l.direct n ctx σ k).part.state.Framed (l.shared σ)
      (Config.run i ⟨.execute l.lowered, below, σ⟩).state
  leaves : ∀ below k, (l.direct n ctx σ k).phase = .left → ∃ i control σ',
    Config.run i ⟨.execute l.lowered, below, σ⟩ = ⟨control, below, σ'⟩ ∧
      LeftAlike (l.shared σ) σ.current (l.direct n ctx σ k) control σ'
  ends : ∀ i, ((σ.executing l.lowered).run i).finished = true → ∃ k,
    LeftAlike (l.shared σ) σ.current (l.direct n ctx σ k)
      ((σ.executing l.lowered).run i).control ((σ.executing l.lowered).run i).state
  oneScope : OneScope σ.store.nextEnvironment σ.current (l.direct n ctx σ)

section
variable {programs : List (List Stmt)} {n : Nat} {l : ForLoop} {ctx : Context} {σ : State}

theorem Matches.leftAlike {k i : Nat}
    (h : Matches (l.numbering n ctx σ.distances) (l.sides n σ) (l.direct n ctx σ k)
      ((σ.executing l.lowered).run i)) (left : (l.direct n ctx σ k).phase = .left) :
    LeftAlike (l.shared σ) σ.current (l.direct n ctx σ k)
      ((σ.executing l.lowered).run i).control ((σ.executing l.lowered).run i).state := by
  obtain ⟨result, current, current'⟩ := h.results left
  exact ⟨left, result, current, current', h.framed⟩

theorem preserved (within : σ.Within programs n ctx)
    (visited : Visited programs ctx (.stmt l.lowered)) :
    l.Preserved n ctx σ where
  moments below k := by
    obtain ⟨i, le, matched⟩ := matches_moment within visited k
    obtain ⟨j, same, counted⟩ := (σ.executing l.lowered).run_atop_same below i
    refine ⟨j, fun going => ?_, (congrArg Config.state same).symm ▸ matched.framed⟩
    rcases counted with rfl | ⟨done, last⟩
    · exact le
    · exact absurd (matched.left_iff.mpr (last ▸ done)) going
  leaves below k left := by
    obtain ⟨i, le, matched⟩ := matches_moment within visited k
    obtain ⟨j, same, -⟩ := (σ.executing l.lowered).run_atop_same below i
    have idle := Config.pending_of_finished (matched.left_iff.mp left)
    refine ⟨j, _, _, same.trans ?_, matched.leftAlike left⟩
    rw [Config.atop, idle]
    rfl
  ends i done := by
    obtain ⟨j, le, matched⟩ := matches_moment within visited i
    have last : (σ.executing l.lowered).run j = (σ.executing l.lowered).run i := by
      rw [← Nat.add_sub_of_le le, Config.run_add, Config.run_of_finished done]
    rw [last] at matched
    exact ⟨i, matched.leftAlike (matched.left_iff.mpr done)⟩
  oneScope := by
    have sparing := Stmt.sparing_of_wellFormed (within.recorded.proper (visited_body visited))
      l.plain
    exact oneScope _ (l.entering n ctx σ) ((Stmt.sparing_relabel l.body).trans sparing)

end

end ForLoop

/-! ## Sessions -/

section
variable {programs : List (List Stmt)} {s s' : Session} {source : String} {program : List Stmt}

/-- Where a statement is executed, the environments are those that the scopes around it ask for. -/
theorem Session.Reached.within (reached : Session.Reached programs s)
    (load : s.load source = (s', .ok program)) {fuel : Nat} {stmt : Stmt} {c : Config}
    (moment : (s'.state.interpreting program).run fuel = c) (executed : c.control = .execute stmt) :
    ∃ ctx, Visited (program :: programs) ctx (.stmt stmt) ∧
      c.state.Within (program :: programs) s'.nextId ctx := by
  have accepted := reached.scoped.accept load
  have running := accepted.running fuel
  have recorded : Recorded (program :: programs) c.state.distances s'.nextId := by
    rw [← moment, Config.distances_run]
    exact accepted.recorded
  have layered : c.state.store.Layered := by
    obtain ⟨_, _, _, _, rfl⟩ := Session.load_ok load
    have valid : (s.state.record (resolve program).occurrences).Valid := reached.valid.same rfl rfl
    exact moment ▸ ((valid.interpreting program).run fuel).layered
  rw [moment] at running
  cases running with
  | @execute ctx _ _ _ visited store active =>
    cases executed
    exact ⟨ctx, visited, recorded, store, layered, active.mirrors⟩
  | _ => cases executed

end

namespace ForLoop

/-- What is read from a `for` on is a loop that is lowered. -/
theorem lowered_of_for {input left : Grammar.Input} {keyword : Token} {lt : left.size < input.size}
    (next : input.next? = some ⟨keyword, left, lt⟩) (keyed : keyword.kind = .keyword .forWord) :
    (Grammar.statement input).Gives fun tree _ => ∃ l : ForLoop, tree = l.lowered := by
  rw [Grammar.statement, next]
  simp only [keyed]
  refine (Grammar.built_forClauses (Nat.le_refl _)).andThen fun clauses s₁ h₁ _ => ?_
  refine (Grammar.built_statement s₁ (Nat.le_refl _)).andThen fun body s₂ h₂ built => ?_
  exact Grammar.Reply.gives_pure ⟨⟨clauses, body, built.2⟩, rfl⟩

/-- Lowering a `for` statement makes no difference. In every state whose environments are those
that the scopes around the statement ask for, its lowered form does what the loop does that is
carried out as it was written; and in a session it is executed in such states only. -/
theorem lowering_unobservable (l : ForLoop) :
    (∀ programs n ctx (σ : State), σ.Within programs n ctx →
      Visited programs ctx (.stmt l.lowered) → l.Preserved n ctx σ) ∧
    ∀ programs s s' source program fuel, Session.Reached programs s →
      s.load source = (s', .ok program) →
      let c := (s'.state.interpreting program).run fuel
      c.control = .execute l.lowered →
        ∃ ctx, Visited (program :: programs) ctx (.stmt l.lowered) ∧
          c.state.Within (program :: programs) s'.nextId ctx ∧
            l.Preserved s'.nextId ctx c.state := by
  constructor
  · intro programs n ctx σ within visited
    exact preserved within visited
  · intro programs s s' source program fuel reached load c executed
    obtain ⟨ctx, visited, within⟩ := reached.within load rfl executed
    exact ⟨ctx, visited, within, preserved within visited⟩

/-- The loop is left after its variable was set by the increment. -/
def once : ForLoop where
  initializer := some (.varDecl ⟨.identifier, "again", 1⟩ (some (.literal (.bool true))))
  condition := some (.var 0 ⟨.identifier, "again", 1⟩)
  increment := some (.assign 2 ⟨.identifier, "again", 1⟩ (.literal (.bool false)))
  body := .print (.literal (.string "once"))
  plain := rfl

theorem once_preserved :
    ∃ s' program, (Session.initial .unlimited fun _ => 0).load
        "for (var again = true; again; again = false) print \"once\";" = (s', .ok program) ∧
      let c := (s'.state.interpreting program).run 1
      c.control = .execute once.lowered ∧ ∃ ctx k, once.Preserved 3 ctx c.state ∧
        (once.direct 3 ctx c.state k).phase = .left ∧
          (once.direct 3 ctx c.state k).part.control = .completed .normal ∧
          (once.direct 3 ctx c.state k).part.state.sink.written = "once\n".toUTF8 := by
  let program : List Stmt := [once.lowered]
  let σ := (State.initial .unlimited fun _ => 0).record (resolve program).occurrences
  let c := (σ.interpreting program).run 1
  have load : (Session.initial .unlimited fun _ => 0).load
      "for (var again = true; again; again = false) print \"once\";" = (⟨σ, 3⟩, .ok program) := by
    cbv
  have executed : c.control = .execute once.lowered := by cbv
  have done : ((c.state.executing once.lowered).run 40).finished = true := by cbv
  have result : ((c.state.executing once.lowered).run 40).control = .completed .normal := by cbv
  have written : ((c.state.executing once.lowered).run 40).state.sink.written =
      "once\n".toUTF8 := by
    cbv
  obtain ⟨ctx, -, -, (preserved : once.Preserved 3 ctx c.state)⟩ :=
    (lowering_unobservable once).2 [] _ _ _ program 1 (.initial _ _) load executed
  obtain ⟨k, left⟩ := preserved.ends 40 done
  have control := left.result.symm.trans result
  have same := (congrArg Sink.written left.framed.sink).symm.trans written
  exact ⟨_, program, load, executed, ctx, k, preserved, left.left, control, same⟩

end ForLoop

end Lox
