import Lox.Proofs.Alike.Relabelling
import Lox.Proofs.Machine.Calls
import Lox.Proofs.Machine.Frames
import Lox.Proofs.Machine.Sparing
import Lox.Proofs.Session.Reached

/-!
# Loops as they are written

A `for` statement is lowered to a `while` in up to two blocks. Here it is carried out as it was
written: the initializer runs once, in a scope of the loop's own; then the condition is tested, the
body runs and the increment is evaluated, all three in this scope, over and over. The distances of
the names are those that this scope gives. A loop that is carried out so has copies of the clauses
and of the body with numbers of their own, for there may be functions in the store that came from
the same text.
-/
namespace Lox

open Scope (Context Part Occurrence)

theorem Stmt.sparing_relabel {number line : Nat → Nat} (s : Stmt) :
    (s.relabel number line).sparing = s.sparing := by
  cases s with
  | ifElse condition thenBranch other =>
    cases other with
    | none => exact sparing_relabel thenBranch
    | some other => exact congrArg₂ _ (sparing_relabel thenBranch) (sparing_relabel other)
  | whileLoop condition body => exact sparing_relabel body
  | classDecl name parent methods => cases parent <;> rfl
  | _ => rfl

theorem Stmt.declares_relabel {number line : Nat → Nat} (s : Stmt) :
    (s.relabel number line).declares = s.declares := by
  cases s with
  | classDecl name parent methods => cases parent <;> rfl
  | ifElse condition thenBranch other => cases other <;> rfl
  | _ => rfl

/-- A `for` statement before it is lowered. Its body is a statement, no declaration. -/
structure ForLoop extends Grammar.ForClauses where
  body : Stmt
  plain : body.declares = false

namespace ForLoop

/-- What stands for the statement in the tree. -/
def lowered (l : ForLoop) : Stmt := l.toForClauses.loop l.body

/-- A copy with other numbers. -/
def renumber (number : Nat → Nat) (l : ForLoop) : ForLoop :=
  ⟨l.toForClauses.relabel number id, l.body.relabel number id,
    l.body.declares_relabel.trans l.plain⟩

/-! ## Scopes -/

/-- A new scope within those around. -/
def inside (ctx : Context) : Context := { ctx with scopes := .empty :: ctx.scopes }

/-- The scope of the loop, with what its initializer declares. -/
def within (l : ForLoop) (ctx : Context) : Context :=
  match l.initializer with
  | some s => (inside ctx).after s
  | none => inside ctx

/-- The clauses and the body, each in its scopes. -/
def parts (l : ForLoop) (ctx : Context) : List (Context × Part) :=
  (l.initializer.map fun s => (inside ctx, Part.stmt s)).toList ++
    (l.condition.map fun e => (l.within ctx, Part.expr e)).toList ++
    (l.within ctx, .stmt l.body) :: (l.increment.map fun e => (l.within ctx, Part.expr e)).toList

def occurrences (l : ForLoop) (ctx : Context) : List Occurrence :=
  (l.parts ctx).flatMap fun p => (p.2.report p.1).occurrences

/-! ## Execution -/

inductive Phase where
  | initializing
  | testing
  | repeating
  | advancing
  | left
  deriving DecidableEq

/-- What a loop is at, and how far. -/
structure Moment where
  phase : Phase
  part : Config

section
variable (l : ForLoop)

def iterate (σ : State) : Moment := ⟨.repeating, σ.executing l.body⟩

/-- An absent condition holds. -/
def test (σ : State) : Moment :=
  match l.condition with
  | some e => ⟨.testing, σ.evaluating e⟩
  | none => l.iterate σ

def advance (σ : State) : Moment :=
  match l.increment with
  | some e => ⟨.advancing, σ.evaluating e⟩
  | none => l.test σ

/-- The loop is entered. -/
def start (σ : State) : Moment :=
  let entered := σ.enter σ.current .empty
  match l.initializer with
  | some s => ⟨.initializing, entered.executing s⟩
  | none => l.test entered

/-- The end of the loop gives back the environment around it. -/
def leave (outer : EnvironmentId) (control : Control) (σ : State) : Moment :=
  ⟨.left, ⟨control, [], { σ with current := outer }⟩⟩

/-- What comes after a clause or the body. A return and a fault leave the loop at once. -/
def next (outer : EnvironmentId) (phase : Phase) (control : Control) (σ : State) : Moment :=
  match phase, control with
  | .initializing, .completed .normal => l.test σ
  | .testing, .value v => if v.truthy then l.iterate σ else leave outer (.completed .normal) σ
  | .repeating, .completed .normal => l.advance σ
  | .advancing, .value _ => l.test σ
  | _, control => leave outer control σ

def step (outer : EnvironmentId) (m : Moment) : Moment :=
  if m.phase = .left then m
  else if m.part.finished then l.next outer m.phase m.part.control m.part.state
  else { m with part := m.part.step }

/-- The moments of the loop that starts in a state. -/
def moment (σ : State) : Nat → Moment
  | 0 => l.start σ
  | k + 1 => l.step σ.current (moment σ k)

/-- The loop is carried out with new numbers, from `n` on, for which the distances are entered. -/
def direct (n : Nat) (ctx : Context) (σ : State) : Nat → Moment :=
  let copy := l.renumber (n + ·)
  copy.moment { σ with distances := σ.distances.enter (copy.occurrences ctx) }

end

/-! ## What a step does -/

/-- The loop goes on with a clause after the initializer or with its body, or is left. -/
inductive GoesOn (l : ForLoop) (outer : EnvironmentId) (σ : State) : Moment → Prop where
  | clause {phase : Phase} (e : Expr) (later : phase ≠ .initializing ∧ phase ≠ .left) :
      GoesOn l outer σ ⟨phase, σ.evaluating e⟩
  | body : GoesOn l outer σ (l.iterate σ)
  | left {control : Control} (result : ∀ s, control ≠ .execute s) :
      GoesOn l outer σ (leave outer control σ)

section
variable {l : ForLoop} {outer : EnvironmentId} {σ : State}

theorem test_goesOn : GoesOn l outer σ (l.test σ) := by
  unfold test
  split
  · exact .clause _ (by decide)
  · exact .body

theorem advance_goesOn : GoesOn l outer σ (l.advance σ) := by
  unfold advance
  split
  · exact .clause _ (by decide)
  · exact test_goesOn

theorem next_goesOn (phase : Phase) {control : Control} (result : ∀ s, control ≠ .execute s) :
    GoesOn l outer σ (l.next outer phase control σ) := by
  unfold next
  split
  · exact test_goesOn
  · split
    · exact .body
    · exact .left nofun
  · exact advance_goesOn
  · exact test_goesOn
  · exact .left result

/-- A step of the loop: nothing once it is left, else a step of the clause or body it is at, or what
comes after it. -/
theorem step_cases (l : ForLoop) (outer : EnvironmentId) (m : Moment) :
    (m.phase = .left ∧ l.step outer m = m) ∨
    (m.phase ≠ .left ∧ m.part.finished = false ∧ l.step outer m = { m with part := m.part.step }) ∨
    m.phase ≠ .left ∧ m.part.finished = true ∧ m.part.pending = [] ∧
      GoesOn l outer m.part.state (l.step outer m) := by
  unfold step
  split
  · next left => exact .inl ⟨left, rfl⟩
  · next going =>
    split
    · next done =>
      refine .inr (.inr ⟨going, done, Config.pending_of_finished done, next_goesOn _ ?_⟩)
      obtain ⟨phase, control, pending, τ⟩ := m
      rintro s rfl
      cases done
    · next unfinished => exact .inr (.inl ⟨going, by simpa using unfinished, rfl⟩)

end

/-! ## One scope -/

/-- All that the loop does is done in one environment `a` within the one around. After the
initializer no name is bound in it any more, so that what the body declares is never found by the
increment or in the next iteration; and what functions and methods the statements of the loop make,
close over it. -/
structure OneScope (a outer : EnvironmentId) (moments : Nat → Moment) : Prop where
  inside : ∀ k, (moments k).part.state.store.enclosing? a = some outer
  goesBack : ∀ k, (moments k).phase ≠ .left →
    lastEnvironment (moments k).part.state.current (moments k).part.pending = a
  names : ∀ k k', k ≤ k' → (moments k).phase ≠ .initializing → ∀ name,
    ((moments k').part.state.store.local? a name).isSome =
      ((moments k).part.state.store.local? a name).isSome
  closures : ∀ k k' c, k < k' → (moments k).phase ≠ .left →
    calls (moments k).part.pending = 0 → (moments k).part.Makes c →
      (moments k').part.state.store.Outwards c.environment a

/-- The part that is at hand works in the environment `a`, or in one of a block within it. -/
structure Moment.WorksIn (a : EnvironmentId) (m : Moment) : Prop where
  goesBack : lastEnvironment m.part.state.current m.part.pending = a
  counted : calls m.part.pending ≤ m.part.state.depth
  owned : ∀ x ∈ m.part.owned, m.part.state.store.Outwards x a

section
variable {l : ForLoop} {σ : State} {a outer : EnvironmentId} {bound : String → Bool} {m : Moment}

theorem lasts_step (l : ForLoop) (outer : EnvironmentId) (m : Moment) :
    m.part.state.store.Lasts (l.step outer m).part.state.store := by
  rcases l.step_cases outer m with ⟨_, same⟩ | ⟨_, _, same⟩ | ⟨_, _, _, goesOn⟩
  · rw [same]
    exact .refl _
  · rw [same]
    exact m.part.step_lasts
  · generalize l.step outer m = later at goesOn
    cases goesOn <;> exact .refl _

theorem lasts (l : ForLoop) (σ : State) {k k' : Nat} (le : k ≤ k') :
    (l.moment σ k).part.state.store.Lasts (l.moment σ k').part.state.store := by
  induction le with
  | refl => exact .refl _
  | step _ ih => exact ih.trans (lasts_step _ _ _)

theorem distances_step (l : ForLoop) (outer : EnvironmentId) (m : Moment) :
    (l.step outer m).part.state.distances = m.part.state.distances := by
  rcases l.step_cases outer m with ⟨_, same⟩ | ⟨_, _, same⟩ | ⟨_, _, _, goesOn⟩
  · rw [same]
  · rw [same]
    exact m.part.distances_step
  · generalize l.step outer m = later at goesOn
    cases goesOn <;> rfl

theorem start_state (l : ForLoop) (σ : State) :
    (l.start σ).part.state = σ.enter σ.current .empty := by
  unfold start test iterate
  (repeat' split) <;> rfl

/-- The table of distances is not changed. -/
theorem distances_moment (l : ForLoop) (σ : State) (k : Nat) :
    (l.moment σ k).part.state.distances = σ.distances := by
  induction k with
  | zero =>
    rw [moment, start_state]
    rfl
  | succ k ih => rw [moment, distances_step, ih]

theorem start_cases (l : ForLoop) (outer : EnvironmentId) (σ : State) :
    (∃ s, l.start σ = ⟨.initializing, (σ.enter σ.current .empty).executing s⟩) ∨
      GoesOn l outer (σ.enter σ.current .empty) (l.start σ) := by
  unfold start
  split
  · exact .inl ⟨_, rfl⟩
  · exact .inr test_goesOn

/-- The environment of the loop is made at the start. -/
theorem enclosed (l : ForLoop) (σ : State) (k : Nat) :
    (l.moment σ k).part.state.store.enclosing? σ.store.nextEnvironment = some σ.current := by
  refine (l.lasts σ (Nat.zero_le k)).enclosed ?_
  rw [moment, start_state]
  exact (Store.enclosing?_addEnvironment _ _ _ _).trans (if_pos rfl)

theorem Moment.WorksIn.fresh (here : σ.current = a) (phase : Phase) (control : Control) :
    Moment.WorksIn a ⟨phase, control, [], σ⟩ := by
  refine ⟨here, Nat.zero_le _, fun x hx => ?_⟩
  obtain rfl := List.mem_singleton.mp hx
  rw [here]
  exact .refl

theorem GoesOn.worksIn (h : GoesOn l outer σ m) (here : σ.current = a) (going : m.phase ≠ .left) :
    m.WorksIn a := by
  cases h with
  | clause | body => exact .fresh here _ _
  | left => exact absurd rfl going

/-- A block that is entered is within the environment in use. -/
theorem Moment.WorksIn.step (h : m.WorksIn a) :
    Moment.WorksIn a { m with part := m.part.step } := by
  have balanced := m.part.balanced_step h.counted
  have kept {x : EnvironmentId} (outwards : m.part.state.store.Outwards x a) :
      m.part.step.state.store.Outwards x a :=
    outwards.lasts m.part.step_lasts
  refine ⟨balanced.environment.trans h.goesBack, ?_, fun x hx => ?_⟩
  · have depth := balanced.depth
    have counted := h.counted
    show calls m.part.step.pending ≤ m.part.step.state.depth
    omega
  · rcases m.part.owned_step x hx with old | ⟨⟨body, opens⟩, here, rfl⟩
    · exact kept (h.owned x old)
    · refine .head ?_ (kept (h.owned _ here))
      obtain ⟨phase, control, pending, τ⟩ := m
      obtain rfl : control = .execute (.block body) := opens
      exact (Store.enclosing?_addEnvironment _ _ _ _).trans (if_pos rfl)

theorem worksIn (l : ForLoop) (σ : State) (k : Nat) (going : (l.moment σ k).phase ≠ .left) :
    (l.moment σ k).WorksIn σ.store.nextEnvironment := by
  induction k with
  | zero =>
    rcases l.start_cases σ.current σ with ⟨s, first⟩ | goesOn
    · rw [moment, first]
      exact .fresh (σ := σ.enter σ.current .empty) rfl _ _
    · exact goesOn.worksIn rfl going
  | succ k ih =>
    have next : l.moment σ (k + 1) = l.step σ.current (l.moment σ k) := rfl
    rw [next] at going ⊢
    rcases l.step_cases σ.current (l.moment σ k) with
      ⟨left, same⟩ | ⟨working, _, same⟩ | ⟨working, _, idle, goesOn⟩
    · rw [same] at going
      exact absurd left going
    · rw [same]
      exact (ih working).step
    · have here := (ih working).goesBack
      rw [idle] at here
      exact goesOn.worksIn here going

/-- Neither the clauses after the initializer nor the body declare anything. -/
theorem GoesOn.keeps (h : GoesOn l outer σ m) (sparing : l.body.sparing = true)
    (names : σ.store.Names a bound) : m.part.Keeps a bound := by
  cases h with
  | clause e => exact .result names trivial rfl
  | body =>
    refine ⟨names, fun _ s hs => ?_, trivial⟩
    cases hs
    exact sparing
  | left result => exact .result names trivial (Control.executed?_eq_none result)

theorem keeps_step (sparing : l.body.sparing = true) (h : m.part.Keeps a bound) :
    (l.step outer m).part.Keeps a bound := by
  rcases l.step_cases outer m with ⟨_, same⟩ | ⟨_, _, same⟩ | ⟨_, _, _, goesOn⟩
  · rw [same]
    exact h
  · rw [same]
    exact h.step
  · exact goesOn.keeps sparing h.names

/-- Once the initializer is done, the names that are bound stay the same. -/
theorem keeps (sparing : l.body.sparing = true) (k : Nat)
    (initialized : (l.moment σ k).phase ≠ .initializing) :
    ∃ bound, (l.moment σ k).part.Keeps σ.store.nextEnvironment bound := by
  have names (τ : Store) (made : τ.enclosing? σ.store.nextEnvironment = some σ.current) :
      τ.Names σ.store.nextEnvironment
        fun name => (τ.local? σ.store.nextEnvironment name).isSome :=
    ⟨Store.lt_of_enclosing? made, fun _ => rfl⟩
  induction k with
  | zero =>
    rcases l.start_cases σ.current σ with ⟨s, first⟩ | goesOn
    · rw [moment, first] at initialized
      exact absurd rfl initialized
    · have made := l.enclosed σ 0
      rw [moment, start_state] at made
      exact ⟨_, goesOn.keeps sparing (names _ made)⟩
  | succ k ih =>
    have next : l.moment σ (k + 1) = l.step σ.current (l.moment σ k) := rfl
    rw [next] at initialized ⊢
    rcases l.step_cases σ.current (l.moment σ k) with
      ⟨_, same⟩ | ⟨_, _, same⟩ | ⟨_, _, _, goesOn⟩
    · rw [same] at initialized ⊢
      exact ih initialized
    · rw [same] at initialized ⊢
      obtain ⟨bound, keeps⟩ := ih initialized
      exact ⟨bound, keeps.step⟩
    · exact ⟨_, goesOn.keeps sparing (names _ (l.enclosed σ k))⟩

/-- Functions and methods are made in the environment in use, or within it. -/
theorem makes_outwards {c : Closure} {k : Nat} (going : (l.moment σ k).phase ≠ .left)
    (outside : calls (l.moment σ k).part.pending = 0) (makes : (l.moment σ k).part.Makes c) :
    (l.moment σ (k + 1)).part.state.store.Outwards c.environment σ.store.nextEnvironment := by
  have next : l.moment σ (k + 1) = { l.moment σ k with part := (l.moment σ k).part.step } := by
    show l.step σ.current (l.moment σ k) = _
    rw [step, if_neg going, makes.unfinished]
    rfl
  have works := l.worksIn σ k going
  have here := (works.owned _ (mem_owned outside _)).lasts (l.moment σ k).part.step_lasts
  rw [next]
  rcases makes.environment with same | ⟨_, inside, _⟩
  · rw [same]
    exact here
  · exact .head inside here

/-- A loop is carried out in one scope. -/
theorem oneScope (l : ForLoop) (σ : State) (sparing : l.body.sparing = true) :
    OneScope σ.store.nextEnvironment σ.current (l.moment σ) where
  inside := l.enclosed σ
  goesBack k going := (l.worksIn σ k going).goesBack
  names k k' le initialized name := by
    obtain ⟨bound, keeps⟩ := l.keeps sparing k initialized
    have later : (l.moment σ k').part.Keeps σ.store.nextEnvironment bound := by
      induction le with
      | refl => exact keeps
      | step _ ih => exact keeps_step sparing ih
    rw [later.names.locals, keeps.names.locals]
  closures k k' c before going outside makes :=
    (makes_outwards going outside makes).lasts (l.lasts σ before)

end

end ForLoop

end Lox
