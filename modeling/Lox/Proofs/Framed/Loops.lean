import Lox.Proofs.Framed.Steps
import Lox.Proofs.Machine.Loops

/-!
# Loops that are lowered

A moment of a loop that is carried out as it was written matches a configuration of the lowered one
if the clause or the body that is at hand goes alike in both, and what waits in the lowered one is
what is left of its blocks and its `while`. A step of the first loop is one or more steps of the
second one.
-/
namespace Lox

namespace ForLoop

/-! ## Code -/

/-- The condition of the `while`. -/
def testing (l : ForLoop) : Expr := l.condition.getD (.literal (.bool true))

/-- The body of the `while`. -/
def repeated (l : ForLoop) : Stmt :=
  match l.increment with
  | some e => .block [l.body, .expression e]
  | none => l.body

section
variable {l : ForLoop} {s : Stmt} {σ : State}

theorem lowered_of_some (present : l.initializer = some s) :
    l.lowered = .block [s, .whileLoop l.testing l.repeated] := by
  obtain ⟨⟨initializer, condition, increment⟩, body, plain⟩ := l
  cases present
  rfl

theorem lowered_of_none (absent : l.initializer = none) :
    l.lowered = .whileLoop l.testing l.repeated := by
  obtain ⟨⟨initializer, condition, increment⟩, body, plain⟩ := l
  cases absent
  rfl

theorem start_of_some (present : l.initializer = some s) :
    l.start σ = ⟨.initializing, (σ.enter σ.current .empty).executing s⟩ := by
  simp [start, present]

theorem start_of_none (absent : l.initializer = none) :
    l.start σ = l.test (σ.enter σ.current .empty) := by
  simp [start, absent]

end

/-- The loop has a scope of its own, and the lowered one only if there is an initializer. -/
def shape (l : ForLoop) : Shape := if l.initializer.isSome then [.both] else [.left]

/-- Around the body and the increment the lowered loop has another scope, if there is an
increment. -/
def bodyShape (l : ForLoop) : Shape := if l.increment.isSome then .right :: l.shape else l.shape

/-- The parts of a loop and of one that is lowered, framed alike. -/
structure Framed (K : Numbering) (l l' : ForLoop) : Prop where
  initializer : Option.Rel (fun s s' => K.Framed [.both] (.stmt s) (.stmt s'))
    l.initializer l'.initializer
  condition : Option.Rel (fun e e' => K.Framed l'.shape (.expr e) (.expr e'))
    l.condition l'.condition
  body : K.Framed l'.bodyShape (.stmt l.body) (.stmt l'.body)
  increment : Option.Rel (fun e e' => K.Framed (.right :: l'.shape) (.expr e) (.expr e'))
    l.increment l'.increment

end ForLoop

/-! ## Parts that meet -/

/-- Two runs that end in one way only. -/
def Ground.meeting (P : Pairing) (k : Expected) (e e' : EnvironmentId) (w : Shape) : Ground where
  pairs := P
  ends k₁ e₁ e₁' w₁ := k₁ = k ∧ e₁ = e ∧ e₁' = e' ∧ w₁ = w

section
variable {K : Numbering} {G : Ground} {P ρ : Pairing} {w : Shape} {k : Expected} {σ σ' : State}
  {pending pending' : List Pending} {a b : EnvironmentId} {c c' : Config}

/-- New parts start where the runs are. -/
theorem Numbering.InStep.restart (k' : Expected) (h : K.InStep G ρ w k σ σ' pending pending')
    (pairs : ∀ e e', P e e' → ρ e e') (settled : k' ≠ .exit) :
    K.InStep (.meeting P k' σ.current σ'.current w) ρ w k' σ σ' [] [] :=
  { h with pairs, waiting := .nothing settled ⟨rfl, rfl, rfl, rfl⟩ }

theorem Numbering.Configs.beside (h : K.Configs G c c') :
    ∃ ρ, K.Beside G ρ c.state c'.state := by
  cases h with
  | evaluate inStep | execute inStep | value _ inStep | completed _ inStep | failed _ inStep =>
    exact ⟨_, inStep.toBeside⟩

/-- A run over what waits comes to the same configurations, after as many steps or once it is
finished. -/
theorem Config.run_atop_same (c : Config) (below : List Pending) (n : Nat) :
    ∃ m, (c.atop below).run m = (c.run n).atop below ∧
      (m = n ∨ (c.run m).finished = true ∧ c.run n = c.run m) := by
  obtain ⟨m, le, same, done⟩ := c.run_atop below n
  rcases Nat.lt_or_eq_of_le le with earlier | rfl
  · have last : c.run n = c.run m := by
      rw [← Nat.add_sub_of_le le, run_add, run_of_finished (done earlier)]
    exact ⟨m, by rw [same m (Nat.le_refl m), last], .inr ⟨done earlier, last⟩⟩
  · exact ⟨m, same m (Nat.le_refl m), .inl rfl⟩

/-- A step of the first run over what waits in the second one. -/
theorem Numbering.Configs.step_atop (h : K.Configs G c c') (going : c.finished = false)
    (below : List Pending) :
    ∃ n d, 1 ≤ n ∧ (c'.atop below).run n = d.atop below ∧ K.Configs G c.step d ∧
      c'.state.store.Lasts d.state.store := by
  have going' : c'.finished = false := by
    by_contra done'
    exact absurd (h.finished (by simpa using done')) (by simp [going])
  obtain ⟨n, pos, configs⟩ := h.step
  obtain ⟨m, same, rfl | ⟨done', -⟩⟩ := c'.run_atop_same below n
  · exact ⟨m, c'.run m, pos, same, configs, c'.run_lasts (Nat.zero_le m)⟩
  · refine ⟨m, c'.run n, Nat.one_le_iff_ne_zero.mpr ?_, same, configs, c'.run_lasts (Nat.zero_le n)⟩
    rintro rfl
    exact absurd done' (by simp [Config.run, going'])

/-- Where the first run has ended the second one comes to the same result, over what waits. -/
theorem Numbering.Configs.meet (h : K.Configs (.meeting P k a b w) c c') (done : c.finished = true)
    (below : List Pending) :
    ∃ n ρ control σ σ', c = ⟨control, [], σ⟩ ∧ (c'.atop below).run n = ⟨control, below, σ'⟩ ∧
      k.Gets control ∧ σ.current = a ∧ σ'.current = b ∧
      K.InStep (.meeting P k a b w) ρ w k σ σ' [] [] ∧ c'.state.store.Lasts σ'.store := by
  obtain ⟨n, done', configs⟩ := h.finish done
  obtain ⟨ρ, w', k', control, σ, σ', gets, ⟨rfl, here, here', rfl⟩, inStep, rfl, ends⟩ :=
    configs.results done'
  obtain ⟨m, same, _⟩ := c'.run_atop_same below n
  have lasts := c'.run_lasts (Nat.zero_le n)
  rw [ends] at same lasts
  exact ⟨m, ρ, control, σ, σ', rfl, same, gets, here, here', inStep, lasts⟩

end

/-! ## Moments that match -/

namespace ForLoop

/-- What waits for the `while` to end: the end of the block around it, if there is one. -/
def around (l : ForLoop) (outer : EnvironmentId) : List Pending :=
  if l.initializer.isSome then [.sequence [], .restoration outer] else []

/-- What waits for the test, and for the body. -/
def tested (l : ForLoop) (outer : EnvironmentId) : List Pending :=
  .loopTest l.testing l.repeated :: l.around outer

def looping (l : ForLoop) (outer : EnvironmentId) : List Pending :=
  .loopBody l.testing l.repeated :: l.around outer

/-- Two loops, one carried out as it was written and the other lowered: the environments in which
each has its names, and the one around both. -/
structure Sides where
  loop : ForLoop
  loop' : ForLoop
  outer : EnvironmentId
  own : EnvironmentId
  own' : EnvironmentId
  pairs : Pairing

/-- A moment of the first loop and a configuration of the second one. What the first is at goes
alike in the second, over what waits there. -/
inductive Matches (K : Numbering) (s : Sides) : Moment → Config → Prop where
  | initializing {c c' : Config} (present : s.loop'.initializer.isSome = true)
      (parts : K.Configs (.meeting s.pairs .completion s.own s.own' [.both]) c c') :
      Matches K s ⟨.initializing, c⟩ (c'.atop
        [.sequence [.whileLoop s.loop'.testing s.loop'.repeated], .restoration s.outer])
  | testing {c c' : Config}
      (parts : K.Configs (.meeting s.pairs .value s.own s.own' s.loop'.shape) c c') :
      Matches K s ⟨.testing, c⟩ (c'.atop (s.loop'.tested s.outer))
  | repeating {c c' : Config} (absent : s.loop'.increment = none)
      (parts : K.Configs (.meeting s.pairs .completion s.own s.own' s.loop'.shape) c c') :
      Matches K s ⟨.repeating, c⟩ (c'.atop (s.loop'.looping s.outer))
  | repeatingFirst {c c' : Config} {d : EnvironmentId} {e : Expr}
      (present : s.loop'.increment = some e) (inside : c'.state.store.enclosing? d = some s.own')
      (parts : K.Configs
        (.meeting s.pairs .completion s.own d (.right :: s.loop'.shape)) c c') :
      Matches K s ⟨.repeating, c⟩ (c'.atop
        (.sequence [.expression e] :: .restoration s.own' :: s.loop'.looping s.outer))
  | advancing {c c' : Config} {d : EnvironmentId}
      (inside : c'.state.store.enclosing? d = some s.own')
      (parts : K.Configs (.meeting s.pairs .value s.own d (.right :: s.loop'.shape)) c c') :
      Matches K s ⟨.advancing, c⟩ (c'.atop
        (.discard :: .sequence [] :: .restoration s.own' :: s.loop'.looping s.outer))
  | left {ρ : Pairing} {control : Control} {σ σ' : State}
      (beside : K.Beside (.meeting s.pairs .completion s.outer s.outer []) ρ σ σ')
      (result : ∀ τ, (Config.mk control [] τ).finished = true) (current : σ.current = s.outer)
      (current' : σ'.current = s.outer) :
      Matches K s ⟨.left, control, [], σ⟩ ⟨control, [], σ'⟩

section
variable {K : Numbering} {G : Ground} {s : Sides} {ρ : Pairing} {k : Expected} {σ σ' : State}
  {pending pending' : List Pending}

/-- Where both loops are in their own environments. -/
structure Sides.Meets (K : Numbering) (s : Sides) (ρ : Pairing) (w : Shape) (σ σ' : State) :
    Prop where
  own : σ.current = s.own
  own' : σ'.current = s.own'
  pairs : ∀ e e', s.pairs e e' → ρ e e'
  inStep : K.InStep (.meeting s.pairs .completion s.own s.own' w) ρ w .completion σ σ' [] []

theorem Sides.Meets.of {w : Shape} (own : σ.current = s.own) (own' : σ'.current = s.own')
    (pairs : ∀ e e', s.pairs e e' → ρ e e') (inStep : K.InStep G ρ w k σ σ' pending pending') :
    s.Meets K ρ w σ σ' :=
  ⟨own, own', pairs, { inStep with pairs, waiting := .nothing nofun ⟨rfl, own, own', rfl⟩ }⟩

theorem Sides.Meets.start {w : Shape} (h : s.Meets K ρ w σ σ') {k : Expected}
    (settled : k ≠ .exit) :
    K.InStep (.meeting s.pairs k s.own s.own' w) ρ w k σ σ' [] [] := by
  have inStep := h.inStep.restart k h.pairs settled
  rwa [h.own, h.own'] at inStep

theorem Sides.Meets.left {w : Shape} (h : s.Meets K ρ w σ σ') {control : Control}
    (gets : Expected.completion.Gets control) :
    Matches K s (leave s.outer control σ) ⟨control, [], { σ' with current := s.outer }⟩ := by
  have result : ∀ τ, (Config.mk control [] τ).finished = true := by
    intro τ
    cases gets <;> rfl
  exact .left { h.inStep with pairs := h.pairs } result rfl rfl

/-- The loop is left with a completion or a fault. -/
theorem Sides.Meets.leaves {w : Shape} (h : s.Meets K ρ w σ σ')
    (home : s.loop'.initializer = none → s.own' = s.outer) {control : Control}
    (gets : Expected.completion.Gets control) :
    ∃ n, Matches K s (leave s.outer control σ)
      (Config.run n ⟨control, s.loop'.around s.outer, σ'⟩) := by
  have left := h.left gets
  unfold around
  cases absent : s.loop'.initializer with
  | none =>
    refine ⟨0, ?_⟩
    have same : σ' = { σ' with current := s.outer } := by rw [← home absent, ← h.own']
    rw [same]
    exact left
  | some first =>
    refine ⟨2, ?_⟩
    have ends : Config.run 2 ⟨control, [.sequence [], .restoration s.outer], σ'⟩ =
        ⟨control, [], { σ' with current := s.outer }⟩ := by
      cases gets with
      | completion c => cases c <;> rfl
      | fault => rfl
    exact ends ▸ left

/-- The body is started. -/
theorem Sides.Meets.iterates (h : s.Meets K ρ s.loop'.shape σ σ')
    (framed : Framed K s.loop s.loop') :
    ∃ n, Matches K s (s.loop.iterate σ)
      (Config.run n ⟨.execute s.loop'.repeated, s.loop'.looping s.outer, σ'⟩) := by
  have body := framed.body
  cases increment : s.loop'.increment with
  | none =>
    rw [bodyShape, increment] at body
    have parts := Numbering.Configs.execute (h.start (k := .completion) nofun).settle body
    have same : s.loop'.repeated = s.loop'.body := by rw [repeated, increment]
    rw [same]
    exact ⟨0, .repeating increment parts⟩
  | some e =>
    rw [bodyShape, increment] at body
    have inStep := h.inStep
    have onward := Store.Onward.addRight σ.store σ'.store ρ (some σ'.current)
    have inside : K.InStep (.meeting s.pairs .completion s.own σ'.store.nextEnvironment
        (.right :: s.loop'.shape)) ρ (.right :: s.loop'.shape) .completion σ
        (σ'.enter σ'.current .empty) [] [] :=
      { inStep.keep (inStep.store.addRight σ'.current) onward with
        pairs := h.pairs
        chain := inStep.chain.enterRight
        waiting := .nothing nofun ⟨rfl, h.own, rfl, rfl⟩ }
    have same : s.loop'.repeated = .block [s.loop'.body, .expression e] := by
      rw [repeated, increment]
    have enclosed : (σ'.enter σ'.current .empty).store.enclosing? σ'.store.nextEnvironment =
        some s.own' := by
      rw [← h.own']
      exact (Store.enclosing?_addEnvironment _ _ _ _).trans (if_pos rfl)
    have run : Config.run 2 ⟨.execute s.loop'.repeated, s.loop'.looping s.outer, σ'⟩ =
        Config.atop ⟨.execute s.loop'.body, [], σ'.enter σ'.current .empty⟩
          (.sequence [.expression e] :: .restoration s.own' :: s.loop'.looping s.outer) := by
      rw [same, ← h.own']
      rfl
    exact ⟨2, run ▸ .repeatingFirst increment enclosed (.execute inside.settle body)⟩

/-- The condition is tested. -/
theorem Sides.Meets.tests (h : s.Meets K ρ s.loop'.shape σ σ')
    (framed : Framed K s.loop s.loop') :
    ∃ n, Matches K s (s.loop.test σ)
      (Config.run n ⟨.evaluate s.loop'.testing, s.loop'.tested s.outer, σ'⟩) := by
  have condition := framed.condition
  unfold test testing tested
  generalize s.loop.condition = e, s.loop'.condition = e' at condition
  cases condition with
  | none =>
    obtain ⟨n, iterated⟩ := h.iterates framed
    exact ⟨2 + n, by rw [Config.run_add]; exact iterated⟩
  | some code => exact ⟨0, .testing (.evaluate (h.start nofun) code)⟩

/-- The block around the body and the increment is left. -/
theorem Sides.Meets.of_inner {d : EnvironmentId} (own : σ.current = s.own) (own' : σ'.current = d)
    (inside : σ'.store.enclosing? d = some s.own')
    (inStep : K.InStep (.meeting s.pairs k s.own d (.right :: s.loop'.shape)) ρ
      (.right :: s.loop'.shape) k σ σ' [] []) :
    s.Meets K ρ s.loop'.shape σ { σ' with current := s.own' } := by
  have chain := inStep.chain.leaveRight (own' ▸ inside)
  exact ⟨own, rfl, inStep.pairs,
    { inStep with chain, waiting := .nothing nofun ⟨rfl, own, rfl, rfl⟩ }⟩

/-- A step of a part, or what comes after it. -/
theorem turn {phase : Phase} {c c' : Config} {d : EnvironmentId} {w : Shape}
    {below : List Pending} (working : phase ≠ .left)
    (parts : K.Configs (.meeting s.pairs k s.own d w) c c')
    (again : ∀ c c₁, K.Configs (.meeting s.pairs k s.own d w) c c₁ →
      c'.state.store.Lasts c₁.state.store → Matches K s ⟨phase, c⟩ (c₁.atop below))
    (ended : ∀ ρ control σ σ', k.Gets control → σ.current = s.own → σ'.current = d →
      K.InStep (.meeting s.pairs k s.own d w) ρ w k σ σ' [] [] →
      c'.state.store.Lasts σ'.store →
      ∃ i, 1 ≤ i ∧ Matches K s (s.loop.next s.outer phase control σ)
        (Config.run i ⟨control, below, σ'⟩)) :
    ∃ n, 1 ≤ n ∧ Matches K s (s.loop.step s.outer ⟨phase, c⟩) ((c'.atop below).run n) := by
  rw [step, if_neg working]
  cases done : c.finished with
  | false =>
    obtain ⟨n, c₁, pos, same, configs, lasts⟩ := parts.step_atop done below
    exact ⟨n, pos, same ▸ again _ c₁ configs lasts⟩
  | true =>
    obtain ⟨n, ρ, control, σ, σ', rfl, same, gets, own, own', inStep, lasts⟩ :=
      parts.meet done below
    obtain ⟨i, pos, next⟩ := ended ρ control σ σ' gets own own' inStep lasts
    exact ⟨n + i, by omega, by rw [Config.run_add, same]; exact next⟩

/-- Some steps, and then as many as it takes. -/
theorem matches_later {d d' : Config} {m : Moment} {i : Nat} (pos : 1 ≤ i) (next : d.run i = d')
    (last : ∃ j, Matches K s m (d'.run j)) : ∃ n, 1 ≤ n ∧ Matches K s m (d.run n) := by
  obtain ⟨j, last⟩ := last
  exact ⟨i + j, by omega, by rw [Config.run_add, next]; exact last⟩

section
variable {c c' : Config} {d : EnvironmentId} (framed : Framed K s.loop s.loop')
  (home : s.loop'.initializer = none → s.own' = s.outer)

include framed

/-- After the initializer the condition is tested. -/
theorem initializing_step (present : s.loop'.initializer.isSome = true)
    (parts : K.Configs (.meeting s.pairs .completion s.own s.own' [.both]) c c') :
    ∃ n, 1 ≤ n ∧ Matches K s (s.loop.step s.outer ⟨.initializing, c⟩)
      ((c'.atop [.sequence [.whileLoop s.loop'.testing s.loop'.repeated],
        .restoration s.outer]).run n) := by
  refine turn nofun parts (fun c c₁ configs _ => .initializing present configs)
    fun ρ control σ σ' gets own own' inStep _ => ?_
  have meets : s.Meets K ρ s.loop'.shape σ σ' := by
    rw [shape, if_pos present]
    exact .of own own' inStep.pairs inStep
  have around : s.loop'.around s.outer = [.sequence [], .restoration s.outer] := if_pos present
  cases gets with
  | completion completion =>
    cases completion with
    | normal =>
      refine matches_later (i := 2) (by decide) ?_ (meets.tests framed)
      rw [tested, around]
      rfl
    | returned v => exact ⟨2, by decide, meets.left (.completion _)⟩
  | fault => exact ⟨2, by decide, meets.left (.fault _ _)⟩

include home

/-- The body is run, or the loop is left. -/
theorem testing_step
    (parts : K.Configs (.meeting s.pairs .value s.own s.own' s.loop'.shape) c c') :
    ∃ n, 1 ≤ n ∧ Matches K s (s.loop.step s.outer ⟨.testing, c⟩)
      ((c'.atop (s.loop'.tested s.outer)).run n) := by
  refine turn nofun parts (fun c c₁ configs _ => .testing configs)
    fun ρ control σ σ' gets own own' inStep _ => ?_
  have meets : s.Meets K ρ s.loop'.shape σ σ' := .of own own' inStep.pairs inStep
  cases gets with
  | value v =>
    cases truth : v.truthy with
    | true =>
      have iterated := meets.iterates framed
      refine matches_later (i := 1) (by decide) ?_ (by simpa [next, truth] using iterated)
      simp [Config.run, Config.finished, tested, Config.step, resume, truth, looping]
    | false =>
      have left := meets.leaves home (.completion .normal)
      refine matches_later (i := 1) (by decide) ?_ (by simpa [next, truth] using left)
      simp [Config.run, Config.finished, tested, Config.step, resume, truth]
  | fault => exact matches_later (i := 1) (by decide) rfl (meets.leaves home (.fault _ _))

/-- Without an increment the condition is tested at once. -/
theorem repeating_step (absent : s.loop'.increment = none)
    (parts : K.Configs (.meeting s.pairs .completion s.own s.own' s.loop'.shape) c c') :
    ∃ n, 1 ≤ n ∧ Matches K s (s.loop.step s.outer ⟨.repeating, c⟩)
      ((c'.atop (s.loop'.looping s.outer)).run n) := by
  refine turn nofun parts (fun c c₁ configs _ => .repeating absent configs)
    fun ρ control σ σ' gets own own' inStep _ => ?_
  have meets : s.Meets K ρ s.loop'.shape σ σ' := .of own own' inStep.pairs inStep
  have absent : s.loop.increment = none := by
    have increment := framed.increment
    generalize s.loop.increment = e at increment
    rw [absent] at increment
    cases increment
    rfl
  cases gets with
  | completion completion =>
    cases completion with
    | normal =>
      have tests := meets.tests framed
      simp only [next, advance, absent]
      exact matches_later (i := 1) (by decide) rfl tests
    | returned v =>
      exact matches_later (i := 1) (by decide) rfl (meets.leaves home (.completion _))
  | fault => exact matches_later (i := 1) (by decide) rfl (meets.leaves home (.fault _ _))

/-- The increment stands behind the body, in the same block. -/
theorem repeatingFirst_step {e : Expr} (present : s.loop'.increment = some e)
    (inside : c'.state.store.enclosing? d = some s.own')
    (parts : K.Configs (.meeting s.pairs .completion s.own d (.right :: s.loop'.shape)) c c') :
    ∃ n, 1 ≤ n ∧ Matches K s (s.loop.step s.outer ⟨.repeating, c⟩)
      ((c'.atop (.sequence [.expression e] :: .restoration s.own' ::
        s.loop'.looping s.outer)).run n) := by
  refine turn nofun parts
    (fun c c₁ configs lasts => .repeatingFirst present (lasts.enclosed inside) configs)
    fun ρ control σ σ' gets own own' inStep lasts => ?_
  have meets := Sides.Meets.of_inner own own' (lasts.enclosed inside) inStep
  cases gets with
  | completion completion =>
    cases completion with
    | normal =>
      have increment := framed.increment
      rw [present] at increment
      simp only [next, advance]
      generalize s.loop.increment = e at increment
      cases increment with
      | @some e _ code =>
        have inStep := inStep.restart .value inStep.pairs nofun
        rw [own, own'] at inStep
        show ∃ i, 1 ≤ i ∧ Matches K s ⟨.advancing, σ.evaluating e⟩ _
        exact ⟨2, by decide, .advancing (lasts.enclosed inside) (.evaluate inStep code)⟩
    | returned v =>
      exact matches_later (i := 3) (by decide) rfl (meets.leaves home (.completion _))
  | fault => exact matches_later (i := 3) (by decide) rfl (meets.leaves home (.fault _ _))

/-- After the increment the block is left and the condition is tested. -/
theorem advancing_step (inside : c'.state.store.enclosing? d = some s.own')
    (parts : K.Configs (.meeting s.pairs .value s.own d (.right :: s.loop'.shape)) c c') :
    ∃ n, 1 ≤ n ∧ Matches K s (s.loop.step s.outer ⟨.advancing, c⟩)
      ((c'.atop (.discard :: .sequence [] :: .restoration s.own' ::
        s.loop'.looping s.outer)).run n) := by
  refine turn nofun parts (fun c c₁ configs lasts => .advancing (lasts.enclosed inside) configs)
    fun ρ control σ σ' gets own own' inStep lasts => ?_
  have meets := Sides.Meets.of_inner own own' (lasts.enclosed inside) inStep
  cases gets with
  | value v => exact matches_later (i := 4) (by decide) rfl (meets.tests framed)
  | fault => exact matches_later (i := 4) (by decide) rfl (meets.leaves home (.fault _ _))

/-- A step of a loop that is carried out as it was written is some steps of the lowered one. -/
theorem Matches.step {m : Moment} (h : Matches K s m c) :
    ∃ n, 1 ≤ n ∧ Matches K s (s.loop.step s.outer m) (c.run n) := by
  cases h with
  | initializing present parts => exact initializing_step framed present parts
  | testing parts => exact testing_step framed home parts
  | repeating absent parts => exact repeating_step framed home absent parts
  | repeatingFirst present inside parts =>
    exact repeatingFirst_step framed home present inside parts
  | advancing inside parts => exact advancing_step framed home inside parts
  | left beside result current current' =>
    refine ⟨1, Nat.le_refl 1, ?_⟩
    rw [Config.run_of_finished (result _)]
    exact .left beside result current current'

end

/-- However far the one loop is, the lowered one gets there. -/
theorem Matches.moments {τ : State} {c : Config} (outer : s.outer = τ.current)
    (start : ∃ n, Matches K s (s.loop.start τ) (c.run n)) (framed : Framed K s.loop s.loop')
    (home : s.loop'.initializer = none → s.own' = s.outer) (k : Nat) :
    ∃ n, k ≤ n ∧ Matches K s (s.loop.moment τ k) (c.run n) := by
  induction k with
  | zero =>
    obtain ⟨n, first⟩ := start
    exact ⟨n, Nat.zero_le n, first⟩
  | succ k ih =>
    obtain ⟨n, le, now⟩ := ih
    obtain ⟨i, pos, next⟩ := Matches.step framed home now
    refine ⟨n + i, by omega, ?_⟩
    rw [Config.run_add, moment, ← outer]
    exact next

/-! ## What matches -/

theorem Matches.beside {m : Moment} {c : Config} (h : Matches K s m c) :
    ∃ G ρ, G.pairs = s.pairs ∧ K.Beside G ρ m.part.state c.state := by
  cases h with
  | initializing _ parts | testing parts | repeating _ parts | repeatingFirst _ _ parts
  | advancing _ parts =>
    obtain ⟨ρ, beside⟩ := parts.beside
    exact ⟨_, ρ, rfl, beside⟩
  | left beside => exact ⟨_, _, rfl, beside⟩

/-- Both loops are left at once. -/
theorem Matches.left_iff {m : Moment} {c : Config} (h : Matches K s m c) :
    m.phase = .left ↔ c.finished = true := by
  have waits (c' : Config) (first : Pending) (below : List Pending) :
      (c'.atop (first :: below)).finished = false := by
    obtain ⟨control, pending, σ⟩ := c'
    cases control <;> cases pending <;> rfl
  cases h with
  | left _ result => exact iff_of_true rfl (result _)
  | _ => exact iff_of_false nofun (Bool.eq_false_iff.mp (waits _ _ _))

/-- They are left with the same result, in the environment around them. -/
theorem Matches.results {m : Moment} {c : Config} (h : Matches K s m c) (left : m.phase = .left) :
    c.control = m.part.control ∧ m.part.state.current = s.outer ∧ c.state.current = s.outer := by
  cases h with
  | left _ _ current current' => exact ⟨rfl, current, current'⟩
  | _ => cases left

end

end ForLoop

end Lox
