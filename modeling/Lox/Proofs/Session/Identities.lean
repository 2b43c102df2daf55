import Lox.Proofs.Grammar.Identities
import Lox.Proofs.Session.Reached
import Mathlib.Data.List.Flatten

/-!
# Numbers over the life of a session

The life of a session is told step by step, with every tree that was ever read, those of rejected
sources among them. No number stands in two of the trees or twice in one. So a distance, once it
is entered, is never entered again, and what a function that is kept reads and writes stays where
it was found.
-/
namespace Lox

open Scope (Occurrence Part)
open Grammar (Drawn)

/-- A closure that is kept as a function or as a method of a class. -/
def Store.Holds (σ : Store) (c : Closure) : Prop :=
  (∃ i : FunctionId, σ.functions[i]? = some c) ∨
    ∃ (i : ClassId) (made : ClassObject) (name : String),
      σ.classes[i]? = some made ∧ made.methods.get? name = some c

/-- A state in which nothing is executed. -/
def State.idle (σ : State) : Config := ⟨.completed .normal, [], σ⟩

namespace Session

/-- What a source is read as. -/
def parsed (s : Session) (source : String) : Parsed := parse (okOnly (scan source)) s.nextId

/-- The trees that were read, the last one first, the next number for an occurrence, and what is
executed. -/
structure Moment where
  trees : List (List Stmt)
  nextId : Nat
  config : Config

/-- Execution takes a step; once it has ended the next source is read, or the output is taken out
and the clock replaced. -/
inductive Move where
  | step
  | source (text : String)
  | between (sink : Sink) (clock : Clock)

namespace Moment

def session (m : Moment) : Session := ⟨m.config.state, m.nextId⟩

def start (sink : Sink) (readings : Nat → Float) : Moment :=
  ⟨[], 0, (State.initial sink readings).idle⟩

/-- The program is started, unless the source is rejected. -/
def read (m : Moment) (source : String) : Moment where
  trees := (m.session.parsed source).statements :: m.trees
  nextId := (m.session.load source).1.nextId
  config := match m.session.load source with
    | (s, .ok program) => s.state.interpreting program
    | (s, .error _) => s.state.idle

def move (m : Moment) : Move → Moment
  | .step => { m with config := m.config.step }
  | .source text => if m.config.finished then m.read text else m
  | .between sink clock =>
    if m.config.finished then { m with config := { m.config.state with sink, clock }.idle } else m

def after (m : Moment) (moves : List Move) : Moment := moves.foldl move m

/-- The numbers in all trees. -/
def ids (m : Moment) : List Nat := m.trees.flatMap Stmt.idsOf

theorem after_append (m : Moment) (moves later : List Move) :
    m.after (moves ++ later) = (m.after moves).after later := List.foldl_append

/-! ## Lives and runs -/

theorem after_steps (m : Moment) (fuel : Nat) :
    m.after (List.replicate fuel .step) = { m with config := m.config.run fuel } := by
  induction fuel with
  | zero => rfl
  | succ fuel ih =>
    rw [List.replicate_succ', after_append, ih, Config.run_succ]
    rfl

/-- A source that is run on a session, in steps. -/
theorem after_run {m : Moment} {s : Session} {source : String} {fuel : Nat} {outcome : Outcome}
    (done : m.config.finished = true) (ran : m.session.run fuel source = some (s, outcome)) :
    ∃ moves, (m.after moves).session = s ∧ (m.after moves).config.finished = true ∧
      (m.after moves).trees = (m.session.parsed source).statements :: m.trees := by
  have given : m.after [.source source] = m.read source := if_pos done
  unfold Session.run at ran
  split at ran
  · next s' faults load =>
    cases ran
    refine ⟨[.source source], ?_⟩
    rw [given]
    simp only [read, load]
    exact ⟨rfl, rfl, trivial⟩
  · next state nextId program load =>
    obtain ⟨⟨own, σ⟩, he, hs⟩ := Option.map_eq_some_iff.mp ran
    cases hs
    obtain ⟨ended, rfl⟩ := Config.finished_of_ending? he
    refine ⟨.source source :: List.replicate fuel .step, ?_⟩
    have steps : m.after (.source source :: List.replicate fuel .step) =
        { m.read source with config := (m.read source).config.run fuel } :=
      given ▸ after_steps (m.read source) fuel
    rw [steps]
    simp only [read, load]
    exact ⟨rfl, ended, trivial⟩

end Moment

/-! ## Distances that are entered -/

section
variable (s : Session) (source : String)

theorem load_nextId : (s.load source).1.nextId = (s.parsed source).nextId := by
  simp only [load, parsed]
  (repeat' split) <;> rfl

theorem load_state : (s.load source).1.state = s.state ∨
    (s.load source).1.state =
      s.state.record (resolve (s.parsed source).statements).occurrences := by
  simp only [load, parsed]
  (repeat' split) <;> first | exact .inr rfl | exact .inl rfl

theorem le_load_nextId : s.nextId ≤ (s.load source).1.nextId := by
  rw [load_nextId]
  exact Grammar.le_nextId_parse _ _

/-- Distances are entered for new numbers only. -/
theorem load_distances {id : Nat} (old : id < s.nextId) :
    (s.load source).1.state.distances[id]? = s.state.distances[id]? := by
  rcases load_state s source with same | recorded
  · rw [same]
  · rw [recorded, State.record_distances]
    exact Distances.enter_outside (Grammar.numbered_parse _ s.nextId) (.inl old)

end

/-- Nothing is entered where there is an entry, if the entries so far have smaller numbers. -/
theorem enter_new {table : Distances} {n : Nat} (beyond : ∀ id, n ≤ id → table[id]? = none)
    (tokens : List Token) {before after : List Occurrence} {o : Occurrence}
    (ho : (resolve (parse tokens n).statements).occurrences = before ++ o :: after) :
    (table.enter before)[o.id]? = none := by
  obtain ⟨within, once⟩ := Grammar.numbered_parse tokens n
  rw [ho] at within once
  have new : o.id ∉ before.map Occurrence.id := by
    rw [List.map_append, List.map_cons, List.nodup_append] at once
    intro hid
    exact once.2.2 o.id hid o.id List.mem_cons_self rfl
  rw [Distances.enter_of_not_mem new]
  exact beyond o.id (within o (by simp)).1

namespace Moment

/-! ## What holds at every moment -/

/-- All numbers are different and below the count, and what is executed is scoped in programs that
are among the trees. -/
structure Sound (m : Moment) : Prop where
  drawn : Drawn m.ids 0 m.nextId
  accepted : ∃ programs, programs ⊆ m.trees ∧
    Recorded programs m.config.state.distances m.nextId ∧ m.config.Scoped programs

theorem scoped_idle {programs : List (List Stmt)} {σ : State} (store : σ.store.Scoped programs)
    (current : σ.current = State.globals) : σ.idle.Scoped programs :=
  have mirrors : σ.store.Mirrors σ.current [] := current ▸ .globals store.made
  .completed ⟨store, ⟨mirrors, trivial⟩, .nothing current rfl⟩

theorem sound_start (sink : Sink) (readings : Nat → Float) : (start sink readings).Sound where
  drawn := .nil
  accepted := by
    have h := Session.scoped_initial sink readings
    exact ⟨[], List.Subset.refl _, h.recorded, scoped_idle h.store h.current⟩

variable {m : Moment}

theorem Sound.read (h : m.Sound) (done : m.config.finished = true) (source : String) :
    (m.read source).Sound := by
  obtain ⟨drawn, programs, subset, recorded, running⟩ := h
  obtain ⟨store, current⟩ := running.finished done
  have session : Session.Scoped programs m.session := ⟨recorded, store, current⟩
  constructor
  · have new : Drawn (Stmt.idsOf (m.session.parsed source).statements) m.nextId
        (m.session.load source).1.nextId := by
      rw [load_nextId]
      exact Grammar.drawn_parse _ _
    exact drawn.swapped new (Nat.zero_le _) (le_load_nextId m.session source)
  · cases load : m.session.load source with
    | mk s result =>
      cases result with
      | error faults =>
        have after := session.reject load
        refine ⟨programs, List.subset_cons_of_subset _ subset, ?_⟩
        simp only [Moment.read, load]
        exact ⟨after.recorded, scoped_idle after.store after.current⟩
      | ok program =>
        have after := session.accept load
        obtain ⟨read, _⟩ := load_ok load
        refine ⟨program :: programs, ?_, ?_⟩
        · rw [← read]
          exact List.cons_subset_cons _ subset
        · simp only [Moment.read, load]
          exact ⟨after.recorded, after.running 0⟩

theorem Sound.move (h : m.Sound) (move : Move) : (m.move move).Sound := by
  cases move with
  | step =>
    obtain ⟨drawn, programs, subset, recorded, running⟩ := h
    have recorded' : Recorded programs m.config.step.state.distances m.nextId := by
      rw [Config.distances_step]
      exact recorded
    exact ⟨drawn, programs, subset, recorded', running.step recorded⟩
  | source text =>
    rw [Moment.move]
    split
    · next done => exact h.read done text
    · exact h
  | between sink clock =>
    rw [Moment.move]
    split
    · next done =>
      obtain ⟨drawn, programs, subset, recorded, running⟩ := h
      obtain ⟨store, current⟩ := running.finished done
      exact ⟨drawn, programs, subset, recorded, scoped_idle store current⟩
    · exact h

theorem Sound.after (h : m.Sound) (moves : List Move) : (m.after moves).Sound := by
  induction moves generalizing m with
  | nil => exact h
  | cons first moves ih => exact ih (h.move first)

/-! ## What is kept from then on -/

/-- The count has not gone back and no entry below it has changed. -/
structure Keeps (m m' : Moment) : Prop where
  ordered : m.nextId ≤ m'.nextId
  entries : ∀ id < m.nextId, m'.config.state.distances[id]? = m.config.state.distances[id]?

theorem Keeps.refl (m : Moment) : m.Keeps m := ⟨Nat.le_refl _, fun _ _ => rfl⟩

theorem Keeps.trans {m m' m'' : Moment} (h : m.Keeps m') (h' : m'.Keeps m'') : m.Keeps m'' :=
  ⟨Nat.le_trans h.ordered h'.ordered, fun id hid =>
    (h'.entries id (Nat.lt_of_lt_of_le hid h.ordered)).trans (h.entries id hid)⟩

theorem keeps_read (m : Moment) (source : String) : m.Keeps (m.read source) where
  ordered := le_load_nextId m.session source
  entries := by
    intro id hid
    refine Eq.trans ?_ (load_distances m.session source hid)
    simp only [read]
    split
    · next load => rw [load]; rfl
    · next load => rw [load]; rfl

theorem keeps_move (m : Moment) (move : Move) : m.Keeps (m.move move) := by
  cases move with
  | step => exact ⟨Nat.le_refl _, fun id _ => by rw [Moment.move, Config.distances_step]⟩
  | source text =>
    rw [Moment.move]
    split
    · exact keeps_read m text
    · exact .refl m
  | between sink clock =>
    rw [Moment.move]
    split
    · exact ⟨Nat.le_refl _, fun _ _ => rfl⟩
    · exact .refl m

theorem keeps_after (m : Moment) (moves : List Move) : m.Keeps (m.after moves) := by
  induction moves generalizing m with
  | nil => exact .refl m
  | cons first moves ih => exact (keeps_move m first).trans (ih (m.move first))

/-- The body of a closure that is kept was read in one of the trees. -/
theorem Sound.ids_of_holds (h : m.Sound) {c : Closure} (held : m.config.state.store.Holds c) :
    c.decl.ids ⊆ m.ids := by
  obtain ⟨_, programs, subset, _, running⟩ := h
  have met : ∃ ctx kind, Visited programs ctx (.function kind c.decl) := by
    have store := running.store
    rcases held with ⟨i, hi⟩ | ⟨i, made, name, hi, hm⟩
    · obtain ⟨ctx, kind, visited, _⟩ := store.functions i c hi
      exact ⟨ctx, kind, visited⟩
    · obtain ⟨ctx, kind, _, visited, _⟩ := store.methods i made hi name c hm
      exact ⟨ctx, kind, visited⟩
  obtain ⟨ctx, kind, program, hp, visits⟩ := met
  intro id hid
  exact List.mem_flatMap.mpr ⟨program, subset hp, visits.ids hid⟩

end Moment

/-- In a session no number is given twice, and all are below its count, whatever is read and run. An
occurrence gets its distance when there is none for its number, and the distances of what stands in
a function that is kept stay as they are from then on. -/
theorem identities_unique (sink : Sink) (readings : Nat → Float) (moves : List Move) :
    let m := (Moment.start sink readings).after moves
    (m.ids.Nodup ∧ ∀ id ∈ m.ids, id < m.nextId) ∧
      (∀ source before o after,
        (resolve (m.session.parsed source).statements).occurrences = before ++ o :: after →
          (m.config.state.record before).distances[o.id]? = none) ∧
        ∀ c, m.config.state.store.Holds c → ∀ id ∈ c.decl.ids, id ∈ m.ids ∧
          ∀ later, (m.after later).config.state.distances[id]? =
            m.config.state.distances[id]? := by
  intro m
  have sound : m.Sound := (Moment.sound_start sink readings).after moves
  have below : ∀ id ∈ m.ids, id < m.nextId := fun id hid => (sound.drawn.within id hid).2
  refine ⟨⟨sound.drawn.once, below⟩, fun source before o after ho => ?_, fun c held id hid => ?_⟩
  · obtain ⟨programs, _, recorded, _⟩ := sound.accepted
    exact enter_new recorded.beyond _ ho
  · have hm := sound.ids_of_holds held hid
    exact ⟨hm, fun later => (Moment.keeps_after m later).entries id (below id hm)⟩

end Session

end Lox
