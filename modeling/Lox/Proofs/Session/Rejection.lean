import Lox.Proofs.Session.Parallel

/-!
# Rejected sources

A source that is rejected is not executed, but it uses up numbers and may have left distances for
them. Neither is ever seen: the session goes on as one that was never given this source.
-/
namespace Lox

namespace Session

variable {programs : List (List Stmt)} {s s' : Session} {source : String}

theorem load_of_rejected {fuel : Nat} {faults : List Fault}
    (ran : s.run fuel source = some (s', .rejected faults)) :
    s.load source = (s', .error faults) := by
  rw [run] at ran
  split at ran
  · next load =>
    cases ran
    exact load
  · next program load =>
    obtain ⟨⟨own, σ⟩, _, he⟩ := Option.map_eq_some_iff.mp ran
    cases own <;> cases he

/-- Only distances may have been entered, for numbers that were not used before. -/
theorem Alike.after_rejected {related : Nat → Nat → Option Nat → Prop} {lines : Nat → Nat → Prop}
    {faults : List Fault} (h : Alike related lines 0 s s)
    (load : s.load source = (s', .error faults)) :
    Alike related lines (s'.nextId - s.nextId) s s' := by
  obtain ⟨le, same | ⟨program, numbered, same⟩⟩ := load_error load
  · refine ⟨same ▸ h.inStep, (Nat.sub_add_cancel le).symm, fun id id' d hr => ?_, h.beyond, ?_⟩
    · have := h.before id id' d hr
      omega
    · rw [same]
      exact fun id hid => h.beyond id (Nat.le_trans le hid)
  · obtain ⟨μ, inStep⟩ := h.inStep
    refine ⟨⟨μ, ?_⟩, (Nat.sub_add_cancel le).symm, fun id id' d hr => ?_, h.beyond, ?_⟩
    · rw [same]
      refine { inStep with distances := fun id id' d hr => ?_ }
      obtain ⟨found, found'⟩ := inStep.distances id id' d hr
      rw [State.record_distances, Distances.enter_outside numbered (.inl (h.before id id' d hr).2)]
      exact ⟨found, found'⟩
    · have := h.before id id' d hr
      omega
    · intro id hid
      rw [same, State.record_distances, Distances.enter_outside numbered (.inr hid)]
      exact h.beyond id (Nat.le_trans le hid)

theorem ShownAlike.eq {a b : Sink × Option Outcome} (h : ShownAlike (· = ·) a b) : b = a := by
  obtain ⟨sink, outcome⟩ := a
  obtain ⟨sink', outcome'⟩ := b
  obtain ⟨rfl, outcomes⟩ := h
  cases outcomes with
  | none => rfl
  | some alike =>
    cases alike with
    | failed cause moved => rw [moved]
    | _ => rfl

/-- A source that is rejected shows nothing and leaves all but distances as it was. Whatever sources
come later, their output and their outcomes are those of the session that never had this one. -/
theorem rejection_unobservable {fuel : Nat} {faults : List Fault} (reached : Reached programs s)
    (ran : s.run fuel source = some (s', .rejected faults)) :
    s'.state = { s.state with distances := s'.state.distances } ∧
      ∀ later, s'.transcript later = s.transcript later := by
  have load := load_of_rejected ran
  constructor
  · rcases (load_error load).2 with same | ⟨_, _, same⟩
    · rw [same]
    · rw [same]
      rfl
  · intro later
    have beside : ∃ related, Alike related (· = ·) 0 s s := reached.alike fun _ => rfl
    obtain ⟨related, alike⟩ := beside
    have both := ((alike.after_rejected load).transcript (fun _ => rfl) later).imp
      fun _ _ shown => shown.eq.symm
    rw [List.forall₂_eq_eq_eq] at both
    exact both.symm

/-- The distance of an occurrence that is rejected is left behind. -/
theorem ownInitializer_unobservable :
    let s := initial .unlimited fun _ => 0
    ∃ s' faults, s.run 0 "\x7b var a = a; \x7d" = some (s', .rejected faults) ∧
      s'.state.distances[0]? = some 0 ∧ ∀ later, s'.transcript later = s.transcript later := by
  intro s
  have ran : s.run 0 "\x7b var a = a; \x7d" =
      some (⟨s.state.record [⟨0, "a", some 0⟩], 1⟩,
        .rejected [.scope .readInOwnInitializer ⟨.identifier, "a", 1⟩]) := by
    cbv
  exact ⟨_, _, ran, by cbv, (rejection_unobservable (.initial _ _) ran).2⟩

end Session

end Lox
