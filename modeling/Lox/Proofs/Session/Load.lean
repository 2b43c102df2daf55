import Lox.Proofs.Grammar.Acceptance
import Lox.Proofs.Grammar.Counting
import Lox.Proofs.Scope.WellFormed
import Lox.Session

/-!
# Loading a source

A source that passes has a derivation, a well-formed tree and a report without faults, and its
occurrences are numbered from the session's count on. A source that is rejected may have entered
distances as well, but none for a number below the count.
-/
namespace Lox

open Scope (Occurrence Part)

/-- The table with the distances of some occurrences entered. -/
def Distances.enter (table : Distances) (occurrences : List Occurrence) : Distances :=
  occurrences.foldl (fun table o => match o.distance with
    | some distance => table.insert o.id distance
    | none => table) table

theorem State.record_distances (σ : State) (occurrences : List Occurrence) :
    (σ.record occurrences).distances = σ.distances.enter occurrences := rfl

namespace Distances

variable {table : Distances} {occurrences : List Occurrence}

theorem enter_cons (o : Occurrence) (table : Distances) (occurrences : List Occurrence) :
    table.enter (o :: occurrences) = (table.enter [o]).enter occurrences := rfl

theorem enter_one (table : Distances) (o : Occurrence) (id : Nat) :
    (table.enter [o])[id]? = if o.id = id then o.distance.or table[id]? else table[id]? := by
  unfold enter
  cases hd : o.distance with
  | none => simp [hd]
  | some distance => simp [hd, Std.TreeMap.getElem?_insert]

/-- Only the numbers of the occurrences get a distance. -/
theorem enter_of_not_mem {id : Nat} (h : id ∉ occurrences.map Occurrence.id) :
    (table.enter occurrences)[id]? = table[id]? := by
  induction occurrences generalizing table with
  | nil => rfl
  | cons o occurrences ih =>
    simp only [List.map_cons, List.mem_cons, not_or] at h
    rw [enter_cons, ih h.2, enter_one, if_neg (Ne.symm h.1)]

/-- Distances are entered only for the stretch of numbers that was used. -/
theorem enter_outside {r : Scope.Report} {n m : Nat} (hr : r.Numbered n m) {id : Nat}
    (out : id < n ∨ m ≤ id) : (table.enter r.occurrences)[id]? = table[id]? := by
  refine enter_of_not_mem fun hm => ?_
  obtain ⟨o, ho, rfl⟩ := List.mem_map.mp hm
  have := hr.1 o ho
  omega

/-- Where numbers are new and different, each gets the distance of its occurrence. -/
theorem enter_of_mem (once : (occurrences.map Occurrence.id).Nodup)
    (new : ∀ o ∈ occurrences, table[o.id]? = none) {o : Occurrence} (ho : o ∈ occurrences) :
    (table.enter occurrences)[o.id]? = o.distance := by
  induction occurrences generalizing table with
  | nil => cases ho
  | cons first occurrences ih =>
    simp only [List.map_cons, List.nodup_cons] at once
    simp only [List.forall_mem_cons] at new
    rw [enter_cons]
    rcases List.mem_cons.mp ho with rfl | ho
    · rw [enter_of_not_mem once.1, enter_one, if_pos rfl, new.1, Option.or_none]
    · refine ih once.2 (fun o ho => ?_) ho
      have hne : first.id ≠ o.id := fun he => once.1 (he ▸ List.mem_map_of_mem ho)
      rw [enter_one, if_neg hne]
      exact new.2 o ho

end Distances

/-- A source that passes scanning, parsing and scoping on its own. -/
def Passes (source : String) : Prop :=
  errorsOnly (scan source) = [] ∧ (parse (okOnly (scan source)) 0).faults = [] ∧
    (resolve (parse (okOnly (scan source)) 0).statements).faults = []

namespace Session

variable {s s' : Session} {source : String} {program : List Stmt}

/-- What is known of a program that was accepted with numbers from `n` up to `m`. -/
structure Accepted (program : List Stmt) (n m : Nat) : Prop where
  ordered : n ≤ m
  numbered : (resolve program).Numbered n m
  wellFormed : (Part.stmts program).WellFormed Plain
  clean : (resolve program).faults = []

/-- A source that passes, step by step. -/
theorem load_ok (h : s.load source = (s', .ok program)) :
    (parse (okOnly (scan source)) s.nextId).statements = program ∧
      (parse (okOnly (scan source)) s.nextId).faults = [] ∧
      errorsOnly (scan source) = [] ∧ (resolve program).faults = [] ∧
      s' = ⟨s.state.record (resolve program).occurrences,
        (parse (okOnly (scan source)) s.nextId).nextId⟩ := by
  unfold load at h
  simp only at h
  split at h
  · next hf =>
    simp only [List.isEmpty_iff, List.append_eq_nil_iff] at hf
    split at h
    · next hr =>
      cases h
      exact ⟨rfl, hf.2, hf.1, List.isEmpty_iff.mp hr, rfl⟩
    · cases h
  · cases h

theorem load_of_clean {m : Nat} (lexed : errorsOnly (scan source) = [])
    (parsed : parse (okOnly (scan source)) s.nextId = ⟨program, [], m⟩)
    (resolved : (resolve program).faults = []) :
    s.load source = (⟨s.state.record (resolve program).occurrences, m⟩, .ok program) := by
  simp [load, lexed, parsed, resolved]

/-- Tokens of a source that are read without a fault, as a program without a fault. -/
theorem accepted_of_clean {n : Nat} (hp : (parse (okOnly (scan source)) n).faults = [])
    (hr : (resolve (parse (okOnly (scan source)) n).statements).faults = []) :
    Accepted (parse (okOnly (scan source)) n).statements n
      (parse (okOnly (scan source)) n).nextId := by
  have hd := Grammar.program_of_parse .nearest hp
  obtain ⟨ordered, numbered⟩ := hd.numbered
  have spelled : ∀ t ∈ Grammar.readable (okOnly (scan source)), t.Spelled Plain :=
    fun t ht => spelled_scan source t (List.takeWhile_subset _ ht)
  exact ⟨ordered, numbered, (Grammar.Derives.wellFormed hd spelled).1 _ rfl, hr⟩

theorem load_ok_accepted (h : s.load source = (s', .ok program)) :
    Accepted program s.nextId s'.nextId := by
  obtain ⟨rfl, hp, _, hr, rfl⟩ := load_ok h
  exact accepted_of_clean hp hr

/-- A rejected source may have used numbers, and distances may have been entered for them. -/
theorem load_error {faults : List Fault} (h : s.load source = (s', .error faults)) :
    s.nextId ≤ s'.nextId ∧ (s'.state = s.state ∨
      ∃ program, (resolve program).Numbered s.nextId s'.nextId ∧
        s'.state = s.state.record (resolve program).occurrences) := by
  have hn := Grammar.le_nextId_parse (okOnly (scan source)) s.nextId
  unfold load at h
  simp only at h
  split at h
  · next hf =>
    simp only [List.isEmpty_iff, List.append_eq_nil_iff] at hf
    split at h
    · cases h
    · cases h
      exact ⟨hn, .inr ⟨_, (Grammar.program_of_parse .nearest hf.2).numbered.2, rfl⟩⟩
  · cases h
    exact ⟨hn, .inl rfl⟩

end Session

/-! ## Programs of a session -/

/-- A part of one of several programs, in the context in which the walk comes to it. -/
def Visited (programs : List (List Stmt)) (ctx : Scope.Context) (part : Part) : Prop :=
  ∃ program ∈ programs, Scope.Visits program ctx part

/-- The programs accepted so far are well formed and without faults, their occurrences have
different numbers below `n`, and the table has the distances of all of them. -/
structure Recorded (programs : List (List Stmt)) (table : Distances) (n : Nat) : Prop where
  wellFormed : ∀ p ∈ programs, (Part.stmts p).WellFormed Plain
  clean : ∀ p ∈ programs, (resolve p).faults = []
  once : ∀ p ∈ programs, ((resolve p).occurrences.map Occurrence.id).Nodup
  apart : ∀ p ∈ programs, ∀ q ∈ programs, ∀ o ∈ (resolve p).occurrences,
    ∀ o' ∈ (resolve q).occurrences, o.id = o'.id → p = q
  below : ∀ p ∈ programs, ∀ o ∈ (resolve p).occurrences, o.id < n
  entered : ∀ p ∈ programs, ∀ o ∈ (resolve p).occurrences, table[o.id]? = o.distance
  beyond : ∀ id, n ≤ id → table[id]? = none

namespace Recorded

variable {programs : List (List Stmt)} {table : Distances} {n m : Nat}

theorem empty : Recorded [] {} 0 where
  wellFormed := nofun
  clean := nofun
  once := nofun
  apart := nofun
  below := nofun
  entered := nofun
  beyond := fun _ _ => Std.TreeMap.getElem?_emptyc

theorem later (h : Recorded programs table n) (le : n ≤ m) : Recorded programs table m :=
  { h with
    below := fun p hp o ho => Nat.lt_of_lt_of_le (h.below p hp o ho) le
    beyond := fun id hid => h.beyond id (Nat.le_trans le hid) }

/-- Distances entered for numbers that are new change nothing for the programs so far. -/
theorem reject (h : Recorded programs table n) {r : Scope.Report} (hr : r.Numbered n m)
    (le : n ≤ m) : Recorded programs (table.enter r.occurrences) m := by
  refine { h.later le with entered := fun p hp o ho => ?_, beyond := fun id hid => ?_ }
  · rw [Distances.enter_outside hr (.inl (h.below p hp o ho)), h.entered p hp o ho]
  · rw [Distances.enter_outside hr (.inr hid), h.beyond id (Nat.le_trans le hid)]

theorem accept (h : Recorded programs table n) {program : List Stmt}
    (ha : Session.Accepted program n m) :
    Recorded (program :: programs) (table.enter (resolve program).occurrences) m := by
  have hr := h.reject ha.numbered ha.ordered
  constructor
  · exact List.forall_mem_cons.mpr ⟨ha.wellFormed, h.wellFormed⟩
  · exact List.forall_mem_cons.mpr ⟨ha.clean, h.clean⟩
  · exact List.forall_mem_cons.mpr ⟨ha.numbered.2, h.once⟩
  · -- The numbers of the new program start where those of the programs before it end.
    have new {q o o'} (hq : q ∈ programs) (ho : o ∈ (resolve program).occurrences)
        (ho' : o' ∈ (resolve q).occurrences) : o.id ≠ o'.id := by
      have := (ha.numbered.1 o ho).1
      have := h.below q hq o' ho'
      omega
    intro p hp q hq o ho o' ho' same
    rcases List.mem_cons.mp hp with rfl | before
    · rcases List.mem_cons.mp hq with rfl | before
      · rfl
      · exact absurd same (new before ho ho')
    · rcases List.mem_cons.mp hq with rfl | before'
      · exact absurd same.symm (new before ho' ho)
      · exact h.apart p before q before' o ho o' ho' same
  · exact List.forall_mem_cons.mpr ⟨fun o ho => (ha.numbered.1 o ho).2, hr.below⟩
  · refine List.forall_mem_cons.mpr ⟨fun o ho => ?_, hr.entered⟩
    exact Distances.enter_of_mem ha.numbered.2
      (fun o ho => h.beyond o.id (ha.numbered.1 o ho).1) ho
  · exact hr.beyond

section
variable {ctx ctx' : Scope.Context} {part part' : Part}

theorem proper (h : Recorded programs table n) (hv : Visited programs ctx part) :
    part.WellFormed Plain := by
  obtain ⟨p, hp, hv⟩ := hv
  exact hv.wellFormed (h.wellFormed p hp)

theorem faultless (h : Recorded programs table n) (hv : Visited programs ctx part) :
    (part.report ctx).faults = [] := by
  obtain ⟨p, hp, hv⟩ := hv
  exact hv.faults (h.clean p hp)

/-- The table has the distance of every occurrence that is visited. -/
theorem distance (h : Recorded programs table n) (hv : Visited programs ctx part)
    {o : Occurrence} (ho : o ∈ part.own ctx) : table[o.id]? = o.distance := by
  obtain ⟨p, hp, hv⟩ := hv
  exact h.entered p hp o (hv.occurrences (part.own_subset ctx ho))

/-- In a session a number stands for one occurrence in one context. -/
theorem unique (h : Recorded programs table n) (hv : Visited programs ctx part)
    (hv' : Visited programs ctx' part') {o o' : Occurrence} (ho : o ∈ part.own ctx)
    (ho' : o' ∈ part'.own ctx') (same : o.id = o'.id) : ctx = ctx' ∧ part = part' := by
  obtain ⟨p, hp, hv⟩ := hv
  obtain ⟨q, hq, hv'⟩ := hv'
  obtain rfl := h.apart p hp q hq o (hv.occurrences (part.own_subset ctx ho)) o'
    (hv'.occurrences (part'.own_subset ctx' ho')) same
  exact hv.unique (h.once p hp) hv' ho ho' same

end

end Recorded

end Lox
