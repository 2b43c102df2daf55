import Mathlib
import Lox.Proofs.Alike.Renaming
import Lox.Proofs.Alike.Steps
import Lox.Proofs.Session.Parallel

/-!
# Renaming a local

A parameter or a local variable may have any name that is not in the program. A source in which one
is renamed passes with the same distances and runs to the same end with the same output, but for the
name in the text of a fault that says that this name is not resolved.
-/
namespace Lox

open Grammar (readable)
open Scope (Part)

/-- The same outcome, or a name that is not resolved is reported as it is spelled. -/
inductive Outcome.Renamed (x y : String) : Outcome → Outcome → Prop where
  | same (outcome : Outcome) : Renamed x y outcome outcome
  | unresolved (line : Nat) : Renamed x y (.failed (.runtime (.unresolvedVariable x) line))
      (.failed (.runtime (.unresolvedVariable y) line))

/-- Only numbers and distances of occurrences are entered. -/
theorem Distances.enter_same {occurrences occurrences' : List Scope.Occurrence}
    (h : List.Forall₂ (fun o o' => o'.id = o.id ∧ o'.distance = o.distance) occurrences occurrences')
    (table : Distances) : table.enter occurrences' = table.enter occurrences := by
  induction h generalizing table with
  | nil => rfl
  | @cons o o' _ _ first rest ih =>
    have same : table.enter [o'] = table.enter [o] := by
      simp only [enter, List.foldl, first.1, first.2]
    rw [enter_cons, enter_cons o, same, ih]

section
variable {program : List Stmt} {place : Place} {x y : String} {hx : Plain x} {hy : Plain y}

theorem renamed_of_faults {f f' : Fault} (h : (Link.respelling program hx hy).Faults f f') :
    Outcome.Renamed x y (.failed f) (.failed f') := by
  cases h with
  | output cause => exact .same _
  | runtime causes lines =>
    cases lines
    cases causes with
    | same => exact .same _
    | @unresolved name f spelling named =>
      rcases spelling with rfl | rfl
      · exact .same _
      · by_cases here : name = x
        · subst here
          rw [Spelling.rename, if_pos rfl]
          exact .unresolved _
        · rw [Spelling.rename, if_neg here]
          exact .same _

namespace Session

/-- Both programs start alike in a new session. -/
theorem interpreting_respelled {program' : List Stmt} {n m : Nat}
    (alike : (Link.respelling program hx hy).Alike [] (.stmts program) (.stmts program'))
    (accepted : Accepted program n m)
    (occurrences : List.Forall₂ (fun o o' => o'.id = o.id ∧ o'.distance = o.distance)
      (resolve program).occurrences (resolve program').occurrences)
    (sink : Sink) (readings : Nat → Float) :
    (Link.respelling program hx hy).Configs []
      (((State.initial sink readings).record (resolve program).occurrences).interpreting program)
      (((State.initial sink readings).record (resolve program').occurrences).interpreting program') := by
  have waiting (μ : Spellings) (σ : Store) : (Link.respelling program hx hy).Waiting [] σ μ
      State.globals [] [.program program] [.program (program' ++ [])] := .program alike
  rw [List.append_nil] at waiting
  refine .completed ⟨Store.alike_initial _ sink readings, rfl, rfl, rfl, rfl, ?_, .globals, waiting _ _⟩
  rintro _ _ _ ⟨o, ho, rfl, rfl, rfl⟩
  have found : (Distances.enter {} (resolve program).occurrences)[o.id]? = o.distance :=
    Distances.enter_of_mem accepted.numbered.2 (fun _ _ => Std.TreeMap.getElem?_emptyc) ho
  have found' : (Distances.enter {} (resolve program').occurrences)[o.id]? = o.distance := by
    rw [Distances.enter_same occurrences]
    exact found
  exact ⟨found, found'⟩

/-- What is shown at the end of a run. -/
theorem outcomes_respelled {c c' : Config} {k k' : Nat}
    (h : (Link.respelling program hx hy).Configs [] c c') :
    Option.Rel (Outcome.Renamed x y) ((finish? k c).map Prod.snd) ((finish? k' c').map Prod.snd) := by
  have ending := h.ending
  rw [finish?, finish?]
  generalize c.ending? = e, c'.ending? = e' at ending
  cases ending with
  | none => exact .none
  | @some r r' ends =>
    obtain ⟨own, σ⟩ := r
    obtain ⟨own', σ'⟩ := r'
    obtain ⟨faults, _⟩ := ends
    cases faults with
    | none => exact .some (.same .success)
    | some faults => exact .some (renamed_of_faults faults)

/-- Tokens after the end of input stay as they are. -/
theorem readable_respelled {tokens w' : List Token}
    (h : List.Forall₂ (Token.Respelled x y) (readable tokens) w') :
    ∃ tokens', List.Forall₂ (Token.Respelled x y) tokens tokens' ∧ readable tokens' = w' := by
  induction tokens generalizing w' with
  | nil =>
    cases h
    exact ⟨[], .nil, rfl⟩
  | cons t tokens ih =>
    rw [readable, List.takeWhile_cons] at h
    by_cases ends : t.kind = .endOfInput
    · rw [if_neg (by simp [ends])] at h
      cases h
      refine ⟨t :: tokens, List.forall₂_same.mpr fun _ _ => .inl rfl, ?_⟩
      rw [readable, List.takeWhile_cons, if_neg (by simp [ends])]
    · rw [if_pos (by simp [ends])] at h
      cases h with
      | @cons _ t' _ w' first rest =>
        obtain ⟨tokens', respelled, read⟩ := ih rest
        have goesOn : t'.kind ≠ .endOfInput := by
          rcases first with rfl | ⟨_, _, rfl⟩ <;> exact ends
        refine ⟨t' :: tokens', .cons first respelled, ?_⟩
        rw [readable, List.takeWhile_cons, if_pos (by simp [goesOn]), ← read, readable]

end Session

end

namespace Session

/-- A parameter or a local variable can be renamed to any identifier that is not in the source. The
source in which this is done passes as well with the same distances, and it shows the same in a new
session, whatever the sink and the clock are. -/
theorem renaming_unobservable {source : String} {x y : String} {place : Place}
    (passes : Passes source)
    (declares : DeclaresAt (parse (okOnly (scan source)) 0).statements place x)
    (identifier : Identifier y) (absent : ∀ t ∈ okOnly (scan source), t.lexeme ≠ y) :
    let program := (parse (okOnly (scan source)) 0).statements
    let renamed := (respelling program place x y).program program
    ∃ source', Rewords x y source source' ∧ Passes source' ∧
      (parse (okOnly (scan source')) 0).statements = renamed ∧
        List.Forall₂ (fun o o' => o'.id = o.id ∧ o'.distance = o.distance)
          (resolve program).occurrences (resolve renamed).occurrences ∧
        ∀ sink readings fuel,
          let shown := (initial sink readings).shown fuel source
          let shown' := (initial sink readings).shown fuel source'
          shown'.1 = shown.1 ∧ Option.Rel (Outcome.Renamed x y) shown.2 shown'.2 := by
  intro program renamed
  obtain ⟨lexed, parsed, resolved⟩ := passes
  have accepted : Accepted program 0 _ := accepted_of_clean parsed resolved
  have derived := Grammar.program_of_parse .nearest parsed
  have plain : Plain x := plain_of_declaresAt accepted.wellFormed accepted.clean declares
  have wf : (Part.stmts program).WellFormed fun name => name ≠ y := by
    refine (Grammar.Derives.wellFormed derived fun t ht => ?_).1 _ rfl
    have scanned : t ∈ okOnly (scan source) := List.takeWhile_subset _ ht
    exact ⟨fun _ => absent t scanned, (spelled_scan source t scanned).2⟩
  have alike : (Link.respelling program plain identifier.plain).Alike [] (.stmts program)
      (.stmts renamed) := respelling_alike accepted wf declares
  obtain ⟨w', tokens, again⟩ := respelling_derived alike derived
  obtain ⟨tokens', respelled, read⟩ := readable_respelled tokens
  obtain ⟨source', rewords, scanned, lexed'⟩ := exists_rewords identifier lexed respelled
  rw [← read, ← scanned] at again
  have parsed' := Grammar.parse_of_program again
  obtain ⟨resolved', occurrences⟩ := respelling_resolved accepted alike
  refine ⟨source', rewords, ⟨lexed', by rw [parsed'], by rw [parsed']; exact resolved'⟩,
    by rw [parsed'], occurrences, fun sink readings fuel => ?_⟩
  have load := load_of_clean (s := initial sink readings) lexed
    (congrArg (Parsed.mk _ · _) parsed) resolved
  have load' := load_of_clean (s := initial sink readings) lexed' parsed' resolved'
  have start := interpreting_respelled alike accepted occurrences sink readings
  have runs := start.run fuel
  rw [shown_of_load load, shown_of_load load']
  exact ⟨runs.sink, outcomes_respelled runs⟩

/-- The variable of a block is renamed with the function that uses it. -/
theorem blockVariable_renamed :
    let source := "\x7b var a = \"x\"; fun f() \x7b print a; \x7d f(); \x7d"
    DeclaresAt (parse (okOnly (scan source)) 0).statements [0] "a" ∧ Identifier "b" ∧
      ∃ source', Rewords "a" "b" source source' ∧ Passes source' ∧ ∀ sink readings fuel,
        ((initial sink readings).shown fuel source').1 =
          ((initial sink readings).shown fuel source).1 := by
  intro source
  have passes : Passes source := by cbv
  have declares : DeclaresAt (parse (okOnly (scan source)) 0).statements [0] "a" := by
    have read : (parse (okOnly (scan source)) 0).statements =
        [.block [.varDecl ⟨.identifier, "a", 1⟩ (some (.literal (.string "x"))),
          .functionDecl ⟨⟨.identifier, "f", 1⟩, [], [.print (.var 0 ⟨.identifier, "a", 1⟩)]⟩,
          .expression (.call (.var 1 ⟨.identifier, "f", 1⟩) ⟨.symbol .rightParen, ")", 1⟩ [])]] := by
      cbv
    rw [read]
    exact ⟨_, _, [], _, .child .program 0 rfl, rfl, .inr ⟨_, _, List.mem_cons_self, rfl⟩⟩
  have identifier : Identifier "b" :=
    ⟨.word (.inl (by decide)) (by rintro _ ⟨⟩), fun k => by cases k <;> decide⟩
  have all : (okOnly (scan source)).all (·.lexeme != "b") = true := by decide +kernel
  have absent : ∀ t ∈ okOnly (scan source), t.lexeme ≠ "b" := fun t ht =>
    bne_iff_ne.mp (List.all_eq_true.mp all t ht)
  obtain ⟨source', rewords, passes', _, _, shown⟩ :=
    renaming_unobservable passes declares identifier absent
  exact ⟨declares, identifier, source', rewords, passes', fun sink readings fuel =>
    (shown sink readings fuel).1⟩

end Session

end Lox
