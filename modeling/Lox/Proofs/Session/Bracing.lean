import Lox.Proofs.Framed.Sessions
import Lox.Proofs.Framed.Steps
import Lox.Proofs.Grammar.Bracing
import Lox.Proofs.Session.Parallel

/-!
# Braces that make no difference

A statement of a program that is accepted may be put in braces. The program is accepted again, and
it does the same: the block has an environment more, which binds nothing, and every name is found
one link further out where this environment lies between.
-/
namespace Lox

open Grammar (readable Braced Derives)
open Scope (Part)

namespace Session

variable {programs : List (List Stmt)} {s t t' s₁ s₁' : Session} {program program' : List Stmt}

/-- Sessions with the same values in all names and fields. -/
structure Framed (shared : Nat) (s s' : Session) : Prop where
  state : s.state.Framed shared s'.state
  current : s'.state.current = s.state.current
  nextId : s'.nextId = s.nextId

/-- A source with braces around a statement is accepted if it is without them. -/
theorem load_braced {source source' : String} {w' : List Token} {m : Nat}
    (load : s.load source = (s₁, .ok program))
    (braced : Braced .nearest s.nextId (readable (okOnly (scan source))) w' (.declarations program)
      (.declarations program') m)
    (lexed : errorsOnly (scan source') = []) (tokens : readable (okOnly (scan source')) = w') :
    (Numbering.copies id).Framed [] (.stmts program) (.stmts program') ∧
      ∃ s₁', s.load source' = (s₁', .ok program') ∧ s₁'.nextId = s₁.nextId := by
  obtain ⟨_, _, _, clean, rfl⟩ := load_ok load
  have spelled : ∀ t ∈ readable (okOnly (scan source)), t.Spelled Plain :=
    fun t ht => spelled_scan source t (List.takeWhile_subset _ ht)
  have alike : (Numbering.copies id).Framed [] (.stmts program) (.stmts program') :=
    braced.framed spelled [] trivial
  have clean' : (resolve program').faults = [] := alike.clean (.beyond .top) List.not_mem_nil clean
  have count : (parse (okOnly (scan source)) s.nextId).nextId = m := by
    rw [Grammar.parse_of_program braced.derives]
  have read := braced.derives_braced
  rw [← tokens] at read
  exact ⟨alike, _, load_of_clean lexed (Grammar.parse_of_program read) clean', count.symm⟩

/-- A run of a program starts in the global environment, with all that was made so far on both
sides, and ends there. -/
def ground (s : Session) : Ground where
  pairs := s.state.store.self
  ends _ e e' _ := e = State.globals ∧ e' = State.globals

/-- Two programs that are framed alike start alike in a session that is reached. -/
theorem Reached.interpreting_framed {source source' : String} (reached : Reached programs s)
    (load : s.load source = (s₁, .ok program)) (load' : s.load source' = (s₁', .ok program'))
    (alike : (Numbering.copies id).Framed [] (.stmts program) (.stmts program')) :
    (s₁.state.distances.framed s₁'.state.distances).Configs s.ground
      (s₁.state.interpreting program) (s₁'.state.interpreting program') := by
  have recorded := (reached.scoped.accept load).recorded
  have recorded' := (reached.scoped.accept load').recorded
  have stored := reached.scoped.store.framed reached.valid.layered recorded.earlier
    recorded'.earlier
  have content := alike.resolved ⟨.beyond .top, trivial, trivial,
    (recorded.resolved ⟨program, List.mem_cons_self, .program program⟩).entered,
    recorded'.resolved ⟨program', List.mem_cons_self, .program program'⟩⟩
  have current := reached.scoped.current
  obtain ⟨_, _, _, _, rfl⟩ := load_ok load
  obtain ⟨_, _, _, _, rfl⟩ := load_ok load'
  refine .completed .normal ⟨⟨stored, fun _ _ he => he, rfl, rfl, rfl,
    Distances.framed_resolves _ _⟩, ?_,
    .settled (.frame (.program content) (.settled (.nothing nofun ⟨current, current⟩)))⟩
  show Store.Chain s.state.store s.state.store s.state.store.self s.state.current s.state.current []
  rw [current]
  exact .globals

/-- What two runs leave that end at the same place. -/
theorem framed_of_ended {fuel fuel' : Nat} {own : Option Fault} {σ σ' : State}
    (count : s₁'.nextId = s₁.nextId)
    (ends : ((s₁.state.interpreting program).run fuel).ending? = some (own, σ))
    (ends' : ((s₁'.state.interpreting program').run fuel').ending? = some (own, σ'))
    (same : ∃ ρ w k, s.ground.ends k σ.current σ'.current w ∧
      (s₁.state.distances.framed s₁'.state.distances).InStep s.ground ρ w k σ σ' [] []) :
    Framed s.state.store.environments.size ⟨σ, s₁.nextId⟩ ⟨σ', s₁'.nextId⟩ := by
  obtain ⟨ρ, w, k, ⟨current, current'⟩, inStep⟩ := same
  rw [← State.interpreting_distances ends, ← State.interpreting_distances ends'] at inStep
  exact ⟨inStep.framed fun e he => ⟨rfl, he⟩, current'.trans current.symm, count⟩

/-- Braces around a statement that is no declaration make no difference. Wherever in a program that
is accepted the statement is, the program is accepted with the braces as well. It writes the same,
however far it runs; it ends if the other one does, with the same outcome, and leaves the same
values. -/
theorem bracing_unobservable {source source' : String} {w' : List Token} {m : Nat}
    (reached : Reached programs s) (load : s.load source = (s₁, .ok program))
    (braced : Braced .nearest s.nextId (readable (okOnly (scan source))) w' (.declarations program)
      (.declarations program') m)
    (lexed : errorsOnly (scan source') = []) (tokens : readable (okOnly (scan source')) = w') :
    let shared := s.state.store.environments.size
    (∃ s₁', s.load source' = (s₁', .ok program')) ∧
      (∀ fuel, ∃ fuel', fuel ≤ fuel' ∧ (s.shown fuel' source').1 = (s.shown fuel source).1) ∧
      (∀ fuel t outcome, s.run fuel source = some (t, outcome) →
        ∃ fuel' t', s.run fuel' source' = some (t', outcome) ∧ Framed shared t t') ∧
      ∀ fuel' t' outcome, s.run fuel' source' = some (t', outcome) →
        ∃ fuel t, s.run fuel source = some (t, outcome) ∧ Framed shared t t' := by
  obtain ⟨alike, s₁', load', count⟩ := load_braced load braced lexed tokens
  have start := reached.interpreting_framed load load' alike
  refine ⟨⟨s₁', load'⟩, fun fuel => ?_, fun fuel t outcome ran => ?_,
    fun fuel' t' outcome ran' => ?_⟩
  · obtain ⟨fuel', le, configs⟩ := start.run fuel
    exact ⟨fuel', le, by rw [shown_of_load load, shown_of_load load']; exact configs.sink⟩
  · rw [run_of_load load] at ran
    obtain ⟨⟨own, σ⟩, ends, same⟩ := Option.map_eq_some_iff.mp ran
    cases same
    obtain ⟨fuel', σ', ends', same⟩ := start.ends ends
    exact ⟨fuel', _, (run_of_load load' fuel').trans (congrArg (Option.map _) ends'),
      framed_of_ended count ends ends' same⟩
  · rw [run_of_load load'] at ran'
    obtain ⟨⟨own, σ'⟩, ends', same⟩ := Option.map_eq_some_iff.mp ran'
    cases same
    obtain ⟨σ, ends, same⟩ := start.ended ends'
    exact ⟨fuel', _, (run_of_load load fuel').trans (congrArg (Option.map _) ends),
      framed_of_ended count ends ends' same⟩

/-- The statement of a function that reads its parameter is put in braces. -/
theorem functionBody_braced :
    ∃ s₁ program program', let s := initial .unlimited fun _ => 0
      s.load "fun f(a) \x7b print a; \x7d f(nil);" = (s₁, .ok program) ∧
      Braced .nearest s.nextId (readable (okOnly (scan "fun f(a) \x7b print a; \x7d f(nil);")))
        (readable (okOnly (scan "fun f(a) \x7b \x7b print a; \x7d \x7d f(nil);")))
        (.declarations program) (.declarations program') 2 ∧
      ∃ t fuel' t', s.run 24 "fun f(a) \x7b print a; \x7d f(nil);" = some (t, .success) ∧
        s.run fuel' "fun f(a) \x7b \x7b print a; \x7d \x7d f(nil);" = some (t', .success) ∧
          Framed 1 t t' := by
  have scanned : readable (okOnly (scan "fun f(a) \x7b print a; \x7d f(nil);")) =
      [⟨.keyword .funWord, "fun", 1⟩, ⟨.identifier, "f", 1⟩, ⟨.symbol .leftParen, "(", 1⟩,
        ⟨.identifier, "a", 1⟩, ⟨.symbol .rightParen, ")", 1⟩, ⟨.symbol .leftBrace, "\x7b", 1⟩,
        ⟨.keyword .printWord, "print", 1⟩, ⟨.identifier, "a", 1⟩, ⟨.symbol .semicolon, ";", 1⟩,
        ⟨.symbol .rightBrace, "\x7d", 1⟩, ⟨.identifier, "f", 1⟩, ⟨.symbol .leftParen, "(", 1⟩,
        ⟨.keyword .nilWord, "nil", 1⟩, ⟨.symbol .rightParen, ")", 1⟩,
        ⟨.symbol .semicolon, ";", 1⟩] := by cbv
  have scanned' : readable (okOnly (scan "fun f(a) \x7b \x7b print a; \x7d \x7d f(nil);")) =
      [⟨.keyword .funWord, "fun", 1⟩, ⟨.identifier, "f", 1⟩, ⟨.symbol .leftParen, "(", 1⟩,
        ⟨.identifier, "a", 1⟩, ⟨.symbol .rightParen, ")", 1⟩, ⟨.symbol .leftBrace, "\x7b", 1⟩,
        ⟨.symbol .leftBrace, "\x7b", 1⟩, ⟨.keyword .printWord, "print", 1⟩, ⟨.identifier, "a", 1⟩,
        ⟨.symbol .semicolon, ";", 1⟩, ⟨.symbol .rightBrace, "\x7d", 1⟩,
        ⟨.symbol .rightBrace, "\x7d", 1⟩, ⟨.identifier, "f", 1⟩, ⟨.symbol .leftParen, "(", 1⟩,
        ⟨.keyword .nilWord, "nil", 1⟩, ⟨.symbol .rightParen, ")", 1⟩,
        ⟨.symbol .semicolon, ";", 1⟩] := by cbv
  have lexed : errorsOnly (scan "fun f(a) \x7b \x7b print a; \x7d \x7d f(nil);") = [] := by cbv
  have operand {n m : Nat} {w : List Token} {tree : Expr}
      (base : Derives .nearest n w (.call tree) m) : Derives .nearest n w (.expression tree) m :=
    .plain (.tighter (.tighter (.tighter (.tighter (.tighter (.tighter
      (.tightest (.access base))))))))
  have parameter : Derives .nearest 0 [⟨.identifier, "a", 1⟩]
      (.call (.var 0 ⟨.identifier, "a", 1⟩)) 1 := .simple (.variable rfl)
  have shown := Braced.here (rfl : Token.kind ⟨.symbol .leftBrace, "\x7b", 1⟩ = _)
    (.print (rfl : Token.kind ⟨.keyword .printWord, "print", 1⟩ = _) (operand parameter)
      (rfl : Token.kind ⟨.symbol .semicolon, ";", 1⟩ = _))
    (rfl : Token.kind ⟨.symbol .rightBrace, "\x7d", 1⟩ = _)
  have function := Braced.functionDeclaration
    (rfl : Token.kind ⟨.keyword .funWord, "fun", 1⟩ = _)
    (.function (rfl : Token.kind ⟨.identifier, "f", 1⟩ = _)
      (rfl : Token.kind ⟨.symbol .leftParen, "(", 1⟩ = _)
      (.some (.last (rfl : Token.kind ⟨.identifier, "a", 1⟩ = _)) (by decide))
      (rfl : Token.kind ⟨.symbol .rightParen, ")", 1⟩ = _)
      (rfl : Token.kind ⟨.symbol .leftBrace, "\x7b", 1⟩ = _)
      (.firstDeclaration (.ordinary shown) .noDeclarations)
      (rfl : Token.kind ⟨.symbol .rightBrace, "\x7d", 1⟩ = _))
  have argument : Derives .nearest 2 [⟨.keyword .nilWord, "nil", 1⟩] (.call (.literal .nil)) 2 :=
    .simple (.literal rfl)
  have called := Derives.call
    (.simple (.variable (rfl : Token.kind ⟨.identifier, "f", 1⟩ = _)))
    (rfl : Token.kind ⟨.symbol .leftParen, "(", 1⟩ = _) (.lastArgument (operand argument))
    (by decide) (rfl : Token.kind ⟨.symbol .rightParen, ")", 1⟩ = _)
  have last := Derives.moreDeclarations (.ordinary (.evaluation (.expressionEnd (operand called)
    (rfl : Token.kind ⟨.symbol .semicolon, ";", 1⟩ = _)))) .noDeclarations
  obtain ⟨program, program', braced, clean⟩ : ∃ program program', Braced .nearest 0
      (readable (okOnly (scan "fun f(a) \x7b print a; \x7d f(nil);")))
      (readable (okOnly (scan "fun f(a) \x7b \x7b print a; \x7d \x7d f(nil);")))
      (.declarations program) (.declarations program') 2 ∧ (resolve program).faults = [] := by
    rw [scanned, scanned']
    exact ⟨_, _, .firstDeclaration function last, by cbv⟩
  have load : (initial .unlimited fun _ => 0).load "fun f(a) \x7b print a; \x7d f(nil);" = (_, _) :=
    load_of_clean (by cbv) (Grammar.parse_of_program braced.derives) clean
  have ends : ((initial .unlimited fun _ => 0).run 24 "fun f(a) \x7b print a; \x7d f(nil);").map
      Prod.snd = some .success := by cbv
  obtain ⟨⟨t, _⟩, ran, rfl⟩ := Option.map_eq_some_iff.mp ends
  obtain ⟨-, -, forward, -⟩ := bracing_unobservable (.initial _ _) load braced lexed rfl
  obtain ⟨fuel', t', ran', framed⟩ := forward 24 t .success ran
  exact ⟨_, _, _, load, braced, t, fuel', t', ran, ran', framed⟩

end Session

end Lox
