import Lox.Proofs.Grammar.Progress
import Lox.Proofs.Grammar.Unclosed

/-!
# A missing semicolon

Of a program without faults take away one semicolon that ends a statement. Where a simple statement
follows, or nothing, at most one fault is noted. What follows is dropped with the statement that
lacks its semicolon or is one with it, and everything else is read as before.

Recovery discards the token at the fault unseen. So it does not hold where that token is needed, as
a brace that closes a block or a word that starts a loop is.
-/
namespace Lox.Grammar

variable {n m k : Nat} {w w₁ before after : List Token} {t opening closing semicolon close : Token}
  {faults : List Fault}

/-- Phrases of one kind that may hold different trees. -/
inductive Phrase.Alike : Phrase → Phrase → Prop where
  | statement {endsOpen : Bool} {tree tree' : Stmt} :
      Alike (.statement endsOpen tree) (.statement endsOpen tree')
  | declaration {tree tree' : Stmt} : Alike (.declaration tree) (.declaration tree')
  | declarations {trees trees' : List Stmt} : Alike (.declarations trees) (.declarations trees')
  | function {decl decl' : FunctionDecl} : Alike (.function decl) (.function decl')
  | functions {decls decls' : List FunctionDecl} : Alike (.functions decls) (.functions decls')

/-- Tokens are read as a phrase of the same kind, with one fault at most. -/
def Phrase.Mends (phrase : Phrase) (n : Nat) (w : List Token) : Prop :=
  ∃ phrase' faults m, phrase.Alike phrase' ∧ phrase'.Starts w ∧ phrase'.Recovers faults n w m ∧
    faults.length ≤ 1

theorem Phrase.Mends.intro {phrase phrase' : Phrase} (alike : phrase.Alike phrase')
    (recovers : phrase'.Recovers faults n w m) (starts : phrase'.Starts w)
    (most : faults.length ≤ 1) (same : w₁ = w) : phrase.Mends n w₁ :=
  ⟨phrase', faults, m, alike, same ▸ starts, same ▸ recovers, most⟩

/-! ## At the end of a declaration -/

theorem declaration_of_halts {s left : Input} {cause : ParseCause}
    (h : (declarationOrStuck s).Halts cause left) (pos : s.size ≠ 0) :
    ∃ shorter, declaration s pos = ⟨none, [.parse cause left.peek], left.recover, shorter⟩ := by
  obtain ⟨noLonger, he⟩ := h
  refine ⟨Input.size_recover_lt noLonger pos, ?_⟩
  rw [declaration]
  show (declarationOrStuck s).recovered pos = _
  rw [he]
  rfl

/-- The first token of a declaration stands before its semicolon. -/
theorem Derives.before_starts {tree : Stmt} (h : Derives .nearest n w (.declaration tree) m)
    (cut : Cut w before semicolon after) :
    ∃ t b, before = t :: b ∧ startsDeclaration t.kind = true := by
  obtain ⟨t, w', rfl, starts, other⟩ :
      ∃ t w', w = t :: w' ∧ startsDeclaration t.kind = true ∧ t.kind ≠ .symbol .semicolon := by
    cases h with
    | ordinary executed =>
      obtain ⟨t, w', rfl, opens, other⟩ := executed.statement_start
      exact ⟨t, w', rfl, startsDeclaration_of_opensStatement opens, other⟩
    | variableDeclaration declared =>
      obtain ⟨t, w', rfl, keyed⟩ := declared.starts trivial
      exact ⟨t, w', rfl, by rw [keyed]; rfl, by rw [keyed]; exact nofun⟩
    | functionDeclaration keyed | baseClass keyed | derivedClass keyed =>
      exact ⟨_, _, rfl, by rw [keyed]; rfl, by rw [keyed]; exact nofun⟩
  obtain ⟨b, rfl⟩ := cut.first other
  exact ⟨t, b, rfl, starts⟩

/-- Without its semicolon a declaration is dropped together with the simple statement after it, or
they are read as one. -/
theorem Derives.mends_first {first next : Stmt} {trees : List Stmt} {s : List Token}
    (h : Derives .nearest n w (.declaration first) m) (cut : Cut w before semicolon [])
    (h' : Derives .nearest m s (.declaration next) k)
    (simple : ∀ t ∈ s.head?, startsSimple t.kind = true)
    (rest : ∀ n, ∃ trees m, Relaxed .nearest n w₁ (.declarations trees) [] m) :
    (Phrase.declarations trees).Mends n (before ++ (s ++ w₁)) := by
  have follows := h'.follower simple
  rw [← List.append_assoc]
  rcases h.unclosed_declaration cut follows with ⟨cause, k, halts⟩ | ⟨tree, faults, k, joined, most⟩
  · obtain ⟨trees', l, others⟩ := rest k
    obtain ⟨t, s', rfl, -⟩ := h'.starts trivial
    obtain ⟨u, b, rfl, starts⟩ := h.before_starts cut
    have dropped (more : List Token) (close : Token) (pos) : ∃ shorter,
        declaration ⟨u :: b ++ t :: s' ++ more, close, n⟩ pos =
          ⟨none, [.parse cause t], ⟨more, close, k⟩, shorter⟩ := by
      rw [← recover_before more close (s := ⟨t :: s', close, k⟩) follows.segment]
      have here := halts (t :: s' ++ more) close rfl
      rw [← List.append_assoc] at here
      exact declaration_of_halts here pos
    have unclosing : u.kind ≠ .symbol .rightBrace := by
      intro hk
      rw [hk] at starts
      cases starts
    have rest := recovers_cons ⟨u, _, rfl, unclosing⟩
      (fun more close _ pos => dropped more close pos) others.starts others.recovers
    exact .intro .declarations rest (starts_append ⟨u, _, rfl, starts⟩) (Nat.le_refl 1) rfl
  · obtain ⟨trees', l, others⟩ := rest k
    have rest := recovers_moreDeclarations joined.starts joined.recovers others.starts
      others.recovers
    exact .intro .declarations rest (starts_append joined.starts) (by simpa using most) rfl

/-- A declaration without its semicolon, before others of which the first is a simple statement. -/
theorem Derives.mends_rest {first : Stmt} {trees trees' : List Stmt}
    (h : Derives .nearest n w (.declaration first) m) (cut : Cut w before semicolon [])
    (rest : Derives .nearest m (t :: after) (.declarations trees) k)
    (simple : startsSimple t.kind = true) :
    (Phrase.declarations trees').Mends n (before ++ t :: after) := by
  generalize hw : t :: after = v at rest
  cases rest with
  | noDeclarations => cases hw
  | moreDeclarations next others =>
    refine h.mends_first cut next ?_ fun n => ?_
    · obtain ⟨u, s', rfl, -⟩ := next.starts trivial
      obtain ⟨rfl, -⟩ := List.cons_eq_cons.mp hw
      rintro _ ⟨⟩
      exact simple
    · obtain ⟨trees, l, derived, -⟩ := (others.relaxed trivial).anew n
      exact ⟨trees, l, derived⟩

/-! ## Within a phrase -/

theorem not_simple {kind : TokenKind} {P : Prop} (simple : startsSimple t.kind = true)
    (keyed : t.kind = kind) (other : startsSimple kind = false) : P := by
  rw [keyed, other] at simple
  cases simple

/-- A simple statement that follows in a block comes before the brace that closes the block. -/
theorem Cut.braces (h : Cut (w ++ [closing]) before semicolon (t :: after)) (nested : Nested w)
    (closes : closing.kind = .symbol .rightBrace) (simple : startsSimple t.kind = true) :
    ∃ a, after = a ++ [closing] ∧ Cut w before semicolon (t :: a) := by
  obtain ⟨a, rest, inner⟩ := h.ended nested closes rfl
  cases a with
  | nil =>
    obtain ⟨rfl, -⟩ := List.cons_eq_cons.mp rest
    exact not_simple simple closes rfl
  | cons u a =>
    obtain ⟨rfl, rfl⟩ := List.cons_eq_cons.mp rest
    exact ⟨a, rfl, inner⟩

/-- A phrase without one of its semicolons before a simple statement. -/
theorem Derives.mends {phrase : Phrase} (h : Derives .nearest n w phrase m)
    (cut : Cut w before semicolon (t :: after)) (simple : startsSimple t.kind = true) :
    phrase.Mends n (before ++ t :: after) := by
  cases expression : phrase.isExpression with
  | true =>
    have inner := (h.inner expression).not_semicolon semicolon (by simp [cut.split])
    exact absurd cut.closed inner
  | false =>
  induction h generalizing before after with
  | bareVariable keyed named =>
    obtain ⟨_, rfl, inner⟩ := cut.cons keyed rfl
    obtain ⟨_, rfl, last⟩ := inner.cons named rfl
    obtain ⟨-, none⟩ := last.only
    cases none
  | initializedVariable keyed named assigned valued =>
    obtain ⟨_, rfl, inner⟩ := cut.cons keyed rfl
    obtain ⟨_, rfl, inner'⟩ := inner.cons named rfl
    obtain ⟨_, rfl, value⟩ := inner'.cons assigned rfl
    obtain ⟨-, none⟩ := value.last (valued.inner rfl).not_semicolon
    cases none
  | expressionEnd valued =>
    obtain ⟨-, none⟩ := cut.last (valued.inner rfl).not_semicolon
    cases none
  | noInitializer =>
    obtain ⟨-, none⟩ := cut.only
    cases none
  | variableInitializer _ ih | expressionInitializer _ ih | evaluation _ ih
  | variableDeclaration _ ih =>
    obtain ⟨_, _, _, alike, -⟩ := ih cut rfl
    cases alike
  | print keyed valued | returnWith keyed valued =>
    obtain ⟨_, rfl, inner⟩ := cut.cons keyed rfl
    obtain ⟨-, none⟩ := inner.last (valued.inner rfl).not_semicolon
    cases none
  | block opened content closed ih =>
    obtain ⟨_, rfl, inner⟩ := cut.cons opened rfl
    obtain ⟨a, rfl, body⟩ := inner.braces content.nested closed simple
    obtain ⟨_, _, k, ⟨⟩, -, recovers, most⟩ := ih body rfl
    exact .intro .statement (recovers_block opened recovers closed)
      ⟨_, _, rfl, by rw [opened]; rfl⟩ most (by simp)
  | whileLoop keyed opened tested closed _ _ ih =>
    obtain ⟨_, rfl, inner⟩ := cut.cons keyed rfl
    obtain ⟨b, rfl, body⟩ := inner.group opened tested.nested closed
    obtain ⟨_, _, k, ⟨⟩, -, recovers, most⟩ := ih body rfl
    exact .intro .statement
      (recovers_whileLoop keyed opened (tested.recovers trivial) closed recovers)
      ⟨_, _, rfl, by rw [keyed]; rfl⟩ most (by simp)
  | forLoop keyed opened initialized tested separated increased closed _ _ _ _ ih =>
    obtain ⟨_, rfl, body⟩ := cut.forLoop keyed opened initialized.nested tested.nested separated
      increased.nested closed
    obtain ⟨_, _, k, ⟨⟩, -, recovers, most⟩ := ih body rfl
    have loop := recovers_forLoop keyed opened (initialized.recovers trivial) (tested.recovers trivial)
      separated (increased.recovers trivial) closed recovers
    exact .intro .statement loop ⟨_, _, rfl, by rw [keyed]; rfl⟩ most (by simp)
  | ifThen keyed opened tested closed _ _ ih =>
    obtain ⟨_, rfl, inner⟩ := cut.cons keyed rfl
    obtain ⟨_, rfl, branch⟩ := inner.group opened tested.nested closed
    obtain ⟨_, _, k, ⟨⟩, -, recovers, most⟩ := ih branch rfl
    exact .intro .statement (recovers_ifThen keyed opened (tested.recovers trivial) closed recovers)
      ⟨_, _, rfl, by rw [keyed]; rfl⟩ most (by simp)
  | ifElse keyed opened tested closed chosen attached alternated rejected _ ih ih' =>
    obtain rfl := attached rfl
    obtain ⟨_, rfl, inner⟩ := cut.cons keyed rfl
    obtain ⟨_, rfl, branches⟩ := inner.group opened tested.nested closed
    rcases branches.append chosen.nested with ⟨a, rest, branch⟩ | ⟨_, rfl, last⟩
    · cases a with
      | nil =>
        obtain ⟨rfl, -⟩ := List.cons_eq_cons.mp rest
        exact not_simple simple alternated rfl
      | cons u a =>
        obtain ⟨rfl, rfl⟩ := List.cons_eq_cons.mp rest
        obtain ⟨_, _, k, ⟨⟩, -, recovers, most⟩ := ih branch rfl
        obtain ⟨_, _, _, other, same⟩ := (rejected.relaxed trivial).anew k
        obtain rfl := same rfl
        have test := recovers_ifElse keyed opened (tested.recovers trivial) closed recovers alternated
          other.recovers
        exact .intro .statement test ⟨_, _, rfl, by rw [keyed]; rfl⟩ (by simpa using most) (by simp)
    · obtain ⟨_, rfl, other⟩ := last.cons alternated rfl
      obtain ⟨_, _, k, ⟨⟩, -, recovers, most⟩ := ih' other rfl
      have test := recovers_ifElse keyed opened (tested.recovers trivial) closed
        (chosen.recovers trivial) alternated recovers
      exact .intro .statement test ⟨_, _, rfl, by rw [keyed]; rfl⟩ most (by simp)
  | ordinary _ ih =>
    obtain ⟨_, _, k, ⟨⟩, ⟨u, v, hv, starts⟩, recovers, most⟩ := ih cut rfl
    exact .intro .declaration (recovers_ordinary ⟨u, v, hv, starts⟩ recovers)
      ⟨u, v, hv, startsDeclaration_of_opensStatement starts⟩ most rfl
  | functionDeclaration keyed _ ih =>
    obtain ⟨_, rfl, inner⟩ := cut.cons keyed rfl
    obtain ⟨_, _, k, ⟨⟩, -, recovers, most⟩ := ih inner rfl
    exact .intro .declaration (recovers_functionDeclaration keyed recovers)
      ⟨_, _, rfl, by rw [keyed]; rfl⟩ most rfl
  | baseClass keyed named opened listed closed ih =>
    obtain ⟨_, rfl, inner⟩ := cut.cons keyed rfl
    obtain ⟨_, rfl, block⟩ := inner.cons named rfl
    obtain ⟨_, rfl, methods⟩ := block.cons opened rfl
    obtain ⟨a, rfl, body⟩ := methods.braces listed.nested closed simple
    obtain ⟨_, _, k, ⟨⟩, -, recovers, most⟩ := ih body rfl
    exact .intro .declaration (recovers_baseClass keyed named opened recovers closed)
      ⟨_, _, rfl, by rw [keyed]; rfl⟩ most (by simp)
  | derivedClass keyed named inherits parented opened listed closed ih =>
    obtain ⟨_, rfl, inner⟩ := cut.cons keyed rfl
    obtain ⟨_, rfl, parent⟩ := inner.cons named rfl
    obtain ⟨_, rfl, parent'⟩ := parent.cons inherits rfl
    obtain ⟨_, rfl, block⟩ := parent'.cons parented rfl
    obtain ⟨_, rfl, methods⟩ := block.cons opened rfl
    obtain ⟨a, rfl, body⟩ := methods.braces listed.nested closed simple
    obtain ⟨_, _, k, ⟨⟩, -, recovers, most⟩ := ih body rfl
    exact .intro .declaration
      (recovers_derivedClass keyed named inherits parented opened recovers closed)
      ⟨_, _, rfl, by rw [keyed]; rfl⟩ most (by simp)
  | noDeclarations | noFunctions =>
    have := cut.split
    simp at this
  | moreDeclarations first rest ih ih' =>
    rcases cut.append first.nested with ⟨a, hw, inner⟩ | ⟨b, rfl, later⟩
    · cases a with
      | nil =>
        obtain rfl : t :: after = _ := hw
        exact first.mends_rest inner rest simple
      | cons u a =>
        obtain ⟨rfl, rfl⟩ := List.cons_eq_cons.mp hw
        obtain ⟨_, _, k, ⟨⟩, starts, recovers, most⟩ := ih inner rfl
        obtain ⟨_, _, others, -⟩ := (rest.relaxed trivial).anew k
        exact .intro .declarations
          (recovers_moreDeclarations starts recovers others.starts others.recovers)
          (starts_append starts) (by simpa using most) (by simp)
    · obtain ⟨_, _, k, ⟨⟩, starts, recovers, most⟩ := ih' later rfl
      exact .intro .declarations
        (recovers_moreDeclarations (first.starts trivial) (first.recovers trivial) starts recovers)
        (starts_append (first.starts trivial)) most (by simp)
  | function named opened listed closed entered content left ih =>
    obtain ⟨b, rfl, block⟩ := cut.function named opened listed.nested closed entered
    obtain ⟨a, rfl, body⟩ := block.braces content.nested left simple
    obtain ⟨_, _, k, ⟨⟩, -, recovers, most⟩ := ih body rfl
    have function := recovers_function named opened listed.listed.1 closed entered recovers left
    rw [listed.listed.2] at function
    exact .intro .function function ⟨_, _, rfl, named⟩ most (by simp)
  | moreFunctions first rest ih ih' =>
    rcases cut.append first.nested with ⟨a, hw, inner⟩ | ⟨b, rfl, later⟩
    · cases a with
      | nil => exact (first.not_ended inner).elim
      | cons u a =>
        obtain ⟨rfl, rfl⟩ := List.cons_eq_cons.mp hw
        obtain ⟨_, _, k, ⟨⟩, starts, recovers, most⟩ := ih inner rfl
        obtain ⟨_, _, others⟩ := (rest.relaxed trivial).anew k
        exact .intro .functions (recovers_moreFunctions starts recovers others.recovers)
          trivial (by simpa using most) (by simp)
    · obtain ⟨_, _, k, ⟨⟩, -, recovers, most⟩ := ih' later rfl
      have methods := recovers_moreFunctions (first.starts trivial) (first.recovers trivial) recovers
      exact .intro .functions methods trivial most (by simp)
  | _ => cases expression

/-! ## Programs -/

/-- The last declaration of a program, without its semicolon. -/
theorem program_unclosed {tree : Stmt} (h : Derives .nearest n w (.declaration tree) m)
    (cut : Cut w before semicolon []) (close : Token) :
    (program ⟨before, close, n⟩).faults.length ≤ 1 := by
  rcases h.unclosed_declaration cut .nothing with
    ⟨cause, k, halts⟩ | ⟨tree, faults, k, joined, most⟩
  · obtain ⟨u, b, rfl, -⟩ := h.before_starts cut
    have here := halts [] close rfl
    rw [List.append_nil] at here
    obtain ⟨shorter, dropped⟩ := declaration_of_halts here nofun
    have ends : program ⟨[], close, k⟩ = ⟨[], [], k⟩ := recovers_noDeclarations.2 close
    rw [program_cons dropped]
    show (_ ++ (program ⟨[], close, k⟩).faults).length ≤ 1
    rw [ends]
    exact Nat.le_refl 1
  · rw [List.append_nil] at joined
    have read := (Relaxed.moreDeclarations joined .noDeclarations).recovers.2 close
    rw [List.append_nil] at read
    rw [read]
    simpa using most

/-- A program without the semicolon at its end. -/
theorem Derives.program_ended {trees : List Stmt} (h : Derives .nearest n w (.declarations trees) m)
    (cut : Cut w before semicolon []) (close : Token) :
    (program ⟨before, close, n⟩).faults.length ≤ 1 := by
  generalize hp : Phrase.declarations trees = phrase at h
  induction h generalizing trees before with
  | noDeclarations =>
    have := cut.split
    simp at this
  | @moreDeclarations _ _ _ w₁ _ _ _ first rest _ ih =>
    rcases cut.append first.nested with ⟨a, none, last⟩ | ⟨b, rfl, later⟩
    · obtain ⟨rfl, rfl⟩ := List.append_eq_nil_iff.mp none.symm
      exact program_unclosed first last close
    · have noElse : ∀ t ∈ b.head?, t.kind ≠ .keyword .elseWord := by
        cases b with
        | nil => exact nofun
        | cons u b =>
          rintro _ ⟨⟩
          exact noElse_of_starts (rest.starts trivial) u (by rw [later.split]; rfl)
      obtain ⟨u, w', rfl, -⟩ := first.starts trivial
      obtain ⟨shorter, read⟩ :=
        declaration_of_yields (first.recovers trivial b close noElse) nofun
      rw [program_cons read]
      exact ih later rfl
  | _ => cases hp

theorem head_of_readable {tokens : List Token} (h : readable tokens = t :: after) :
    t ∈ tokens.head? ∧ t.kind ≠ .endOfInput := by
  cases tokens with
  | nil => cases h
  | cons u tokens =>
    by_cases hu : u.kind = .endOfInput
    · rw [readable, List.takeWhile_cons_of_neg (by simp [hu])] at h
      cases h
    · rw [readable, List.takeWhile_cons_of_pos (by simp [hu])] at h
      obtain ⟨rfl, -⟩ := List.cons_eq_cons.mp h
      exact ⟨rfl, hu⟩

/-- A semicolon outside parentheses ends a statement, be it one of the program or of a block, since
those of a `for` stand within parentheses. Where the token after it starts a simple statement, or is
the end of the input, at most one fault is noted without it. -/
theorem missing_semicolon {tokens before after : List Token} {semicolon : Token} {n : Nat}
    (faultless : (parse tokens n).faults = []) (split : tokens = before ++ semicolon :: after)
    (closed : semicolon.kind = .symbol .semicolon) (outside : depth before = 0)
    (next : ∀ t ∈ after.head?, startsSimple t.kind = true ∨ t.kind = .endOfInput) :
    (parse (before ++ after) n).faults.length ≤ 1 := by
  subst split
  by_cases ended : ∃ t ∈ before, t.kind = .endOfInput
  · -- The semicolon stands after the end and is not read.
    obtain ⟨t, ht, hk⟩ := ended
    obtain ⟨b, b', rfl⟩ := List.append_of_mem ht
    rw [List.append_assoc, List.cons_append, parse, ofTokens_behind hk] at faultless ⊢
    rw [faultless]
    exact Nat.zero_le 1
  · have endless (rest : List Token) : readable (before ++ rest) = before ++ readable rest := by
      refine List.takeWhile_append_of_pos fun t ht => decide_eq_true fun hk => ended ⟨t, ht, hk⟩
    have derived := program_of_parse .nearest faultless
    have inner : semicolon.kind ≠ .endOfInput := by simp [closed]
    have whole : readable (semicolon :: after) = semicolon :: readable after :=
      List.takeWhile_cons_of_pos (decide_eq_true inner)
    rw [endless, whole] at derived
    have cut : Cut (before ++ semicolon :: readable after) before semicolon (readable after) :=
      ⟨rfl, closed, outside⟩
    show (program ⟨readable (before ++ after), _, n⟩).faults.length ≤ 1
    rw [endless]
    cases rest : readable after with
    | nil =>
      rw [rest] at derived cut
      rw [List.append_nil]
      exact derived.program_ended cut _
    | cons t ts =>
      rw [rest] at derived cut
      obtain ⟨here, unended⟩ := head_of_readable rest
      have simple : startsSimple t.kind = true := (next t here).resolve_right unended
      obtain ⟨_, _, _, ⟨⟩, -, recovers, most⟩ := derived.mends cut simple
      rw [recovers.2]
      exact most

/-- A block of two statements. Without the first semicolon the second statement is dropped with the
first one, and the block is closed. -/
theorem first_semicolon_missing :
    let opening := Token.mk (.symbol .leftBrace) "\x7b" 1
    let closing := Token.mk (.symbol .rightBrace) "\x7d" 1
    let word := Token.mk (.keyword .printWord) "print" 1
    let value := Token.mk (.keyword .nilWord) "nil" 1
    let semicolon := Token.mk (.symbol .semicolon) ";" 1
    let before := [opening, word, value]
    let after := [word, value, semicolon, closing, ⟨.endOfInput, "", 1⟩]
    (parse (before ++ semicolon :: after) 0).faults = [] ∧ depth before = 0 ∧
      (parse (before ++ after) 0).faults = [.parse .printEnd word] ∧
        (parse (before ++ after) 0).faults.length ≤ 1 := by
  intro opening closing word value semicolon before after
  have faultless : (parse (before ++ semicolon :: after) 0).faults = [] := by cbv
  have outside : depth before = 0 := by cbv
  have noted : (parse (before ++ after) 0).faults = [.parse .printEnd word] := by cbv
  refine ⟨faultless, outside, noted, missing_semicolon faultless rfl rfl outside ?_⟩
  rintro _ ⟨⟩
  exact .inl rfl

/-- The semicolon of the only statement of a block. Without it the brace is discarded at which the
statement is stuck, and the end of the input is a second fault. -/
theorem last_semicolon_missing :
    let opening := Token.mk (.symbol .leftBrace) "\x7b" 1
    let closing := Token.mk (.symbol .rightBrace) "\x7d" 1
    let word := Token.mk (.keyword .printWord) "print" 1
    let value := Token.mk (.keyword .nilWord) "nil" 1
    let semicolon := Token.mk (.symbol .semicolon) ";" 1
    let close := Token.mk .endOfInput "" 1
    let before := [opening, word, value]
    let after := [closing, close]
    (parse (before ++ semicolon :: after) 0).faults = [] ∧ depth before = 0 ∧
      (parse (before ++ after) 0).faults =
        [.parse .printEnd closing, .parse .blockClose close] := by
  cbv

end Lox.Grammar
