import Lox.Proofs.Grammar.Acceptance
import Lox.Proofs.Grammar.Relabelling
import Lox.Proofs.Grammar.Semicolons

/-!
# Malformed statements among others

A simple statement that cannot be read is dropped with its fault, and reading goes on after its
semicolon wherever in it the fault is. So where declarations may stand, in a program or in a block,
the tokens can be cut into chunks that are each read on their own or malformed, and together they
are read as the statements of the one and the faults of the other.
-/
namespace Lox.Grammar

/-- Statements without the numbers of their occurrences. -/
def unnumbered (trees : List Stmt) : List Stmt := Stmt.relabelAll (fun _ => 0) id trees

/-- Tokens without an end of input that on their own, before the end `close`, are read without a
fault. -/
structure Clean (close : Token) (w : List Token) : Prop where
  endless : ∀ t ∈ w, t.kind ≠ .endOfInput
  faultless : (parse (w ++ [close]) 0).faults = []

/-- Tokens of one simple statement that is not read. -/
structure Malformed (close : Token) (w : List Token) : Prop where
  endless : ∀ t ∈ w, t.kind ≠ .endOfInput
  closed : ∃ body closing, w = body ++ [closing] ∧ closing.kind = .symbol .semicolon ∧
    ∀ t ∈ body, t.kind ≠ .symbol .semicolon
  braceless : ∀ t ∈ w, t.kind ≠ .symbol .leftBrace ∧ t.kind ≠ .symbol .rightBrace
  simple : ∀ t ∈ w.head?, startsCompound t.kind = false
  continued : ∀ t ∈ w.tail, startsStatement t.kind = false
  dropped : (parse (w ++ [close]) 0).statements = []

/-- The rules for tokens in chunks. In a program, a block or a body, and so at any depth, clean and
malformed chunks may stand among the declarations. The faults are those of the chunks in order. -/
inductive Chunked (close : Token) : Nat → List Token → Phrase → List Fault → Nat → Prop where
  | derived {phrase : Phrase} (h : Derives .nearest n w phrase m) : Chunked close n w phrase [] m
  | chunk (alone : Clean close w ∨ Malformed close w)
      (rest : Chunked close (parse (w ++ [close]) n).nextId w₁ (.declarations trees) faults k) :
      Chunked close n (w ++ w₁) (.declarations ((parse (w ++ [close]) n).statements ++ trees))
        ((parse (w ++ [close]) n).faults ++ faults) k
  | moreDeclarations {tree : Stmt} (first : Chunked close n w (.declaration tree) faults m)
      (rest : Chunked close m w₁ (.declarations trees) faults₁ k) :
      Chunked close n (w ++ w₁) (.declarations (tree :: trees)) (faults ++ faults₁) k
  | ordinary {endsOpen : Bool} {tree : Stmt}
      (executed : Chunked close n w (.statement endsOpen tree) faults m) :
      Chunked close n w (.declaration tree) faults m
  | functionDeclaration {decl : FunctionDecl} (keyed : keyword.kind = .keyword .funWord)
      (declared : Chunked close n w (.function decl) faults m) :
      Chunked close n (keyword :: w) (.declaration (.functionDecl decl)) faults m
  | baseClass {methods : List FunctionDecl} (keyed : keyword.kind = .keyword .classWord)
      (named : name.kind = .identifier) (opened : opening.kind = .symbol .leftBrace)
      (listed : Chunked close n w (.functions methods) faults m)
      (closed : closing.kind = .symbol .rightBrace) :
      Chunked close n (keyword :: name :: opening :: (w ++ [closing]))
        (.declaration (.classDecl name none methods)) faults m
  | derivedClass {less parent : Token} {methods : List FunctionDecl}
      (keyed : keyword.kind = .keyword .classWord) (named : name.kind = .identifier)
      (inherits : less.kind = .symbol .less) (parented : parent.kind = .identifier)
      (opened : opening.kind = .symbol .leftBrace)
      (listed : Chunked close (n + 1) w (.functions methods) faults m)
      (closed : closing.kind = .symbol .rightBrace) :
      Chunked close n (keyword :: name :: less :: parent :: opening :: (w ++ [closing]))
        (.declaration (.classDecl name (some (.var n parent)) methods)) faults m
  | function {params body} {brace endBrace : Token} (named : name.kind = .identifier)
      (opened : opening.kind = .symbol .leftParen) (listed : OptionalParameters w params)
      (closed : closing.kind = .symbol .rightParen) (entered : brace.kind = .symbol .leftBrace)
      (content : Chunked close n w₁ (.declarations body) faults m)
      (left : endBrace.kind = .symbol .rightBrace) :
      Chunked close n (name :: opening :: (w ++ closing :: brace :: (w₁ ++ [endBrace])))
        (.function ⟨name, params, body⟩) faults m
  | moreFunctions {decl : FunctionDecl} {decls : List FunctionDecl}
      (first : Chunked close n w (.function decl) faults m)
      (rest : Chunked close m w₁ (.functions decls) faults₁ k) :
      Chunked close n (w ++ w₁) (.functions (decl :: decls)) (faults ++ faults₁) k
  | block {body : List Stmt} (opened : opening.kind = .symbol .leftBrace)
      (content : Chunked close n w (.declarations body) faults m)
      (closed : closing.kind = .symbol .rightBrace) :
      Chunked close n (opening :: (w ++ [closing])) (.statement false (.block body)) faults m
  | whileLoop {test : Expr} {endsOpen : Bool} {body : Stmt}
      (keyed : keyword.kind = .keyword .whileWord) (opened : opening.kind = .symbol .leftParen)
      (tested : Derives .nearest n w (.expression test) m)
      (closed : closing.kind = .symbol .rightParen)
      (repeated : Chunked close m w₁ (.statement endsOpen body) faults k) :
      Chunked close n (keyword :: opening :: (w ++ closing :: w₁))
        (.statement endsOpen (.whileLoop test body)) faults k
  | forLoop {l i : Nat} {w₂ w₃ : List Token} {first : Option Stmt} {test after : Option Expr}
      {endsOpen : Bool} {body : Stmt} {semicolon : Token}
      (keyed : keyword.kind = .keyword .forWord) (opened : opening.kind = .symbol .leftParen)
      (initialized : Derives .nearest n w (.initializer first) m)
      (tested : Derives .nearest m w₁ (.optional test) k)
      (separated : semicolon.kind = .symbol .semicolon)
      (increased : Derives .nearest k w₂ (.optional after) l)
      (closed : closing.kind = .symbol .rightParen)
      (repeated : Chunked close l w₃ (.statement endsOpen body) faults i) :
      Chunked close n
        (keyword :: opening :: (w ++ (w₁ ++ semicolon :: (w₂ ++ closing :: w₃))))
        (.statement endsOpen (ForClauses.loop ⟨first, test, after⟩ body)) faults i
  | ifThen {test : Expr} {endsOpen : Bool} {branch : Stmt}
      (keyed : keyword.kind = .keyword .ifWord) (opened : opening.kind = .symbol .leftParen)
      (tested : Derives .nearest n w (.expression test) m)
      (closed : closing.kind = .symbol .rightParen)
      (chosen : Chunked close m w₁ (.statement endsOpen branch) faults k) :
      Chunked close n (keyword :: opening :: (w ++ closing :: w₁))
        (.statement true (.ifElse test branch none)) faults k
  | ifElse {l : Nat} {w₂ : List Token} {test : Expr} {elseOpen : Bool} {branch other : Stmt}
      {elseToken : Token}
      (keyed : keyword.kind = .keyword .ifWord) (opened : opening.kind = .symbol .leftParen)
      (tested : Derives .nearest n w (.expression test) m)
      (closed : closing.kind = .symbol .rightParen)
      (chosen : Chunked close m w₁ (.statement false branch) faults k)
      (alternated : elseToken.kind = .keyword .elseWord)
      (rejected : Chunked close k w₂ (.statement elseOpen other) faults₁ l) :
      Chunked close n (keyword :: opening :: (w ++ closing :: (w₁ ++ elseToken :: w₂)))
        (.statement elseOpen (.ifElse test branch (some other))) (faults ++ faults₁) l

variable {n m k : Nat} {w w₁ : List Token} {close : Token} {trees : List Stmt}
  {faults faults₁ : List Fault}

/-! ## Chunks on their own -/

/-- Tokens before an end of input are all read. -/
theorem readable_endless (endless : ∀ t ∈ w, t.kind ≠ .endOfInput)
    (ended : close.kind = .endOfInput) : readable (w ++ [close]) = w := by
  rw [readable, List.takeWhile_append_of_pos (by simpa using endless)]
  simp [ended]

theorem parse_endless (endless : ∀ t ∈ w, t.kind ≠ .endOfInput) (ended : close.kind = .endOfInput)
    (n : Nat) : parse (w ++ [close]) n = program ⟨w, close, n⟩ := by
  have found : (w ++ [close]).find? (·.kind = .endOfInput) = some close := by
    rw [List.find?_append, List.find?_eq_none.mpr (by simpa using endless)]
    simp [ended]
  rw [parse, Input.ofTokens, found]
  exact congrArg (fun rest => program ⟨rest, close, n⟩) (readable_endless endless ended)

/-- Where the count starts shows in the numbers only. -/
theorem parse_from_zero (tokens : List Token) (n : Nat) :
    parse tokens n = (parse tokens 0).forward n :=
  parse_forward tokens n 0

theorem unnumbered_parse (tokens : List Token) (n : Nat) :
    unnumbered (parse tokens n).statements = unnumbered (parse tokens 0).statements := by
  rw [parse_from_zero tokens n]
  exact Stmt.relabelAll_relabelAll (n + ·) id (fun _ => 0) id _

theorem Clean.faults_eq (h : Clean close w) (n : Nat) : (parse (w ++ [close]) n).faults = [] := by
  rw [parse_from_zero]
  exact h.faultless

theorem Clean.derives (h : Clean close w) (ended : close.kind = .endOfInput) (n : Nat) :
    Program .nearest n w (parse (w ++ [close]) n).statements (parse (w ++ [close]) n).nextId := by
  have derived := program_of_parse .nearest (h.faults_eq n)
  rwa [readable_endless h.endless ended] at derived

theorem Malformed.segment (h : Malformed close w) : Segment w := by
  obtain ⟨body, closing, rfl, closed, inner⟩ := h.closed
  have continued := h.continued
  clear h
  induction body with
  | nil => exact .last closed
  | cons t body ih =>
    obtain ⟨now, inner⟩ := List.forall_mem_cons.mp inner
    cases body with
    | nil => exact .more now (continued closing List.mem_cons_self) (.last closed)
    | cons u body =>
      obtain ⟨next, continued⟩ := List.forall_mem_cons.mp continued
      exact .more now next (ih inner continued)

/-- A malformed statement is dropped whatever follows: the fault at which reading is stuck is the
last one, the others are only noted. -/
theorem Malformed.stuck (h : Malformed close w) (ended : close.kind = .endOfInput) (n : Nat) :
    ∃ fault noted left noLonger,
      declarationOrStuck ⟨w, close, n⟩ = .stuck fault noted left noLonger ∧
      parse (w ++ [close]) n = ⟨[], noted ++ [fault], left.nextId⟩ ∧
      (∀ f ∈ noted, f.stops = false) ∧ fault.stops = true ∧
      ∀ more close' pos, ∃ shorter, declaration ⟨w ++ more, close', n⟩ pos =
        ⟨none, noted ++ [fault], ⟨more, close', left.nextId⟩, shorter⟩ := by
  have simple : ∀ t ∈ w.head?, startsCompound t.kind = false ∧ t.kind ≠ .symbol .leftBrace :=
    fun t ht => ⟨h.simple t ht, (h.braceless t (List.mem_of_mem_head? ht)).1⟩
  have unread : (program ⟨w, close, n⟩).statements = [] := by
    rw [← parse_endless h.endless ended, parse_from_zero, Parsed.forward, h.dropped]
    rfl
  have pos (more close') : (⟨w ++ more, close', n⟩ : Input).size ≠ 0 := by
    obtain ⟨body, closing, rfl, -⟩ := h.closed
    simp [Input.size]
  have alone : (⟨w, close, n⟩ : Input) = ⟨w ++ [], close, n⟩ := by rw [List.append_nil]
  -- A statement would be left of the tokens alone. They are stuck, and so they are before others.
  cases reply : declarationOrStuck ⟨w, close, n⟩ with
  | done value noted left shorter =>
    obtain ⟨_, read⟩ := declaration_of_yields ⟨shorter, reply⟩ (alone ▸ pos [] close)
    rw [program, dif_neg (alone ▸ pos [] close), read] at unread
    cases unread
  | stuck fault noted left noLonger =>
    have dropped (more close') :=
      declaration_before more close' (s := ⟨w, close, n⟩) h.segment simple reply
    obtain ⟨⟨minor, major⟩, now⟩ := dropped [] close
    obtain ⟨_, now⟩ : ∃ _, declaration ⟨w ++ [], close, n⟩ (pos [] close) = _ := now (pos [] close)
    have ends : program ⟨[], close, left.nextId⟩ = ⟨[], [], left.nextId⟩ :=
      recovers_noDeclarations.2 close
    refine ⟨fault, noted, left, noLonger, rfl, ?_, minor, major,
      fun more close' => (dropped more close').2⟩
    rw [parse_endless h.endless ended, alone, program, dif_neg (pos [] close), now]
    simp only [ends, Option.toList_none, List.append_nil]

theorem Malformed.starts (h : Malformed close w) :
    ∃ t w', w = t :: w' ∧ startsDeclaration t.kind = true := by
  obtain ⟨body, closing, hw, -⟩ := h.closed
  cases w with
  | nil => simp at hw
  | cons t w' =>
    have simple := h.simple t rfl
    have braceless := (h.braceless t List.mem_cons_self).2
    refine ⟨t, w', rfl, ?_⟩
    have other : t.kind ≠ .keyword .elseWord := by
      intro hk
      rw [hk] at simple
      cases simple
    simp [startsDeclaration, other, braceless]

/-! ## Chunks together -/

section
variable {trees₁ : List Stmt}

/-- The statements of a clean chunk come before those of the rest. -/
theorem recovers_program (h : Program .nearest n w trees m)
    (starts : (Phrase.declarations trees₁).Starts w₁)
    (rest : (Phrase.declarations trees₁).Recovers faults m w₁ k) :
    (Phrase.declarations (trees ++ trees₁)).Starts (w ++ w₁) ∧
    (Phrase.declarations (trees ++ trees₁)).Recovers faults n (w ++ w₁) k := by
  induction trees generalizing n w with
  | nil =>
    cases h
    exact ⟨starts, rest⟩
  | cons tree trees ih =>
    cases h with
    | moreDeclarations first others =>
      obtain ⟨starts', rest'⟩ := ih others
      rw [List.append_assoc]
      exact ⟨starts_append (first.starts trivial),
        recovers_moreDeclarations (first.starts trivial) (first.recovers trivial) starts' rest'⟩

theorem Malformed.recovers (h : Malformed close w) (ended : close.kind = .endOfInput)
    (starts : (Phrase.declarations trees₁).Starts w₁)
    (rest : (Phrase.declarations trees₁).Recovers faults (parse (w ++ [close]) n).nextId w₁ k) :
    (Phrase.declarations ((parse (w ++ [close]) n).statements ++ trees₁)).Starts (w ++ w₁) ∧
    (Phrase.declarations ((parse (w ++ [close]) n).statements ++ trees₁)).Recovers
      ((parse (w ++ [close]) n).faults ++ faults) n (w ++ w₁) k := by
  obtain ⟨fault, noted, left, _, _, alone, _, _, dropped⟩ := h.stuck ended n
  rw [alone] at rest ⊢
  obtain ⟨t, w', rfl, ht⟩ := h.starts
  have brace := (h.braceless t List.mem_cons_self).2
  exact ⟨starts_append ⟨t, w', rfl, ht⟩, recovers_cons ⟨t, w', rfl, brace⟩
    (fun more close' _ pos => dropped more close' pos) starts rest⟩

end

/-- Tokens in chunks are read as their statements, with the faults noted. -/
theorem Chunked.recovers (ended : close.kind = .endOfInput) {phrase : Phrase}
    (h : Chunked close n w phrase faults m) (single : phrase.Single) :
    phrase.Starts w ∧ phrase.Recovers faults n w m := by
  induction h with
  | derived h => exact ⟨h.starts single, h.recovers single⟩
  | chunk alone _ ih =>
    obtain ⟨starts, rest⟩ := ih trivial
    rcases alone with clean | malformed
    · rw [clean.faults_eq]
      exact recovers_program (clean.derives ended _) starts rest
    · exact malformed.recovers ended starts rest
  | moreDeclarations _ _ ih ih' =>
    obtain ⟨starts, first⟩ := ih trivial
    obtain ⟨starts', rest⟩ := ih' trivial
    exact ⟨starts_append starts, recovers_moreDeclarations starts first starts' rest⟩
  | ordinary _ ih =>
    obtain ⟨starts, executed⟩ := ih trivial
    obtain ⟨t, w', rfl, ht⟩ := starts
    exact ⟨⟨t, w', rfl, startsDeclaration_of_opensStatement ht⟩,
      recovers_ordinary ⟨t, w', rfl, ht⟩ executed⟩
  | functionDeclaration keyed _ ih =>
    exact ⟨⟨_, _, rfl, by rw [keyed]; rfl⟩, recovers_functionDeclaration keyed (ih trivial).2⟩
  | baseClass keyed named opened _ closed ih =>
    exact ⟨⟨_, _, rfl, by rw [keyed]; rfl⟩,
      recovers_baseClass keyed named opened (ih trivial).2 closed⟩
  | derivedClass keyed named inherits parented opened _ closed ih =>
    exact ⟨⟨_, _, rfl, by rw [keyed]; rfl⟩,
      recovers_derivedClass keyed named inherits parented opened (ih trivial).2 closed⟩
  | function named opened listed closed entered _ left ih =>
    have function :=
      recovers_function named opened listed.listed.1 closed entered (ih trivial).2 left
    rw [listed.listed.2] at function
    exact ⟨⟨_, _, rfl, named⟩, function⟩
  | moreFunctions _ _ ih ih' =>
    obtain ⟨starts, first⟩ := ih trivial
    exact ⟨trivial, recovers_moreFunctions starts first (ih' trivial).2⟩
  | block opened _ closed ih =>
    exact ⟨⟨_, _, rfl, by rw [opened]; rfl⟩, recovers_block opened (ih trivial).2 closed⟩
  | whileLoop keyed opened tested closed _ ih =>
    exact ⟨⟨_, _, rfl, by rw [keyed]; rfl⟩,
      recovers_whileLoop keyed opened (tested.recovers trivial) closed (ih trivial).2⟩
  | forLoop keyed opened initialized tested separated increased closed _ ih =>
    exact ⟨⟨_, _, rfl, by rw [keyed]; rfl⟩,
      recovers_forLoop keyed opened (initialized.recovers trivial) (tested.recovers trivial) separated
        (increased.recovers trivial) closed (ih trivial).2⟩
  | ifThen keyed opened tested closed _ ih =>
    exact ⟨⟨_, _, rfl, by rw [keyed]; rfl⟩,
      recovers_ifThen keyed opened (tested.recovers trivial) closed (ih trivial).2⟩
  | ifElse keyed opened tested closed _ alternated _ ih ih' =>
    exact ⟨⟨_, _, rfl, by rw [keyed]; rfl⟩,
      recovers_ifElse keyed opened (tested.recovers trivial) closed (ih trivial).2 alternated
        (ih' trivial).2⟩

theorem Chunked.parse_eq {last : Token} (ended : close.kind = .endOfInput)
    (ended' : last.kind = .endOfInput) (endless : ∀ t ∈ w, t.kind ≠ .endOfInput)
    (h : Chunked close n w (.declarations trees) faults m) :
    parse (w ++ [last]) n = ⟨trees, faults, m⟩ := by
  rw [parse_endless endless ended']
  exact (h.recovers ended trivial).2.2 last

/-- A list of chunks is in chunks. -/
theorem chunked_flatten {chunks : List (List Token)}
    (h : ∀ c ∈ chunks, Clean close c ∨ Malformed close c) (n : Nat) :
    ∃ trees faults m, Chunked close n chunks.flatten (.declarations trees) faults m ∧
      unnumbered trees = chunks.flatMap (fun c => unnumbered (parse (c ++ [close]) 0).statements) ∧
      faults = chunks.flatMap (fun c => (parse (c ++ [close]) 0).faults) := by
  induction chunks generalizing n with
  | nil => exact ⟨[], [], n, .derived .noDeclarations, rfl, rfl⟩
  | cons c chunks ih =>
    obtain ⟨alone, others⟩ := List.forall_mem_cons.mp h
    obtain ⟨trees, _, m, rest, numbers, rfl⟩ := ih others (parse (c ++ [close]) n).nextId
    refine ⟨_, _, m, .chunk alone rest, ?_, ?_⟩
    · rw [List.flatMap_cons, ← numbers, ← unnumbered_parse _ n]
      exact Stmt.relabelAll_append ..
    · rw [List.flatMap_cons, parse_from_zero]
      rfl

/-- Malformed statements are isolated. Chunks one after another are read as the statements of the
clean ones, up to the numbers of occurrences, with the faults of each chunk on its own, and so they
are in any block or body of a larger program. Reading is stuck once in each malformed chunk; the
other faults in it are noted on the way. -/
theorem malformed_isolated {close last : Token} (ended : close.kind = .endOfInput)
    (ended' : last.kind = .endOfInput) :
    (∀ chunks : List (List Token), (∀ c ∈ chunks, Clean close c ∨ Malformed close c) → ∀ n,
      unnumbered (parse (chunks.flatten ++ [last]) n).statements =
        chunks.flatMap (fun c => unnumbered (parse (c ++ [close]) 0).statements) ∧
      (parse (chunks.flatten ++ [last]) n).faults =
        chunks.flatMap (fun c => (parse (c ++ [close]) 0).faults)) ∧
    (∀ n w trees faults m, (∀ t ∈ w, t.kind ≠ .endOfInput) →
      Chunked close n w (.declarations trees) faults m →
      parse (w ++ [last]) n = ⟨trees, faults, m⟩) ∧
    (∀ tokens n, parse tokens n = (parse tokens 0).forward n) ∧
    ∀ c, Malformed close c → ∃ fault noted left noLonger,
      declarationOrStuck ⟨c, close, 0⟩ = .stuck fault noted left noLonger ∧
      (parse (c ++ [close]) 0).faults = noted ++ [fault] ∧
      (∀ f ∈ noted, f.stops = false) ∧ fault.stops = true := by
  refine ⟨fun chunks h n => ?_, fun n w trees faults m endless h => h.parse_eq ended ended' endless,
    parse_from_zero, fun c h => ?_⟩
  · obtain ⟨trees, faults, m, chunked, numbers, noted⟩ := chunked_flatten h n
    have endless : ∀ t ∈ chunks.flatten, t.kind ≠ .endOfInput := by
      intro t ht
      obtain ⟨c, hc, htc⟩ := List.mem_flatten.mp ht
      exact (h c hc).elim (·.endless t htc) (·.endless t htc)
    rw [chunked.parse_eq ended ended' endless]
    exact ⟨numbers, noted⟩
  · obtain ⟨fault, noted, left, noLonger, stuck, alone, minor, major, -⟩ := h.stuck ended 0
    exact ⟨fault, noted, left, noLonger, stuck, by rw [alone], minor, major⟩

/-- A declaration without a name stands before a statement, and both again in a block. -/
theorem nameless_variable_isolated :
    let t := Token.mk (.keyword .nilWord) "nil" 1
    let semicolon := Token.mk (.symbol .semicolon) ";" 1
    let nameless := [Token.mk (.keyword .varWord) "var" 1, t, semicolon]
    let printed := [Token.mk (.keyword .printWord) "print" 1, t, semicolon]
    let opening := Token.mk (.symbol .leftBrace) "\x7b" 1
    let closing := Token.mk (.symbol .rightBrace) "\x7d" 1
    let last := Token.mk .endOfInput "" 2
    (parse ([nameless, printed].flatten ++ [last]) 7).faults = [.parse .variableName t] ∧
      parse (opening :: (nameless ++ printed ++ [closing]) ++ [last]) 0 =
        ⟨[.block [.print (.literal .nil)]], [.parse .variableName t], 0⟩ := by
  intro t semicolon nameless printed opening closing last
  let close := Token.mk .endOfInput "" 1
  have clean : Clean close printed := ⟨by decide, by cbv⟩
  have malformed : Malformed close nameless :=
    { endless := by decide
      closed := ⟨[⟨.keyword .varWord, "var", 1⟩, t], semicolon, rfl, rfl, by decide⟩
      braceless := by decide
      simple := by rintro _ ⟨⟩; rfl
      continued := by decide
      dropped := by cbv }
  have read : parse (printed ++ [close]) 0 = ⟨[.print (.literal .nil)], [], 0⟩ := by cbv
  have stuck : parse (nameless ++ [close]) 0 = ⟨[], [.parse .variableName t], 0⟩ := by cbv
  have content : Chunked close 0 (nameless ++ printed)
      (.declarations [.print (.literal .nil)]) [.parse .variableName t] 0 := by
    have second := Chunked.chunk (n := 0) (.inl clean) (.derived .noDeclarations)
    rw [read] at second
    have both := Chunked.chunk (n := 0) (.inr malformed) (by rw [stuck]; exact second)
    rw [stuck] at both
    exact both
  have opened : opening.kind = .symbol .leftBrace := rfl
  have closed : closing.kind = .symbol .rightBrace := rfl
  have block := Chunked.moreDeclarations (.ordinary (.block opened content closed))
    (.derived .noDeclarations)
  rw [List.append_nil] at block
  obtain ⟨flat, nested, _, _⟩ :=
    malformed_isolated (rfl : close.kind = .endOfInput) (rfl : last.kind = .endOfInput)
  obtain ⟨_, faults⟩ := flat [nameless, printed] (List.forall_mem_cons.mpr
    ⟨.inr malformed, List.forall_mem_singleton.mpr (.inl clean)⟩) 7
  refine ⟨?_, nested _ _ _ _ _ (by decide) block⟩
  rw [faults, List.flatMap_cons, List.flatMap_cons, stuck, read]
  rfl

end Lox.Grammar
