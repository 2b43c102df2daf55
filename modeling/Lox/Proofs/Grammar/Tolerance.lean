import Lox.Proofs.Grammar.Acceptance
import Lox.Proofs.Grammar.Semicolons

/-!
# Faults that drop nothing

Tokens that are derivable in the relaxed grammar are read as their tree, with the faults of the
derivation noted, and nothing is dropped. As in the grammar itself an `else` can be moved to the
nearest test, and the numbers of occurrences restrict nothing: a derivation can be repeated from any
number on.
-/
namespace Lox.Grammar

variable {style : DanglingElse} {n m k : Nat} {w w₂ : List Token} {faults faults₁ : List Fault}

/-! ## Deriving anew -/

/-- Both are variables, both are properties, or neither can be assigned to. -/
inductive SameTarget : Expr → Expr → Prop where
  | variable {id id' : Nat} {name : Token} : SameTarget (.var id name) (.var id' name)
  | property {object object' : Expr} {name : Token} :
      SameTarget (.get object name) (.get object' name)
  | invalid {tree tree' : Expr} (left : assignable tree = false)
      (right : assignable tree' = false) :
      SameTarget tree tree'

theorem assignable_node (t : Tier) (left : Expr) (operator : Token) (right : Expr) :
    assignable (t.node left operator right) = false := by
  cases t <;> rfl

/-- Tokens from which some statement is derivable with these faults, in the style `nearest`. -/
def AnyStatement (faults : List Fault) (n : Nat) (w : List Token) : Prop :=
  ∃ endsOpen tree m, Relaxed .nearest n w (.statement endsOpen tree) faults m

/-- The same tokens with the same faults in the style `nearest`, with occurrences numbered from `n`
on, as a phrase of the same kind. A statement ends as it did if it was in this style before. -/
def Phrase.Anew (style : DanglingElse) (faults : List Fault) :
    Phrase → Nat → List Token → Prop
  | .primary e, n, w =>
      ∃ e' m, Relaxed .nearest n w (.primary e') faults m ∧ SameTarget e e'
  | .call e, n, w => ∃ e' m, Relaxed .nearest n w (.call e') faults m ∧ SameTarget e e'
  | .unary e, n, w => ∃ e' m, Relaxed .nearest n w (.unary e') faults m ∧ SameTarget e e'
  | .tier ts e, n, w => ∃ e' m, Relaxed .nearest n w (.tier ts e') faults m ∧ SameTarget e e'
  | .expression _, n, w => ∃ e m, Relaxed .nearest n w (.expression e) faults m
  | .optional _, n, w => ∃ e m, Relaxed .nearest n w (.optional e) faults m
  | .arguments es, n, w =>
      ∃ es' m, Relaxed .nearest n w (.arguments es') faults m ∧ es'.length = es.length
  | .varDeclaration _, n, w => ∃ s m, Relaxed .nearest n w (.varDeclaration s) faults m
  | .expressionStatement _, n, w => ∃ s m, Relaxed .nearest n w (.expressionStatement s) faults m
  | .initializer _, n, w => ∃ s m, Relaxed .nearest n w (.initializer s) faults m
  | .statement endsOpen _, n, w => ∃ endsOpen' s m,
      Relaxed .nearest n w (.statement endsOpen' s) faults m ∧
        (style = .nearest → endsOpen' = endsOpen)
  | .declaration _, n, w => ∃ s m, Relaxed .nearest n w (.declaration s) faults m
  | .declarations ss, n, w =>
      ∃ ss' m, Relaxed .nearest n w (.declarations ss') faults m ∧ ss'.length = ss.length
  | .function _, n, w => ∃ d m, Relaxed .nearest n w (.function d) faults m
  | .functions _, n, w => ∃ ds m, Relaxed .nearest n w (.functions ds) faults m

theorem Relaxed.anyStatement {endsOpen : Bool} {tree : Stmt} {w' : List Token}
    {faults' : List Fault} (h : Relaxed .nearest n w (.statement endsOpen tree) faults m)
    (hw : w = w') (hf : faults = faults') : AnyStatement faults' n w' :=
  hw ▸ hf ▸ ⟨endsOpen, tree, m, h⟩

/-- A statement that ends with a test without `else` takes in an `else` that follows. -/
theorem Relaxed.attach {tree : Stmt} {elseToken : Token}
    (h : Relaxed .nearest n w (.statement true tree) faults m)
    (alternated : elseToken.kind = .keyword .elseWord)
    (rejected : ∀ n, AnyStatement faults₁ n w₂) :
    AnyStatement (faults ++ faults₁) n (w ++ elseToken :: w₂) := by
  generalize hp : Phrase.statement true tree = phrase at h
  induction h generalizing tree with
  | whileLoop keyed opened tested closed _ _ ih =>
    cases hp
    obtain ⟨endsOpen, body, _, hb⟩ := ih rfl
    exact (Relaxed.whileLoop keyed opened tested closed hb).anyStatement (by simp) (by simp)
  | forLoop keyed opened initialized tested separated increased closed _ _ _ _ ih =>
    injection hp with ho
    subst ho
    obtain ⟨endsOpen, body, _, hb⟩ := ih rfl
    have hloop := Relaxed.forLoop keyed opened initialized tested separated increased closed hb
    exact hloop.anyStatement (by simp) (by simp)
  | @ifThen _ _ _ _ _ _ _ _ _ _ _ thenOpen _ keyed opened tested closed chosen _ ih =>
    cases hp
    cases thenOpen with
    | true =>
      obtain ⟨endsOpen, branch, _, hb⟩ := ih rfl
      exact (Relaxed.ifThen keyed opened tested closed hb).anyStatement (by simp) (by simp)
    | false =>
      obtain ⟨elseOpen, other, _, ho⟩ := rejected _
      have hif := Relaxed.ifElse keyed opened tested closed chosen (fun _ => rfl) alternated ho
      exact hif.anyStatement (by simp) (by simp)
  | ifElse keyed opened tested closed chosen attached alternated' _ _ _ ih =>
    cases hp
    obtain ⟨endsOpen, branch, _, hb⟩ := ih rfl
    have hif := Relaxed.ifElse keyed opened tested closed chosen attached alternated' hb
    exact hif.anyStatement (by simp) (by simp)
  | _ => cases hp

/-- A derivation can be repeated from any number on, in the style `nearest`. -/
theorem Relaxed.anew {phrase : Phrase} (h : Relaxed style n w phrase faults m) (n' : Nat) :
    phrase.Anew style faults n' w := by
  induction h generalizing n' with
  | literal denotes => exact ⟨_, _, .literal denotes, .invalid rfl rfl⟩
  | this keyed => exact ⟨_, _, .this keyed, .invalid rfl rfl⟩
  | «variable» named => exact ⟨_, _, .variable named, .variable⟩
  | super keyed dotted named => exact ⟨_, _, .super keyed dotted named, .invalid rfl rfl⟩
  | grouping opened _ closed ih =>
    obtain ⟨_, _, content⟩ := ih n'
    exact ⟨_, _, .grouping opened content closed, .invalid rfl rfl⟩
  | simple _ ih =>
    obtain ⟨_, _, base, same⟩ := ih n'
    exact ⟨_, _, .simple base, same⟩
  | emptyCall _ opened closed ih =>
    obtain ⟨_, _, called, -⟩ := ih n'
    exact ⟨_, _, .emptyCall called opened closed, .invalid rfl rfl⟩
  | call _ opened _ closed ih ih' =>
    obtain ⟨_, m', called, -⟩ := ih n'
    obtain ⟨_, _, listed, -⟩ := ih' m'
    exact ⟨_, _, .call called opened listed closed, .invalid rfl rfl⟩
  | property _ dotted named ih =>
    obtain ⟨_, _, owner, -⟩ := ih n'
    exact ⟨_, _, .property owner dotted named, .property⟩
  | unaryOperation operates _ ih =>
    obtain ⟨_, _, operand, -⟩ := ih n'
    exact ⟨_, _, .unaryOperation operates operand, .invalid rfl rfl⟩
  | access _ ih =>
    obtain ⟨_, _, base, same⟩ := ih n'
    exact ⟨_, _, .access base, same⟩
  | tightest _ ih =>
    obtain ⟨_, _, base, same⟩ := ih n'
    exact ⟨_, _, .tightest base, same⟩
  | tighter _ ih =>
    obtain ⟨_, _, base, same⟩ := ih n'
    exact ⟨_, _, .tighter base, same⟩
  | operation _ operates _ ih ih' =>
    obtain ⟨_, m', before, -⟩ := ih n'
    obtain ⟨_, _, after, -⟩ := ih' m'
    exact ⟨_, _, .operation before operates after,
      .invalid (assignable_node ..) (assignable_node ..)⟩
  | plain _ ih =>
    obtain ⟨_, _, base, -⟩ := ih n'
    exact ⟨_, _, .plain base⟩
  | assignment _ assigned _ ih ih' =>
    obtain ⟨_, m', target, same⟩ := ih n'
    obtain ⟨_, _, valued⟩ := ih' m'
    cases same with
    | «variable» => exact ⟨_, _, .assignment target assigned valued⟩
    | invalid left => cases left
  | propertyAssignment _ assigned _ ih ih' =>
    obtain ⟨_, m', target, same⟩ := ih n'
    obtain ⟨_, _, valued⟩ := ih' m'
    cases same with
    | property => exact ⟨_, _, .propertyAssignment target assigned valued⟩
    | invalid left => cases left
  | invalidAssignment _ invalid assigned _ ih ih' =>
    obtain ⟨_, m', target, same⟩ := ih n'
    obtain ⟨_, _, valued⟩ := ih' m'
    cases same with
    | «variable» | property => cases invalid
    | invalid _ right => exact ⟨_, _, .invalidAssignment target right assigned valued⟩
  | firstArgument _ ih =>
    obtain ⟨_, _, argument⟩ := ih n'
    exact ⟨_, _, .firstArgument argument, rfl⟩
  | nextArgument _ separated _ ih ih' =>
    obtain ⟨_, m', before, size⟩ := ih n'
    obtain ⟨_, _, argument⟩ := ih' m'
    rw [← size]
    exact ⟨_, _, .nextArgument before separated argument, by simp [size]⟩
  | omitted => exact ⟨_, _, .omitted⟩
  | given _ ih =>
    obtain ⟨_, _, present⟩ := ih n'
    exact ⟨_, _, .given present⟩
  | bareVariable keyed named closed => exact ⟨_, _, .bareVariable keyed named closed⟩
  | initializedVariable keyed named assigned _ closed ih =>
    obtain ⟨_, _, valued⟩ := ih n'
    exact ⟨_, _, .initializedVariable keyed named assigned valued closed⟩
  | expressionEnd _ closed ih =>
    obtain ⟨_, _, valued⟩ := ih n'
    exact ⟨_, _, .expressionEnd valued closed⟩
  | noInitializer closed => exact ⟨_, _, .noInitializer closed⟩
  | variableInitializer _ ih =>
    obtain ⟨_, _, declared⟩ := ih n'
    exact ⟨_, _, .variableInitializer declared⟩
  | expressionInitializer _ ih =>
    obtain ⟨_, _, evaluated⟩ := ih n'
    exact ⟨_, _, .expressionInitializer evaluated⟩
  | evaluation _ ih =>
    obtain ⟨_, _, evaluated⟩ := ih n'
    exact ⟨_, _, _, .evaluation evaluated, fun _ => rfl⟩
  | print keyed _ closed ih =>
    obtain ⟨_, _, valued⟩ := ih n'
    exact ⟨_, _, _, .print keyed valued closed, fun _ => rfl⟩
  | returnWith keyed _ closed ih =>
    obtain ⟨_, _, valued⟩ := ih n'
    exact ⟨_, _, _, .returnWith keyed valued closed, fun _ => rfl⟩
  | block opened _ closed ih =>
    obtain ⟨_, _, content, -⟩ := ih n'
    exact ⟨_, _, _, .block opened content closed, fun _ => rfl⟩
  | whileLoop keyed opened _ closed _ ih ih' =>
    obtain ⟨_, m', tested⟩ := ih n'
    obtain ⟨_, _, _, repeated, same⟩ := ih' m'
    exact ⟨_, _, _, .whileLoop keyed opened tested closed repeated, same⟩
  | forLoop keyed opened _ _ separated _ closed _ ih ih₁ ih₂ ih₃ =>
    obtain ⟨_, m', initialized⟩ := ih n'
    obtain ⟨_, k', tested⟩ := ih₁ m'
    obtain ⟨_, l', increased⟩ := ih₂ k'
    obtain ⟨_, _, _, repeated, same⟩ := ih₃ l'
    exact ⟨_, _, _, .forLoop keyed opened initialized tested separated increased closed repeated,
      same⟩
  | ifThen keyed opened _ closed _ ih ih' =>
    obtain ⟨_, m', tested⟩ := ih n'
    obtain ⟨_, _, _, chosen, -⟩ := ih' m'
    exact ⟨_, _, _, .ifThen keyed opened tested closed chosen, fun _ => rfl⟩
  | ifElse keyed opened _ closed _ attached alternated _ ih ih₁ ih₂ =>
    obtain ⟨_, m', tested⟩ := ih n'
    obtain ⟨thenOpen, branch, k', chosen, same⟩ := ih₁ m'
    cases thenOpen with
    | false =>
      obtain ⟨_, _, _, rejected, same'⟩ := ih₂ k'
      exact ⟨_, _, _, .ifElse keyed opened tested closed chosen (fun _ => rfl) alternated rejected,
        same'⟩
    | true =>
      have any : ∀ n, AnyStatement _ n _ := fun n =>
        let ⟨_, _, _, rejected, _⟩ := ih₂ n
        ⟨_, _, _, rejected⟩
      obtain ⟨_, _, _, both⟩ := chosen.attach alternated any
      refine ⟨_, _, _, .ifThen keyed opened tested closed both, fun nearest => ?_⟩
      exact absurd (same nearest) (by rw [attached nearest]; exact nofun)
  | ordinary _ ih =>
    obtain ⟨_, _, _, executed, -⟩ := ih n'
    exact ⟨_, _, .ordinary executed⟩
  | variableDeclaration _ ih =>
    obtain ⟨_, _, declared⟩ := ih n'
    exact ⟨_, _, .variableDeclaration declared⟩
  | functionDeclaration keyed _ ih =>
    obtain ⟨_, _, declared⟩ := ih n'
    exact ⟨_, _, .functionDeclaration keyed declared⟩
  | baseClass keyed named opened _ closed ih =>
    obtain ⟨_, _, listed⟩ := ih n'
    exact ⟨_, _, .baseClass keyed named opened listed closed⟩
  | derivedClass keyed named inherits parented opened _ closed ih =>
    obtain ⟨_, _, listed⟩ := ih (n' + 1)
    exact ⟨_, _, .derivedClass keyed named inherits parented opened listed closed⟩
  | noDeclarations => exact ⟨_, _, .noDeclarations, rfl⟩
  | moreDeclarations _ _ ih ih' =>
    obtain ⟨_, m', first⟩ := ih n'
    obtain ⟨_, _, rest, size⟩ := ih' m'
    exact ⟨_, _, .moreDeclarations first rest, by simp [size]⟩
  | function named opened listed closed entered _ left ih =>
    obtain ⟨_, _, content, -⟩ := ih n'
    exact ⟨_, _, .function named opened listed closed entered content left⟩
  | noFunctions => exact ⟨_, _, .noFunctions⟩
  | moreFunctions _ _ ih ih' =>
    obtain ⟨_, m', first⟩ := ih n'
    obtain ⟨_, _, rest⟩ := ih' m'
    exact ⟨_, _, .moreFunctions first rest⟩

/-! ## Reading the relaxed grammar -/

/-- None of the faults of a derivation is one at which reading is stuck. -/
theorem Relaxed.minor {phrase : Phrase} (h : Relaxed style n w phrase faults m) :
    ∀ f ∈ faults, ∃ cause t, f = .parse cause t ∧ cause.stops = false := by
  induction h with
  | invalidAssignment _ _ _ _ ih ih' =>
    refine List.forall_mem_append.mpr ⟨ih, List.forall_mem_append.mpr ⟨ih', ?_⟩⟩
    exact List.forall_mem_singleton.mpr ⟨_, _, rfl, rfl⟩
  | nextArgument _ _ _ ih ih' =>
    refine List.forall_mem_append.mpr ⟨ih, List.forall_mem_append.mpr ⟨?_, ih'⟩⟩
    unfold crowding
    split
    · exact List.forall_mem_singleton.mpr ⟨_, _, rfl, rfl⟩
    · exact List.forall_mem_nil _
  | function _ _ _ _ _ _ _ ih =>
    refine List.forall_mem_append.mpr ⟨List.forall_mem_map.mpr fun t _ => ?_, ih⟩
    exact ⟨_, t, rfl, rfl⟩
  | call _ _ _ _ ih ih' | operation _ _ _ ih ih' | assignment _ _ _ ih ih'
  | propertyAssignment _ _ _ ih ih' | whileLoop _ _ _ _ _ ih ih' | ifThen _ _ _ _ _ ih ih'
  | moreDeclarations _ _ ih ih' | moreFunctions _ _ ih ih' =>
    exact List.forall_mem_append.mpr ⟨ih, ih'⟩
  | ifElse _ _ _ _ _ _ _ _ ih ih₁ ih₂ =>
    exact List.forall_mem_append.mpr ⟨ih, List.forall_mem_append.mpr ⟨ih₁, ih₂⟩⟩
  | forLoop _ _ _ _ _ _ _ _ ih ih₁ ih₂ ih₃ =>
    exact List.forall_mem_append.mpr ⟨ih, List.forall_mem_append.mpr
      ⟨ih₁, List.forall_mem_append.mpr ⟨ih₂, ih₃⟩⟩⟩
  | _ => first | assumption | exact List.forall_mem_nil _

theorem parse_of_relaxed {tokens : List Token} {trees : List Stmt}
    (h : Relaxed .nearest n (readable tokens) (.declarations trees) faults m) :
    parse tokens n = ⟨trees, faults, m⟩ :=
  h.recovers.2 _

/-- Without a fault the relaxed grammar derives what the grammar derives. -/
theorem relaxed_faultless_iff {trees : List Stmt} :
    Relaxed .nearest n w (.declarations trees) [] m ↔ Program .nearest n w trees m := by
  constructor
  · intro h
    have read := h.recovers.2 ⟨.endOfInput, "", 0⟩
    have derived : Program .nearest n w _ _ :=
      derives_program (s := ⟨w, ⟨.endOfInput, "", 0⟩, n⟩) (by rw [read])
    rwa [read] at derived
  · exact fun h => h.relaxed trivial

/-- Faults that leave the tree well formed drop nothing. What is derivable in the relaxed grammar is
read as its tree, up to where an `else` belongs, with as many statements and with exactly the faults
of the derivation, in order; at none of them is reading stuck. -/
theorem relaxed_drops_nothing (tokens : List Token) (n : Nat) :
    (∀ trees faults m, Relaxed .nearest n (readable tokens) (.declarations trees) faults m →
      parse tokens n = ⟨trees, faults, m⟩) ∧
    ∀ trees faults m, Relaxed .any n (readable tokens) (.declarations trees) faults m →
      (∃ trees' m', trees'.length = trees.length ∧ parse tokens n = ⟨trees', faults, m'⟩ ∧
        Relaxed .nearest n (readable tokens) (.declarations trees') faults m') ∧
      ∀ f ∈ faults, ∃ cause t, f = .parse cause t ∧ cause.stops = false := by
  refine ⟨fun trees faults m h => parse_of_relaxed h, fun trees faults m h => ⟨?_, h.minor⟩⟩
  obtain ⟨trees', m', nearest, size⟩ := h.anew n
  exact ⟨trees', m', size, parse_of_relaxed nearest, nearest⟩

/-- A literal that is assigned to twice. The fault at the second equals sign comes first. -/
theorem literal_targets_noted :
    let value := Token.mk (.keyword .nilWord) "nil" 1
    let first := Token.mk (.symbol .equal) "=" 1
    let second := Token.mk (.symbol .equal) "=" 2
    let semicolon := Token.mk (.symbol .semicolon) ";" 2
    let tokens := [value, first, value, second, value, semicolon, ⟨.endOfInput, "", 2⟩]
    (∃ m, Relaxed .any 0 (readable tokens) (.declarations [.expression (.literal .nil)])
      [.parse .assignmentTarget second, .parse .assignmentTarget first] m) ∧
    (parse tokens 0).statements.length = 1 ∧
    parse tokens 0 = ⟨[.expression (.literal .nil)],
      [.parse .assignmentTarget second, .parse .assignmentTarget first], 0⟩ := by
  intro value first second semicolon tokens
  have operand (style : DanglingElse) :
      Relaxed style 0 [value] (.tier Tier.all (.literal .nil)) [] 0 :=
    .operand (.access (.simple (.literal rfl))) Tier.all
  have derived (style : DanglingElse) :
      Relaxed style 0 (readable tokens) (.declarations [.expression (.literal .nil)])
        [.parse .assignmentTarget second, .parse .assignmentTarget first] 0 :=
    .moreDeclarations (.ordinary (.evaluation (.expressionEnd
      (.invalidAssignment (operand style) rfl rfl
        (.invalidAssignment (operand style) rfl rfl (.plain (operand style)))) rfl)))
      .noDeclarations
  obtain ⟨⟨trees, m, size, read, -⟩, -⟩ :=
    (relaxed_drops_nothing tokens 0).2 _ _ _ (derived .any)
  exact ⟨⟨0, derived .any⟩, by rw [read]; exact size,
    (relaxed_drops_nothing tokens 0).1 _ _ _ (derived .nearest)⟩

end Lox.Grammar
