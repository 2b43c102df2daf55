import Lox.Proofs.Grammar.Completeness
import Lox.Proofs.Grammar.Soundness

/-!
# The parser and the grammar

A program that has a derivation has one in the style `nearest`: an `else` after an open branch
can be moved into the branch, down to the last test that lacks one. What is derivable in that
style is read as its tree, and what is read without a fault is derivable.
-/
namespace Lox.Grammar

variable {n m k : Nat} {w w₂ : List Token}

/-! ## Moving an `else` to the nearest test -/

/-- Tokens from which some statement is derivable in the style `nearest`. -/
def SomeStatement (n : Nat) (w : List Token) (m : Nat) : Prop :=
  ∃ endsOpen tree, Derives .nearest n w (.statement endsOpen tree) m

theorem Derives.someStatement {endsOpen : Bool} {tree : Stmt} {w' : List Token}
    (h : Derives .nearest n w (.statement endsOpen tree) m) (hw : w = w') :
    SomeStatement n w' m :=
  hw ▸ ⟨endsOpen, tree, h⟩

/-- A statement that ends with a test without `else` takes in an `else` that follows. -/
theorem Derives.attach {tree other : Stmt} {elseToken : Token} {elseOpen : Bool}
    (h : Derives .nearest n w (.statement true tree) m)
    (alternated : elseToken.kind = .keyword .elseWord)
    (rejected : Derives .nearest m w₂ (.statement elseOpen other) k) :
    SomeStatement n (w ++ elseToken :: w₂) k := by
  generalize hp : Phrase.statement true tree = phrase at h
  induction h generalizing tree with
  | whileLoop keyed opened tested closed _ _ ih =>
    cases hp
    obtain ⟨endsOpen, body, hb⟩ := ih rejected rfl
    exact (Derives.whileLoop keyed opened tested closed hb).someStatement (by simp)
  | forLoop keyed opened initialized tested separated increased closed _ _ _ _ ih =>
    injection hp with ho
    subst ho
    obtain ⟨endsOpen, body, hb⟩ := ih rejected rfl
    have hloop := Derives.forLoop keyed opened initialized tested separated increased closed hb
    exact hloop.someStatement (by simp)
  | @ifThen _ _ _ _ _ _ _ _ _ thenOpen _ keyed opened tested closed chosen _ ih =>
    cases hp
    cases thenOpen with
    | true =>
      obtain ⟨endsOpen, branch, hb⟩ := ih rejected rfl
      exact (Derives.ifThen keyed opened tested closed hb).someStatement (by simp)
    | false =>
      have hif := Derives.ifElse keyed opened tested closed chosen (fun _ => rfl) alternated rejected
      exact hif.someStatement (by simp)
  | ifElse keyed opened tested closed chosen attached alternated' _ _ _ ih =>
    cases hp
    obtain ⟨endsOpen, branch, hb⟩ := ih rejected rfl
    have hif := Derives.ifElse keyed opened tested closed chosen attached alternated' hb
    exact hif.someStatement (by simp)
  | _ => cases hp

/-- The same tokens in the style `nearest`, as a phrase of the same kind. The tree is another one
only where the phrase may hold statements. -/
def Phrase.Rebalances : Phrase → Nat → List Token → Nat → Prop
  | .statement _ _, n, w, m => SomeStatement n w m
  | .declaration _, n, w, m => ∃ tree, Derives .nearest n w (.declaration tree) m
  | .declarations _, n, w, m => ∃ trees, Derives .nearest n w (.declarations trees) m
  | .function _, n, w, m => ∃ decl, Derives .nearest n w (.function decl) m
  | .functions _, n, w, m => ∃ decls, Derives .nearest n w (.functions decls) m
  | phrase, n, w, m => Derives .nearest n w phrase m

/-- Where an open branch has an `else`, the branch takes it in. -/
theorem Derives.rebalances {style : DanglingElse} {phrase : Phrase}
    (h : Derives style n w phrase m) : phrase.Rebalances n w m := by
  induction h with
  | literal denotes => exact .literal denotes
  | this keyed => exact .this keyed
  | «variable» named => exact .variable named
  | super keyed dotted named => exact .super keyed dotted named
  | grouping opened _ closed ih => exact .grouping opened ih closed
  | simple _ ih => exact .simple ih
  | emptyCall _ opened closed ih => exact .emptyCall ih opened closed
  | call _ opened _ bounded closed ih ih' => exact .call ih opened ih' bounded closed
  | property _ dotted named ih => exact .property ih dotted named
  | unaryOperation operates _ ih => exact .unaryOperation operates ih
  | access _ ih => exact .access ih
  | tightest _ ih => exact .tightest ih
  | tighter _ ih => exact .tighter ih
  | operation _ operates _ ih ih' => exact .operation ih operates ih'
  | plain _ ih => exact .plain ih
  | assignment named assigned _ ih => exact .assignment named assigned ih
  | propertyAssignment _ dotted named assigned _ ih ih' =>
    exact .propertyAssignment ih dotted named assigned ih'
  | lastArgument _ ih => exact .lastArgument ih
  | moreArguments _ separated _ ih ih' => exact .moreArguments ih separated ih'
  | omitted => exact .omitted
  | given _ ih => exact .given ih
  | bareVariable keyed named closed => exact .bareVariable keyed named closed
  | initializedVariable keyed named assigned _ closed ih =>
    exact .initializedVariable keyed named assigned ih closed
  | expressionEnd _ closed ih => exact .expressionEnd ih closed
  | noInitializer closed => exact .noInitializer closed
  | variableInitializer _ ih => exact .variableInitializer ih
  | expressionInitializer _ ih => exact .expressionInitializer ih
  | evaluation _ ih => exact ⟨_, _, .evaluation ih⟩
  | print keyed _ closed ih => exact ⟨_, _, .print keyed ih closed⟩
  | returnWith keyed _ closed ih => exact ⟨_, _, .returnWith keyed ih closed⟩
  | block opened _ closed ih =>
    obtain ⟨trees, hd⟩ := ih
    exact ⟨_, _, .block opened hd closed⟩
  | whileLoop keyed opened _ closed _ ih ih' =>
    obtain ⟨_, _, hb⟩ := ih'
    exact ⟨_, _, .whileLoop keyed opened ih closed hb⟩
  | forLoop keyed opened _ _ separated _ closed _ ih ih₁ ih₂ ih₃ =>
    obtain ⟨_, _, hb⟩ := ih₃
    exact ⟨_, _, .forLoop keyed opened ih ih₁ separated ih₂ closed hb⟩
  | ifThen keyed opened _ closed _ ih ih' =>
    obtain ⟨_, _, hb⟩ := ih'
    exact ⟨_, _, .ifThen keyed opened ih closed hb⟩
  | ifElse keyed opened _ closed _ _ alternated _ ih ih₁ ih₂ =>
    obtain ⟨thenOpen, branch, hb⟩ := ih₁
    obtain ⟨elseOpen, other, ho⟩ := ih₂
    cases thenOpen with
    | false => exact ⟨_, _, .ifElse keyed opened ih closed hb (fun _ => rfl) alternated ho⟩
    | true =>
      obtain ⟨_, _, hb'⟩ := hb.attach alternated ho
      exact ⟨_, _, .ifThen keyed opened ih closed hb'⟩
  | ordinary _ ih =>
    obtain ⟨_, _, hd⟩ := ih
    exact ⟨_, .ordinary hd⟩
  | variableDeclaration _ ih => exact ⟨_, .variableDeclaration ih⟩
  | functionDeclaration keyed _ ih =>
    obtain ⟨_, hd⟩ := ih
    exact ⟨_, .functionDeclaration keyed hd⟩
  | baseClass keyed named opened _ closed ih =>
    obtain ⟨_, hd⟩ := ih
    exact ⟨_, .baseClass keyed named opened hd closed⟩
  | derivedClass keyed named inherits parented opened _ closed ih =>
    obtain ⟨_, hd⟩ := ih
    exact ⟨_, .derivedClass keyed named inherits parented opened hd closed⟩
  | noDeclarations => exact ⟨_, .noDeclarations⟩
  | moreDeclarations _ _ ih ih' =>
    obtain ⟨_, hd⟩ := ih
    obtain ⟨_, hd'⟩ := ih'
    exact ⟨_, .moreDeclarations hd hd'⟩
  | function named opened listed closed entered _ left ih =>
    obtain ⟨_, hd⟩ := ih
    exact ⟨_, .function named opened listed closed entered hd left⟩
  | noFunctions => exact ⟨_, .noFunctions⟩
  | moreFunctions _ _ ih ih' =>
    obtain ⟨_, hd⟩ := ih
    obtain ⟨_, hd'⟩ := ih'
    exact ⟨_, .moreFunctions hd hd'⟩

/-! ## Acceptance -/

/-- A derivation in the style `nearest` has one tree and one count of occurrences. -/
theorem Program.unique {trees trees' : List Stmt} {m' : Nat} (h : Program .nearest n w trees m)
    (h' : Program .nearest n w trees' m') : trees = trees' ∧ m = m' := by
  have he := (program_of_derives ⟨.endOfInput, "", 0⟩ h).symm.trans
    (program_of_derives _ h')
  injection he with ht _ hm
  exact ⟨ht, hm⟩

/-- The tokens that a parse reads: those before the first end of input. -/
def readable (tokens : List Token) : List Token := tokens.takeWhile (·.kind ≠ .endOfInput)

/-- What is read without a fault is derivable in either style. -/
theorem program_of_parse (style : DanglingElse) {tokens : List Token}
    (h : (parse tokens n).faults = []) :
    Program style n (readable tokens) (parse tokens n).statements (parse tokens n).nextId :=
  derives_program h

theorem parse_of_program {tokens : List Token} {trees : List Stmt}
    (h : Program .nearest n (readable tokens) trees m) : parse tokens n = ⟨trees, [], m⟩ :=
  program_of_derives _ h

/-- The tokens up to the first end of input have a derivation of `program` exactly if no fault is
noted, and its tree in the style `nearest` is what they are read as. -/
theorem parse_exact (tokens : List Token) (n : Nat) :
    ((parse tokens n).faults = [] ↔ ∃ trees m, Program .any n (readable tokens) trees m) ∧
    ∀ trees m, Program .nearest n (readable tokens) trees m ↔
      (parse tokens n).faults = [] ∧ (parse tokens n).statements = trees ∧
        (parse tokens n).nextId = m := by
  refine ⟨⟨fun h => ⟨_, _, program_of_parse .any h⟩, ?_⟩, fun trees m => ⟨?_, ?_⟩⟩
  · rintro ⟨trees, m, h⟩
    obtain ⟨trees', h'⟩ := Derives.rebalances h
    rw [parse_of_program h']
  · intro h
    rw [parse_of_program h]
    exact ⟨rfl, rfl, rfl⟩
  · rintro ⟨h, rfl, rfl⟩
    exact program_of_parse .nearest h

end Lox.Grammar
