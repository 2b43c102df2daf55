import Lox.Proofs.Scope.Positions

/-!
# The rules of scoping

Each rule is said of a mark and the text before it: what encloses the position and what is declared
there. The walk over a program that was read reports every violation once, in its order, and
nothing else.
-/
namespace Lox.Scope

/-- What is wrong with a mark, given the text before it. -/
def Mark.violations (before : List Mark) : Mark → List Fault
  | declares name =>
    if Declared before 0 name.lexeme then [.scope .alreadyDeclared name] else []
  | reads _ name =>
    if Initializing before name.lexeme then [.scope .readInOwnInitializer name] else []
  | this _ keyword =>
    if Inside ScopeKind.class? before then [] else [.scope .thisOutsideClass keyword]
  | super _ keyword =>
    (if Inside ScopeKind.class? before then [] else [.scope .superOutsideClass keyword]) ++
      if Innermost ScopeKind.class? before .base then [.scope .superWithoutSuperclass keyword] else []
  | returns keyword valued =>
    (if Inside ScopeKind.function? before then [] else [.scope .returnOutsideFunction keyword]) ++
      if valued = true ∧ Innermost ScopeKind.function? before .initializer then
        [.scope .valueFromInitializer keyword]
      else []
  | inherits name parent =>
    if parent.lexeme = name.lexeme then [.scope .inheritsFromItself parent] else []
  | _ => []

/-- The violations along a text, which goes on from earlier text. -/
def violationsFrom (before : List Mark) : List Mark → List Fault
  | [] => []
  | mark :: text => mark.violations before ++ violationsFrom (before ++ [mark]) text

/-- All violations in a text, in its order. -/
def violations (text : List Mark) : List Fault := violationsFrom [] text

theorem faults_ite (c : Prop) [Decidable c] (a b : Report) :
    (if c then a else b).faults = if c then a.faults else b.faults := by
  split <;> rfl

variable {before : List Mark}

theorem has_iff {name : String} : (place before).has name = true ↔ Declared before 0 name := by
  rw [← declared_iff, Place.has, Place.At]
  cases (place before).frames <;> simp

theorem class?_eq_none_iff : (place before).class? = none ↔ ¬ Inside ScopeKind.class? before :=
  findSome?_eq_none_iff

theorem class?_eq_some_iff {kind : ClassKind} :
    (place before).class? = some kind ↔ Innermost ScopeKind.class? before kind :=
  findSome?_eq_some_iff

theorem function?_eq_none_iff :
    (place before).function? = none ↔ ¬ Inside ScopeKind.function? before :=
  findSome?_eq_none_iff

theorem function?_eq_some_iff {kind : FunctionKind} :
    (place before).function? = some kind ↔ Innermost ScopeKind.function? before kind :=
  findSome?_eq_some_iff

/-- At a mark exactly its violations are found. -/
theorem faults_report (before : List Mark) (mark : Mark) :
    ((place before).report mark).faults = mark.violations before := by
  cases mark with
  | declares name => simp [Place.report, Mark.violations, faults_ite, has_iff]
  | reads id name =>
    simp [Place.report, Mark.violations, faults_ite, initializing_iff, Place.occurrence]
  | this id keyword =>
    cases h : (place before).class? with
    | none => simp [Place.report, Mark.violations, h, class?_eq_none_iff.mp h]
    | some kind =>
      have inside := (class?_eq_some_iff.mp h).inside
      simp [Place.report, Mark.violations, h, inside, Place.occurrence]
  | super id keyword =>
    simp only [Mark.violations, ← class?_eq_some_iff]
    cases h : (place before).class? with
    | none => simp [Place.report, h, class?_eq_none_iff.mp h]
    | some kind =>
      have inside := (class?_eq_some_iff.mp h).inside
      cases kind <;> simp [Place.report, h, inside, Place.occurrence]
  | returns keyword valued =>
    simp [Place.report, Mark.violations, faults_ite, function?_eq_none_iff, function?_eq_some_iff]
  | inherits name parent => simp [Place.report, Mark.violations, faults_ite]
  | assigns | opens | closes | provides | initializes | initialized => rfl

end Lox.Scope

namespace Lox

end Lox
