import Lox.Proofs.Machine.LoopFree
import Lox.Proofs.Machine.Output
import Mathlib.Data.DFinsupp.WellFounded

/-!
# Runs that end

The calls in progress divide all that waits into levels, and the weight of a level counts the code
that is done or waits on it. A step makes one level lighter and leaves those below it as they are.
For most steps this is the level of the body that goes on. A call takes up a body of any size, but on
a new level, and makes the level of the caller lighter. There are no more levels than calls may
nest, so a run without loops comes to an end.
-/
namespace Lox

/-! ## What waits for what -/

inductive ResultKind where
  | value
  | completion
  deriving DecidableEq

/-- What a result that is waited for has to be. -/
def Pending.takes : Pending → ResultKind
  | .loopBody _ _ => .completion
  | .sequence _ => .completion
  | .program _ => .completion
  | .restoration _ => .completion
  | .body _ _ => .completion
  | _ => .value

/-- What it is turned into. -/
def Pending.gives : Pending → ResultKind
  | .discard => .completion
  | .branch _ _ => .completion
  | .printing => .completion
  | .returning => .completion
  | .definition _ => .completion
  | .superclass _ _ _ => .completion
  | .loopTest _ _ => .completion
  | .loopBody _ _ => .completion
  | .sequence _ => .completion
  | .program _ => .completion
  | .restoration _ => .completion
  | _ => .value

/-- What is done now has such a result, unless it is a fault. -/
def Control.Gives (kind : ResultKind) : Control → Prop
  | .evaluate _ => kind = .value
  | .value _ => kind = .value
  | .execute _ => kind = .completion
  | .completed _ => kind = .completion
  | .failed _ => True

/-- Each waits for a result such as the one before it gives. -/
def Fits (kind : ResultKind) : List Pending → Prop
  | [] => True
  | first :: rest => first.takes = kind ∧ Fits first.gives rest

/-- What is done now has a result such as is waited for. -/
def Config.Fitting (c : Config) : Prop :=
  (∃ f, c.control = .failed f) ∨ ∃ kind, c.control.Gives kind ∧ Fits kind c.pending

/-! ## Weights -/

/-- Four times the size of the code, so that each of its nodes weighs more than what comes to wait
in its place. -/
noncomputable def Control.weight : Control → Nat
  | .evaluate e => 4 * sizeOf e
  | .execute s => 4 * sizeOf s
  | _ => 0

noncomputable def Pending.weight : Pending → Nat
  | .rightOperand _ right => 4 * sizeOf right + 2
  | .callee _ arguments => 4 * sizeOf arguments + 3
  | .argument _ _ _ after => 4 * sizeOf after + 3
  | .decision _ right => 4 * sizeOf right + 1
  | .target _ value => 4 * sizeOf value + 2
  | .branch thenBranch elseBranch => 4 * sizeOf thenBranch + 4 * sizeOf elseBranch + 1
  | .sequence rest => 4 * sizeOf rest + 1
  | .program rest => 4 * sizeOf rest + 1
  | _ => 1

/-- The weight of what waits on a level, that is, with so many calls in progress outwards. -/
noncomputable def waitingWeight (level : Nat) : List Pending → Nat
  | [] => 0
  | first :: rest => (if calls rest = level then first.weight else 0) + waitingWeight level rest

noncomputable def Config.weight (c : Config) (level : Nat) : Nat :=
  (if calls c.pending = level then c.control.weight else 0) + waitingWeight level c.pending

/-- The levels below what waits are as they were, on its level no more than `bound` is added, and
what waits gets such a result as it takes. -/
structure Config.Adds (pending : List Pending) (kind : ResultKind) (bound : Nat) (c : Config) :
    Prop where
  below : ∀ level < calls pending, c.weight level = waitingWeight level pending
  here : c.weight (calls pending) ≤ bound + waitingWeight (calls pending) pending
  fitting : Fits kind pending → c.Fitting

variable {pending : List Pending} {kind : ResultKind} {bound : Nat} {σ : State}

namespace Config.Adds

theorem mono {c : Config} {more : Nat} (h : c.Adds pending kind bound) (le : bound ≤ more) :
    c.Adds pending kind more :=
  { h with here := Nat.le_trans h.here (Nat.add_le_add_right le _) }

/-- A result, or code for one. -/
theorem control {control : Control} (gives : control.Gives kind) (light : control.weight ≤ bound) :
    Config.Adds pending kind bound ⟨control, pending, σ⟩ where
  below level lower := by
    have other : calls pending ≠ level := Nat.ne_of_gt lower
    simp [weight, other]
  here := by
    simp only [weight, if_true]
    omega
  fitting fits := .inr ⟨kind, gives, fits⟩

/-- Something more waits on the same level. -/
theorem waits {first : Pending} {c : Config} (h : c.Adds (first :: pending) first.takes bound)
    (gives : first.gives = kind) (inside : calls (first :: pending) = calls pending) {more : Nat}
    (light : bound + first.weight ≤ more) : c.Adds pending kind more where
  below level lower := by
    have other : calls pending ≠ level := Nat.ne_of_gt lower
    rw [h.below level (inside ▸ lower), waitingWeight, if_neg other, Nat.zero_add]
  here := by
    have here := h.here
    rw [inside, waitingWeight, if_pos rfl] at here
    omega
  fitting fits := h.fitting ⟨rfl, gives ▸ fits⟩

end Config.Adds

/-! ## What each operation adds -/

open Config (Adds)

theorem adds_property (object : Value) (name : Token) :
    (property object name pending σ).Adds pending .value 0 := by
  unfold property Control.fault
  (repeat' split) <;> exact .control (by first | rfl | trivial) (Nat.le_refl 0)

theorem adds_superMethod (id : Nat) (keyword method : Token) :
    (superMethod id keyword method pending σ).Adds pending .value 0 := by
  unfold superMethod Control.fault
  (repeat' split) <;> exact .control (by first | rfl | trivial) (Nat.le_refl 0)

/-- The body is on a new level, and only its end is on that of the caller. -/
theorem adds_enterBody (closure : Closure) (arguments : List Value) :
    (enterBody closure arguments pending σ).Adds pending .value 1 where
  below level lower := by
    have other : calls pending ≠ level := Nat.ne_of_gt lower
    have above : calls pending + 1 ≠ level := by omega
    simp [enterBody, Config.weight, waitingWeight, calls, other, above]
  here := by
    simp [enterBody, Config.weight, waitingWeight, calls, Pending.weight]
  fitting fits := .inr ⟨.completion, rfl, rfl, rfl, fits⟩

theorem adds_construct (k : ClassId) (arguments : List Value) :
    (construct k arguments pending σ).Adds pending .value 2 := by
  unfold construct
  split
  · exact .control rfl (Nat.zero_le 2)
  · have entered (closure : Closure) (τ : State) :
        (enterBody closure arguments (.construction σ.store.nextInstance :: pending) τ).Adds
          (.construction σ.store.nextInstance :: pending) .value 1 := adds_enterBody _ _
    exact (entered _ _).waits rfl rfl (Nat.le_refl 2)

theorem adds_call (callee : Value) (paren : Token) (arguments : List Value) :
    (call callee paren arguments pending σ).Adds pending .value 2 := by
  have fault (cause : RuntimeCause) :
      Adds pending .value 2 ⟨.fault cause paren, pending, σ⟩ := .control trivial (Nat.zero_le 2)
  unfold call apply
  (repeat' split) <;> first
    | exact fault _
    | exact .control rfl (Nat.zero_le 2)
    | exact adds_construct _ _
    | exact (adds_enterBody _ _).mono (Nat.le_succ 1)

theorem adds_nextArgument (callee : Value) (paren : Token) (before : List Value)
    (after : List Expr) :
    (nextArgument callee paren before after pending σ).Adds pending .value
      (4 * sizeOf after + 2) := by
  cases after with
  | nil => exact (adds_call _ _ _).mono (by omega)
  | cons e rest =>
    have evaluated : Adds (.argument callee paren before rest :: pending) .value (4 * sizeOf e)
        ⟨.evaluate e, .argument callee paren before rest :: pending, σ⟩ :=
      .control rfl (Nat.le_refl _)
    refine evaluated.waits rfl rfl ?_
    simp only [Pending.weight, List.cons.sizeOf_spec]
    omega

theorem adds_assign (id : Nat) (name : Token) (v : Value) :
    (assign id name v pending σ).Adds pending .value 0 := by
  unfold assign
  (repeat' split) <;> exact .control (by first | rfl | trivial) (Nat.le_refl 0)

theorem adds_finishClass (name : Token) (parent : Option ClassId) (methods : List FunctionDecl)
    (environment : EnvironmentId) :
    (finishClass name parent methods environment pending σ).Adds pending .completion 0 := by
  unfold finishClass
  simp only
  split <;> exact .control (by first | rfl | trivial) (Nat.le_refl 0)

theorem adds_declareClass (name : Token) (parent : Option ClassId) (methods : List FunctionDecl) :
    (declareClass name parent methods pending σ).Adds pending .completion 0 := by
  cases parent <;> exact adds_finishClass _ _ _ _

/-- Code that goes on with a part of it, and something that waits for the result of this part. -/
theorem Config.Adds.enters {first : Pending} {control : Control} (gives : control.Gives first.takes)
    (next : first.gives = kind) (inside : calls (first :: pending) = calls pending)
    (light : control.weight + first.weight ≤ bound) :
    Adds pending kind bound ⟨control, first :: pending, σ⟩ :=
  (Adds.control gives (Nat.le_refl _)).waits next inside light

theorem adds_evaluate (e : Expr) :
    (evaluate e pending σ).Adds pending .value (4 * sizeOf e - 1) := by
  have looked (id : Nat) (name : Token) :
      Adds pending .value 0 ⟨.ofExcept (σ.lookup id name), pending, σ⟩ := by
    cases σ.lookup id name <;> exact .control (by first | rfl | trivial) (Nat.le_refl 0)
  cases e with
  | superRef id keyword method => exact (adds_superMethod _ _ _).mono (Nat.zero_le _)
  | thisRef id keyword => exact (looked id keyword).mono (Nat.zero_le _)
  | var id name => exact (looked id name).mono (Nat.zero_le _)
  | literal value => exact .control rfl (Nat.zero_le _)
  | grouping inner =>
    refine .control rfl ?_
    simp only [Control.weight, Expr.grouping.sizeOf_spec]
    omega
  | assign | binary | call | get | logical | set | unary =>
    refine .enters rfl rfl rfl ?_
    simp only [Control.weight, Pending.weight, Expr.assign.sizeOf_spec, Expr.binary.sizeOf_spec,
      Expr.call.sizeOf_spec, Expr.get.sizeOf_spec, Expr.logical.sizeOf_spec, Expr.set.sizeOf_spec,
      Expr.unary.sizeOf_spec]
    omega

theorem adds_execute {s : Stmt} (straight : s.loopFree = true) :
    (execute s pending σ).Adds pending .completion (4 * sizeOf s - 1) := by
  cases s with
  | whileLoop condition body => cases straight
  | classDecl name parent methods =>
    cases parent with
    | none =>
      have declared : (declareClass name none methods pending (σ.define name.lexeme .nil)).Adds
        pending .completion 0 := adds_declareClass _ _ _
      exact declared.mono (Nat.zero_le _)
    | some e =>
      refine .enters rfl rfl rfl ?_
      simp [Control.weight, Pending.weight]
      omega
  | functionDecl decl => exact .control rfl (Nat.zero_le _)
  | block body =>
    have inner : Adds (.restoration σ.current :: pending) .completion (4 * sizeOf body + 1)
        (execute (.block body) pending σ) :=
      .enters rfl rfl rfl (by simp [Control.weight, Pending.weight])
    refine inner.waits rfl rfl ?_
    simp [Pending.weight]
    omega
  | returnWith keyword value =>
    cases value with
    | none => exact .control rfl (Nat.zero_le _)
    | some e =>
      refine .enters rfl rfl rfl ?_
      simp [Control.weight, Pending.weight]
      omega
  | varDecl name value =>
    cases value with
    | none => exact .control rfl (Nat.zero_le _)
    | some e =>
      refine .enters rfl rfl rfl ?_
      simp [Control.weight, Pending.weight]
      omega
  | expression | ifElse | print =>
    refine .enters rfl rfl rfl ?_
    simp [Control.weight, Pending.weight]
    omega

theorem binary_gives (operator : Token) (left right : Value) :
    (binary operator left right).Gives .value ∧ (binary operator left right).weight = 0 := by
  unfold binary Control.fault
  (repeat' split) <;> exact ⟨by first | rfl | trivial, rfl⟩

theorem unary_gives (operator : Token) (right : Value) :
    (unary operator right).Gives .value ∧ (unary operator right).weight = 0 := by
  unfold unary Control.fault
  (repeat' split) <;> exact ⟨by first | rfl | trivial, rfl⟩

/-- A value is given to what waits for one. -/
theorem adds_resume (v : Value) {first : Pending} (takes : first.takes = .value)
    (straight : ∀ p ∈ first.parts, p.loopFree = true) :
    (resume v first pending σ).Adds pending first.gives (first.weight - 1) := by
  cases first with
  | loopBody | sequence | program | restoration | body => cases takes
  | loopTest condition body => cases straight _ List.mem_cons_self
  | assignment id name => exact adds_assign _ _ _
  | operation left operator =>
    obtain ⟨gives, light⟩ := binary_gives operator left v
    exact .control gives (Nat.le_of_eq light)
  | negation operator =>
    obtain ⟨gives, light⟩ := unary_gives operator v
    exact .control gives (Nat.le_of_eq light)
  | callee paren arguments => exact adds_nextArgument _ _ _ _
  | argument callee paren before after => exact adds_nextArgument _ _ _ _
  | property name => exact adds_property _ _
  | superclass name expression methods =>
    cases v with
    | classRef k => exact adds_declareClass name (some k) methods
    | _ => exact .control trivial (Nat.le_refl 0)
  | target name value =>
    cases v with
    | instanceRef i => exact .enters rfl rfl rfl (Nat.le_refl _)
    | _ => exact .control trivial (Nat.zero_le _)
  | rightOperand operator right => exact .enters rfl rfl rfl (Nat.le_refl _)
  | decision operator right =>
    simp only [resume]
    split
    · exact .control rfl (Nat.zero_le _)
    · exact .control rfl (Nat.le_refl _)
  | branch thenBranch elseBranch =>
    simp only [resume]
    split
    · refine .control rfl ?_
      simp only [Control.weight, Pending.weight]
      omega
    · cases elseBranch with
      | some other =>
        refine .control rfl ?_
        simp only [Control.weight, Pending.weight, Option.some.sizeOf_spec]
        omega
      | none => exact .control rfl (Nat.zero_le _)
  | printing =>
    unfold resume print
    simp only
    split <;> exact .control (by first | rfl | trivial) (Nat.le_refl 0)
  | field | discard | returning | definition | construction => exact .control rfl (Nat.le_refl 0)

/-- A completion is given to what waits for one. -/
theorem adds_proceed (c : Completion) {first : Pending} (takes : first.takes = .completion)
    (straight : ∀ p ∈ first.parts, p.loopFree = true) :
    (proceed c first pending σ).Adds pending first.gives (first.weight - 1) := by
  cases first with
  | loopBody condition body => cases straight _ List.mem_cons_self
  | sequence statements =>
    cases c with
    | returned v => exact .control rfl (Nat.zero_le _)
    | normal =>
      cases statements with
      | nil => exact .control rfl (Nat.zero_le _)
      | cons s statements =>
        refine .enters rfl rfl rfl ?_
        simp only [Control.weight, Pending.weight, List.cons.sizeOf_spec]
        omega
  | program statements =>
    cases statements with
    | nil => exact .control rfl (Nat.zero_le _)
    | cons s statements =>
      refine .enters rfl rfl rfl ?_
      simp only [Control.weight, Pending.weight, List.cons.sizeOf_spec]
      omega
  | restoration | body => exact .control rfl (Nat.le_refl 0)
  | _ => cases takes

theorem adds_unwind (f : Fault) (first : Pending) :
    (unwind f first pending σ).Adds pending kind 0 := by
  unfold unwind
  split <;> exact .control trivial (Nat.le_refl 0)

/-! ## Steps -/

namespace Config

/-- Some level is lighter, and those below it are the same. -/
def Below (c c' : Config) : Prop :=
  ∃ level ≤ maxDepth, (∀ lower < level, c.weight lower = c'.weight lower) ∧
    c.weight level < c'.weight level

/-- A run may not go below itself forever. -/
theorem wellFounded_below : WellFounded Below := by
  let levels (c : Config) (level : Fin (maxDepth + 1)) : Nat := c.weight level
  have lexicographic : WellFounded (Pi.Lex (· < ·) fun {_ : Fin (maxDepth + 1)} => (· < · : Nat → Nat → Prop)) :=
    Pi.Lex.wellFounded _ fun _ => Nat.lt_wfRel.wf
  refine Subrelation.wf ?_ (InvImage.wf levels lexicographic)
  rintro c c' ⟨level, bounded, same, lighter⟩
  exact ⟨⟨level, Nat.lt_succ_of_le bounded⟩, fun lower lt => same lower lt, lighter⟩

variable {c : Config}

/-- A step that adds less than the weight of what it does. -/
theorem Adds.below_of_weight (h : c.Adds pending kind bound) (shallow : calls pending ≤ maxDepth)
    {c' : Config} {done : Nat} (heavier : bound < done) (weighs : ∀ level, c'.weight level =
      (if calls pending = level then done else 0) + waitingWeight level pending) : c.Below c' := by
  refine ⟨calls pending, shallow, fun level lower => ?_, ?_⟩
  · rw [h.below level lower, weighs, if_neg (Nat.ne_of_gt lower), Nat.zero_add]
  · have here := h.here
    rw [weighs, if_pos rfl]
    omega

/-- A result weighs nothing, only what waits for it. -/
theorem weight_result {control : Control} (result : control.weight = 0) (first : Pending)
    (pending : List Pending) (σ : State) (level : Nat) :
    (Config.mk control (first :: pending) σ).weight level =
      (if calls pending = level then first.weight else 0) + waitingWeight level pending := by
  simp [weight, result, waitingWeight]

end Config

theorem Expr.weight_pos (e : Expr) : 4 * sizeOf e - 1 < (Control.evaluate e).weight := by
  have positive : 0 < sizeOf e := by cases e <;> simp
  simp only [Control.weight]
  omega

theorem Stmt.weight_pos (s : Stmt) : 4 * sizeOf s - 1 < (Control.execute s).weight := by
  have positive : 0 < sizeOf s := by cases s <;> simp
  simp only [Control.weight]
  omega

theorem Pending.weight_pos (first : Pending) : 0 < first.weight := by
  cases first <;> simp [Pending.weight]

theorem calls_le (first : Pending) (pending : List Pending) :
    calls pending ≤ calls (first :: pending) := by
  cases first <;> simp [calls]

namespace Config

variable {c : Config}

/-- A step without loops goes below, and its result is such as is waited for. -/
theorem step_below (unfinished : c.finished = false) (fitting : c.Fitting)
    (straight : ∀ x ∈ c.parts, x.2.loopFree = true) (shallow : calls c.pending ≤ maxDepth) :
    c.step.Below c ∧ c.step.Fitting := by
  obtain ⟨control, pending, σ⟩ := c
  cases control with
  | evaluate e =>
    obtain ⟨_, ⟨⟩⟩ | ⟨_, rfl, fits⟩ := fitting
    have adds : (evaluate e pending σ).Adds pending .value (4 * sizeOf e - 1) := adds_evaluate e
    exact ⟨adds.below_of_weight shallow e.weight_pos fun _ => rfl, adds.fitting fits⟩
  | execute s =>
    obtain ⟨_, ⟨⟩⟩ | ⟨_, rfl, fits⟩ := fitting
    have free : s.loopFree = true := straight _ (mem_parts_control (List.mem_singleton_self _))
    have adds : (execute s pending σ).Adds pending .completion (4 * sizeOf s - 1) :=
      adds_execute free
    exact ⟨adds.below_of_weight shallow s.weight_pos fun _ => rfl, adds.fitting fits⟩
  | value v =>
    obtain ⟨_, ⟨⟩⟩ | ⟨_, rfl, fits⟩ := fitting
    cases pending with
    | nil => cases unfinished
    | cons first pending =>
      have outer := Nat.le_trans (calls_le first pending) shallow
      have positive := first.weight_pos
      have adds : (resume v first pending σ).Adds pending first.gives (first.weight - 1) :=
        adds_resume v fits.1 fun p hp => straight _ (mem_parts_first hp)
      exact ⟨adds.below_of_weight outer (by omega) (weight_result rfl first pending σ),
        adds.fitting fits.2⟩
  | completed completion =>
    obtain ⟨_, ⟨⟩⟩ | ⟨_, rfl, fits⟩ := fitting
    cases pending with
    | nil => cases unfinished
    | cons first pending =>
      have outer := Nat.le_trans (calls_le first pending) shallow
      have positive := first.weight_pos
      have adds : (proceed completion first pending σ).Adds pending first.gives
          (first.weight - 1) :=
        adds_proceed completion fits.1 fun p hp => straight _ (mem_parts_first hp)
      exact ⟨adds.below_of_weight outer (by omega) (weight_result rfl first pending σ),
        adds.fitting fits.2⟩
  | failed f =>
    cases pending with
    | nil => cases unfinished
    | cons first pending =>
      have outer := Nat.le_trans (calls_le first pending) shallow
      have adds : (unwind f first pending σ).Adds pending .value 0 := adds_unwind f first
      refine ⟨adds.below_of_weight outer first.weight_pos (weight_result rfl first pending σ),
        .inl ⟨f, ?_⟩⟩
      cases first <;> rfl

/-- A run all of which is without loops and within the greatest depth comes to its end. -/
theorem exists_finished (fitting : c.Fitting)
    (straight : ∀ n, ∀ x ∈ (c.run n).parts, x.2.loopFree = true)
    (shallow : ∀ n, calls (c.run n).pending ≤ maxDepth) : ∃ n, (c.run n).finished = true := by
  by_contra endless
  have unfinished (n : Nat) : (c.run n).finished = false :=
    Bool.eq_false_iff.mpr fun done => endless ⟨n, done⟩
  have fits (n : Nat) : (c.run n).Fitting := by
    induction n with
    | zero => exact fitting
    | succ n ih =>
      rw [run_succ]
      exact (step_below (unfinished n) ih (straight n) (shallow n)).2
  have : IsWellFounded Config Below := ⟨wellFounded_below⟩
  obtain ⟨n, rises⟩ := WellFounded.not_rel_apply_succ (r := Below) fun n => c.run n
  rw [run_succ] at rises
  exact rises (step_below (unfinished n) (fits n) (straight n) (shallow n)).1

end Config

/-- A program without loops ends where the functions and methods in reach have no loops either. -/
theorem State.LoopFree.exists_finished {σ : State} (h : σ.LoopFree) (shallow : σ.depth ≤ maxDepth)
    {program : List Stmt} (free : Stmt.allLoopFree program = true) :
    ∃ n, ((σ.interpreting program).run n).finished = true := by
  refine Config.exists_finished (.inr ⟨.completion, rfl, rfl, trivial⟩)
    (fun n => (h.run free n).parts) fun n => ?_
  have balanced := (Task.interpret program).balanced σ (List.replicate n id)
  rw [← Config.run_eq_runThrough] at balanced
  have none : calls [] = 0 := rfl
  have depth := balanced.depth
  have limit := balanced.limit shallow
  show calls (Config.run n ((Task.interpret program).start σ)).pending ≤ maxDepth
  omega

end Lox
