import Lox.Machine

/-!
# One step of the machine

An expression or statement either has its result at once or hands its first part over and
waits. A result goes to whatever waits first. A fault undoes what waits, one at a time; blocks
and calls that it leaves give back the environment and the call depth they found.
-/
namespace Lox

/-- How deep calls may nest. -/
def maxDepth : Nat := 16384

def Control.ofExcept : Except Fault Value → Control
  | .ok v => .value v
  | .error f => .failed f

def Control.fault (cause : RuntimeCause) (blamed : Token) : Control :=
  .failed (.runtime cause blamed.line)

/-! ## Operators -/

/-- A binary operator on two values. -/
def binary (operator : Token) (left right : Value) : Control :=
  match operator.kind with
  | .symbol .plus =>
    match left, right with
    | .number a, .number b => .value (.number (a + b))
    | .string a, .string b => .value (.string (a ++ b))
    | _, _ => .fault .operandsNotAddable operator
  | .symbol .equalEqual => .value (.bool (left.equal right))
  | .symbol .bangEqual => .value (.bool !(left.equal right))
  | kind =>
    match left, right with
    | .number a, .number b =>
      match kind with
      | .symbol .minus => .value (.number (a - b))
      | .symbol .star => .value (.number (a * b))
      | .symbol .slash => .value (.number (a / b))
      | .symbol .greater => .value (.bool (a > b))
      | .symbol .greaterEqual => .value (.bool (a ≥ b))
      | .symbol .less => .value (.bool (a < b))
      | .symbol .lessEqual => .value (.bool (a ≤ b))
      | _ => .fault .binaryOperator operator
    | _, _ => .fault .operandsNotNumbers operator

def unary (operator : Token) (right : Value) : Control :=
  match operator.kind with
  | .symbol .minus =>
    match right with
    | .number a => .value (.number (-a))
    | _ => .fault .operandNotNumber operator
  | .symbol .bang => .value (.bool !right.truthy)
  | _ => .fault .unaryOperator operator

/-- Whether the left operand of `or`, or else of `and`, is already the result. -/
def decides (operator : Token) (left : Value) : Bool :=
  if operator.kind = .keyword .orWord then left.truthy else !left.truthy

/-! ## Properties -/

/-- A property of a value: a field of an instance, or else a method bound to it. -/
def property (object : Value) (name : Token) (pending : List Pending) (σ : State) : Config :=
  match object with
  | .instanceRef i =>
    match σ.store.field? i name.lexeme with
    | some v => ⟨.value v, pending, σ⟩
    | none =>
      match σ.store.instances[i]?.bind (σ.store.findMethod ·.classId name.lexeme) with
      | some method =>
        let (v, store) := σ.store.boundMethod method i
        ⟨.value v, pending, { σ with store }⟩
      | none => ⟨.fault (.undefinedProperty name.lexeme) name, pending, σ⟩
  | _ => ⟨.fault .noProperties name, pending, σ⟩

/-- The class and the receiver of a `super`. The receiver is bound in the scope just within
the one that binds `super`. -/
def superParts (σ : State) (id : Nat) (keyword : Token) : Except Fault (ClassId × InstanceId) :=
  let missing := .runtime (.unresolvedVariable Scope.superName) keyword.line
  match σ.distances[id]? with
  | none => .error missing
  | some distance =>
    match σ.store.getAt σ.current distance keyword with
    | .error f => .error f
    | .ok (.classRef c) =>
      match distance with
      | 0 => .error missing
      | inner + 1 =>
        match σ.store.lookupAt? σ.current inner Scope.thisName with
        | some (.instanceRef i) => .ok (c, i)
        | _ => .error missing
    | .ok _ => .error missing

/-- A method of the superclass, bound to the receiver of the method around it. -/
def superMethod (id : Nat) (keyword method : Token) (pending : List Pending) (σ : State) :
    Config :=
  match superParts σ id keyword with
  | .error f => ⟨.failed f, pending, σ⟩
  | .ok (c, i) =>
    match σ.store.findMethod c method.lexeme with
    | some found =>
      let (v, store) := σ.store.boundMethod found i
      ⟨.value v, pending, { σ with store }⟩
    | none => ⟨.fault (.undefinedProperty method.lexeme) method, pending, σ⟩

/-! ## Calls -/

def parameterBindings (params : List Token) (arguments : List Value) : Bindings Value :=
  (params.zip arguments).foldl (fun b pair => b.insert pair.1.lexeme pair.2) .empty

/-- Starts the body of a function, one call deeper, in an environment of its parameters. -/
def enterBody (closure : Closure) (arguments : List Value) (pending : List Pending) (σ : State) :
    Config :=
  let caller := σ.current
  let σ := { σ with depth := σ.depth + 1 }
  ⟨.completed .normal, .sequence closure.decl.body :: .body caller closure :: pending,
    σ.enter closure.environment (parameterBindings closure.decl.params arguments)⟩

/-- Makes an instance, and runs the initializer on it if the class has one. -/
def construct (c : ClassId) (arguments : List Value) (pending : List Pending) (σ : State) :
    Config :=
  let made := σ.store.nextInstance
  match σ.store.findMethod c initializerName with
  | none => ⟨.value (.instanceRef made), pending, { σ with store := σ.store.addInstance c }⟩
  | some initializer =>
    let (closure, store) := (σ.store.addInstance c).bind initializer made
    enterBody closure arguments (.construction made :: pending) { σ with store }

/-- Calls what can be called, the checks being passed. -/
def apply (callee : Value) (paren : Token) (arguments : List Value) (pending : List Pending)
    (σ : State) : Config :=
  match callee with
  | .native .clock =>
    ⟨.value (.number (σ.clock.readings σ.clock.taken)), pending,
      { σ with clock := { σ.clock with taken := σ.clock.taken + 1 } }⟩
  | .functionRef id =>
    match σ.store.functions[id]? with
    | some closure => enterBody closure arguments pending σ
    | none => ⟨.fault .notCallable paren, pending, σ⟩
  | .classRef c => construct c arguments pending σ
  | _ => ⟨.fault .notCallable paren, pending, σ⟩

/-- Calls a value. The count of arguments is checked before the depth of calls. -/
def call (callee : Value) (paren : Token) (arguments : List Value) (pending : List Pending)
    (σ : State) : Config :=
  match σ.store.arity? callee with
  | none => ⟨.fault .notCallable paren, pending, σ⟩
  | some arity =>
    if arguments.length ≠ arity then ⟨.fault (.arity arity arguments.length) paren, pending, σ⟩
    else if maxDepth ≤ σ.depth then ⟨.fault .stackOverflow paren, pending, σ⟩
    else apply callee paren arguments pending σ

/-- Evaluates the next argument, or calls when there is none; `before` is reversed. -/
def nextArgument (callee : Value) (paren : Token) (before : List Value) (after : List Expr)
    (pending : List Pending) (σ : State) : Config :=
  match after with
  | [] => call callee paren before.reverse pending σ
  | e :: rest => ⟨.evaluate e, .argument callee paren before rest :: pending, σ⟩

/-- The result of a body: an initializer gives its receiver whatever it returned. -/
def bodyResult (store : Store) (closure : Closure) (completion : Completion) : Value :=
  if closure.isInitializer then (store.local? closure.environment Scope.thisName).getD .nil
  else match completion with
    | .normal => .nil
    | .returned v => v

/-! ## Assignments and declarations -/

/-- Rebinds an occurrence: at its distance if one was found, otherwise globally. -/
def assign (id : Nat) (name : Token) (v : Value) (pending : List Pending) (σ : State) : Config :=
  match σ.distances[id]? with
  | some distance =>
    match σ.store.assignAt σ.current distance name v with
    | .ok store => ⟨.value v, pending, { σ with store }⟩
    | .error f => ⟨.failed f, pending, σ⟩
  | none =>
    match σ.store.assign State.globals name v with
    | .ok store => ⟨.value v, pending, { σ with store }⟩
    | .error f => ⟨.failed f, pending, σ⟩

/-- The methods of a class as closures over one environment; of two with one name the later
counts. -/
def methodTable (environment : EnvironmentId) (methods : List FunctionDecl) : Bindings Closure :=
  methods.foldl
    (fun b decl => b.insert decl.name.lexeme ⟨decl, environment, decl.isInitializer⟩) .empty

/-- Makes a class whose methods close over `environment`, and gives it to its name. -/
def finishClass (name : Token) (parent : Option ClassId) (methods : List FunctionDecl)
    (environment : EnvironmentId) (pending : List Pending) (σ : State) : Config :=
  let made := σ.store.nextClass
  let σ := { σ with
    store := σ.store.addClass ⟨name.lexeme, parent, methodTable environment methods⟩ }
  match σ.store.assign σ.current name (.classRef made) with
  | .ok store => ⟨.completed .normal, pending, { σ with store }⟩
  | .error f => ⟨.failed f, pending, σ⟩

/-- The methods of a derived class have an environment of their own, which binds `super`. -/
def declareClass (name : Token) (parent : Option ClassId) (methods : List FunctionDecl)
    (pending : List Pending) (σ : State) : Config :=
  match parent with
  | none => finishClass name none methods σ.current pending σ
  | some c =>
    let environment := σ.store.nextEnvironment
    let σ := { σ with
      store := σ.store.addEnvironment (some σ.current)
        (Bindings.empty.insert Scope.superName (.classRef c)) }
    finishClass name parent methods environment pending σ

/-- The token blamed for a superclass that is no class. -/
def superclassToken (name : Token) : Expr → Token
  | .var _ parent => parent
  | _ => name

def print (v : Value) (pending : List Pending) (σ : State) : Config :=
  let text := σ.store.display v ++ "\n"
  let (sink, fits) := σ.sink.write text
  ⟨if fits then .completed .normal else .failed (.output .sinkFull), pending, { σ with sink }⟩

/-! ## The step -/

def evaluate (e : Expr) (pending : List Pending) (σ : State) : Config :=
  match e with
  | .assign id name value => ⟨.evaluate value, .assignment id name :: pending, σ⟩
  | .binary left operator right => ⟨.evaluate left, .rightOperand operator right :: pending, σ⟩
  | .call callee paren arguments => ⟨.evaluate callee, .callee paren arguments :: pending, σ⟩
  | .get object name => ⟨.evaluate object, .property name :: pending, σ⟩
  | .grouping inner => ⟨.evaluate inner, pending, σ⟩
  | .literal value => ⟨.value (.ofLiteral value), pending, σ⟩
  | .logical left operator right => ⟨.evaluate left, .decision operator right :: pending, σ⟩
  | .set object name value => ⟨.evaluate object, .target name value :: pending, σ⟩
  | .superRef id keyword method => superMethod id keyword method pending σ
  | .thisRef id keyword => ⟨.ofExcept (σ.lookup id keyword), pending, σ⟩
  | .unary operator right => ⟨.evaluate right, .negation operator :: pending, σ⟩
  | .var id name => ⟨.ofExcept (σ.lookup id name), pending, σ⟩

def execute (s : Stmt) (pending : List Pending) (σ : State) : Config :=
  match s with
  | .block body =>
    ⟨.completed .normal, .sequence body :: .restoration σ.current :: pending,
      σ.enter σ.current .empty⟩
  | .classDecl name parent methods =>
    let σ := σ.define name.lexeme .nil
    match parent with
    | none => declareClass name none methods pending σ
    | some e => ⟨.evaluate e, .superclass name e methods :: pending, σ⟩
  | .expression value => ⟨.evaluate value, .discard :: pending, σ⟩
  | .functionDecl decl =>
    let made := σ.store.nextFunction
    let σ := { σ with store := σ.store.addFunction ⟨decl, σ.current, false⟩ }
    ⟨.completed .normal, pending, σ.define decl.name.lexeme (.functionRef made)⟩
  | .ifElse condition thenBranch elseBranch =>
    ⟨.evaluate condition, .branch thenBranch elseBranch :: pending, σ⟩
  | .print value => ⟨.evaluate value, .printing :: pending, σ⟩
  | .returnWith _ none => ⟨.completed (.returned .nil), pending, σ⟩
  | .returnWith _ (some value) => ⟨.evaluate value, .returning :: pending, σ⟩
  | .varDecl name none => ⟨.completed .normal, pending, σ.define name.lexeme .nil⟩
  | .varDecl name (some value) => ⟨.evaluate value, .definition name :: pending, σ⟩
  | .whileLoop condition body => ⟨.evaluate condition, .loopTest condition body :: pending, σ⟩

/-- Gives a value to what waits first. What waits for a completion stays. -/
def resume (v : Value) (first : Pending) (pending : List Pending) (σ : State) : Config :=
  match first with
  | .assignment id name => assign id name v pending σ
  | .rightOperand operator right => ⟨.evaluate right, .operation v operator :: pending, σ⟩
  | .operation left operator => ⟨binary operator left v, pending, σ⟩
  | .callee paren arguments => nextArgument v paren [] arguments pending σ
  | .argument callee paren before after => nextArgument callee paren (v :: before) after pending σ
  | .property name => property v name pending σ
  | .decision operator right =>
    if decides operator v then ⟨.value v, pending, σ⟩ else ⟨.evaluate right, pending, σ⟩
  | .target name value =>
    match v with
    | .instanceRef i => ⟨.evaluate value, .field i name :: pending, σ⟩
    | _ => ⟨.fault .noFields name, pending, σ⟩
  | .field i name =>
    ⟨.value v, pending, { σ with store := σ.store.setField i name.lexeme v }⟩
  | .negation operator => ⟨unary operator v, pending, σ⟩
  | .discard => ⟨.completed .normal, pending, σ⟩
  | .branch thenBranch elseBranch =>
    if v.truthy then ⟨.execute thenBranch, pending, σ⟩
    else match elseBranch with
      | some other => ⟨.execute other, pending, σ⟩
      | none => ⟨.completed .normal, pending, σ⟩
  | .printing => print v pending σ
  | .returning => ⟨.completed (.returned v), pending, σ⟩
  | .definition name => ⟨.completed .normal, pending, σ.define name.lexeme v⟩
  | .superclass name expression methods =>
    match v with
    | .classRef c => declareClass name (some c) methods pending σ
    | _ => ⟨.fault .superclassNotClass (superclassToken name expression), pending, σ⟩
  | .construction i => ⟨.value (.instanceRef i), pending, σ⟩
  | .loopTest condition body =>
    if v.truthy then ⟨.execute body, .loopBody condition body :: pending, σ⟩
    else ⟨.completed .normal, pending, σ⟩
  | other => ⟨.value v, other :: pending, σ⟩

/-- Gives a completion to what waits first. A return passes over the rest of its body; at the
top of a program it is ignored. What waits for a value stays. -/
def proceed (c : Completion) (first : Pending) (pending : List Pending) (σ : State) : Config :=
  match first with
  | .loopBody condition body =>
    match c with
    | .normal => ⟨.evaluate condition, .loopTest condition body :: pending, σ⟩
    | .returned _ => ⟨.completed c, pending, σ⟩
  | .sequence rest =>
    match c, rest with
    | .normal, s :: rest => ⟨.execute s, .sequence rest :: pending, σ⟩
    | _, _ => ⟨.completed c, pending, σ⟩
  | .program rest =>
    match rest with
    | s :: rest => ⟨.execute s, .program rest :: pending, σ⟩
    | [] => ⟨.completed .normal, pending, σ⟩
  | .restoration environment => ⟨.completed c, pending, { σ with current := environment }⟩
  | .body caller closure =>
    ⟨.value (bodyResult σ.store closure c), pending,
      { σ with current := caller, depth := σ.depth - 1 }⟩
  | other => ⟨.completed c, other :: pending, σ⟩

/-- Undoes what waits first. -/
def unwind (f : Fault) (first : Pending) (pending : List Pending) (σ : State) : Config :=
  match first with
  | .restoration environment => ⟨.failed f, pending, { σ with current := environment }⟩
  | .body caller _ =>
    ⟨.failed f, pending, { σ with current := caller, depth := σ.depth - 1 }⟩
  | _ => ⟨.failed f, pending, σ⟩

/-- A step. A configuration that is finished stays. -/
def Config.step : Config → Config
  | ⟨.evaluate e, pending, σ⟩ => Lox.evaluate e pending σ
  | ⟨.execute s, pending, σ⟩ => Lox.execute s pending σ
  | ⟨.value v, first :: pending, σ⟩ => resume v first pending σ
  | ⟨.completed c, first :: pending, σ⟩ => proceed c first pending σ
  | ⟨.failed f, first :: pending, σ⟩ => unwind f first pending σ
  | ⟨control, [], σ⟩ => ⟨control, [], σ⟩

end Lox
