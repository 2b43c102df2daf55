import Lox.Fault
import Lox.Scope
import Lox.Value

/-!
# The store of environments and objects

Four arrays that only grow. An environment names the one around it and a class its superclass
by an earlier place in the array; `child` and `addClass` are called with such places, and a
walk that meets a later one stops there, so every walk ends.
-/
namespace Lox

structure Environment where
  bindings : Bindings Value
  enclosing : Option EnvironmentId
  deriving Repr

/-- A function together with the environment it was made in. -/
structure Closure where
  decl : FunctionDecl
  environment : EnvironmentId
  isInitializer : Bool

structure ClassObject where
  name : String
  superclass : Option ClassId
  methods : Bindings Closure

structure InstanceObject where
  classId : ClassId
  fields : Bindings Value
  deriving Repr

structure Store where
  environments : Array Environment
  functions : Array Closure
  classes : Array ClassObject
  instances : Array InstanceObject

namespace Store

def empty : Store := ⟨#[], #[], #[], #[]⟩

/-! ## Environments -/

/-- The environment that the next `addEnvironment` makes. -/
def nextEnvironment (σ : Store) : EnvironmentId := σ.environments.size

def addEnvironment (σ : Store) (enclosing : Option EnvironmentId) (bindings : Bindings Value) :
    Store :=
  { σ with environments := σ.environments.push ⟨bindings, enclosing⟩ }

def enclosing? (σ : Store) (e : EnvironmentId) : Option EnvironmentId :=
  σ.environments[e]?.bind Environment.enclosing

/-- The value of a name in one environment, the enclosing ones left aside. -/
def local? (σ : Store) (e : EnvironmentId) (name : String) : Option Value :=
  σ.environments[e]?.bind (·.bindings.get? name)

/-- Binds a name in one environment. -/
def define (σ : Store) (e : EnvironmentId) (name : String) (value : Value) : Store :=
  match σ.environments[e]? with
  | some environment =>
    { σ with
      environments := σ.environments.setIfInBounds e
        { environment with bindings := environment.bindings.insert name value } }
  | none => σ

/-- The nearest environment that binds a name, from `e` outwards. -/
def owner? (σ : Store) (e : EnvironmentId) (name : String) : Option EnvironmentId :=
  match σ.environments[e]? with
  | none => none
  | some environment =>
    if environment.bindings.contains name then some e
    else match environment.enclosing with
      | none => none
      | some outer => if outer < e then σ.owner? outer name else none
termination_by e

/-- The environment so many links outwards. -/
def ancestor? (σ : Store) (e : EnvironmentId) : Nat → Option EnvironmentId
  | 0 => if e < σ.environments.size then some e else none
  | distance + 1 => (σ.enclosing? e).bind (σ.ancestor? · distance)

/-- The value of a name exactly so many links outwards. -/
def lookupAt? (σ : Store) (e : EnvironmentId) (distance : Nat) (name : String) : Option Value :=
  (σ.ancestor? e distance).bind (σ.local? · name)

def undefined (name : Token) : Fault := .runtime (.undefinedVariable name.lexeme) name.line

def unresolved (name : Token) : Fault := .runtime (.unresolvedVariable name.lexeme) name.line

/-- Reads a name from the nearest environment that binds it. -/
def get (σ : Store) (e : EnvironmentId) (name : Token) : Except Fault Value :=
  match (σ.owner? e name.lexeme).bind (σ.local? · name.lexeme) with
  | some value => .ok value
  | none => .error (undefined name)

/-- Rebinds a name in the nearest environment that binds it. -/
@[inline] def assign (σ : Store) (e : EnvironmentId) (name : Token) (value : Value) :
    Except Fault Store :=
  match σ.owner? e name.lexeme with
  | some owner => .ok (σ.define owner name.lexeme value)
  | none => .error (undefined name)

/-- Reads a name exactly so many links outwards. -/
def getAt (σ : Store) (e : EnvironmentId) (distance : Nat) (name : Token) : Except Fault Value :=
  match σ.lookupAt? e distance name.lexeme with
  | some value => .ok value
  | none => .error (unresolved name)

/-- Rebinds a name exactly so many links outwards. -/
@[inline] def assignAt (σ : Store) (e : EnvironmentId) (distance : Nat) (name : Token)
    (value : Value) : Except Fault Store :=
  match (σ.ancestor? e distance).filter fun a => (σ.local? a name.lexeme).isSome with
  | some owner => .ok (σ.define owner name.lexeme value)
  | none => .error (unresolved name)

/-! ## Functions, classes and instances -/

def nextFunction (σ : Store) : FunctionId := σ.functions.size

def addFunction (σ : Store) (closure : Closure) : Store :=
  { σ with functions := σ.functions.push closure }

def nextClass (σ : Store) : ClassId := σ.classes.size

def addClass (σ : Store) (made : ClassObject) : Store :=
  { σ with classes := σ.classes.push made }

def nextInstance (σ : Store) : InstanceId := σ.instances.size

def addInstance (σ : Store) (classId : ClassId) : Store :=
  { σ with instances := σ.instances.push ⟨classId, .empty⟩ }

/-- The nearest definition of a method, from a class upwards. -/
def findMethod (σ : Store) (c : ClassId) (name : String) : Option Closure :=
  match σ.classes[c]? with
  | none => none
  | some made =>
    match made.methods.get? name with
    | some closure => some closure
    | none => match made.superclass with
      | none => none
      | some parent => if parent < c then σ.findMethod parent name else none
termination_by c

def field? (σ : Store) (i : InstanceId) (name : String) : Option Value :=
  σ.instances[i]?.bind (·.fields.get? name)

def setField (σ : Store) (i : InstanceId) (name : String) (value : Value) : Store :=
  match σ.instances[i]? with
  | some object =>
    { σ with
      instances := σ.instances.setIfInBounds i
        { object with fields := object.fields.insert name value } }
  | none => σ

/-- A method on its receiver: the same body in a new environment that binds `this`. -/
def bind (σ : Store) (method : Closure) (receiver : InstanceId) : Closure × Store :=
  ({ method with environment := σ.nextEnvironment },
    σ.addEnvironment (some method.environment)
      (Bindings.empty.insert Scope.thisName (.instanceRef receiver)))

/-- A bound method as a function of its own, different from every other. -/
def boundMethod (σ : Store) (method : Closure) (receiver : InstanceId) : Value × Store :=
  let (closure, σ) := σ.bind method receiver
  (.functionRef σ.nextFunction, σ.addFunction closure)

/-- How many arguments a value takes, if it can be called. A class takes those of its
initializer. -/
def arity? (σ : Store) : Value → Option Nat
  | .native function => some function.arity
  | .functionRef id => σ.functions[id]?.map (·.decl.params.length)
  | .classRef id =>
    some (((σ.findMethod id initializerName).map (·.decl.params.length)).getD 0)
  | _ => none

def className (σ : Store) (c : ClassId) : String := (σ.classes[c]?.map ClassObject.name).getD ""

/-- A value as it is printed. -/
def display (σ : Store) : Value → String
  | .nil => "nil"
  | .bool true => "true"
  | .bool false => "false"
  | .number value => Numeral.display value
  | .string text => text
  | .native _ => "<native fn>"
  | .functionRef id =>
    "<fn " ++ ((σ.functions[id]?.map (·.decl.name.lexeme)).getD "") ++ ">"
  | .classRef id => "LoxClass(" ++ σ.className id ++ ")"
  | .instanceRef id =>
    "LoxInstance(" ++ ((σ.instances[id]?.map (σ.className ·.classId)).getD "") ++ ")"

end Store

end Lox
