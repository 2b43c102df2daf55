import Lox.Bindings
import Lox.Tree

/-!
# Values

Functions, classes and instances are kept in a store and named here by their place in it, so
two values are the same object exactly when they are equal.
-/
namespace Lox

abbrev EnvironmentId := Nat

abbrev FunctionId := Nat

abbrev ClassId := Nat

abbrev InstanceId := Nat

/-- Functions that are not written in the language. -/
inductive Native where
  | clock
  deriving DecidableEq, Repr

inductive Value where
  | nil
  | bool (value : Bool)
  | number (value : Float)
  | string (text : String)
  | native (function : Native)
  | functionRef (id : FunctionId)
  | classRef (id : ClassId)
  | instanceRef (id : InstanceId)
  deriving DecidableEq, Repr

def Native.name : Native → String
  | .clock => "clock"

def Native.arity : Native → Nat
  | .clock => 0

namespace Value

/-- Only `nil` and `false` are not true. -/
def truthy : Value → Bool
  | nil => false
  | bool value => value
  | _ => true

/-- Values of different types differ, objects are equal only to themselves, and numbers
compare as numbers: NaN differs from itself and the two zeros are equal. -/
def equal : Value → Value → Bool
  | number a, number b => a == b
  | a, b => a = b

def ofLiteral : Literal → Value
  | .nil => nil
  | .bool value => bool value
  | .number value => number value
  | .string text => string text

def typeName : Value → String
  | nil => "nil"
  | bool _ => "bool"
  | number _ => "number"
  | string _ => "string"
  | native _ => "native"
  | functionRef _ => "function"
  | classRef _ => "class"
  | instanceRef _ => "instance"

end Value

/-- How a block or a body ended: by running to its end or by a return. -/
inductive Completion where
  | normal
  | returned (value : Value)
  deriving DecidableEq, Repr

end Lox
