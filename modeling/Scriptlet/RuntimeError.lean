import Scriptlet.Integer

/-!
# Runtime errors

What can go wrong while a program runs. An error holds its cause: the types, operators, names and
numbers involved. Types and operators stand by their names, since a native may report some that
the language does not have. `RuntimeError.message` is the one place where a cause is put into
words.
-/

namespace Scriptlet

inductive RuntimeError where
  /-- An operator between values of two types that do not go together. -/
  | typeMismatch (left op right : String)
  /-- An operator that values of this one type do not have. -/
  | unknownOperator (left op right : String)
  | operandNotSupported (op operand : String)
  | unboundName (name : String)
  | alreadyBound (name : String)
  | constantReassigned (name : String)
  | wrongArgumentCount (callee expected : String) (got : Nat)
  | argumentNotSupported (callee got : String)
  | unusableKey (found : String)
  | indexNotSupported (base position : String)
  | notAFunction (found : String)
  | notIterable (found : String)
  | divisionByZero
  | integerOverflow (left : Integer) (op : String) (right : Integer)
  | negationOverflow (operand : Integer)
  | outputFailed (reason : String)
deriving DecidableEq, Repr

def RuntimeError.message : RuntimeError → String
  | typeMismatch l op r => "type mismatch: " ++ l ++ " " ++ op ++ " " ++ r
  | unknownOperator l op r => "unknown operator: " ++ l ++ " " ++ op ++ " " ++ r
  | operandNotSupported op t => "operator not supported: " ++ op ++ t
  | unboundName x => "identifier not found: " ++ x
  | alreadyBound x => "identifier already assigned: " ++ x
  | constantReassigned x => "cannot reassign constant: " ++ x
  | wrongArgumentCount f expected got =>
    "wrong number of arguments to `" ++ f ++ "`: expected " ++ expected ++ ", got " ++ toString got
  | argumentNotSupported f t => "argument to `" ++ f ++ "` not supported, got " ++ t
  | unusableKey t => "unusable as hash key: " ++ t
  | indexNotSupported b i => "index operator not supported: " ++ b ++ "[" ++ i ++ "]"
  | notAFunction t => "not a function: " ++ t
  | notIterable t => "for loop not supported for: " ++ t
  | divisionByZero => "division by zero"
  | integerOverflow a op b => "integer overflow: " ++ a.text ++ " " ++ op ++ " " ++ b.text
  | negationOverflow n => "integer overflow: -(" ++ n.text ++ ")"
  | outputFailed reason => "output failed: " ++ reason

end Scriptlet
